import TracedIndex.Json.Reader

/-!
# Arrays and objects

Readers for the parts between brackets. What the elements of an array and the members of an object
are is left to the readers of those.

* `readArray` reads the elements of an array, `readObject` the members of an object, both from
  behind the opening bracket;
* `nextElement` and `endArray` read an array whose elements are known one by one.
-/

namespace TracedIndex.Json

variable {α κ σ : Type}

/-! ## Arrays -/

/-- Reads elements up to the closing bracket, at least one and at most `steps` of them. -/
def readElements (element : Reader α) (fuel steps : Nat) (text : List Char) :
    Except Defect (List α × List Char) :=
  match steps with
  | 0 => .error .truncated
  | steps + 1 => do
    let (x, text) ← element fuel text
    match skipSpace text with
    | [] => throw .truncated
    | c :: text =>
      if c = ']' then pure ([x], text)
      else if c = ',' then
        let (xs, text) ← readElements element fuel steps text
        pure (x :: xs, text)
      else throw .malformed

/-- Reads the elements of an array from behind its opening bracket. -/
def readArray (element : Reader α) : Reader (List α) := fun fuel text =>
  match skipSpace text with
  | [] => .error .truncated
  | c :: rest =>
    if c = ']' then .ok ([], rest) else readElements element fuel fuel (c :: rest)

/-- Reads an element that an array must have, and the comma before it unless it is the first. -/
def nextElement (first : Bool) (element : Reader α) : Reader α := fun fuel text =>
  match skipSpace text with
  | [] => .error .truncated
  | c :: rest =>
    if c = ']' then .error .mismatched
    else if first then element fuel (c :: rest)
    else if c = ',' then element fuel rest
    else .error .malformed

/-- Reads the closing bracket of an array that must have no more elements. -/
def endArray (text : List Char) : Except Defect (List Char) :=
  match skipSpace text with
  | [] => .error .truncated
  | c :: rest => if c = ']' then .ok rest else .error .malformed

/-! ## Objects -/

/-- Reads members up to the closing brace, at least one and at most `steps` of them. The reader of a
member starts behind its name, and may take into account what was read before. -/
def readMembers (name : Reader κ) (member : κ → σ → Reader σ) (fuel steps : Nat) (s : σ)
    (text : List Char) : Except Defect (σ × List Char) :=
  match steps with
  | 0 => .error .truncated
  | steps + 1 =>
    match skipSpace text with
    | [] => .error .truncated
    | c :: text =>
      if c ≠ '"' then .error .malformed
      else do
        let (k, text) ← name fuel text
        let (s, text) ← member k s fuel text
        match skipSpace text with
        | [] => throw .truncated
        | c :: text =>
          if c = '\x7d' then pure (s, text)
          else if c = ',' then readMembers name member fuel steps s text
          else throw .malformed

/-- Reads the members of an object from behind its opening brace, starting from `s`. -/
def readObject (name : Reader κ) (member : κ → σ → Reader σ) (s : σ) : Reader σ := fun fuel text =>
  match skipSpace text with
  | [] => .error .truncated
  | c :: rest =>
    if c = '\x7d' then .ok (s, rest) else readMembers name member fuel fuel s (c :: rest)

end TracedIndex.Json
