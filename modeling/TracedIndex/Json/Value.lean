import TracedIndex.Json.Scalar

/-!
# JSON values

A **value** is a scalar, an array or an object. An object keeps its members in order, repeated names
among them.

* `Value.write` writes a value without white space;
* `Value.read` reads a value that nests a limited number of arrays and objects;
* `skipValue` reads over a text that does not matter, which may nest as many as it likes.
-/

namespace TracedIndex.Json

inductive Value where
  | scalar (s : Scalar)
  | array (elements : List Value)
  | object (members : List (String × Value))

namespace Value

/-! ## Short forms -/

/-- A whole number without sign as a value. -/
def ofNat (n : Nat) : Value := scalar (.number (.whole n))

def ofText (s : String) : Value := scalar (.string s)

def elements? : Value → Option (List Value)
  | array vs => some vs
  | _ => none

mutual

/-- The number of arrays and objects that the value nests. -/
def depth : Value → Nat
  | scalar _ => 0
  | array vs => depthOfElements vs + 1
  | object ms => depthOfMembers ms + 1

def depthOfElements : List Value → Nat
  | [] => 0
  | v :: vs => max (depth v) (depthOfElements vs)

def depthOfMembers : List (String × Value) → Nat
  | [] => 0
  | (_, v) :: ms => max (depth v) (depthOfMembers ms)

end

/-! ## Writing -/

mutual

def write : Value → List Char
  | scalar s => s.write
  | array vs => '[' :: writeElements vs
  | object ms => '\x7b' :: writeMembers ms

/-- Writes some elements with commas between them, and a closing bracket. -/
def writeElements : List Value → List Char
  | [] => [']']
  | [v] => write v ++ [']']
  | v :: w :: vs => write v ++ ',' :: writeElements (w :: vs)

/-- Writes some members with commas between them, and a closing brace. -/
def writeMembers : List (String × Value) → List Char
  | [] => ['\x7d']
  | [(k, v)] => Quoted.write k ++ ':' :: (write v ++ ['\x7d'])
  | (k, v) :: m :: ms => Quoted.write k ++ ':' :: (write v ++ ',' :: writeMembers (m :: ms))

end

/-! ## Reading -/

/-- Reads a member of an object and puts it before those read already. -/
def readMember (value : Reader Value) (name : String) (ms : List (String × Value)) :
    Reader (List (String × Value)) := fun fuel text => do
  let (v, rest) ← value.afterColon fuel text
  pure ((name, v) :: ms, rest)

/-- Reads a value that nests at most `depth` arrays and objects. -/
def read (depth : Nat) : Reader Value := fun fuel text =>
  match skipSpace text with
  | [] => .error .truncated
  | c :: rest =>
    if c = '[' then
      match depth with
      | 0 => .error .malformed
      | depth + 1 => do
        let (vs, rest) ← readArray (read depth) fuel rest
        pure (.array vs, rest)
    else if c = '\x7b' then
      match depth with
      | 0 => .error .malformed
      | depth + 1 => do
        let (ms, rest) ← readObject Quoted.read (readMember (read depth)) [] fuel rest
        pure (.object ms.reverse, rest)
    else do
      let (s, rest) ← Scalar.readFrom c fuel rest
      pure (.scalar s, rest)

end Value

/-! ## Texts that do not matter -/

/-- Reads over a scalar that starts with `c`. The size of a number does not matter, and one that
ends too early is malformed. -/
def skipScalarFrom (c : Char) : Reader Unit := fun fuel rest =>
  if c = '"' then Quoted.skip fuel rest
  else if c = '-' ∨ isDigit c then do
    let (_, rest) ← Literal.read .malformed (c :: rest)
    pure ((), rest)
  else do
    let (_, rest) ← Scalar.readFrom c fuel rest
    pure ((), rest)

/-- Reads over a value that nests at most `depth` arrays and objects. -/
def skipWithin (depth : Nat) : Reader Unit := fun fuel text =>
  match skipSpace text with
  | [] => .error .truncated
  | c :: rest =>
    if c = '[' then
      match depth with
      | 0 => .error .truncated
      | depth + 1 => do
        let (_, rest) ← readArray (skipWithin depth) fuel rest
        pure ((), rest)
    else if c = '\x7b' then
      match depth with
      | 0 => .error .truncated
      | depth + 1 => readObject Quoted.skip (fun _ _ => (skipWithin depth).afterColon) () fuel rest
    else skipScalarFrom c fuel rest

/-- Reads over a value. It cannot nest more arrays and objects than the text has characters. -/
def skipValue : Reader Unit := fun fuel text => skipWithin fuel fuel text

end TracedIndex.Json
