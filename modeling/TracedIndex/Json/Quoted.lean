import TracedIndex.Json.Reader

/-!
# JSON strings

A string is written between quotes. A quote, a backslash and the control characters are escaped
inside; every other character stands for itself. When read, any character may be written by the four
hexadecimal digits of its code, or as two such codes, a surrogate pair, if its code is too long.

* `write` writes a string, `read` reads the rest of one from behind its opening quote;
* `skip` reads over the rest of a string whose content does not matter, with lone surrogates.
-/

namespace TracedIndex.Json.Quoted

/-! ## Writing -/

/-- A hexadecimal digit below sixteen. -/
def hexDigit (n : Nat) : Char := if n < 10 then .ofNat (48 + n) else .ofNat (87 + n)

/-- A character as it is written inside a string. -/
def writeChar (c : Char) : List Char :=
  match c with
  | '"' => ['\\', '"']
  | '\\' => ['\\', '\\']
  | '\x08' => ['\\', 'b']
  | '\t' => ['\\', 't']
  | '\n' => ['\\', 'n']
  | '\x0c' => ['\\', 'f']
  | '\r' => ['\\', 'r']
  | c =>
    if c.toNat < 0x20 then
      ['\\', 'u', '0', '0', hexDigit (c.toNat / 16), hexDigit (c.toNat % 16)]
    else [c]

def write (s : String) : List Char := '"' :: (s.toList.flatMap writeChar ++ ['"'])

/-! ## Escapes -/

/-- The character that one letter behind a backslash stands for. -/
def escape? (c : Char) : Option Char :=
  match c with
  | '"' => some '"'
  | '\\' => some '\\'
  | '/' => some '/'
  | 'b' => some '\x08'
  | 'f' => some '\x0c'
  | 'n' => some '\n'
  | 'r' => some '\r'
  | 't' => some '\t'
  | _ => none

def hexValue? (c : Char) : Option Nat :=
  if '0' ≤ c ∧ c ≤ '9' then some (c.toNat - 48)
  else if 'a' ≤ c ∧ c ≤ 'f' then some (c.toNat - 87)
  else if 'A' ≤ c ∧ c ≤ 'F' then some (c.toNat - 55)
  else none

def hexNumber? (a b c d : Char) : Option Nat := do
  pure (((← hexValue? a) * 16 + (← hexValue? b)) * 16 * 16 + (← hexValue? c) * 16 + (← hexValue? d))

/-- Reads four hexadecimal digits. What is left may be too short for them: it is then malformed only
if it takes up four bytes. -/
def readHex (text : List Char) : Except Defect (Nat × List Char) :=
  match text with
  | a :: b :: c :: d :: rest =>
    match hexNumber? a b c d with
    | some n => .ok (n, rest)
    | none => .error .malformed
  | _ => if (String.ofList text).utf8ByteSize < 4 then .error .truncated else .error .malformed

/-- The first of a pair of codes for one character. -/
def isHighSurrogate (n : Nat) : Bool := 0xD800 ≤ n && n ≤ 0xDBFF

/-- The second of a pair of codes for one character. -/
def isLowSurrogate (n : Nat) : Bool := 0xDC00 ≤ n && n ≤ 0xDFFF

/-- The character that a pair of codes stands for. -/
def joinSurrogates (high low : Nat) : Char :=
  .ofNat ((high - 0xD800) * 0x400 + (low - 0xDC00) + 0x10000)

/-- Reads the second code of a pair, from its backslash on. -/
def readLow (text : List Char) : Except Defect (Nat × List Char) :=
  match text with
  | [] => .error .truncated
  | c :: rest =>
    if c ≠ '\\' then .error .malformed
    else match rest with
      | [] => .error .truncated
      | c :: rest =>
        if c ≠ 'u' then .error .malformed
        else do
          let (n, rest) ← readHex rest
          if isLowSurrogate n then pure (n, rest) else throw .malformed

/-- Reads the code of a character, or the two codes of a pair. -/
def readCode (text : List Char) : Except Defect (Char × List Char) := do
  let (n, rest) ← readHex text
  if isLowSurrogate n then throw .malformed
  else if isHighSurrogate n then
    let (m, rest) ← readLow rest
    pure (joinSurrogates n m, rest)
  else pure (.ofNat n, rest)

/-- Reads an escape from behind its backslash. -/
def readEscape (text : List Char) : Except Defect (Char × List Char) :=
  match text with
  | [] => .error .truncated
  | c :: rest =>
    match escape? c with
    | some x => .ok (x, rest)
    | none => if c = 'u' then readCode rest else .error .malformed

/-- Reads over an escape from behind its backslash; any code will do. -/
def skipEscape (text : List Char) : Except Defect (List Char) :=
  match text with
  | [] => .error .truncated
  | c :: rest =>
    match escape? c with
    | some _ => .ok rest
    | none => if c = 'u' then (readHex rest).map Prod.snd else .error .malformed

/-! ## Reading -/

/-- Reads characters up to the closing quote, at most `steps` of them. -/
def readChars (steps : Nat) (text : List Char) : Except Defect (List Char × List Char) :=
  match steps, text with
  | _, [] => .error .truncated
  | 0, _ :: _ => .error .truncated
  | steps + 1, c :: rest =>
    if c = '"' then .ok ([], rest)
    else if c = '\\' then do
      let (x, rest) ← readEscape rest
      let (cs, rest) ← readChars steps rest
      pure (x :: cs, rest)
    else if c.toNat < 0x20 then .error .malformed
    else do
      let (cs, rest) ← readChars steps rest
      pure (c :: cs, rest)

/-- Reads the rest of a string from behind its opening quote. -/
def read : Reader String := fun fuel text => do
  let (cs, rest) ← readChars fuel text
  pure (.ofList cs, rest)

/-- Reads over characters up to the closing quote, at most `steps` of them. -/
def skipChars (steps : Nat) (text : List Char) : Except Defect (List Char) :=
  match steps, text with
  | _, [] => .error .truncated
  | 0, _ :: _ => .error .truncated
  | steps + 1, c :: rest =>
    if c = '"' then .ok rest
    else if c = '\\' then do
      let rest ← skipEscape rest
      skipChars steps rest
    else if c.toNat < 0x20 then .error .malformed
    else skipChars steps rest

/-- Reads over the rest of a string from behind its opening quote. -/
def skip : Reader Unit := fun fuel text => do
  pure ((), ← skipChars fuel text)

end TracedIndex.Json.Quoted
