/-!
# Reading JSON

A **reader** takes a value from the front of a text and gives the text behind it. Texts are read
from left to right, and the first **defect** found decides: the text ends too early, it is not JSON,
or it is JSON of another kind than asked for.

* `Reader.parse` reads a whole text, in which only white space may follow the value;
* `skipSpace` drops white space, `readWord` reads the rest of a given word.
-/

namespace TracedIndex.Json

/-- What is wrong with a text. -/
inductive Defect where
  /-- The text ends before the value does. -/
  | truncated
  /-- The text is not JSON. -/
  | malformed
  /-- The text is JSON, but not of the kind that was asked for. -/
  | mismatched
deriving DecidableEq

namespace Defect

def category : Defect → String
  | truncated => "eof"
  | malformed => "syntax"
  | mismatched => "data"

end Defect

/-- Takes a value from the front of a text. The number bounds how often any loop of the reader runs;
the length of the text is always enough. -/
abbrev Reader (α : Type) := Nat → List Char → Except Defect (α × List Char)

/-- The four characters that may stand between the parts of a text. -/
def isSpace (c : Char) : Bool := c == ' ' || c == '\t' || c == '\n' || c == '\r'

/-- The text from its first character other than white space on. -/
def skipSpace (text : List Char) : List Char := text.dropWhile isSpace

/-- Reads the rest of a word that is already known from its first letter. -/
def readWord : List Char → List Char → Except Defect (List Char)
  | [], text => .ok text
  | _ :: _, [] => .error .truncated
  | w :: word, c :: text => if c = w then readWord word text else .error .malformed

namespace Reader

variable {α β : Type}

def parse (r : Reader α) (text : String) : Except Defect α := do
  let (x, rest) ← r text.toList.length text.toList
  match skipSpace rest with
  | [] => pure x
  | _ :: _ => throw .malformed

/-- Reads a value and turns it into one of another type, if it is of the right kind. -/
def filterMap (r : Reader α) (f : α → Option β) : Reader β := fun fuel text => do
  let (x, rest) ← r fuel text
  match f x with
  | some y => pure (y, rest)
  | none => throw .mismatched

def afterColon (r : Reader α) : Reader α := fun fuel text =>
  match skipSpace text with
  | [] => .error .truncated
  | c :: rest => if c = ':' then r fuel rest else .error .malformed

end Reader

end TracedIndex.Json
