import TracedIndex.Json.Compound
import TracedIndex.Json.Number
import TracedIndex.Json.Quoted

/-!
# JSON scalars

A **scalar** is a value without parts. Where a scalar of some kind is asked for, one of another kind
is read to its end before it is found to be a mismatch; an array or object is one at its opening
bracket, whatever its rest may be.

* `Scalar.write`, `Scalar.read`: the text of a scalar;
* `readAs` reads a scalar of a given kind, `readArrayOf` an array of values of a given kind;
* `toNat?`, `toInt64?`, `toText?`, `toBool?`, `toBinary64?`: the kinds of scalar.
-/

namespace TracedIndex.Json

/-- A value without parts. -/
inductive Scalar where
  | null
  | bool (b : Bool)
  | number (n : Number)
  | string (s : String)
deriving DecidableEq

namespace Scalar

/-! ## Text -/

def write : Scalar → List Char
  | null => ['n', 'u', 'l', 'l']
  | bool true => ['t', 'r', 'u', 'e']
  | bool false => ['f', 'a', 'l', 's', 'e']
  | number n => n.write
  | string s => Quoted.write s

/-- Reads a scalar that starts with `c`. -/
def readFrom (c : Char) : Reader Scalar := fun fuel rest =>
  if c = '"' then do
    let (s, rest) ← Quoted.read fuel rest
    pure (.string s, rest)
  else if c = '-' ∨ isDigit c then do
    let (n, rest) ← Number.read (c :: rest)
    pure (.number n, rest)
  else if c = 'n' then do
    pure (.null, ← readWord ['u', 'l', 'l'] rest)
  else if c = 't' then do
    pure (.bool true, ← readWord ['r', 'u', 'e'] rest)
  else if c = 'f' then do
    pure (.bool false, ← readWord ['a', 'l', 's', 'e'] rest)
  else .error .malformed

def read : Reader Scalar := fun fuel text =>
  match skipSpace text with
  | [] => .error .truncated
  | c :: rest =>
    if c = '[' ∨ c = '\x7b' then .error .mismatched else readFrom c fuel rest

/-! ## Kinds -/

/-- A whole number without sign that fits a word of 64 bits. -/
def toNat? : Scalar → Option Nat
  | number (.whole n) => if 0 ≤ n ∧ n < UInt64.size then some n.toNat else none
  | _ => none

/-- A whole number that fits a word of 64 bits with sign. -/
def toInt64? : Scalar → Option Int64
  | number (.whole n) =>
    if Int64.minValue.toInt ≤ n ∧ n ≤ Int64.maxValue.toInt then some (.ofInt n) else none
  | _ => none

def toText? : Scalar → Option String
  | string s => some s
  | _ => none

def toBool? : Scalar → Option Bool
  | bool b => some b
  | _ => none

/-- A number of any kind, as a binary64 number. -/
def toBinary64? : Scalar → Option Binary64
  | number n => some n.toBinary64
  | _ => none

end Scalar

/-! ## Readers of a given kind -/

variable {α : Type}

def readAs (f : Scalar → Option α) : Reader α := Scalar.read.filterMap f

/-- Reads what is not the array or object asked for: at best a mismatch. -/
def readOther : Reader α := readAs fun _ => none

/-- Reads an array whose elements are of a given kind. -/
def readArrayOf (element : Reader α) : Reader (List α) := fun fuel text =>
  match skipSpace text with
  | '[' :: rest => readArray element fuel rest
  | text => readOther fuel text

end TracedIndex.Json
