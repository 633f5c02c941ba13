import TracedIndex.Decimal.Style
import TracedIndex.Json.Reader

/-!
# JSON numbers

A number is read in two steps. Its **literal** is the text: a sign, digits, perhaps a fraction and
an exponent. Its value is a whole number if it is written as one and fits a machine word, with or
without sign, and else a binary64 number.

The binary64 value of a literal is computed in at most a few rounded steps. The digits that fit a
word of 64 bits make its significand; of those left over, each before the point stands for a factor
of ten, and those behind it are dropped. The significand is then multiplied or divided by a power of
ten. For most literals this gives the nearest number, but a last place may differ.

* `Literal.read` reads a literal, `Literal.value?` is its value unless that is too large;
* `Number.read` does both, `Number.write` writes a number.
-/

namespace TracedIndex.Json

/-- The text of a number, taken apart. -/
structure Literal where
  negative : Bool
  whole : List Char
  fraction : Option (List Char)
  /-- Whether the exponent has a minus sign, and its digits. -/
  exponent : Option (Bool × List Char)
deriving DecidableEq

inductive Number where
  | whole (n : Int)
  | real (x : Binary64)
deriving DecidableEq

def isDigit (c : Char) : Bool := '0' ≤ c && c ≤ '9'

namespace Literal

/-! ## The text -/

/-- Reads one digit or more. A text that ends before the first has the defect `short`. -/
def readDigits (short : Defect) (text : List Char) : Except Defect (List Char × List Char) :=
  match text with
  | [] => .error short
  | c :: _ =>
    if isDigit c then .ok (text.takeWhile isDigit, text.dropWhile isDigit) else .error .malformed

/-- Reads the digits before the point, of which only a single zero may start with zero. -/
def readWhole (short : Defect) (text : List Char) : Except Defect (List Char × List Char) := do
  let (ds, rest) ← readDigits short text
  if ds.head? = some '0' ∧ ds ≠ ['0'] then throw .malformed
  pure (ds, rest)

/-- Reads a point and the digits behind it, if there is a point. -/
def readFraction (short : Defect) (text : List Char) :
    Except Defect (Option (List Char) × List Char) :=
  match text with
  | '.' :: rest => do
    let (ds, rest) ← readDigits short rest
    pure (some ds, rest)
  | _ => .ok (none, text)

/-- Reads the sign of an exponent: whether there is a minus sign. -/
def readSign : List Char → Bool × List Char
  | '-' :: rest => (true, rest)
  | '+' :: rest => (false, rest)
  | text => (false, text)

def readExponent (short : Defect) (text : List Char) :
    Except Defect (Option (Bool × List Char) × List Char) :=
  match text with
  | [] => .ok (none, [])
  | c :: rest =>
    if c = 'e' ∨ c = 'E' then do
      let (negative, rest) := readSign rest
      let (ds, rest) ← readDigits short rest
      pure (some (negative, ds), rest)
    else .ok (none, c :: rest)

/-- Reads a literal. A text that ends where a digit has to follow has the defect `short`. -/
def read (short : Defect) (text : List Char) : Except Defect (Literal × List Char) := do
  let (negative, text) := match text with
    | '-' :: rest => (true, rest)
    | _ => (false, text)
  let (whole, text) ← readWhole short text
  let (fraction, text) ← readFraction short text
  let (exponent, text) ← readExponent short text
  pure (⟨negative, whole, fraction, exponent⟩, text)

/-! ## The value -/

def digit (c : Char) : Nat := c.toNat - '0'.toNat

/-- The number that a list of digits writes. -/
def natOf (ds : List Char) : Nat := ds.foldl (fun n c => n * 10 + digit c) 0

/-- Appends digits to a number as long as it fits a word; gives the number of digits left over. -/
def absorb (n : Nat) : List Char → Nat × Nat
  | [] => (n, 0)
  | c :: ds =>
    if n * 10 + digit c < UInt64.size then absorb (n * 10 + digit c) ds else (n, ds.length + 1)

/-- The binary64 number nearest to a power of ten. -/
def powerOfTen (n : Nat) : Binary64 := .ofInt (Nat.pow 10 n)

/-- A number times a power of ten, in steps of at most 308 powers, unless that is too large. -/
def scale (x : Binary64) (exponent : Int) : Option Binary64 :=
  if exponent.natAbs ≤ 308 then
    if 0 ≤ exponent then
      let y := x.mul (powerOfTen exponent.natAbs)
      if y.isInfinite then none else some y
    else some (x.div (powerOfTen exponent.natAbs))
  else if x.isZero then some x
  else if 0 ≤ exponent then none
  else scale (x.div (powerOfTen 308)) (exponent + 308)
termination_by exponent.natAbs
decreasing_by omega

def exponentValue (l : Literal) : Int :=
  match l.exponent with
  | none => 0
  | some (negative, ds) => if negative then -natOf ds else natOf ds

/-- The value of a literal, unless it is too large. -/
def value? (l : Literal) : Option Number :=
  let (n, left) := absorb 0 l.whole
  if l.fraction.isNone ∧ l.exponent.isNone ∧ left = 0 then
    if !l.negative then some (.whole n)
    else if 0 < n ∧ 2 * n ≤ UInt64.size then some (.whole (-n))
    else some (.real (.ofRatio true n 1))
  else
    let ds := l.fraction.getD []
    let (n, dropped) := absorb n ds
    let x := scale (.ofInt n) (left - (ds.length - dropped : Nat) + l.exponentValue)
    x.map fun x => .real (if l.negative then x.neg else x)

end Literal

namespace Number

/-- Reads a number; one that is too large is malformed. -/
def read (text : List Char) : Except Defect (Number × List Char) := do
  let (l, rest) ← Literal.read .truncated text
  match l.value? with
  | some n => pure (n, rest)
  | none => throw .malformed

/-! ## Writing -/

/-- The style of binary64 numbers: an exponent outside `1e-5 … 1e16`, always a fraction within, and
`null` for what is no finite number. A number halfway between two shortest decimals takes the even
one. -/
def style : Decimal.Style where
  tie := .toEven
  positional e := -5 ≤ e && e < 16
  fraction := true
  zero := "0.0"
  infinity := "null"
  negativeInfinity := "null"
  nan := "null"

def writeInt (n : Int) : List Char :=
  if n < 0 then '-' :: Nat.toDigits 10 n.natAbs else Nat.toDigits 10 n.natAbs

def write : Number → List Char
  | whole n => writeInt n
  | real x => style.write x

/-! ## Kinds -/

def toBinary64 : Number → Binary64
  | whole n => .ofInt n
  | real x => x

end Number

end TracedIndex.Json
