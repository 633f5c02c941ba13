import TracedIndex.Decimal

/-!
# Shortest decimals

Among the decimals that read back as a given number, the **shortest** has the fewest digits, and of
those with as few it is the nearest to the number. With `n` digits the decimals around a number lie
on a grid; the first `n` for which a neighbour on the grid reads back is the least possible.

* `leadingExponent`: the power of ten of the first digit of a number;
* `neighbours`: the decimals of `n` digits below and above a number, the nearer one first;
* `shortest`: the first of them, for growing `n`, that reads back.
-/

namespace TracedIndex.Decimal

/-- What to do with a number halfway between two decimals. -/
inductive Tie where
  | toEven
  | upwards
deriving DecidableEq

/-- The power of ten of the first digit of a positive number of units. -/
def leadingExponent (units : Nat) : Int :=
  if Binary64.unitsPerOne ≤ units then (Nat.toDigits 10 (units / Binary64.unitsPerOne)).length - 1
  else -(Nat.toDigits 10 ((Binary64.unitsPerOne - 1) / units)).length

/-- The quotient is nearer to the whole number above it than to the one below. -/
def nearerAbove (tie : Tie) (num den : Nat) : Bool :=
  match compare (2 * (num % den)) den with
  | .lt => false
  | .gt => true
  | .eq => tie == .upwards || num / den % 2 == 1

/-- The multiples of `10 ^ exponent` below and above a number of units, the nearer one first. -/
def neighbours (tie : Tie) (units : Nat) (exponent : Int) : List Decimal :=
  let num := units * Nat.pow 10 (-exponent).toNat
  let den := Binary64.unitsPerOne * Nat.pow 10 exponent.toNat
  let below : Decimal := ⟨num / den, exponent⟩
  let above : Decimal := ⟨num / den + 1, exponent⟩
  if nearerAbove tie num den then [above, below] else [below, above]

/-- The number of units itself, as a decimal. -/
def exact (units : Nat) : Decimal := ⟨units * Nat.pow 5 1074, -1074⟩

/-- The shortest decimal that reads back as a positive finite magnitude. Seventeen digits are known
to be enough; beyond them all digits are given. -/
def shortest (tie : Tie) (magnitude : Nat) : Decimal :=
  let units := Binary64.unitsOf magnitude
  let first := leadingExponent units
  let found := (List.range 17).findSome? fun n : Nat =>
    (neighbours tie units (first - n)).find? fun d => d.nearest == magnitude
  strip (found.getD (exact units))

end TracedIndex.Decimal
