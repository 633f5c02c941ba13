/-!
# Labelled keys

A **labelled key** is a whole number with a label. Comparison looks at the number only, so keys that
compare equal can still be told apart.
-/

namespace TracedIndex

/-- A whole number with a label that plays no part in comparison. -/
structure Labelled where
  number : Int64
  label : String

namespace Labelled

instance : Ord Labelled where
  compare x y := compare x.number y.number

instance : BEq Labelled where
  beq x y := x.number == y.number

end Labelled

end TracedIndex
