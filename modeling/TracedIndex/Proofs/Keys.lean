import TracedIndex.Key
import TracedIndex.Key.Labelled

/-!
# The order of the keys

Both kinds of keys are compared by a number that they carry, and so by a total preorder. Two numeric
keys compare as equal only if they are the same; labelled keys may differ in their labels.
-/

namespace TracedIndex

instance : Std.TransOrd Key :=
  inferInstanceAs (Std.TransCmp (compareOn fun x : Key => x.number.rank))

instance : Std.TransOrd Labelled :=
  inferInstanceAs (Std.TransCmp (compareOn fun x : Labelled => x.number))

end TracedIndex
