import TracedIndex.Decimal.Style

/-!
# Numbers as a person is shown them

* `Binary64.display`: a number in its shortest digits, never with an exponent and without a needless
  fraction.
-/

namespace TracedIndex.Binary64

/-- The style for display. A number halfway between two shortest decimals takes the upper one. -/
def displayStyle : Decimal.Style where
  tie := .upwards
  positional _ := true
  fraction := false
  zero := "0"
  infinity := "inf"
  negativeInfinity := "-inf"
  nan := "NaN"

def display (x : Binary64) : String := .ofList (displayStyle.write x)

end TracedIndex.Binary64
