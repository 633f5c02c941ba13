import TracedIndex.Json.Record
import TracedIndex.Key
import TracedIndex.Key.Labelled
import TracedIndex.Node

/-!
# Keys and node numbers in JSON

Whole numbers and strings are written as such; a numeric key as a number, an infinite one as `null`,
which cannot be read back; a labelled key as an array of its number and its label.

* `KeyFormat` is the class of key types with a JSON form;
* `NodeId.toValue`, `readNodeId` write and read the number of a node, `idsValue`, `readIds` a list
  of them.
-/

namespace TracedIndex

open Json

/-- Keys with a JSON form. -/
class KeyFormat (K : Type) where
  toValue : K → Value
  ofValue? : Value → Option K
  read : Reader K

namespace KeyFormat

/-- The format of keys that are scalars. -/
@[reducible] def ofScalar {K : Type} (toScalar : K → Scalar) (ofScalar? : Scalar → Option K) :
    KeyFormat K where
  toValue k := .scalar (toScalar k)
  ofValue?
    | .scalar s => ofScalar? s
    | _ => none
  read := readAs ofScalar?

end KeyFormat

/-! ## Keys -/

instance : KeyFormat Int64 := .ofScalar (fun n => .number (.whole n.toInt)) Scalar.toInt64?

instance : KeyFormat String := .ofScalar .string Scalar.toText?

instance : KeyFormat Key :=
  .ofScalar (fun k => .number (.real k.number)) fun s => s.toBinary64?.bind Key.ofBinary64?

namespace Key

def parse (text : String) : Except Defect Key := Reader.parse KeyFormat.read text

end Key

instance : KeyFormat Labelled where
  toValue k := .array [.scalar (.number (.whole k.number.toInt)), .ofText k.label]
  ofValue?
    | .array [.scalar number, .scalar label] => do
      pure ⟨← number.toInt64?, ← label.toText?⟩
    | _ => none
  read := fun fuel text =>
    match skipSpace text with
    | '[' :: rest => do
      let (number, rest) ← nextElement true (readAs Scalar.toInt64?) fuel rest
      let (label, rest) ← nextElement false (readAs Scalar.toText?) fuel rest
      pure (⟨number, label⟩, ← endArray rest)
    | text => readOther fuel text

/-! ## Node numbers -/

namespace NodeId

def toValue (id : NodeId) : Value := .ofNat id.index

def ofScalar? (s : Scalar) : Option NodeId := s.toNat?.bind NodeId.ofNat?

end NodeId

def readNodeId : Reader NodeId := readAs NodeId.ofScalar?

def idsValue (ids : List NodeId) : Value := .array (ids.map NodeId.toValue)

def readIds : Reader (List NodeId) := readArrayOf readNodeId

def keysValue {K : Type} [KeyFormat K] (keys : List K) : Value :=
  .array (keys.map KeyFormat.toValue)

def readKeys {K : Type} [KeyFormat K] : Reader (List K) := readArrayOf KeyFormat.read

end TracedIndex
