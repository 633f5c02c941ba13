import TracedIndex.Format.Key
import TracedIndex.Proofs.Binary64.Order
import TracedIndex.Proofs.Json.Reading
import TracedIndex.Proofs.Json.Written

/-!
# Keys and node numbers read back

Integer and string keys are read back as they were written, and so is a numeric key if its number is.

* `KeyFormat.Faithful`: a key that is read back;
* `faithful_int64`, `faithful_string`, `faithful_key`: the kinds of keys;
* `readIds_gives`, `readKeys_gives`: lists of node numbers and of keys.
-/

namespace TracedIndex

open Json

/-! ## Keys -/

/-- Keys that are scalars: what is read of a value is the key that it stands for. -/
class ScalarFormat (K : Type) [KeyFormat K] : Prop where
  depth_toValue (k : K) : (KeyFormat.toValue k).depth = 0
  read_gives (v : Value) : (KeyFormat.read : Reader K).Gives v (orMismatched (KeyFormat.ofValue? v))

namespace KeyFormat

theorem scalarFormat_ofScalar {K : Type} (toScalar : K → Scalar) (ofScalar? : Scalar → Option K) :
    @ScalarFormat K (ofScalar toScalar ofScalar?) :=
  letI := ofScalar toScalar ofScalar?
  { depth_toValue := fun _ => rfl
    read_gives := fun v => by cases v <;> exact readAs_gives ofScalar? _ }

instance : ScalarFormat Int64 := scalarFormat_ofScalar _ _

instance : ScalarFormat String := scalarFormat_ofScalar _ _

instance : ScalarFormat Key := scalarFormat_ofScalar _ _

variable {K : Type} [KeyFormat K]

/-- The text of the key spells a value that stands for the same key. -/
structure Faithful (k : K) : Prop where
  spelled : (toValue k).Spelled (toValue k).write
  ofValue?_eq : ofValue? (toValue k) = some k

theorem faithful_int64 (n : Int64) : Faithful n where
  spelled := Value.spelled_scalar (Scalar.spelled_whole n.le_toInt (by have := n.toInt_lt; omega))
  ofValue?_eq := by
    have hmin : Int64.minValue.toInt ≤ n.toInt := n.le_toInt
    have hmax : n.toInt ≤ Int64.maxValue.toInt := Int.le_of_lt_add_one n.toInt_lt
    exact (if_pos ⟨hmin, hmax⟩).trans (congrArg some (Int64.ofInt_toInt n))

theorem faithful_string (s : String) : Faithful s where
  spelled := Value.spelled_scalar (Scalar.spelled_string s)
  ofValue?_eq := rfl

theorem faithful_key {k : Key} (h : Number.ReadsBack k.number) : Faithful k where
  spelled := Value.spelled_scalar (Scalar.spelled_real h)
  ofValue?_eq := Key.ofBinary64?_eq_some_iff.mpr ⟨k.not_nan, k.positiveZero_number.symm⟩

end KeyFormat

/-! ## Lists -/

section

variable {K : Type} [KeyFormat K]

theorem spelled_keysValue {keys : List K} (h : ∀ k ∈ keys, KeyFormat.Faithful k) :
    (keysValue keys).Spelled (keysValue keys).write := by
  refine Value.spelled_array fun v hv => ?_
  obtain ⟨k, hk, rfl⟩ := List.mem_map.mp hv
  exact (h k hk).spelled

theorem mapM_ofValue?_keys {keys : List K} (h : ∀ k ∈ keys, KeyFormat.Faithful k) :
    (keys.map KeyFormat.toValue).mapM (KeyFormat.ofValue? (K := K)) = some keys :=
  mapM_map_eq_pure fun k hk => (h k hk).ofValue?_eq

/-- What a value is as a list of keys. -/
def asKeys : Value → Except Defect (List K) := asArray fun v => orMismatched (KeyFormat.ofValue? v)

theorem readKeys_gives [ScalarFormat K] (v : Value) : (readKeys : Reader (List K)).Gives v (asKeys v) :=
  readArrayOf_gives ScalarFormat.read_gives v

theorem asKeys_keysValue {keys : List K} (h : ∀ k ∈ keys, KeyFormat.Faithful k) :
    asKeys (keysValue keys) = .ok keys :=
  mapM_map_eq_pure fun k hk => by
    rw [(h k hk).ofValue?_eq]
    rfl

theorem depth_keysValue [ScalarFormat K] (keys : List K) : (keysValue keys).depth = 1 := by
  have hzero : Value.depthOfElements (keys.map KeyFormat.toValue) = 0 := by
    induction keys with
    | nil => rfl
    | cons k keys ih => rw [List.map_cons, Value.depthOfElements, ScalarFormat.depth_toValue, ih]; rfl
  rw [keysValue, Value.depth, hzero]

end

namespace NodeId

theorem ofNat?_index (id : NodeId) : ofNat? id.index = some id := dif_pos id.index_lt

theorem ofScalar?_index (id : NodeId) : ofScalar? (.number (.whole id.index)) = some id := by
  have hlt : 0 ≤ (id.index : Int) ∧ (id.index : Int) < UInt64.size := by
    have := id.index_lt
    have : UInt32.size = 2 ^ 32 := rfl
    have : UInt64.size = 2 ^ 64 := rfl
    omega
  rw [ofScalar?, Scalar.toNat?, if_pos hlt, Int.toNat_natCast, Option.bind_some, ofNat?_index]

theorem spelled_toValue (id : NodeId) : id.toValue.Spelled id.toValue.write := by
  refine Value.spelled_scalar (Scalar.spelled_whole ?_ ?_)
  all_goals
    have := id.index_lt
    have : UInt32.size = 2 ^ 32 := rfl
    omega

end NodeId

theorem spelled_idsValue (ids : List NodeId) : (idsValue ids).Spelled (idsValue ids).write := by
  refine Value.spelled_array fun v hv => ?_
  obtain ⟨id, -, rfl⟩ := List.mem_map.mp hv
  exact id.spelled_toValue

/-- What a value is as a list of node numbers. -/
def asIds : Value → Except Defect (List NodeId) := asArray (asScalar NodeId.ofScalar?)

theorem readIds_gives (v : Value) : readIds.Gives v (asIds v) :=
  readArrayOf_gives (readAs_gives NodeId.ofScalar?) v

theorem asIds_idsValue (ids : List NodeId) : asIds (idsValue ids) = .ok ids :=
  mapM_map_eq_pure fun id _ => by
    rw [NodeId.toValue, Value.ofNat, asScalar, id.ofScalar?_index]
    rfl

end TracedIndex
