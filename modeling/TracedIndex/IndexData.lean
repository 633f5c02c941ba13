import TracedIndex.Json.Record

/-!
# Index data

**Index data** are lists of raw numbers by the names of the indexes they belong to. The names
ascend, by the codes of their characters. The numbers are kept bit by bit, NaN and negative zero
among them.

* `IndexData.insert` adds or replaces a list, `IndexData.keys?` looks one up;
* `IndexData.write`, `IndexData.parse`: the JSON form, an object of arrays of numbers;
* two index data are equal (`==`) if their names are the same and their numbers have the same
  values, so data with a NaN differ from themselves.
-/

namespace TracedIndex

open Json

/-- Lists of numbers, in the ascending order of their names. -/
structure IndexData where
  entries : List (String × List Binary64)
  ascending : entries.Pairwise fun a b => a.1 < b.1

namespace IndexData

/-! ## Lists by name -/

def empty : IndexData := ⟨[], .nil⟩

/-- Puts a list in its place among others, or in place of the one of that name. -/
def insertEntry (name : String) (xs : List Binary64) :
    List (String × List Binary64) → List (String × List Binary64)
  | [] => [(name, xs)]
  | e :: es =>
    if name < e.1 then (name, xs) :: e :: es
    else if name = e.1 then (name, xs) :: es
    else e :: insertEntry name xs es

theorem mem_insertEntry {name : String} {xs : List Binary64} {es : List (String × List Binary64)}
    {e : String × List Binary64} (h : e ∈ insertEntry name xs es) : e = (name, xs) ∨ e ∈ es := by
  induction es with
  | nil => exact Or.inl (List.mem_singleton.mp h)
  | cons d es ih =>
    rw [insertEntry] at h
    split at h
    · exact List.mem_cons.mp h
    · split at h
      · exact (List.mem_cons.mp h).imp_right (List.mem_cons_of_mem _)
      · rcases List.mem_cons.mp h with rfl | h
        · exact Or.inr List.mem_cons_self
        · exact (ih h).imp_right (List.mem_cons_of_mem _)

theorem ascending_insertEntry (name : String) (xs : List Binary64)
    {es : List (String × List Binary64)} (h : es.Pairwise fun a b => a.1 < b.1) :
    (insertEntry name xs es).Pairwise fun a b => a.1 < b.1 := by
  induction es with
  | nil => exact List.pairwise_singleton _ _
  | cons e es ih =>
    obtain ⟨he, hes⟩ := List.pairwise_cons.mp h
    rw [insertEntry]
    split
    · next hlt =>
      refine List.pairwise_cons.mpr ⟨fun d hd => ?_, h⟩
      rcases List.mem_cons.mp hd with rfl | hd
      · exact hlt
      · exact String.lt_trans hlt (he d hd)
    · next hlt =>
      split
      · next heq =>
        exact List.pairwise_cons.mpr ⟨fun d hd => heq ▸ he d hd, hes⟩
      · next hne =>
        refine List.pairwise_cons.mpr ⟨fun d hd => ?_, ih hes⟩
        rcases mem_insertEntry hd with rfl | hd
        · exact Decidable.by_contra fun hge =>
            hne (String.le_antisymm (String.not_lt.mp hge) (String.not_lt.mp hlt))
        · exact he d hd

/-- The data with a list added, or put in place of the one of that name. -/
def insert (d : IndexData) (name : String) (xs : List Binary64) : IndexData :=
  ⟨insertEntry name xs d.entries, ascending_insertEntry name xs d.ascending⟩

def keys? (d : IndexData) (name : String) : Option (List Binary64) := d.entries.lookup name

def names (d : IndexData) : List String := d.entries.map Prod.fst

/-- The data with some lists added one after another. -/
def insertAll (d : IndexData) (es : List (String × List Binary64)) : IndexData :=
  es.foldl (fun d e => d.insert e.1 e.2) d

/-! ## Comparison -/

/-- Two lists have the same values one by one. -/
def sameValues : List Binary64 → List Binary64 → Bool
  | [], [] => true
  | x :: xs, y :: ys => x.numericEq y && sameValues xs ys
  | _, _ => false

/-- Two lists of entries have the same names and values one by one. -/
def sameEntries : List (String × List Binary64) → List (String × List Binary64) → Bool
  | [], [] => true
  | a :: as, b :: bs => a.1 == b.1 && sameValues a.2 b.2 && sameEntries as bs
  | _, _ => false

instance : BEq IndexData where
  beq d e := sameEntries d.entries e.entries

/-! ## Text -/

def listValue (xs : List Binary64) : Value := .array (xs.map fun x => .scalar (.number (.real x)))

def toValue (d : IndexData) : Value := .object (d.entries.map fun e => (e.1, listValue e.2))

def write (d : IndexData) : String := .ofList d.toValue.write

def readList : Reader (List Binary64) := readArrayOf (readAs Scalar.toBinary64?)

/-- Reads the list of a given name and adds it. -/
def readEntry (name : String) (d : IndexData) : Reader IndexData := fun fuel text => do
  let (xs, rest) ← readList.afterColon fuel text
  pure (d.insert name xs, rest)

def read : Reader IndexData := fun fuel text =>
  match skipSpace text with
  | '\x7b' :: rest => readObject Quoted.read readEntry empty fuel rest
  | text => readOther fuel text

def parse (text : String) : Except Defect IndexData := Reader.parse read text

end IndexData

end TracedIndex
