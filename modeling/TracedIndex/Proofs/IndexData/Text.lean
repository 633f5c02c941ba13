import TracedIndex.Proofs.IndexData.Lists
import TracedIndex.Proofs.Json.Near
import TracedIndex.Proofs.Json.Reading
import TracedIndex.Proofs.Json.Shown

/-!
# The text of index data

Every member of an object adds its list when it is read, and so takes the place of an earlier member of the
same name. Index data are read back from their text if their numbers are finite: names may have any
characters, and lists may be empty. Any other number is written as `null`, and one `null` is enough for the
text to be of another kind.

* `collect`, `read_gives`: what is read of an object;
* `insertAll_of_spelled`: what is read of an object of lists of numbers;
* `spelled_shownAs`, `parse_write_eq`: what the text of index data spells, and what is read of it;
* **`lists_written_and_read`**: the texts of index data, and all texts of lists of numbers.
-/

namespace TracedIndex.IndexData

open Json

/-! ## Reading -/

/-- What a value is as a list of numbers. -/
def asList : Value → Except Defect (List Binary64) := asArray (asScalar Scalar.toBinary64?)

/-- What a member adds to the lists read before. -/
def collect (d : IndexData) (m : String × Value) : Except Defect IndexData :=
  (asList m.2).map fun xs => d.insert m.1 xs

theorem readEntry_gives (m : String × Value) (d : IndexData) :
    (readEntry m.1 d).GivesBehind m.2 (collect d m) :=
  (readArrayOf_gives (readAs_gives Scalar.toBinary64?) m.2).afterColon.map fun xs => d.insert m.1 xs

/-- **The lists of an object are read one by one**, up to the first member that is none. -/
theorem read_gives (ms : List (String × Value)) :
    IndexData.read.Gives (.object ms) (ms.foldlM collect empty) := by
  rintro text fuel rest ⟨sp, t, rfl, hsp, ht⟩ hfuel hrest
  simp only [List.length_append, List.length_cons] at hfuel
  rw [IndexData.read, List.append_assoc, List.cons_append,
    skipSpace_append_cons hsp (show isSpace '\x7b' = false by decide)]
  exact readObject_eq rest (fun m _ d => readEntry_gives m d) ht (by omega) empty

/-! ## Lists of numbers -/

/-- An object of lists of numbers. -/
def listsValue (ms : List (String × List Number)) : Value :=
  .object (ms.map fun m => (m.1, .array (m.2.map fun n => .scalar (.number n))))

/-- The lists of some members. -/
def listsOf (ms : List (String × List Number)) : List (String × List Binary64) :=
  ms.map fun m => (m.1, m.2.map Number.toBinary64)

theorem exists_listsOf_iff (ms : List (String × List Number)) (name : String) :
    (∃ e ∈ listsOf ms, e.1 = name) ↔ ∃ m ∈ ms, m.1 = name := by
  simp only [listsOf, List.mem_map, exists_exists_and_eq_and]

theorem asList_numbers (ns : List Number) :
    asList (.array (ns.map fun n => .scalar (.number n))) = .ok (ns.map Number.toBinary64) := by
  rw [asList, asArray]
  induction ns with
  | nil => rfl
  | cons n ns ih =>
    rw [List.map_cons, List.mapM_cons, ih]
    rfl

theorem foldlM_collect_lists (ms : List (String × List Number)) (d : IndexData) :
    (ms.map fun m => (m.1, Value.array (m.2.map fun n => .scalar (.number n)))).foldlM collect d =
      .ok (d.insertAll (listsOf ms)) := by
  induction ms generalizing d with
  | nil => rfl
  | cons m ms ih =>
    rw [List.map_cons, List.foldlM_cons, collect, asList_numbers]
    exact ih (d.insert m.1 (m.2.map Number.toBinary64))

theorem spelled_listsValue {ms : List (String × List Number)}
    (h : ∀ m ∈ ms, ∀ n ∈ m.2, Number.read n.write = .ok (n, [])) :
    (listsValue ms).Spelled (listsValue ms).write :=
  Value.spelled_object <| List.forall_mem_map.mpr fun m hm =>
    Value.spelled_array <| List.forall_mem_map.mpr fun n hn =>
      Value.spelled_scalar (Scalar.spelled_number (h m hm n hn))

/-- **Each text of an object of lists of numbers gives these lists**, inserted in their order. -/
theorem insertAll_of_spelled {text : String} {ms : List (String × List Number)} {t sp : List Char}
    (htext : text.toList = t ++ sp) (ht : (listsValue ms).Spelled t) (hsp : Blank sp) :
    parse text = .ok (empty.insertAll (listsOf ms)) := by
  have hread := read_gives (ms.map fun m => (m.1, .array (m.2.map fun n => .scalar (.number n))))
  rw [foldlM_collect_lists] at hread
  exact Reader.parse_of_gives hread htext ht hsp

/-! ## Written lists -/

/-- All numbers are finite. -/
def Finite (d : IndexData) : Prop := ∀ e ∈ d.entries, ∀ x ∈ e.2, x.isFinite

instance (d : IndexData) : Decidable d.Finite := by unfold Finite; infer_instance

/-- The finite numbers are read back to the last place. -/
def ReadBack (d : IndexData) : Prop := ∀ e ∈ d.entries, Number.AllReadBack e.2

instance (d : IndexData) : Decidable d.ReadBack := by unfold ReadBack; infer_instance

variable {f : Binary64 → Binary64}

theorem spelled_listValue_shownAs {xs : List Binary64} (h : ∀ x ∈ xs, x.isFinite → Number.ReadsAs x (f x)) :
    ((listValue xs).shownAs f).Spelled (listValue xs).write := by
  rw [listValue, Value.shownAs_array]
  refine Value.spelled_array_map (List.forall_mem_map.mpr fun x hx => ?_)
  rw [Value.shownAs_scalar]
  exact Value.spelled_scalar (Scalar.spelled_real_shownAs (h x hx))

/-- The text of index data spells what it shows. -/
theorem spelled_shownAs {d : IndexData} (h : ∀ e ∈ d.entries, ∀ x ∈ e.2, x.isFinite → Number.ReadsAs x (f x)) :
    (d.toValue.shownAs f).Spelled d.write.toList := by
  rw [write, String.toList_ofList, toValue, Value.shownAs_object]
  exact Value.spelled_object_map (List.forall_mem_map.mpr fun e he => spelled_listValue_shownAs (h e he))

/-- The text of index data is that of the value with `null` in place of all other numbers than the finite ones. -/
theorem write_shown (d : IndexData) : d.toValue.shown.write = d.write.toList := by
  rw [Value.write_shown, write, String.toList_ofList]

theorem asScalar_shownAs (x : Binary64) :
    asScalar Scalar.toBinary64? (.scalar ((Scalar.number (.real x)).shownAs f)) =
      if x.isFinite then .ok (f x) else .error .mismatched := by
  by_cases hx : x.isFinite
  · rw [Scalar.shownAs_of_isFinite hx, if_pos hx]
    rfl
  · rw [Scalar.shownAs_of_not_isFinite hx, if_neg hx]
    rfl

/-- What is shown of a list is a list, if its numbers are finite, and else no list. -/
theorem asList_shownAs (xs : List Binary64) : asList ((listValue xs).shownAs f) =
    if ∀ x ∈ xs, x.isFinite then .ok (xs.map f) else .error .mismatched := by
  rw [listValue, Value.shownAs_array, List.map_map, asList, asArray]
  induction xs with
  | nil => rfl
  | cons x xs ih =>
    rw [List.map_cons, List.mapM_cons, ih, Function.comp_apply, Value.shownAs_scalar, asScalar_shownAs]
    have hall : (∀ y ∈ x :: xs, y.isFinite) ↔ x.isFinite ∧ ∀ y ∈ xs, y.isFinite := List.forall_mem_cons
    by_cases hx : x.isFinite
    · by_cases hxs : ∀ y ∈ xs, y.isFinite
      · rw [if_pos hx, if_pos hxs, if_pos (hall.mpr ⟨hx, hxs⟩)]
        rfl
      · rw [if_pos hx, if_neg hxs, if_neg fun h => hxs (hall.mp h).2]
        rfl
    · rw [if_neg hx, if_neg fun h => hx (hall.mp h).1]
      rfl

theorem foldlM_collect_shownAs (es : List (String × List Binary64)) (d : IndexData) :
    (es.map fun e => (e.1, (listValue e.2).shownAs f)).foldlM collect d =
      if ∀ e ∈ es, ∀ x ∈ e.2, x.isFinite then .ok (d.insertAll (es.map fun e => (e.1, e.2.map f)))
      else .error .mismatched := by
  induction es generalizing d with
  | nil => rfl
  | cons e es ih =>
    rw [List.map_cons, List.foldlM_cons, collect, asList_shownAs]
    have hall : (∀ e' ∈ e :: es, ∀ x ∈ e'.2, x.isFinite) ↔
        (∀ x ∈ e.2, x.isFinite) ∧ ∀ e' ∈ es, ∀ x ∈ e'.2, x.isFinite := List.forall_mem_cons
    by_cases he : ∀ x ∈ e.2, x.isFinite
    · rw [if_pos he, if_congr (hall.trans (and_iff_right he)) rfl rfl]
      exact ih (d.insert e.1 (e.2.map f))
    · rw [if_neg he, if_neg fun h => he (hall.mp h).1]
      rfl

/-- **The text of index data gives the lists of the numbers that its numbers are read as**, if all of these are
finite, and else it is of another kind. -/
theorem parse_write_eq {d : IndexData} (h : ∀ e ∈ d.entries, ∀ x ∈ e.2, x.isFinite → Number.ReadsAs x (f x)) :
    parse d.write = if d.Finite then .ok (empty.insertAll (d.entries.map fun e => (e.1, e.2.map f)))
      else .error .mismatched := by
  have hshown : d.toValue.shownAs f = .object (d.entries.map fun e => (e.1, (listValue e.2).shownAs f)) := by
    rw [toValue, Value.shownAs_object, List.map_map]
    rfl
  have hread := read_gives (d.entries.map fun e => (e.1, (listValue e.2).shownAs f))
  rw [← hshown, foldlM_collect_shownAs] at hread
  exact Reader.parse_of_gives hread (List.append_nil _).symm (spelled_shownAs h) blank_nil

/-- Index data are read back from their text if all their numbers are finite and read back. -/
theorem parse_write {d : IndexData} (h : d.ReadBack) (hfinite : d.Finite) : parse d.write = .ok d := by
  have hsame : d.entries.map (fun e => (e.1, e.2.map id)) = d.entries := by simp
  rw [parse_write_eq (f := id) h, if_pos hfinite, hsame, insertAll_entries]

/-- If there is a number that is not finite, the text is of another kind, whatever the others are read as. -/
theorem parse_write_lost {d : IndexData} (hfinite : ¬ d.Finite) : parse d.write = .error .mismatched := by
  rw [parse_write_eq fun e _ x _ hx => Number.readsAs_reread hx, if_neg hfinite]

/-! ## All texts -/

/-- **Index data are read back from their text, and every text of lists of numbers is read by its members.**
If all numbers are finite, the same lists come back bit by bit under the same names, provided that each number is
read back from its own text. If one is not finite, the text has `null` in its place and is of another kind, whatever
the other numbers are. Any text of an object of lists of numbers, which may be written in any way that the grammar
allows, gives the lists of its members inserted in their order: the names ascend by their bytes, and each has the
list of its last member. -/
theorem lists_written_and_read :
    (∀ d : IndexData,
      (d.ReadBack → d.Finite → parse d.write = .ok d) ∧
      (¬ d.Finite → d.toValue.shown.write = d.write.toList ∧
        (d.ReadBack → d.toValue.shown.Spelled d.write.toList) ∧
        ∃ defect, parse d.write = .error defect ∧ defect.category = "data")) ∧
    (∀ (text : String) (ms : List (String × List Number)) (t sp : List Char),
      text.toList = t ++ sp → (listsValue ms).Spelled t → Blank sp →
      ∃ d, parse text = .ok d ∧ d = empty.insertAll (listsOf ms) ∧
        (d.names.Pairwise fun a b => a.toUTF8.data.toList < b.toUTF8.data.toList) ∧
        (∀ name, name ∈ d.names ↔ ∃ m ∈ ms, m.1 = name) ∧
        (∀ before name ns after, ms = before ++ (name, ns) :: after → (∀ m ∈ after, m.1 ≠ name) →
          d.keys name = .ok (ns.map Number.toBinary64)) ∧
        ∀ name, (∀ m ∈ ms, m.1 ≠ name) → d.keys name = .error (.unknownIndex name)) ∧
    (∀ (s : String) (text : List Char), Quoted.Text s text → Quoted.Spelled s text) ∧
    ∀ (l : Literal) (n : Number) (text : List Char), l.Text text → l.value? = some n →
      (Scalar.number n).Spelled text := by
  refine ⟨fun d => ⟨parse_write, fun hfinite => ⟨d.write_shown, fun h => spelled_shownAs h,
      .mismatched, parse_write_lost hfinite, rfl⟩⟩,
    fun text ms t sp htext ht hsp => ?_, fun s text h => Quoted.spelled_of_text h,
    fun l n text h hn => Scalar.spelled_number (Number.read_of_text h hn)⟩
  · refine ⟨_, insertAll_of_spelled htext ht hsp, rfl, ?_, ?_, ?_, ?_⟩
    · exact List.pairwise_map.mpr ((empty.insertAll (listsOf ms)).ascending.imp utf8_lt_of_lt)
    · intro name
      rw [mem_names_iff, keys?_insertAll_empty, isSome_lastOf_iff]
      exact exists_listsOf_iff ms name
    · rintro before name ns after rfl hafter
      have hlast : lastOf name (listsOf (before ++ (name, ns) :: after)) =
          some (ns.map Number.toBinary64) := by
        rw [listsOf, List.map_append, List.map_cons]
        exact lastOf_append_cons (List.forall_mem_map.mpr hafter)
      rw [keys, keys?_insertAll_empty, hlast]
    · intro name hname
      have hnone : lastOf name (listsOf ms) = none := by
        rw [← Option.not_isSome_iff_eq_none, isSome_lastOf_iff, exists_listsOf_iff]
        exact fun ⟨m, hm, heq⟩ => hname m hm heq
      rw [keys, keys?_insertAll_empty, hnone]

/-- Names that are empty or hold what must be escaped, a negative zero, a NaN, and a name that comes twice. -/
theorem lists_written_and_read_oddities :
    (∃ d : IndexData, d.entries = [("", []), ("\"\n", [.ofInt 3, .negativeZero]), ("é", [.ofInt (-1)])] ∧
      parse d.write = .ok d) ∧
    (∃ d : IndexData, d.entries = [("a", [.ofInt 3, .nan])] ∧
      ∃ defect, parse d.write = .error defect ∧ defect.category = "data") ∧
    ∃ d, parse "\x7b\"b\":[1],\"a\":[],\"b\":[2,-0.0]\x7d" = .ok d ∧
      d.keys "b" = .ok [.ofInt 2, .negativeZero] ∧ d.keys "c" = .error (.unknownIndex "c") := by
  obtain ⟨hwritten, htexts, -, -⟩ := lists_written_and_read
  refine ⟨?_, ?_, ?_⟩
  · let d : IndexData := ⟨[("", []), ("\"\n", [.ofInt 3, .negativeZero]), ("é", [.ofInt (-1)])], by decide⟩
    exact ⟨d, rfl, (hwritten d).1 (by decide +kernel) (by decide +kernel)⟩
  · let d : IndexData := ⟨[("a", [.ofInt 3, .nan])], by decide⟩
    exact ⟨d, rfl, ((hwritten d).2 (by decide +kernel)).2.2⟩
  · let ms : List (String × List Number) :=
      [("b", [.whole 1]), ("a", []), ("b", [.whole 2, .real .negativeZero])]
    have hnumbers : ∀ m ∈ ms, ∀ n ∈ m.2, Number.read n.write = .ok (n, []) := by decide +kernel
    obtain ⟨d, hd, -, -, -, hkeys, hother⟩ := htexts "\x7b\"b\":[1],\"a\":[],\"b\":[2,-0.0]\x7d" ms
      (listsValue ms).write [] (by decide +kernel) (spelled_listsValue hnumbers) blank_nil
    have hlast : d.keys "b" = .ok ([.whole 2, .real .negativeZero].map Number.toBinary64) :=
      hkeys [("b", [.whole 1]), ("a", [])] "b" _ [] rfl nofun
    exact ⟨d, hd, hlast, hother "c" (by decide)⟩

end TracedIndex.IndexData
