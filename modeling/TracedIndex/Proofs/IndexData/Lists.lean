import Mathlib.Data.List.Induction
import Mathlib.Tactic.SplitIfs
import TracedIndex.Explorer
import TracedIndex.Proofs.Basic

/-!
# Lists by name

Lists are looked up by their names, and the list that was inserted last under a name is the one that is
found. The names ascend by the codes of their characters, and that is also the order of their bytes, since
the code of a character is spread over its bytes from the front, and longer codes have greater first bytes.

* `keys?_insert`, `keys?_insertAll`: what is found after some lists were inserted;
* `mem_names_iff`: the names are those under which a list is found;
* `utf8EncodeChar_append_lt`, **`utf8_lt_of_lt`**: the order of names is that of their bytes;
* **`insertAll_entries`**: the entries of some index data, inserted one after another, give the same data.
-/

namespace TracedIndex.IndexData

variable {d : IndexData} {name : String}

/-! ## Lookup -/

theorem lookup_insertEntry (name n : String) (xs : List Binary64) (es : List (String × List Binary64)) :
    (insertEntry name xs es).lookup n = if n = name then some xs else es.lookup n := by
  induction es with
  | nil => rw [insertEntry, lookup_cons_eq]
  | cons e es ih =>
    rw [insertEntry]
    split
    · rw [lookup_cons_eq]
    · split
      · next heq =>
        rw [lookup_cons_eq, lookup_cons_eq, heq]
        split <;> rfl
      · next hne =>
        rw [lookup_cons_eq, ih, lookup_cons_eq]
        split
        · next heq => rw [if_neg fun h => hne (h.symm.trans heq)]
        · rfl

theorem keys?_insert (d : IndexData) (name n : String) (xs : List Binary64) :
    (d.insert name xs).keys? n = if n = name then some xs else d.keys? n :=
  lookup_insertEntry name n xs d.entries

theorem insertAll_cons (d : IndexData) (e : String × List Binary64) (es : List (String × List Binary64)) :
    d.insertAll (e :: es) = (d.insert e.1 e.2).insertAll es := rfl

theorem insertAll_concat (d : IndexData) (es : List (String × List Binary64))
    (e : String × List Binary64) : d.insertAll (es ++ [e]) = (d.insertAll es).insert e.1 e.2 :=
  List.foldl_append

/-- The last list of a name, if there is one. -/
def lastOf (name : String) (es : List (String × List Binary64)) : Option (List Binary64) :=
  (es.filter fun e => e.1 == name).getLast?.map Prod.snd

theorem lastOf_append_cons {name : String} {before after : List (String × List Binary64)}
    {xs : List Binary64} (hafter : ∀ e ∈ after, e.1 ≠ name) :
    lastOf name (before ++ (name, xs) :: after) = some xs := by
  have hnone : after.filter (fun e => e.1 == name) = [] :=
    List.filter_eq_nil_iff.mpr fun e he h => hafter e he (beq_iff_eq.mp h)
  rw [lastOf, List.filter_append, List.filter_cons, if_pos (beq_iff_eq.mpr rfl), hnone,
    List.getLast?_concat, Option.map_some]

theorem isSome_lastOf_iff {name : String} {es : List (String × List Binary64)} :
    (lastOf name es).isSome ↔ ∃ e ∈ es, e.1 = name := by
  rw [lastOf, Option.isSome_map, List.getLast?_isSome, ← List.length_pos_iff, List.length_filter_pos_iff]
  simp only [beq_iff_eq]

/-- **The list that was inserted last under a name is found.** -/
theorem keys?_insertAll (d : IndexData) (es : List (String × List Binary64)) (name : String) :
    (d.insertAll es).keys? name = (lastOf name es).or (d.keys? name) := by
  induction es generalizing d with
  | nil => rfl
  | cons e es ih =>
    rw [insertAll_cons, ih, keys?_insert, lastOf, lastOf, List.filter_cons]
    by_cases hname : e.1 = name
    · rw [if_pos hname.symm, if_pos (beq_iff_eq.mpr hname), List.getLast?_cons]
      cases (es.filter fun e => e.1 == name).getLast? <;> rfl
    · rw [if_neg (Ne.symm hname), if_neg (by simpa using hname)]

theorem keys?_insertAll_empty (es : List (String × List Binary64)) (name : String) :
    (empty.insertAll es).keys? name = lastOf name es := by
  rw [keys?_insertAll]
  exact Option.or_none

theorem mem_names_iff : name ∈ d.names ↔ (d.keys? name).isSome := by
  rw [names, keys?]
  induction d.entries with
  | nil => simp
  | cons e es ih =>
    rw [List.map_cons, List.mem_cons, ih, lookup_cons_eq]
    split
    · next h => exact iff_of_true (.inl h) rfl
    · next h => exact or_iff_right h

/-! ## The order of names -/

/-- Of two numbers, the lesser has the lesser digit to the base 64, if the digits before it are the same. -/
theorem digit_lt {n n' : Nat} (h : n < n') : n / 64 < n' / 64 ∨ n / 64 = n' / 64 ∧ n % 64 < n' % 64 := by
  omega

/-- The bytes of a character hold the digits of its code, and the first one also says how many there are. -/
theorem utf8EncodeChar_append_lt {c c' : Char} (h : c < c') (bs bs' : List UInt8) :
    String.utf8EncodeChar c ++ bs < String.utf8EncodeChar c' ++ bs' := by
  have hlt : c.val.toNat < c'.val.toNat := h
  have hmax : c'.val.toNat < 0x110000 := by
    have := c'.valid
    unfold UInt32.isValidChar Nat.isValidChar at this
    omega
  simp only [String.utf8EncodeChar]
  generalize c.val.toNat = n at *
  generalize c'.val.toNat = n' at *
  have hlast := digit_lt hlt
  have hmiddle : n / 64 < n' / 64 → _ := digit_lt
  have hfirst : n / 64 / 64 < n' / 64 / 64 → _ := digit_lt
  simp only [Nat.div_div_eq_div_mul, Nat.reduceMul] at hlast hmiddle hfirst
  -- both characters may have one to four bytes
  split_ifs <;>
    simp only [List.cons_append, List.nil_append, List.cons_lt_cons_iff, UInt8.lt_iff_toNat_lt,
      ← UInt8.toNat_inj, UInt8.toNat_ofNat']
  all_goals simp (disch := omega) only [Nat.mod_eq_of_lt]
  all_goals omega

theorem flatMap_utf8EncodeChar_lt {cs cs' : List Char} (h : cs < cs') :
    cs.flatMap String.utf8EncodeChar < cs'.flatMap String.utf8EncodeChar := by
  induction cs generalizing cs' with
  | nil =>
    cases cs' with
    | nil => exact absurd h (List.lt_irrefl [])
    | cons c' cs' =>
      obtain ⟨b, bs, hb⟩ := List.exists_cons_of_ne_nil (String.utf8EncodeChar_ne_nil (c := c'))
      rw [List.flatMap_cons, hb]
      exact List.nil_lt_cons _ _
  | cons c cs ih =>
    cases cs' with
    | nil => exact absurd h (List.not_lt_nil _)
    | cons c' cs' =>
      rw [List.flatMap_cons, List.flatMap_cons]
      rcases List.cons_lt_cons_iff.mp h with hc | ⟨rfl, hcs⟩
      · exact utf8EncodeChar_append_lt hc _ _
      · exact List.append_left_lt (ih hcs)

/-- **The order of strings is that of their bytes.** -/
theorem utf8_lt_of_lt {s s' : String} (h : s < s') : s.toUTF8.data.toList < s'.toUTF8.data.toList := by
  have hbytes (s : String) : s.toUTF8.data.toList = s.toList.flatMap String.utf8EncodeChar := by
    rw [String.toUTF8_eq_toByteArray, ← String.utf8Encode_toList, List.utf8Encode,
      List.toList_data_toByteArray]
  rw [hbytes, hbytes]
  exact flatMap_utf8EncodeChar_lt h

/-! ## Entries -/

/-- A list whose name is behind all others is put at the end. -/
theorem insertEntry_of_lt {xs : List Binary64} {es : List (String × List Binary64)}
    (h : ∀ e ∈ es, e.1 < name) : insertEntry name xs es = es ++ [(name, xs)] := by
  induction es with
  | nil => rfl
  | cons e es ih =>
    obtain ⟨he, hes⟩ := List.forall_mem_cons.mp h
    rw [insertEntry, if_neg (String.lt_asymm he), if_neg (String.ne_of_lt he).symm, ih hes]
    rfl

/-- **The entries of some index data, inserted one after another, give the same data.** -/
theorem insertAll_entries (d : IndexData) : empty.insertAll d.entries = d := by
  have hfront : ∀ es : List (String × List Binary64), es <+: d.entries →
      (empty.insertAll es).entries = es := by
    intro es
    induction es using List.reverseRecOn with
    | nil => exact fun _ => rfl
    | append_singleton es e ih =>
      intro hes
      have hlt := d.ascending.sublist hes.sublist
      rw [List.pairwise_append] at hlt
      rw [insertAll_concat]
      change insertEntry e.1 e.2 (empty.insertAll es).entries = _
      rw [ih ((List.prefix_append es [e]).trans hes)]
      exact insertEntry_of_lt fun e' he' => hlt.2.2 e' he' e List.mem_cons_self
  have hentries := hfront d.entries (List.prefix_refl _)
  cases hd : empty.insertAll d.entries
  cases d
  simp_all

end TracedIndex.IndexData
