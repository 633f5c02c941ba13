import TracedIndex.Proofs.Tree.Scan
import TracedIndex.Tree.Session

/-!
# Sessions without a fault

Whatever can go wrong in an arena is a fault, and the first fault ends a session. None occurs as long as
the numbers last, and they do for `2 ^ 31` keys, since a tree has fewer than two nodes for each key.

* `Lawful.ask_ok`: a query to a lawful tree is answered;
* `InOrder.answer_ok`: so is a request to a tree in order, which leaves one in order behind;
* `InOrder.answers_ok`: and so is a session, while there are few keys;
* `InOrder.nodeCount_le`: how many nodes a tree has;
* **`answers_of_few_inserts`**: a session of at most `2 ^ 31` insertions.
-/

namespace TracedIndex

variable {K : Type}

namespace Request

/-- The request changes the tree. -/
def isInsert : Request K → Bool
  | .insert _ => true
  | .ask _ => false

end Request

namespace Tree

variable [Ord K] [Std.TransOrd K] {o : Order} {t : Tree K o} {d : Nat} {root : Subtree K}

/-- There is a scan for all bounds, and the keys in front of it are keys of the tree. -/
theorem Lawful.exists_scan (h : t.Lawful d root) (above upTo : K) :
    ∃ (s : Scan K) (ks : List K), t.scan above upTo = .ok s ∧ s.cursor.Faces t.arena ks ∧
      ks.length ≤ root.keysIn.length := by
  by_cases hle : (compare above upTo).isLE
  · obtain ⟨s, -, ks, hs, -, -, hfaces, hlen, -⟩ := h.scan_faces hle
    exact ⟨s, ks, hs, hfaces, hlen⟩
  · have hgt : (compare above upTo).isGT := by rw [← Ordering.not_isLE_eq_isGT]; simpa using hle
    exact ⟨⟨above, upTo, [], .over⟩, [], by rw [scan, if_pos hgt]; rfl, .ended, Nat.zero_le _⟩

/-- **Every query to a lawful tree is answered.** -/
theorem Lawful.ask_ok (h : t.Lawful d root) (q : Query K) : ∃ a, t.ask q = .ok a := by
  cases q with
  | measures => exact ⟨_, by rw [ask, h.height_eq]; rfl⟩
  | search key =>
    obtain ⟨-, -, -, -, r, -, -, -, hr, -⟩ := h.search_eq key
    exact ⟨_, by rw [ask, hr]; rfl⟩
  | contains key =>
    obtain ⟨-, -, -, -, r, -, -, -, hr, -⟩ := h.search_eq key
    exact ⟨_, by rw [ask, contains_eq, hr]; rfl⟩
  | iterate times =>
    obtain ⟨c, hc, hyields⟩ := h.yields
    obtain ⟨c', hc'⟩ := hyields times
    exact ⟨_, by rw [ask, hc]; simp only [bind, Except.bind, hc']; rfl⟩
  | list => exact ⟨_, by rw [ask, h.toList_eq]; rfl⟩
  | scan above upTo times =>
    obtain ⟨s, ks, hs, hfaces, -⟩ := h.exists_scan above upTo
    obtain ⟨s', hs', -⟩ := Scan.yields_of_faces hfaces times
    exact ⟨_, by rw [ask, hs]; simp only [bind, Except.bind, hs']; rfl⟩
  | scanList above upTo =>
    obtain ⟨s, ks, hs, hfaces, hlen⟩ := h.exists_scan above upTo
    have hlist := scanList_of_faces hs hfaces (hlen.trans h.stores.length_keysIn_le)
    exact ⟨_, by rw [ask, hlist]; rfl⟩
  | snapshot => exact ⟨_, by rw [ask, h.snapshot_eq]; rfl⟩

/-- **Every request to a tree in order is answered, and leaves a tree in order behind**, provided that
there are few keys where one more is inserted. -/
theorem InOrder.answer_ok (h : t.InOrder d root) (r : Request K)
    (hfew : r.isInsert → root.keysIn.length < 2 ^ 31) :
    ∃ (a : Answer K) (t' : Tree K o) (d' : Nat) (root' : Subtree K), t.answer r = .ok (a, t') ∧
      t'.InOrder d' root' ∧
      root'.keysIn.length = root.keysIn.length + if r.isInsert then 1 else 0 := by
  cases r with
  | insert key =>
    rcases insert_spec h key with ⟨t', d', root', ht', hin, hkeys⟩ | ⟨-, hmany⟩
    · refine ⟨.root t'.root, t', d', root', by rw [answer, insertRoot_eq, ht']; rfl, hin, ?_⟩
      rw [hkeys, length_insertBehind]
      rfl
    · exact absurd (hfew rfl) (Nat.not_lt.mpr hmany)
  | ask q =>
    obtain ⟨a, ha⟩ := h.lawful.ask_ok q
    exact ⟨a, t, d, root, by rw [answer, ha]; rfl, h, rfl⟩

/-- **A session is answered to its end, while the keys in the tree and those to be inserted are few.** -/
theorem InOrder.answers_ok {requests : List (Request K)} (h : t.InOrder d root)
    (hfew : root.keysIn.length + requests.countP Request.isInsert ≤ 2 ^ 31) :
    ∃ answers, t.answers requests = .ok answers ∧ answers.length = requests.length := by
  induction requests generalizing t d root with
  | nil => exact ⟨[], rfl, rfl⟩
  | cons r requests ih =>
    rw [List.countP_cons] at hfew
    obtain ⟨a, t', d', root', hanswer, hin, hlen⟩ := h.answer_ok r fun hr => by
      rw [if_pos hr] at hfew
      omega
    obtain ⟨answers, hanswers, hlength⟩ := ih hin (by omega)
    refine ⟨a :: answers, ?_, by rw [List.length_cons, hlength, List.length_cons]⟩
    rw [Tree.answers, hanswer]
    simp only [bind, Except.bind, hanswers]
    rfl

omit [Std.TransOrd K] in
/-- **A tree has fewer than two nodes for each key.** -/
theorem InOrder.nodeCount_le (h : t.InOrder d root) (hlen : 1 ≤ t.len) :
    t.nodeCount ≤ 2 * t.len - 1 := by
  rw [h.len_eq] at hlen ⊢
  have hsize := h.regular.size_lt (List.length_pos_iff.mp hlen)
  rw [h.stores.size_eq] at hsize
  exact Nat.le_sub_one_of_lt hsize

/-- **No request of a session meets a fault, as long as it inserts at most `2 ^ 31` keys**: each number
that is followed names a node of the right kind, the child that a descent picks is there, each split
finds a key for its separator and its place among the children of the parent, and there is a number left
for each fresh node. That is because every tree has fewer than two nodes for each key. -/
theorem answers_of_few_inserts :
    (∀ requests : List (Request K), requests.countP Request.isInsert ≤ 2 ^ 31 →
      ∃ answers, (empty : Tree K o).answers requests = .ok answers ∧
        answers.length = requests.length) ∧
    ∀ t : Tree K o, t.Reachable → 1 ≤ t.len → t.nodeCount ≤ 2 * t.len - 1 := by
  refine ⟨fun requests hfew => ?_, fun t h hlen => ?_⟩
  · refine inOrder_empty.answers_ok ?_
    rwa [Subtree.keysIn_leaf, List.length_nil, Nat.zero_add]
  · obtain ⟨d, root, hin⟩ := h.inOrder
    exact hin.nodeCount_le hlen

/-- Four insertions, the third of which splits the one leaf, with queries in between. -/
theorem answers_of_four_inserts :
    (∃ answers, (empty : Tree Nat .standard).answers [.ask .measures, .insert 2, .ask (.search 1),
        .insert 1, .ask (.iterate 4), .insert 2, .ask (.scanList 1 2), .insert 2, .ask .snapshot] =
          .ok answers ∧ answers.length = 9) ∧
      ∃ t : Tree Nat .standard, ofKeys [2, 1, 2, 2] = .ok t ∧ t.len = 4 ∧ t.nodeCount ≤ 7 := by
  obtain ⟨hanswers, hcount⟩ := answers_of_few_inserts (K := Nat) (o := .standard)
  refine ⟨hanswers _ (by decide), ?_⟩
  have hrun : (ofKeys [2, 1, 2, 2] : Except Fault (Tree Nat .standard)).bind
      (fun t => .ok t.len) = .ok 4 := by cbv
  obtain ⟨t, ht, hlen⟩ := bind_eq_ok_iff.mp hrun
  have hfour : t.len = 4 := Except.ok.inj hlen
  have hle := hcount t ⟨_, ht⟩ (by omega)
  exact ⟨t, ht, hfour, by omega⟩

end Tree

end TracedIndex
