import TracedIndex.Proofs.Arena.Map
import TracedIndex.Tree.Session

/-!
# Other keys in the same session

A change of keys that keeps how they compare goes along with all that a tree is asked: each key in a
question and in an answer changes, and nothing else does.

* `Cursor.nextWithin_map`, `Cursor.rest_map`: what a cursor gives;
* **`Tree.scanList_map`**: a range scan between the new bounds;
* `Query.map`, `Request.map`, `Answer.map`: the change in what is asked and answered;
* **`Tree.answers_map`**: the answers of a session.
-/

namespace TracedIndex

variable {K L : Type} {f : K → L}

/-! ## Cursors -/

def Reading.map (f : K → L) : Reading K → Reading L
  | .taken key pos => .taken (f key) pos
  | .stopped => .stopped
  | .finished => .finished

theorem Reading.ofKeys_map {judge : K → Verdict} {judge' : L → Verdict}
    (hj : ∀ k, judge' (f k) = judge k) (pos : Nat) (ks : List K) :
    Reading.ofKeys judge' pos (ks.map f) = (Reading.ofKeys judge pos ks).map f := by
  induction ks generalizing pos with
  | nil => rfl
  | cons k ks ih =>
    rw [List.map_cons, ofKeys, ofKeys, hj]
    cases judge k with
    | skip => exact ih (pos + 1)
    | _ => rfl

theorem Arena.length_keys_map (f : K → L) (a : Arena K) :
    ((a.map f).nodes.toList.flatMap Node.keys).length = (a.nodes.toList.flatMap Node.keys).length := by
  simp only [map, Array.toList_map, List.flatMap_map, Node.keys_map, List.length_flatMap,
    List.length_map]

theorem Verdict.always_map (f : K → L) (k : K) : always (f k) = always k := rfl

namespace Cursor

variable (a : Arena K) {judge : K → Verdict} {judge' : L → Verdict}
  (hj : ∀ k, judge' (f k) = judge k)

include hj

theorem nextWithin_map (fuel : Nat) (c : Cursor) :
    c.nextWithin (a.map f) judge' fuel =
      (c.nextWithin a judge fuel).map fun p => (p.1.map f, p.2) := by
  induction fuel generalizing c with
  | zero => cases c <;> rfl
  | succ fuel ih =>
    match c with
    | .over => rfl
    | .within id pos =>
      refine bind_eq_map (Arena.leaf_map f a id) fun l => ?_
      simp only [Leaf.map, ← List.map_drop, Reading.ofKeys_map hj]
      cases Reading.ofKeys judge pos (l.keys.drop pos) with
      | taken key pos => rfl
      | stopped => rfl
      | finished =>
        cases l.next with
        | none => rfl
        | some next => exact ih (.within next 0)

theorem next_map (c : Cursor) :
    c.next (a.map f) judge' = (c.next a judge).map fun p => (p.1.map f, p.2) := by
  rw [next, Arena.size_map, nextWithin_map a hj]
  rfl

theorem nextTimes_map (times : Nat) (c : Cursor) :
    c.nextTimes (a.map f) judge' times =
      (c.nextTimes a judge times).map fun p => (p.1.map (Option.map f), p.2) := by
  induction times generalizing c with
  | zero => rfl
  | succ times ih =>
    exact bind_eq_map (next_map a hj c) fun ⟨k, c⟩ => bind_eq_map (ih c) fun _ => rfl

theorem restWithin_map (fuel : Nat) (c : Cursor) :
    c.restWithin (a.map f) judge' fuel =
      (c.restWithin a judge fuel).map fun p => (p.1.map f, p.2) := by
  induction fuel generalizing c with
  | zero => rfl
  | succ fuel ih =>
    refine bind_eq_map (next_map a hj c) fun ⟨k, c⟩ => ?_
    cases k with
    | none => rfl
    | some k => exact bind_eq_map (ih c) fun _ => rfl

theorem rest_map (c : Cursor) :
    c.rest (a.map f) judge' = (c.rest a judge).map fun p => (p.1.map f, p.2) := by
  rw [rest, Arena.length_keys_map, restWithin_map a hj]
  rfl

end Cursor

/-! ## Questions to a tree -/

def Scan.map (f : K → L) (s : Scan K) : Scan L := ⟨f s.above, f s.upTo, s.path, s.cursor⟩

theorem Scan.judge_map [Ord K] [Ord L] (hf : ∀ x y, compare (f x) (f y) = compare x y) (s : Scan K)
    (k : K) : (s.map f).judge (f k) = s.judge k := by
  simp only [judge, map, Verdict.ofBounds, hf]

def ScanResult.map (f : K → L) (r : ScanResult K) : ScanResult L := ⟨r.keys.map f, r.path⟩

namespace Tree

variable {o : Order} (t : Tree K o)

theorem iterate_map (f : K → L) : (t.map f).iterate = t.iterate := by
  rw [iterate, iterate, firstLeaf_map]

theorem toList_map (f : K → L) : (t.map f).toList = t.toList.map (List.map f) := by
  rw [toList, toList, iterate_map]
  refine bind_eq_map (φ := id) (by cases t.iterate <;> rfl) fun c => ?_
  exact bind_eq_map (Cursor.rest_map t.arena (Verdict.always_map f) c) fun _ => rfl

section

variable [Ord K] [Ord L] (hf : ∀ x y, compare (f x) (f y) = compare x y)

include hf

theorem scan_map (above upTo : K) :
    (t.map f).scan (f above) (f upTo) = (t.scan above upTo).map (Scan.map f) := by
  rw [scan, scan, findLeaf_map hf, hf]
  split
  · rfl
  · cases t.findLeaf above <;> rfl

/-- **A range scan among other keys gives the other keys**, on the same path. -/
theorem scanList_map (above upTo : K) :
    (t.map f).scanList (f above) (f upTo) = (t.scanList above upTo).map (ScanResult.map f) := by
  refine bind_eq_map (scan_map t hf above upTo) fun s => ?_
  refine bind_eq_map (φ := fun p => (p.1.map f, p.2.map f)) ?_ fun _ => rfl
  exact bind_eq_map (Cursor.rest_map t.arena (Scan.judge_map hf s) s.cursor) fun _ => rfl

end

end Tree

/-! ## Sessions -/

def Query.map (f : K → L) : Query K → Query L
  | measures => .measures
  | search key => .search (f key)
  | contains key => .contains (f key)
  | iterate times => .iterate times
  | list => .list
  | scan above upTo times => .scan (f above) (f upTo) times
  | scanList above upTo => .scanList (f above) (f upTo)
  | snapshot => .snapshot

def Request.map (f : K → L) : Request K → Request L
  | insert key => .insert (f key)
  | ask q => .ask (q.map f)

def Answer.map (f : K → L) : Answer K → Answer L
  | root id => .root id
  | measures id len height nodeCount => .measures id len height nodeCount
  | search r => .search r
  | contains found => .contains found
  | iterate keys => .iterate (keys.map (Option.map f))
  | list keys => .list (keys.map f)
  | scan keys path => .scan (keys.map (Option.map f)) path
  | scanList r => .scanList (r.map f)
  | snapshot s => .snapshot (s.map f)

namespace Tree

variable {o : Order} [Ord K] [Ord L] (hf : ∀ x y, compare (f x) (f y) = compare x y)

include hf

theorem ask_map (t : Tree K o) (q : Query K) : (t.map f).ask (q.map f) = (t.ask q).map (Answer.map f) := by
  cases q with
  | measures =>
    rw [ask, Query.map, ask, height_map, nodeCount, map, Arena.size_map]
    cases t.height <;> rfl
  | search key =>
    rw [ask, Query.map, ask, search_map hf]
    cases t.search key <;> rfl
  | contains key =>
    rw [ask, Query.map, ask, contains_eq, contains_eq, search_map hf]
    cases t.search key <;> rfl
  | iterate times =>
    rw [ask, Query.map, ask, iterate_map]
    refine bind_eq_map (φ := id) (by cases t.iterate <;> rfl) fun c => ?_
    exact bind_eq_map (Cursor.nextTimes_map t.arena (Verdict.always_map f) times c)
      fun _ => rfl
  | list => exact bind_eq_map (toList_map t f) fun _ => rfl
  | scan above upTo times =>
    refine bind_eq_map (scan_map t hf above upTo) fun s => ?_
    refine bind_eq_map (φ := fun p => (p.1.map (Option.map f), p.2.map f)) ?_ fun _ => rfl
    exact bind_eq_map (Cursor.nextTimes_map t.arena (Scan.judge_map hf s) times s.cursor) fun _ => rfl
  | scanList above upTo => exact bind_eq_map (scanList_map t hf above upTo) fun _ => rfl
  | snapshot => exact bind_eq_map (snapshot_map f t) fun _ => rfl

theorem answer_map (t : Tree K o) (r : Request K) :
    (t.map f).answer (r.map f) = (t.answer r).map fun p => (p.1.map f, p.2.map f) := by
  cases r with
  | insert key => exact bind_eq_map (insertRoot_map hf t key) fun _ => rfl
  | ask q => exact bind_eq_map (ask_map hf t q) fun _ => rfl

/-- **No session tells keys from others that compare in the same way**: among the other keys it gives the
same answers with the other keys in them, and ends in the same fault, if in one. -/
theorem answers_map (t : Tree K o) (requests : List (Request K)) :
    (t.map f).answers (requests.map (Request.map f)) =
      (t.answers requests).map (List.map (Answer.map f)) := by
  induction requests generalizing t with
  | nil => rfl
  | cons r requests ih =>
    exact bind_eq_map (answer_map hf t r) fun ⟨a, t⟩ => bind_eq_map (ih t) fun _ => rfl

end Tree

end TracedIndex
