import Mathlib.Data.List.Infix
import TracedIndex.Explorer.History
import TracedIndex.Proofs.Binary64.Order
import TracedIndex.Proofs.Tree.Session

/-!
# What a history leaves behind

An explorer holds one list of numbers, in the order in which they came. A load replaces the list, an
insertion puts a number behind it, and whatever fails leaves it. Its tree is always the one that arises
from inserting the keys of the list one after another, so that nothing of an earlier tree is left.

* `Explorer.call_eq`: a call in place, as a call on values;
* `Ends`: what a call can end in; `Explorer.Holds`: the numbers that an explorer holds;
* `Holds.call_spec`, `Holds.run_spec`: what a call and a history leave behind;
* **`Explorer.run_history`**: every history of calls on an empty explorer.
-/

namespace TracedIndex

variable {o : Order}

/-! ## The ends of a call -/

/-- What a call ends in, if `failure?` is the failure that its arguments lead to: in this failure, in a
value with the property `P`, or in want of a number for a node, which takes more than `2 ^ 31` keys. -/
inductive Ends {α : Type} (failure? : Option Error) (keys : Nat) (P : α → Prop) :
    Except Error α → Prop
  | failed {x : Error} (eq : failure? = some x) : Ends failure? keys P (.error x)
  | done {a : α} (eq : failure? = none) (holds : P a) : Ends failure? keys P (.ok a)
  | exhausted (eq : failure? = none) (many : 2 ^ 31 < keys) :
    Ends failure? keys P (.error (.fault .exhausted))

namespace Ends

variable {α β : Type} {failure? : Option Error} {keys keys' : Nat} {P Q : α → Prop} {x : Except Error α}

/-- If the arguments lead to no failure, the end may be described in another way. -/
theorem imp (h : Ends failure? keys P x)
    (hPQ : failure? = none → keys ≤ keys' ∧ ∀ a, P a → Q a) : Ends failure? keys' Q x := by
  cases h with
  | failed eq => exact .failed eq
  | done eq holds => exact .done eq ((hPQ eq).2 _ holds)
  | exhausted eq many => exact .exhausted eq (Nat.lt_of_lt_of_le many (hPQ eq).1)

theorem eq_error {y : Error} (h : Ends (some y) keys P x) : x = .error y := by
  cases h with
  | failed eq => rw [Option.some.inj eq]
  | done eq holds => cases eq
  | exhausted eq many => cases eq

theorem exists_ok (h : Ends none 0 P x) : ∃ a, x = .ok a ∧ P a := by
  cases h with
  | failed eq => cases eq
  | done eq holds => exact ⟨_, rfl, holds⟩
  | exhausted eq many => exact absurd many (Nat.not_lt_zero _)

theorem map {f : α → β} {R : β → Prop} (h : Ends failure? keys P x) (hf : ∀ a, P a → R (f a)) :
    Ends failure? keys R (x.map f) := by
  cases h with
  | failed eq => exact .failed eq
  | done eq holds => exact .done eq (hf _ holds)
  | exhausted eq many => exact .exhausted eq many

/-- Two steps, the second of which cannot fail for the arguments. -/
theorem bind {f : α → Except Error β} {R : β → Prop} (h : Ends failure? keys P x)
    (hkeys : keys ≤ keys') (hf : ∀ a, x = .ok a → P a → Ends none keys' R (f a)) :
    Ends failure? keys' R (x.bind f) := by
  cases h with
  | failed eq => exact .failed eq
  | done eq holds => exact eq ▸ hf _ rfl holds
  | exhausted eq many => exact .exhausted eq (Nat.lt_of_lt_of_le many hkeys)

/-- Two steps, the first of which needs no nodes: they fail as the first does, or else as the second. -/
theorem or_bind {f : α → Except Error β} {more? : Option Error} {R : β → Prop}
    (h : Ends failure? 0 P x) (hf : ∀ a, x = .ok a → P a → Ends more? keys R (f a)) :
    Ends (failure?.or more?) keys R (x.bind f) := by
  cases h with
  | failed eq => exact .failed (by rw [eq]; rfl)
  | done eq holds => exact eq ▸ hf _ rfl holds
  | exhausted eq many => exact absurd many (Nat.not_lt_zero _)

end Ends

/-! ## Keys of numbers -/

namespace Call

theorem failureOf_singleton (x : Binary64) :
    failureOf [x] = if x.isNaN then some .invalidKey else none := by
  simp [failureOf]

theorem eq_of_failureOf {xs : List Binary64} {x : Error} (h : failureOf xs = some x) :
    x = .invalidKey := by
  unfold failureOf at h
  split at h
  · exact (Option.some.inj h).symm
  · cases h

/-- The failure that arguments lead to is never a fault. -/
theorem ne_fault_of_failure? {c : Call} {x : Error} (h : c.failure? = some x) (f : Fault) :
    x ≠ .fault f := by
  have hkeys : ∀ xs, failureOf xs = some x → x ≠ .fault f := fun xs hxs => by
    rw [eq_of_failureOf hxs]
    nofun
  cases c with
  | bulkLoad xs => exact hkeys xs h
  | loadIndex d name =>
    rw [failure?] at h
    split at h
    · rw [← Option.some.inj h]
      nofun
    · exact hkeys _ h
  | insert x => exact hkeys [x] h
  | ask q =>
    cases q with
    | search x => exact hkeys [x] h
    | rangeScan above upTo => exact hkeys [above, upTo] h
    | _ => cases h

theorem store_of_none {c : Call} {xs : List Binary64} (h : c.failure? = none) :
    c.store xs = c.behind xs := by
  rw [store, h]
  rfl

theorem store_of_some {c : Call} {x : Error} {xs : List Binary64} (h : c.failure? = some x) :
    c.store xs = xs := by
  rw [store, h]
  rfl

theorem failureOf_cons (x : Binary64) (xs : List Binary64) :
    failureOf (x :: xs) = (failureOf [x]).or (failureOf xs) := by
  unfold failureOf
  rw [List.any_cons, List.any_cons]
  cases x.isNaN <;> simp

end Call

namespace Key

theorem ofBinary64_ends (x : Binary64) :
    Ends (Call.failureOf [x]) 0 (fun _ => True) (ofBinary64 x) := by
  rw [ofBinary64, Call.failureOf_singleton]
  cases hk : ofBinary64? x with
  | none => exact .failed (if_pos (ofBinary64?_eq_none_iff.mp hk))
  | some k => exact .done (by rw [(ofBinary64?_eq_some_iff.mp hk).1]; rfl) trivial

/-- Some numbers have keys unless there is a NaN among them. -/
theorem mapM_ofBinary64_ends (xs : List Binary64) :
    Ends (Call.failureOf xs) 0 (List.Forall₂ (fun x k => ofBinary64 x = .ok k) xs)
      (xs.mapM ofBinary64) := by
  induction xs with
  | nil => exact .done rfl .nil
  | cons x xs ih =>
    rw [List.mapM_cons, Call.failureOf_cons]
    refine (ofBinary64_ends x).or_bind fun k hk _ => ?_
    exact ih.bind (Nat.le_refl _) fun keys _ hkeys => .done rfl (.cons hk hkeys)

theorem forall₂_of_mapM {xs : List Binary64} {keys : List Key}
    (h : xs.mapM ofBinary64 = .ok keys) : List.Forall₂ (fun x k => ofBinary64 x = .ok k) xs keys := by
  have hends := mapM_ofBinary64_ends xs
  rw [h] at hends
  cases hends with
  | done eq hkeys => exact hkeys

end Key

namespace Explorer

variable {e : Explorer o}

/-! ## Calls in place -/

/-- A call on the explorer as a value. -/
def result (e : Explorer o) : Call → Except Error (Reply × Explorer o)
  | .bulkLoad xs => (e.bulkLoad xs).map fun e => (.loaded, e)
  | .loadIndex d name => (e.loadIndex d name).map fun e => (.loaded, e)
  | .insert x => (e.insert x).map fun e => (.root e.tree.root, e)
  | .ask q => (e.ask q).map fun r => (r, e)

/-- What comes of a call in place that gives `x`: a fault ends everything, and any other failure leaves
the explorer `e` as it was. -/
def settled {α : Type} (e : Explorer o) :
    Except Error (α × Explorer o) → Except Fault (Except Error α × Explorer o)
  | .ok (r, e') => .ok (.ok r, e')
  | .error (.fault f) => .error f
  | .error x => .ok (.error x, e)

namespace Action

theorem run_attempt {α : Type} (x : Except Error α) :
    (attempt x : Action o α).run.run e = settled e (x.map fun a => (a, e)) := by
  cases x with
  | ok a => rfl
  | error x => cases x <;> rfl

/-- As long as nothing was changed, a failure leaves the explorer as it was. -/
theorem run_attempt_bind {α β : Type} (x : Except Error α) (f : α → Action o β)
    {g : α → Except Error (β × Explorer o)} (h : ∀ a, (f a).run.run e = settled e (g a)) :
    (attempt x >>= f).run.run e = settled e (x.bind g) := by
  cases x with
  | ok a => exact h a
  | error x => cases x <;> rfl

theorem run_load (xs : List Binary64) (r : Reply) :
    (load xs >>= fun _ => pure r : Action o Reply).run.run e =
      settled e ((e.bulkLoad xs).map fun e => (r, e)) := by
  rw [load, bind_assoc]
  refine (run_attempt_bind _ _ fun keys => ?_).trans (b := settled e ((xs.mapM Key.ofBinary64).bind
    fun keys => ((Tree.ofKeys keys).mapError .fault).bind fun t => .ok (r, ⟨t⟩))) ?_
  · rw [bind_assoc]
    exact run_attempt_bind _ _ fun t => rfl
  · rw [bulkLoad]
    cases xs.mapM Key.ofBinary64 with
    | error x => rfl
    | ok keys =>
      simp only [bind, Except.bind]
      cases (Tree.ofKeys keys : Except Fault (Tree Key o)) <;> rfl

end Action

/-- **A call in place does what the call on values does, and where that one fails it leaves the explorer
as it was.** -/
theorem call_eq (e : Explorer o) (c : Call) : e.call c = settled e (e.result c) := by
  cases c with
  | bulkLoad xs => exact Action.run_load xs .loaded
  | loadIndex d name =>
    refine (Action.run_attempt_bind (d.keys name) _ fun xs => Action.run_load xs .loaded).trans ?_
    rw [result, loadIndex]
    cases d.keys name <;> rfl
  | insert x =>
    refine (Action.run_attempt_bind (Key.ofBinary64 x) _ fun k => ?_).trans (b := settled e
      ((Key.ofBinary64 x).bind fun k => ((e.tree.insertRoot k).mapError .fault).bind fun p =>
        .ok (.root p.1, ⟨p.2⟩))) ?_
    · exact Action.run_attempt_bind _ _ fun p => rfl
    · rw [result, insert]
      cases Key.ofBinary64 x with
      | error x => rfl
      | ok k =>
        simp only [bind, Except.bind, Tree.insertRoot_eq]
        cases e.tree.insert k <;> rfl
  | ask q => exact Action.run_attempt (e.ask q)

/-! ## What an explorer holds -/

/-- The tree of the explorer arises from inserting the keys of `xs` in their order. -/
def Holds (e : Explorer o) (xs : List Binary64) : Prop :=
  ∃ keys, xs.mapM Key.ofBinary64 = .ok keys ∧ Tree.ofKeys keys = .ok e.tree

theorem holds_empty : (empty : Explorer o).Holds [] := ⟨[], rfl, rfl⟩

/-- A tree that is built of the keys of some numbers. -/
theorem ofKeys_ends {xs : List Binary64} {keys : List Key} (h : xs.mapM Key.ofBinary64 = .ok keys) :
    Ends none xs.length (fun t : Tree Key o => (⟨t⟩ : Explorer o).Holds xs)
      ((Tree.ofKeys keys).mapError .fault) := by
  rcases Tree.ofKeys_spec (o := o) keys with ⟨t, -, -, ht, -⟩ | ⟨hex, hlen⟩
  · rw [ht]
    exact .done rfl ⟨keys, h, ht⟩
  · rw [hex]
    exact .exhausted rfl ((Key.forall₂_of_mapM h).length_eq ▸ hlen)

/-- A load puts a new tree in the place of the old one. -/
theorem bulkLoad_ends (e : Explorer o) (xs : List Binary64) :
    Ends (Call.failureOf xs) xs.length (·.Holds xs) (e.bulkLoad xs) := by
  refine (Key.mapM_ofBinary64_ends xs).bind (Nat.zero_le _) fun keys hkeys _ => ?_
  exact (ofKeys_ends hkeys).bind (Nat.le_refl _) fun t _ hholds => .done rfl hholds

theorem loadIndex_ends (e : Explorer o) (d : IndexData) (name : String) :
    Ends (Call.loadIndex d name).failure? ((d.keys? name).getD []).length
      (·.Holds ((d.keys? name).getD [])) (e.loadIndex d name) := by
  rw [loadIndex, IndexData.keys, Call.failure?]
  cases d.keys? name with
  | none => exact .failed rfl
  | some xs => exact bulkLoad_ends e xs

namespace Holds

variable {xs : List Binary64}

theorem reachable (h : e.Holds xs) : e.tree.Reachable := by
  obtain ⟨keys, -, ht⟩ := h
  exact ⟨keys, ht⟩

/-- An insertion puts one number behind the others. -/
theorem insert_ends (h : e.Holds xs) (x : Binary64) :
    Ends (Call.failureOf [x]) (xs ++ [x]).length (·.Holds (xs ++ [x])) (e.insert x) := by
  obtain ⟨keys, hkeys, ht⟩ := h
  refine (Key.ofBinary64_ends x).bind (Nat.zero_le _) fun k hk _ => ?_
  have hmore : (xs ++ [x]).mapM Key.ofBinary64 = .ok (keys ++ [k]) := by
    rw [List.mapM_append, hkeys, List.mapM_cons, hk]
    rfl
  have hinsert : e.tree.insert k = Tree.ofKeys (keys ++ [k]) := by
    rw [Tree.ofKeys_append, ht, Except.bind, Tree.extend_singleton]
  rw [hinsert]
  exact (ofKeys_ends hmore).bind (Nat.le_refl _) fun t _ hholds => .done rfl hholds

/-- A point search gives what the tree gives for the key. -/
theorem search_ends (h : e.Holds xs) (x : Binary64) :
    Ends (Call.failureOf [x]) 0 (fun r => ∃ k, Key.ofBinary64 x = .ok k ∧ e.tree.search k = .ok r)
      (e.search x) := by
  obtain ⟨d, root, hin⟩ := h.reachable.inOrder
  refine (Key.ofBinary64_ends x).bind (Nat.le_refl _) fun k hk _ => ?_
  obtain ⟨r, -, -, -, hr, -⟩ := hin.search_eq k
  rw [hr]
  exact .done rfl ⟨k, hk, hr⟩

/-- A range scan gives what the tree gives for the keys. -/
theorem rangeScan_ends (h : e.Holds xs) (above upTo : Binary64) :
    Ends (Call.failureOf [above, upTo]) 0
      (fun r => ∃ k l, Key.ofBinary64 above = .ok k ∧ Key.ofBinary64 upTo = .ok l ∧
        e.tree.scanList k l = .ok r)
      (e.rangeScan above upTo) := by
  obtain ⟨d, root, hin⟩ := h.reachable.inOrder
  rw [Call.failureOf_cons]
  refine (Key.ofBinary64_ends above).or_bind fun k hk _ => ?_
  refine (Key.ofBinary64_ends upTo).bind (Nat.le_refl _) fun l hl _ => ?_
  obtain ⟨s, ks, hs, hfaces, hlen⟩ := hin.lawful.exists_scan k l
  have hlist := Tree.scanList_of_faces hs hfaces (hlen.trans hin.stores.length_keysIn_le)
  rw [hlist]
  exact .done rfl ⟨k, l, hk, hl, hlist⟩

/-- A question is answered, unless it needs the key of a NaN. -/
theorem ask_ends (h : e.Holds xs) (q : Question) :
    Ends (Call.ask q).failure? 0 (fun _ => True) (e.ask q) := by
  obtain ⟨d, root, hin⟩ := h.reachable.inOrder
  cases q with
  | size => exact .done rfl trivial
  | search x => exact (h.search_ends x).bind (Nat.le_refl _) fun _ _ _ => .done rfl trivial
  | rangeScan above upTo =>
    exact (h.rangeScan_ends above upTo).bind (Nat.le_refl _) fun _ _ _ => .done rfl trivial
  | snapshot =>
    rw [ask, snapshot, hin.linked.snapshot_eq]
    exact .done rfl trivial
  | tree q =>
    obtain ⟨a, ha⟩ := hin.lawful.ask_ok q
    rw [ask, ha]
    exact .done rfl trivial

theorem result_ends (h : e.Holds xs) (c : Call) :
    Ends c.failure? (c.behind xs).length
      (fun p => p.2.Holds (c.behind xs) ∧ (c.isAsk → p.2 = e)) (e.result c) := by
  cases c with
  | bulkLoad ys => exact (bulkLoad_ends e ys).map fun e' hholds => ⟨hholds, nofun⟩
  | loadIndex d name => exact (loadIndex_ends e d name).map fun e' hholds => ⟨hholds, nofun⟩
  | insert x => exact (h.insert_ends x).map fun e' hholds => ⟨hholds, nofun⟩
  | ask q =>
    have hask := (h.ask_ends q).imp (Q := fun _ => True) fun _ => ⟨Nat.zero_le xs.length, fun _ => id⟩
    exact hask.map fun r _ => ⟨h, fun _ => rfl⟩

/-- **A call leaves behind what it stores, unless no number is left for a node.** It fails as its arguments
lead to, and then, or if it only asks, it leaves the explorer as it was. -/
theorem call_spec (h : e.Holds xs) (c : Call) :
    (∃ r e', e.call c = .ok (r, e') ∧ e'.Holds (c.store xs) ∧
      (∀ x, r = .error x ↔ c.failure? = some x) ∧ (c.failure?.isSome ∨ c.isAsk → e' = e)) ∨
    (e.call c = .error .exhausted ∧ 2 ^ 31 < (c.store xs).length) := by
  have hends := h.result_ends c
  rw [call_eq]
  generalize e.result c = x at hends ⊢
  cases hends with
  | @failed x eq =>
    -- the arguments lead to no fault, so the explorer is still there
    have hsettled : settled e (.error x : Except Error (Reply × Explorer o)) = .ok (.error x, e) := by
      cases x with
      | fault f => exact absurd rfl (Call.ne_fault_of_failure? eq f)
      | _ => rfl
    refine .inl ⟨.error x, e, hsettled, by rwa [Call.store_of_some eq], fun y => ?_, fun _ => rfl⟩
    rw [eq, Except.error.injEq, Option.some.injEq]
  | @done p eq holds =>
    refine .inl ⟨.ok p.1, p.2, rfl, by rw [Call.store_of_none eq]; exact holds.1, fun y => ?_, ?_⟩
    · rw [eq]
      exact ⟨nofun, nofun⟩
    · rw [eq]
      exact fun h => h.elim nofun holds.2
  | exhausted eq many =>
    refine .inr ⟨rfl, ?_⟩
    rwa [Call.store_of_none eq]

theorem run_spec (h : e.Holds xs) (calls : List Call) :
    (∃ rs e', e.run calls = .ok (rs, e') ∧ e'.Holds (calls.foldl Call.store xs) ∧
      List.Forall₂ (fun c r => ∀ x, r = .error x ↔ c.failure? = some x) calls rs) ∨
    (e.run calls = .error .exhausted ∧
      ∃ front, front <+: calls ∧ 2 ^ 31 < (front.foldl Call.store xs).length) := by
  induction calls generalizing e xs with
  | nil => exact .inl ⟨[], e, rfl, h, .nil⟩
  | cons c calls ih =>
    rw [run]
    rcases h.call_spec c with ⟨r, e', hcall, hholds, hr, -⟩ | ⟨hcall, hlen⟩
    · rw [hcall]
      rcases ih hholds with ⟨rs, e'', hrun, hholds', hrs⟩ | ⟨hrun, front, hfront, hlen⟩
      · exact .inl ⟨r :: rs, e'', by simp only [bind, Except.bind, hrun]; rfl, hholds', .cons hr hrs⟩
      · exact .inr ⟨by simp only [bind, Except.bind, hrun], c :: front,
          (List.prefix_cons_inj c).mpr hfront, hlen⟩
    · exact .inr ⟨by rw [hcall]; rfl, [c], ⟨calls, rfl⟩, hlen⟩

end Holds

/-- **Whatever an explorer was called for, its tree is the one that arises from one list of numbers**: those
of the last load that did not fail, and behind them those of the later insertions that did not fail. A
call fails as its arguments lead to, for a NaN wherever it stands in a list, or for a name without a list
before any list is looked at; one that fails or only asks leaves the explorer as it was. Only a history
that comes to store more than `2 ^ 31` numbers may end early, for want of a number for a node. -/
theorem run_history (calls : List Call) :
    (∃ (rs : List (Except Error Reply)) (e : Explorer o) (keys : List Key),
      (empty : Explorer o).run calls = .ok (rs, e) ∧
      (stored calls).mapM Key.ofBinary64 = .ok keys ∧ Tree.ofKeys keys = .ok e.tree ∧
      List.Forall₂ (fun c r => ∀ x, r = .error x ↔ c.failure? = some x) calls rs ∧
      (∀ c r e', e.call c = .ok (r, e') →
        (∀ x, r = .error x ↔ c.failure? = some x) ∧ (c.failure?.isSome ∨ c.isAsk → e' = e)) ∧
      ∀ d name xs, d.keys? name = some xs → e.call (.loadIndex d name) = e.call (.bulkLoad xs)) ∨
    ((empty : Explorer o).run calls = .error .exhausted ∧
      ∃ front, front <+: calls ∧ 2 ^ 31 < (stored front).length) := by
  refine (holds_empty.run_spec calls).imp_left ?_
  rintro ⟨rs, e, hrun, hholds, hrs⟩
  obtain ⟨keys, hkeys, ht⟩ := hholds
  refine ⟨rs, e, keys, hrun, hkeys, ht, hrs, fun c r e' hcall => ?_, fun d name xs hxs => ?_⟩
  · rcases Holds.call_spec ⟨keys, hkeys, ht⟩ c with ⟨r', e'', hcall', -, hr, hsame⟩ | ⟨hcall', -⟩
    · obtain ⟨rfl, rfl⟩ := Prod.mk.inj (Except.ok.inj (hcall.symm.trans hcall'))
      exact ⟨hr, hsame⟩
    · rw [hcall] at hcall'
      cases hcall'
  · rw [call_eq, call_eq, result, result, loadIndex, IndexData.keys, hxs]
    rfl

/-- Calls that fail among others; the last load and the insertions behind it leave two numbers. -/
theorem run_with_failures : ∃ (rs : List (Except Error Reply)) (e : Explorer .standard),
    (empty : Explorer .standard).run [.insert .zero, .bulkLoad [.infinity], .insert .nan,
      .insert .negativeZero, .bulkLoad [.zero, .nan],
      .loadIndex (IndexData.empty.insert "A" [.infinity, .nan]) "A", .loadIndex .empty "B",
      .ask (.search .nan), .ask .snapshot] = .ok (rs, e) ∧ rs.length = 9 ∧
    Tree.ofKeys [⟨.infinity, by decide, by decide⟩, ⟨.zero, by decide, by decide⟩] = .ok e.tree := by
  rcases run_history (o := .standard) [.insert .zero, .bulkLoad [.infinity], .insert .nan,
      .insert .negativeZero, .bulkLoad [.zero, .nan],
      .loadIndex (IndexData.empty.insert "A" [.infinity, .nan]) "A", .loadIndex .empty "B",
      .ask (.search .nan), .ask .snapshot] with
    ⟨rs, e, keys, hrun, hkeys, ht, hrs, -⟩ | ⟨-, front, hfront, hlen⟩
  · rw [show stored _ = [.infinity, .negativeZero] by decide] at hkeys
    obtain rfl : [⟨.infinity, by decide, by decide⟩, ⟨.zero, by decide, by decide⟩] = keys :=
      Except.ok.inj ((show _ = _ by decide).symm.trans hkeys)
    exact ⟨rs, e, hrun, hrs.length_eq.symm, ht⟩
  · exfalso
    rw [← List.mem_inits] at hfront
    revert front
    decide

end Explorer

end TracedIndex
