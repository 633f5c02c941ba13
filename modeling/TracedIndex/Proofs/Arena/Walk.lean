import TracedIndex.Proofs.Arena.Holds
import TracedIndex.Proofs.Subtree.Balance
import TracedIndex.Snapshot

/-!
# Walks through an arena

Every walk through an arena that holds a tree ends within its fuel, and its path is read off the
tree.

* `descend_plug`: down a trail to its leaf, along a path of children (`path_plug`);
* **`rootOf_plug`**: up from anywhere to the root;
* `chain_of_chained`, `chained_of_chain`: along the leaves;
* `copy_eq`: the copy of a subtree that is held is this subtree.
-/

namespace TracedIndex

variable {K : Type} {a : Arena K}

namespace Arena

/-- **A descent goes down the trail that it follows.** -/
theorem descend_plug {pick : List K → Nat} {fs : Trail K} {id : NodeId} {keys : List K}
    {next p : Option NodeId} (hfs : ∀ f ∈ fs, f.Follows pick)
    (h : a.Holds p (fs.plug (.leaf id keys next))) {fuel : Nat} (hfuel : fs.length < fuel) :
    a.descend (fun b => pick b.keys) fuel (fs.plug (.leaf id keys next)).id =
      .ok ⟨(fs.map Frame.id).reverse ++ [id], id⟩ := by
  induction fs using List.reverseRecOn generalizing p fuel with
  | nil =>
    obtain ⟨fuel, rfl⟩ : ∃ n, fuel = n + 1 := ⟨fuel - 1, by simp at hfuel; omega⟩
    cases h with
    | leaf node =>
      rw [Trail.plug_nil, Subtree.id, descend, node]
      rfl
  | append_singleton fs f ih =>
    obtain ⟨fuel, rfl⟩ : ∃ n, fuel = n + 1 := ⟨fuel - 1, by simp at hfuel; omega⟩
    rw [Trail.plug_concat] at h ⊢
    obtain ⟨hs, hf⟩ := holds_fill.mp h
    have hslot : f.before.length = pick f.keys := hfs f (by simp)
    have hfuel' : fs.length < fuel := by
      rw [List.length_append, List.length_singleton] at hfuel
      omega
    have hrest := ih (fun f' hf' => hfs f' (List.mem_append_left _ hf')) hs hfuel'
    -- the child that the branch is left for is the one in the hole
    have hchild : (f.before.map Subtree.id ++ (Trail.plug fs (.leaf id keys next)).id ::
        f.after.map Subtree.id)[pick f.keys]? = some (Trail.plug fs (.leaf id keys next)).id := by
      rw [← hslot, List.getElem?_append_right (by simp)]
      simp
    rw [Frame.fill, Subtree.id, descend, hf.node]
    simp only [bind, Except.bind, hchild, hrest]
    simp [pure, Except.pure]

/-- The branch `parent` has `child` among its children. -/
def Lists (a : Arena K) (parent child : NodeId) : Prop :=
  ∃ b, a.branch parent = .ok b ∧ child ∈ b.children

/-- The nodes down a trail are a path from the root, each a child of the one before it. -/
theorem path_plug {fs : Trail K} {s : Subtree K} {p : Option NodeId} (h : a.Holds p (fs.plug s)) :
    ∃ rest, (fs.map Frame.id).reverse ++ [s.id] = (fs.plug s).id :: rest ∧
      List.IsChain a.Lists ((fs.plug s).id :: rest) := by
  induction fs using List.reverseRecOn generalizing p with
  | nil => exact ⟨[], rfl, .singleton _⟩
  | append_singleton fs f ih =>
    rw [Trail.plug_concat] at h ⊢
    obtain ⟨hs, hf⟩ := holds_fill.mp h
    obtain ⟨rest, hpath, hchain⟩ := ih hs
    have hlists : a.Lists f.id (Trail.plug fs s).id := by
      refine ⟨_, by rw [branch, hf.node]; rfl, ?_⟩
      exact List.mem_append_right _ List.mem_cons_self
    refine ⟨(Trail.plug fs s).id :: rest, ?_, List.isChain_cons_cons.mpr ⟨hlists, hchain⟩⟩
    rw [← hpath, List.map_append, List.reverse_append]
    rfl

/-- The way up from a subtree passes the branches of its trail, up to the root. -/
theorem ascend_plug {fs : Trail K} {s : Subtree K} (h : a.Holds none (fs.plug s)) {fuel : Nat}
    (hfuel : fs.length < fuel) :
    a.ascend fuel s.id = .ok ⟨s.id :: fs.map Frame.id, (fs.plug s).id⟩ := by
  induction fs generalizing s fuel with
  | nil =>
    obtain ⟨fuel, rfl⟩ : ∃ n, fuel = n + 1 := ⟨fuel - 1, by simp at hfuel; omega⟩
    obtain ⟨n, hn, hparent, -⟩ := h.root
    rw [Trail.plug_nil] at hn
    rw [ascend, hn]
    simp [bind, Except.bind, pure, Except.pure, hparent]
  | cons f fs ih =>
    obtain ⟨fuel, rfl⟩ : ∃ n, fuel = n + 1 := ⟨fuel - 1, by simp at hfuel; omega⟩
    obtain ⟨n, hn, hparent, -⟩ := (holds_plug.mp h).1.root
    have hfuel' : fs.length < fuel := by simpa using hfuel
    have hrest := ih (s := f.fill s) h hfuel'
    rw [Frame.fill, Subtree.id] at hrest
    rw [ascend, hn]
    simp only [bind, Except.bind, pure, Except.pure, hparent, Trail.parent?, List.head?_cons,
      Option.map_some, hrest]
    rfl

/-- **From every node the way up leads to the root.** -/
theorem rootOf_plug {fs : Trail K} {s : Subtree K} (h : a.Stores (fs.plug s)) :
    a.rootOf s.id = .ok (fs.plug s).id := by
  rw [rootOf, ascend_plug h.holds h.length_lt]
  rfl

theorem chain_of_chained {ls : List (Subtree K)} {id : NodeId}
    (hls : ∀ l ∈ ls, ∃ parent, a.leaf l.id = .ok ⟨l.keys, l.next?, parent⟩)
    (h : Subtree.Chained (some id) ls none) {fuel : Nat} (hfuel : ls.length ≤ fuel) :
    ∃ w, a.chain fuel id = .ok w ∧ w.path = ls.map Subtree.id := by
  induction ls generalizing id fuel with
  | nil => simp [Subtree.Chained] at h
  | cons l ls ih =>
    obtain ⟨fuel, rfl⟩ : ∃ n, fuel = n + 1 := ⟨fuel - 1, by simp at hfuel; omega⟩
    obtain ⟨hid, hrest⟩ := h
    obtain rfl := Option.some.inj hid
    obtain ⟨parent, hleaf⟩ := hls l List.mem_cons_self
    rw [chain, hleaf]
    cases hnext : l.next? with
    | none =>
      rw [hnext] at hrest
      obtain rfl : ls = [] := by
        cases ls with
        | nil => rfl
        | cons m ms => simp [Subtree.Chained] at hrest
      exact ⟨_, rfl, rfl⟩
    | some next =>
      rw [hnext] at hrest
      have hfuel' : ls.length ≤ fuel := by simpa using hfuel
      obtain ⟨w, hw, hpath⟩ := ih (fun m hm => hls m (List.mem_cons_of_mem _ hm)) hrest hfuel'
      refine ⟨⟨l.id :: w.path, w.stop⟩, ?_, ?_⟩
      · simp [bind, Except.bind, pure, Except.pure, hw]
      · rw [hpath, List.map_cons]

/-- A walk along the chain that comes by the leaves `ls` shows that they are linked to each other. -/
theorem chained_of_chain {ls : List (Subtree K)} {id : NodeId} {fuel : Nat} {w : Walk}
    (hls : ∀ l ∈ ls, ∃ parent, a.leaf l.id = .ok ⟨l.keys, l.next?, parent⟩)
    (h : a.chain fuel id = .ok w) (hpath : w.path = ls.map Subtree.id) :
    Subtree.Chained (some id) ls none := by
  induction fuel generalizing ls id w with
  | zero => cases h
  | succ fuel ih =>
    simp only [chain, bind, bind_eq_ok_iff] at h
    obtain ⟨leaf, hleaf, h⟩ := h
    -- the first of the leaves is the one at which the walk starts
    have hfirst : ∀ rest, ls.map Subtree.id = id :: rest →
        ∃ l ms, ls = l :: ms ∧ l.id = id ∧ l.next? = leaf.next ∧ ms.map Subtree.id = rest := by
      intro rest hrest
      obtain ⟨l, ms, rfl, rfl, rfl⟩ := List.map_eq_cons_iff.mp hrest
      obtain ⟨parent, hl⟩ := hls l List.mem_cons_self
      obtain rfl := Except.ok.inj (hleaf.symm.trans hl)
      exact ⟨l, ms, rfl, rfl, rfl, rfl⟩
    cases hnext : leaf.next with
    | none =>
      rw [hnext] at h
      obtain rfl := Except.ok.inj h
      obtain ⟨l, ms, rfl, rfl, hl, hms⟩ := hfirst [] hpath.symm
      obtain rfl := List.map_eq_nil_iff.mp hms
      exact ⟨rfl, hl.trans hnext⟩
    | some next =>
      simp only [hnext, bind_eq_ok_iff] at h
      obtain ⟨w', hw', h⟩ := h
      obtain rfl := Except.ok.inj h
      obtain ⟨l, ms, rfl, rfl, hl, hms⟩ := hfirst w'.path hpath.symm
      refine ⟨rfl, ?_⟩
      rw [hl, hnext]
      exact ih (fun m hm => hls m (List.mem_cons_of_mem _ hm)) hw' hms.symm

theorem mapM_id_eq {f : NodeId → Except Fault (Subtree K)} {ss : List (Subtree K)}
    (h : ∀ s ∈ ss, f s.id = .ok s) : (ss.map Subtree.id).mapM f = .ok ss := by
  induction ss with
  | nil => rfl
  | cons s ss ih =>
    rw [List.map_cons, List.mapM_cons, h s List.mem_cons_self,
      ih fun t ht => h t (List.mem_cons_of_mem _ ht)]
    rfl

/-- **The copy of a subtree that is held is this subtree.** -/
theorem copy_eq {p : Option NodeId} {d : Nat} {s : Subtree K} (h : a.Holds p s)
    (hbal : s.Balanced d) {fuel : Nat} (hfuel : d < fuel) : a.copy fuel s.id = .ok s := by
  induction hbal generalizing p fuel with
  | leaf =>
    obtain ⟨fuel, rfl⟩ : ∃ n, fuel = n + 1 := ⟨fuel - 1, by omega⟩
    cases h with
    | leaf node => rw [Subtree.id, copy, node]; rfl
  | @branch d _ _ _ _ _ ih =>
    obtain ⟨fuel, rfl⟩ : ∃ n, fuel = n + 1 := ⟨fuel - 1, by omega⟩
    cases h with
    | branch node holds =>
      have hfuel' : d < fuel := Nat.lt_of_succ_lt_succ hfuel
      have hcopy := mapM_id_eq fun c hc => ih c hc (holds c hc) hfuel'
      rw [Subtree.id, copy, node]
      simp only [bind, Except.bind, hcopy]
      rfl

end Arena

end TracedIndex
