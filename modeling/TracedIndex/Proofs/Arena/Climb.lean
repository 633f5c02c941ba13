import TracedIndex.Proofs.Arena.Split
import TracedIndex.Proofs.Subtree.Shape

/-!
# The way up

One level of the way up does in the arena what the step of one frame does to a subtree, so the whole
way up does what all the steps of a trail do. The arena remembers the trail in its parent links, the
steps have it as a list.

* `Shows`: an arena shows what has become of the subtree in the hole of a trail;
* `shown_leaf`, `shown_branch`: a node that may be full;
* `addKey_spec`: a key is put into a leaf; **`climb_spec`**: one level of the way up;
* **`settle_spec`**: the whole way up.
-/

namespace TracedIndex.Arena

variable {K : Type} {a : Arena K} {o : Order}

/-- The arena shows that the subtree in the hole of `fs` has become `g`: it is in order again and its
root known, or the second half is left to be entered. -/
inductive Shows (a : Arena K) (fs : Trail K) : Progress K → Growth K → Prop
  | settled {s : Subtree K} (stores : a.Stores (fs.plug s)) :
    Shows a fs (.settled (fs.plug s).id) (.whole s)
  | pending {left right : Subtree K} {separator : K} (pends : a.Pends fs left right) :
    Shows a fs (.pending ⟨left.id, separator, right.id⟩) (.halves left separator right a.size)

/-- A change to an arena gives one that shows `g`; without a growth, it ends for want of numbers. -/
def Shown (fs : Trail K) (r : Except Fault (Arena K × Progress K)) : Option (Growth K) → Prop
  | some g => ∃ b p, r = .ok (b, p) ∧ b.Shows fs p g
  | none => r = .error .exhausted

theorem Shown.shows {fs : Trail K} {r : Except Fault (Arena K × Progress K)} {g : Option (Growth K)}
    (h : Shown fs r g) {b : Arena K} {p : Progress K} (hr : r = .ok (b, p)) :
    ∃ g', g = some g' ∧ b.Shows fs p g' := by
  cases g with
  | none => cases hr.symm.trans h
  | some g =>
    obtain ⟨c, q, hc, hshows⟩ := h
    obtain ⟨rfl, rfl⟩ := Prod.mk.inj (Except.ok.inj (hr.symm.trans hc))
    exact ⟨g, rfl, hshows⟩

/-- A change to an arena gives one that stores `root`; without a root, it ends for want of numbers. -/
def Stored (r : Except Fault (Arena K × NodeId)) : Option (Subtree K) → Prop
  | some root => ∃ b, r = .ok (b, root.id) ∧ b.Stores root
  | none => r = .error .exhausted

/-! ## Nodes that may be full -/

section

variable {fs : Trail K} {id : NodeId} {keys : List K}

/-- A leaf that may be full is left as it is, or split where the step of a leaf cuts it. -/
theorem shown_leaf {next : Option NodeId} (h : a.Stores (fs.plug (.leaf id keys next)))
    (hlen : keys.length ≤ o.size) :
    Shown fs (if keys.length < o.size then (a.rootOf id).map fun root => (a, .settled root)
        else (a.splitLeaf id).map fun r => (r.1, .pending r.2))
      (Growth.ofLeaf o.size a.size id keys next) := by
  rw [Growth.ofLeaf]
  by_cases hroom : keys.length < o.size
  · rw [if_pos hroom, if_pos hroom, show a.rootOf id = _ from rootOf_plug h]
    exact ⟨a, _, rfl, .settled h⟩
  · have := o.three_le_size
    have hfull : keys.length = o.size := by omega
    have hmid : (o.size + 1) / 2 < keys.length := by omega
    have hsep : keys[(keys.length + 1) / 2]? = some keys[(o.size + 1) / 2] := by
      rw [hfull, List.getElem?_eq_getElem hmid]
    rw [if_neg hroom, if_neg hroom]
    rcases Nat.lt_or_ge a.size (UInt32.size) with hlt | hge
    · obtain ⟨b, right, hb, hright, hsize, hpends⟩ := splitLeaf_spec h hsep hlt
      rw [hfull] at hpends
      simp only [hb, Growth.ofNat?_eq_some.mpr hright, List.getElem?_eq_getElem hmid,
        Option.bind_eq_bind, Option.bind_some, ← hsize]
      exact ⟨b, _, rfl, .pending hpends⟩
    · rw [splitLeaf_exhausted h hsep hge, Growth.ofNat?_eq_none.mpr hge]
      rfl

/-- A branch that may be full is left as it is, or split where the step of a branch cuts it. -/
theorem shown_branch {children : List (Subtree K)} (h : a.Stores (fs.plug (.branch id keys children)))
    (hlen : keys.length ≤ o.size) (hchildren : keys.length < children.length) :
    Shown fs (if keys.length < o.size then (a.rootOf id).map fun root => (a, .settled root)
        else (a.splitBranch id).map fun r => (r.1, .pending r.2))
      (Growth.ofBranch o.size a.size id keys children) := by
  rw [Growth.ofBranch]
  by_cases hroom : keys.length < o.size
  · rw [if_pos hroom, if_pos hroom, show a.rootOf id = _ from rootOf_plug h]
    exact ⟨a, _, rfl, .settled h⟩
  · have := o.three_le_size
    have hfull : keys.length = o.size := by omega
    have hmid : o.size / 2 < keys.length := by omega
    have hsep : keys[keys.length / 2]? = some keys[o.size / 2] := by
      rw [hfull, List.getElem?_eq_getElem hmid]
    have hfirst : keys.length / 2 < children.length := by omega
    rw [if_neg hroom, if_neg hroom]
    rcases Nat.lt_or_ge a.size (UInt32.size) with hlt | hge
    · obtain ⟨b, right, hb, hright, hsize, hpends⟩ := splitBranch_spec h hsep hfirst hlt
      rw [hfull] at hpends
      simp only [hb, Growth.ofNat?_eq_some.mpr hright, List.getElem?_eq_getElem hmid,
        Option.bind_eq_bind, Option.bind_some, ← hsize]
      exact ⟨b, _, rfl, .pending hpends⟩
    · rw [splitBranch_exhausted h hsep hfirst hge, Growth.ofNat?_eq_none.mpr hge]
      rfl

end

/-! ## One level, and all -/

/-- **A key put into a leaf makes of it what the step of a leaf does.** -/
theorem addKey_spec [Ord K] [Std.TransOrd K] {fs : Trail K} {id : NodeId} {keys : List K}
    {next : Option NodeId} (h : a.Stores (fs.plug (.leaf id keys next))) (hs : Sorted keys)
    (hlen : keys.length < o.size) (key : K) :
    Shown fs (a.addKey o id key) (Growth.ofLeaf o.size a.size id (insertBehind key keys) next) := by
  set keys' := insertBehind key keys with hkeys
  set b := a.put id (.leaf ⟨keys', next, fs.parent?⟩) with hb
  have hsize : b.size = a.size := size_put _ _ _
  have hinsert : (⟨keys, next, fs.parent?⟩ : Leaf K).insert key = ⟨keys', next, fs.parent?⟩ := by
    have hk := Leaf.keys_insert (l := ⟨keys, next, fs.parent?⟩) hs key
    rw [Leaf.insert, Leaf.mk.injEq]
    exact ⟨hk, rfl, rfl⟩
  have hadd : a.addKey o id key =
      if keys'.length < o.size then (b.rootOf id).map fun root => (b, .settled root)
      else (b.splitLeaf id).map fun r => (r.1, .pending r.2) := by
    rw [addKey, Arena.leaf, h.leaf_eq]
    simp only [bind, Except.bind, pure, Except.pure, hinsert, ← hb]
    split
    · cases b.rootOf id <;> rfl
    · cases b.splitLeaf id <;> rfl
  have hlen' : keys'.length ≤ o.size := by
    rw [hkeys, length_insertBehind]
    omega
  rw [hadd, ← hsize]
  exact shown_leaf (stores_put_leaf h keys') hlen'

/-- **One level of the way up is the step of one frame.** -/
theorem climb_spec {f : Frame K} {fs : Trail K} {left right : Subtree K} (separator : K)
    (h : a.Pends (f :: fs) left right) (hf : f.Roomy o) :
    Shown fs (a.climb o ⟨left.id, separator, right.id⟩)
      (f.grow o.size (.halves left separator right a.size)) := by
  obtain ⟨n, hn, hparent, -⟩ := h.holds_left.root
  obtain ⟨b, hb, hsize, hstores⟩ := enter_spec separator h hf.slot_le
  have hlen := f.length_entered separator
  set keys := f.keys.take f.slot ++ separator :: f.keys.drop f.slot with hkeys
  have hchildren : keys.length < (f.before ++ left :: right :: f.after).length := by
    have := hf.length_eq
    rw [hlen, List.length_append, List.length_cons, List.length_cons]
    omega
  have hclimb : a.climb o ⟨left.id, separator, right.id⟩ =
      if keys.length < o.size then (b.rootOf f.id).map fun root => (b, .settled root)
      else (b.splitBranch f.id).map fun r => (r.1, .pending r.2) := by
    rw [climb, hn]
    simp only [bind, Except.bind, pure, Except.pure, hparent, Trail.parent?, List.head?_cons,
      Option.map_some, hb]
    split
    · cases b.rootOf f.id <;> rfl
    · cases b.splitBranch f.id <;> rfl
  rw [hclimb, Frame.grow, ← hkeys, ← hsize]
  exact shown_branch hstores (hlen ▸ hf.length_lt) hchildren

theorem climb_root_spec {left right : Subtree K} (separator : K) (h : a.Pends [] left right) :
    Shown [] (a.climb o ⟨left.id, separator, right.id⟩)
      ((Growth.halves left separator right a.size).close.map .whole) := by
  obtain ⟨n, hn, hparent, -⟩ := h.holds_left.root
  have hclimb : a.climb o ⟨left.id, separator, right.id⟩ =
      (a.growRoot ⟨left.id, separator, right.id⟩).map fun r => (r.1, .settled r.2) := by
    rw [climb, hn]
    simp only [bind, Except.bind, pure, Except.pure, hparent, Trail.parent?, List.head?_nil,
      Option.map_none]
    cases a.growRoot ⟨left.id, separator, right.id⟩ <;> rfl
  rw [hclimb, Growth.close]
  rcases Nat.lt_or_ge a.size (UInt32.size) with hlt | hge
  · obtain ⟨b, root, hb, hroot, hstores⟩ := growRoot_spec separator h hlt
    rw [hb, Growth.ofNat?_eq_some.mpr hroot]
    exact ⟨b, _, rfl, @Shows.settled K b [] (.branch root [separator] [left, right]) hstores⟩
  · rw [growRoot_exhausted _ hge, Growth.ofNat?_eq_none.mpr hge]
    rfl

/-- The way up from a pending split goes on from what its first level shows. -/
theorem stored_settle_pending {fs : Trail K} {r : Split K} {g : Option (Growth K)}
    {rest : Growth K → Option (Subtree K)} {fuel : Nat} (hclimb : Shown fs (a.climb o r) g)
    (hrest : ∀ {b : Arena K} {p : Progress K} {g' : Growth K}, g = some g' → b.Shows fs p g' →
      Stored (settle o fuel b p) (rest g')) :
    Stored (settle o (fuel + 1) a (.pending r)) (g.bind rest) := by
  rw [settle]
  cases g with
  | none =>
    rw [show a.climb o r = _ from hclimb]
    rfl
  | some g =>
    obtain ⟨b, p, hb, hshows⟩ := hclimb
    rw [hb, Option.bind_some]
    exact hrest rfl hshows

/-- **The whole way up is the steps of all frames, and a new root if the old one was cut.** -/
theorem settle_spec {fs : Trail K} {p : Progress K} {g : Growth K} (h : a.Shows fs p g)
    (hfs : ∀ f ∈ fs, f.Roomy o) {fuel : Nat} (hfuel : fs.length < fuel) :
    Stored (settle o fuel a p) ((fs.grow o.size g).bind Growth.close) := by
  induction fs generalizing a p g fuel with
  | nil =>
    obtain ⟨fuel, rfl⟩ := Nat.exists_eq_add_one.mpr hfuel
    cases h with
    | settled stores => exact ⟨a, by rw [settle]; rfl, stores⟩
    | @pending left right separator pends =>
      set g := Growth.halves left separator right a.size
      have hclose : (g.close.map .whole).bind Growth.close = g.close := by cases g.close <;> rfl
      rw [Trail.grow_nil, Option.bind_some, ← hclose]
      refine stored_settle_pending (climb_root_spec separator pends) fun hg hshows => ?_
      obtain ⟨root, -, rfl⟩ := Option.map_eq_some_iff.mp hg
      cases hshows with
      | settled stores => exact ⟨_, by rw [settle]; rfl, stores⟩
  | cons f fs ih =>
    obtain ⟨fuel, rfl⟩ := Nat.exists_eq_add_one.mpr (Nat.zero_lt_of_lt hfuel)
    cases h with
    | @settled s stores =>
      rw [Trail.grow_whole, Option.bind_some]
      exact ⟨a, by rw [settle], stores⟩
    | @pending left right separator pends =>
      rw [Trail.grow_cons, Option.bind_assoc]
      refine stored_settle_pending (climb_spec separator pends (hfs f List.mem_cons_self))
        fun _ hshows => ih hshows (fun f' hf' => hfs f' (List.mem_cons_of_mem _ hf')) ?_
      exact Nat.lt_of_succ_lt_succ hfuel

end TracedIndex.Arena
