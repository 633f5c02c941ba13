import TracedIndex.Proofs.Subtree.Growth

/-!
# What becomes of the nodes

An insertion makes something else of the nodes on one way from the root to a leaf, and of no others: a
subtree that is not on this way is found in the grown tree as it was. The key goes into the leaf; a branch
takes up what its child has become, and keeps all its children unless it is divided.

* `Subtree.Within`: the nodes of a subtree, each as the subtree below it;
* `Becomes`: what becomes of a node on the way; `Branch.SplitInto` says so of a divided branch;
* `Accounts`, `Growth.Effect`: what becomes of all nodes of a subtree;
* `Growth.effect_ofLeaf`, `Growth.Effect.grow`, **`Subtree.effect_insert`**: at a leaf, through one branch,
  and along a descent.
-/

namespace TracedIndex

variable {K : Type}

/-! ## The nodes of a subtree -/

namespace Subtree

/-- The subtree `s` is somewhere in `root`. -/
def Within (s root : Subtree K) : Prop := ∃ fs : Trail K, fs.plug s = root

theorem Within.refl (s : Subtree K) : s.Within s := ⟨[], rfl⟩

variable {id : NodeId} {keys : List K} {children : List (Subtree K)} {c s root : Subtree K}

theorem Within.branch (h : s.Within c) (hc : c ∈ children) : s.Within (branch id keys children) := by
  obtain ⟨fs, rfl⟩ := h
  obtain ⟨before, after, rfl⟩ := List.append_of_mem hc
  exact ⟨fs ++ [⟨id, keys, before, after⟩], fs.plug_concat _ s⟩

theorem within_leaf {next : Option NodeId} (h : s.Within (leaf id keys next)) : s = leaf id keys next := by
  obtain ⟨fs, hfs⟩ := h
  cases fs using List.reverseRecOn with
  | nil => exact hfs
  | append_singleton fs f =>
    rw [Trail.plug_concat] at hfs
    cases hfs

theorem within_branch (h : s.Within (branch id keys children)) :
    s = branch id keys children ∨ ∃ c ∈ children, s.Within c := by
  obtain ⟨fs, hfs⟩ := h
  cases fs using List.reverseRecOn with
  | nil => exact .inl hfs
  | append_singleton fs f =>
    rw [Trail.plug_concat, Frame.fill, Subtree.branch.injEq] at hfs
    obtain ⟨-, -, rfl⟩ := hfs
    exact .inr ⟨Trail.plug fs s, by simp, fs, rfl⟩

end Subtree

/-- The subtree `s` is somewhere in one of the parts. -/
def Growth.Has (g : Growth K) (s : Subtree K) : Prop := ∃ part ∈ g.parts, s.Within part

theorem Growth.Has.within_close {g : Growth K} {root s : Subtree K} (h : g.Has s)
    (hclose : g.close = some root) : s.Within root := by
  obtain ⟨part, hpart, hs⟩ := h
  cases g with
  | whole whole =>
    obtain rfl := Option.some.inj hclose
    rwa [List.mem_singleton.mp hpart] at hs
  | halves left separator right fresh =>
    obtain ⟨new, -, rfl⟩ := Option.map_eq_some_iff.mp hclose
    exact hs.branch hpart

/-! ## Nodes on the way -/

namespace Branch

/-- A branch took up the right half of one of its children, a fresh node, and was then divided in two. -/
structure SplitInto (fresh : Nat) (b lower upper : Branch K) : Prop where
  children : ∃ (before after : List NodeId) (left right : NodeId), fresh ≤ right.index ∧
    b.children = before ++ left :: after ∧
    lower.children ++ upper.children = before ++ left :: right :: after
  keys : ∃ (before after : List K) (separator middle : K), b.keys = before ++ after ∧
    lower.keys ++ middle :: upper.keys = before ++ separator :: after

/-- No child is lost where a branch is divided. -/
theorem SplitInto.mem {fresh : Nat} {b lower upper : Branch K} (h : b.SplitInto fresh lower upper)
    {id : NodeId} (hid : id ∈ b.children) : id ∈ lower.children ∨ id ∈ upper.children := by
  obtain ⟨before, after, left, right, -, hb, heq⟩ := h.children
  rw [← List.mem_append, heq]
  rw [hb] at hid
  simp only [List.mem_append, List.mem_cons] at hid ⊢
  tauto

end Branch

/-- What an insertion of `key` makes of a node on the way `path` to a leaf, where `Has` says which nodes
there are then, and the fresh ones are numbered on from `fresh`. -/
inductive Becomes [Ord K] (key : K) (fresh : Nat) (path : List NodeId) (Has : Subtree K → Prop) :
    Subtree K → Prop
  | filled {id : NodeId} {keys : List K} {next : Option NodeId} (last : path.getLast? = some id)
    (has : Has (.leaf id (insertBehind key keys) next)) : Becomes key fresh path Has (.leaf id keys next)
  | halved {id right : NodeId} {keys lower upper : List K} {next : Option NodeId}
    (last : path.getLast? = some id) (le : fresh ≤ right.index)
    (has_lower : Has (.leaf id lower (some right))) (has_upper : Has (.leaf right upper next))
    (append_eq : lower ++ upper = insertBehind key keys) : Becomes key fresh path Has (.leaf id keys next)
  | grown {id : NodeId} {keys keys' : List K} {children children' : List (Subtree K)}
    (has : Has (.branch id keys' children'))
    (subset : children.map Subtree.id ⊆ children'.map Subtree.id) :
    Becomes key fresh path Has (.branch id keys children)
  | divided {id right : NodeId} {keys lower upper : List K} {children near far : List (Subtree K)}
    (le : fresh ≤ right.index) (has_lower : Has (.branch id lower near))
    (has_upper : Has (.branch right upper far))
    (split : Branch.SplitInto fresh ⟨keys, children.map Subtree.id, none⟩
      ⟨lower, near.map Subtree.id, none⟩ ⟨upper, far.map Subtree.id, none⟩) :
    Becomes key fresh path Has (.branch id keys children)

theorem Becomes.mono [Ord K] {key : K} {fresh : Nat} {path path' : List NodeId}
    {Has Has' : Subtree K → Prop} {s : Subtree K} (h : Becomes key fresh path Has s)
    (hpath : ∀ id, path.getLast? = some id → path'.getLast? = some id) (hhas : ∀ x, Has x → Has' x) :
    Becomes key fresh path' Has' s := by
  cases h with
  | filled last has => exact .filled (hpath _ last) (hhas _ has)
  | halved last le has_lower has_upper append_eq =>
    exact .halved (hpath _ last) le (hhas _ has_lower) (hhas _ has_upper) append_eq
  | grown has subset => exact .grown (hhas _ has) subset
  | divided le has_lower has_upper split =>
    exact .divided le (hhas _ has_lower) (hhas _ has_upper) split

/-! ## All nodes -/

/-- Each node of `s` is there as it was, or is on the way `path` and has become something else. -/
def Accounts [Ord K] (key : K) (fresh : Nat) (path : List NodeId) (s : Subtree K)
    (Has : Subtree K → Prop) : Prop :=
  ∀ x, x.Within s → Has x ∨ x.id ∈ path ∧ Becomes key fresh path Has x

namespace Growth

/-- What becomes of the nodes of `s` where it grows into `g`, the leaf at the end of the way among them. The
first part has the number of `s`, and a second one is fresh. -/
structure Effect [Ord K] (key : K) (fresh : Nat) (path : List NodeId) (s : Subtree K) (g : Growth K) :
    Prop where
  id_eq : ∀ part ∈ g.parts.head?, part.id = s.id
  fresh_le : ∀ left separator right n, g = .halves left separator right n →
    fresh ≤ n ∧ fresh ≤ right.id.index
  nodes : Accounts key fresh path s g.Has
  leaf : ∃ id keys next, (Subtree.leaf id keys next).Within s ∧ path.getLast? = some id ∧
    Becomes key fresh path g.Has (.leaf id keys next)

theorem has_whole (s : Subtree K) : (whole s).Has s := ⟨s, List.mem_singleton_self s, .refl s⟩

theorem has_left (left : Subtree K) (separator : K) (right : Subtree K) (n : Nat) :
    (halves left separator right n).Has left := ⟨left, List.mem_cons_self, .refl left⟩

theorem has_right (left : Subtree K) (separator : K) (right : Subtree K) (n : Nat) :
    (halves left separator right n).Has right :=
  ⟨right, List.mem_cons_of_mem _ List.mem_cons_self, .refl right⟩

variable {order fresh : Nat} {path : List NodeId} {g gc : Growth K} {f : Frame K} {c : Subtree K}

/-- A step of the way up loses no node below the branch. -/
theorem has_grow {x : Subtree K} (hg : f.grow order gc = some g)
    (hc : c ∈ f.before ++ gc.parts ++ f.after) (hx : x.Within c) : g.Has x := by
  cases gc with
  | whole s =>
    obtain rfl := Option.some.inj hg
    exact ⟨_, List.mem_singleton_self _, hx.branch (by simpa [parts] using hc)⟩
  | halves left separator right fresh' =>
    have hmem : c ∈ f.before ++ left :: right :: f.after := by simpa [parts] using hc
    rcases ofBranch_cases hg with ⟨-, rfl⟩ | ⟨-, new, middle, -, -, rfl⟩
    · exact ⟨_, List.mem_singleton_self _, hx.branch hmem⟩
    · rw [← List.take_append_drop (order / 2 + 1) (f.before ++ _)] at hmem
      rcases List.mem_append.mp hmem with hnear | hfar
      · exact ⟨_, List.mem_cons_self, hx.branch hnear⟩
      · exact ⟨_, List.mem_cons_of_mem _ List.mem_cons_self, hx.branch hfar⟩

theorem has_grow_of_has {x : Subtree K} (hg : f.grow order gc = some g) (hx : gc.Has x) : g.Has x := by
  obtain ⟨part, hpart, hx⟩ := hx
  exact has_grow hg (by simp [hpart]) hx

variable [Ord K] {key : K}

/-- The key goes into the leaf. -/
theorem becomes_ofLeaf {id : NodeId} {keys : List K} {next : Option NodeId}
    (hg : ofLeaf order fresh id (insertBehind key keys) next = some g) :
    Becomes key fresh [id] g.Has (.leaf id keys next) := by
  rcases ofLeaf_cases hg with ⟨-, rfl⟩ | ⟨-, right, separator, hright, -, rfl⟩
  · exact .filled rfl (has_whole _)
  · exact .halved rfl hright.ge (has_left _ _ _ _) (has_right _ _ _ _) (List.take_append_drop _ _)

theorem effect_ofLeaf {id : NodeId} {keys : List K} {next : Option NodeId}
    (hg : ofLeaf order fresh id (insertBehind key keys) next = some g) :
    Effect key fresh [id] (.leaf id keys next) g where
  id_eq := by
    intro part hpart
    rcases ofLeaf_cases hg with ⟨-, rfl⟩ | ⟨-, right, separator, -, -, rfl⟩ <;>
      exact Option.some.inj hpart ▸ rfl
  fresh_le := by
    rintro _ _ _ _ rfl
    rcases ofLeaf_cases hg with ⟨-, e⟩ | ⟨-, right, separator, hright, -, e⟩
    · cases e
    · cases e
      exact ⟨Nat.le_succ fresh, hright.ge⟩
  nodes := by
    intro x hx
    rw [Subtree.within_leaf hx]
    exact .inr ⟨List.mem_singleton_self id, becomes_ofLeaf hg⟩
  leaf := ⟨_, _, _, .refl _, rfl, becomes_ofLeaf hg⟩

/-- What has become of a node below the branch stays. -/
theorem becomes_grow {x : Subtree K} (h : Becomes key fresh path gc.Has x)
    (hg : f.grow order gc = some g) (id : NodeId) : Becomes key fresh (id :: path) g.Has x :=
  h.mono (fun _ hlast => List.mem_getLast?_cons hlast) fun _ hx => has_grow_of_has hg hx

/-- What has become of a node is in the whole tree. -/
theorem becomes_close {root x : Subtree K} (h : Becomes key fresh path g.Has x)
    (hclose : g.close = some root) : Becomes key fresh path (Subtree.Within · root) x :=
  h.mono (fun _ hlast => hlast) fun _ hhas => hhas.within_close hclose

namespace Effect

/-- What becomes of the branch above a child that has grown. -/
theorem becomes_fill (h : Effect key fresh path c gc) (hg : f.grow order gc = some g)
    (path' : List NodeId) : Becomes key fresh path' g.Has (f.fill c) := by
  cases gc with
  | whole s =>
    obtain rfl := Option.some.inj hg
    refine .grown (has_whole (f.fill s)) ?_
    simp [h.id_eq s rfl]
  | halves left separator right n =>
    obtain ⟨hn, hright⟩ := h.fresh_le _ _ _ _ rfl
    have hleft := h.id_eq left rfl
    rcases ofBranch_cases hg with ⟨-, rfl⟩ | ⟨-, new, middle, hnew, hmiddle, rfl⟩
    · refine .grown (has_whole _) ?_
      simp only [List.map_append, List.map_cons, hleft]
      exact (((List.sublist_cons_self _ _).cons_cons _).append_left _).subset
    · refine .divided (hnew ▸ hn) (has_left _ _ _ _) (has_right _ _ _ _) ⟨?_, ?_⟩
      · refine ⟨f.before.map Subtree.id, f.after.map Subtree.id, c.id, right.id, hright, by simp, ?_⟩
        rw [← List.map_append, List.take_append_drop]
        simp [hleft]
      · refine ⟨f.keys.take f.slot, f.keys.drop f.slot, separator, middle,
          (List.take_append_drop _ _).symm, ?_⟩
        obtain ⟨hlt, rfl⟩ := List.getElem?_eq_some_iff.mp hmiddle
        rw [← List.drop_eq_getElem_cons, List.take_append_drop]

/-- **A step of the way up makes something else of the branch only.** -/
theorem grow (h : Effect key fresh path c gc) (hg : f.grow order gc = some g) :
    Effect key fresh (f.id :: path) (f.fill c) g where
  id_eq := by
    intro part hpart
    cases gc with
    | whole s =>
      obtain rfl := Option.some.inj hg
      exact Option.some.inj hpart ▸ rfl
    | halves left separator right n =>
      rcases ofBranch_cases hg with ⟨-, rfl⟩ | ⟨-, new, middle, -, -, rfl⟩ <;>
        exact Option.some.inj hpart ▸ rfl
  fresh_le := by
    rintro _ _ _ _ rfl
    cases gc with
    | whole s => cases hg
    | halves left separator right n =>
      have hn := (h.fresh_le _ _ _ _ rfl).1
      rcases ofBranch_cases hg with ⟨-, e⟩ | ⟨-, new, middle, hnew, -, e⟩
      · cases e
      · cases e
        exact ⟨Nat.le_succ_of_le hn, hnew ▸ hn⟩
  nodes := by
    intro x hx
    rcases Subtree.within_branch hx with rfl | ⟨c', hc', hxc⟩
    · exact .inr ⟨List.mem_cons_self, h.becomes_fill hg _⟩
    rcases List.mem_append.mp hc' with hbefore | hc'
    · exact .inl (has_grow hg (by simp [hbefore]) hxc)
    rcases List.mem_cons.mp hc' with rfl | hafter
    · exact (h.nodes x hxc).imp (has_grow_of_has hg) fun ⟨hpath, hbecomes⟩ =>
        ⟨List.mem_cons_of_mem _ hpath, becomes_grow hbecomes hg _⟩
    · exact .inl (has_grow hg (by simp [hafter]) hxc)
  leaf := by
    obtain ⟨_, _, _, hleaf, hlast, hbecomes⟩ := h.leaf
    exact ⟨_, _, _, hleaf.branch (by simp), List.mem_getLast?_cons hlast, becomes_grow hbecomes hg _⟩

/-- What becomes of the root, and where the old root is then. -/
theorem root_cases {s root : Subtree K} (h : Effect key fresh path s g) (hclose : g.close = some root) :
    root.id = s.id ∨ fresh ≤ root.id.index ∧ ∃ (separator : K) (left right : Subtree K),
      root = .branch root.id [separator] [left, right] ∧ left.id = s.id := by
  cases g with
  | whole whole =>
    obtain rfl := Option.some.inj hclose
    exact .inl (h.id_eq whole rfl)
  | halves left separator right n =>
    obtain ⟨new, hnew, rfl⟩ := Option.map_eq_some_iff.mp hclose
    refine .inr ⟨?_, separator, left, right, rfl, h.id_eq left rfl⟩
    rw [Subtree.id, ofNat?_eq_some.mp hnew]
    exact (h.fresh_le _ _ _ _ rfl).1

/-- What becomes of the nodes of a whole tree. -/
theorem accounts_close {s root : Subtree K} (h : Effect key fresh path s g)
    (hclose : g.close = some root) : Accounts key fresh path s (Subtree.Within · root) := fun x hx =>
  (h.nodes x hx).imp (·.within_close hclose) fun ⟨hpath, hbecomes⟩ =>
    ⟨hpath, becomes_close hbecomes hclose⟩

theorem leaf_close {s root : Subtree K} (h : Effect key fresh path s g) (hclose : g.close = some root) :
    ∃ id keys next, (Subtree.leaf id keys next).Within s ∧ path.getLast? = some id ∧
      Becomes key fresh path (Subtree.Within · root) (.leaf id keys next) := by
  obtain ⟨_, _, _, hleaf, hlast, hbecomes⟩ := h.leaf
  exact ⟨_, _, _, hleaf, hlast, becomes_close hbecomes hclose⟩

end Effect

end Growth

/-- **An insertion makes something else of the nodes on the way to one leaf only.** -/
theorem Subtree.effect_insert [Ord K] {key : K} {order fresh : Nat} {fs : Trail K}
    (hfs : ∀ f ∈ fs, f.Follows (rankOf key)) {id : NodeId} {keys : List K} {next : Option NodeId}
    {g : Growth K} (hg : (fs.plug (.leaf id keys next)).insert order fresh key = some g) :
    Growth.Effect key fresh ((fs.map Frame.id).reverse ++ [id]) (fs.plug (.leaf id keys next)) g := by
  induction fs using List.reverseRecOn generalizing g with
  | nil =>
    rw [Trail.plug_nil, insert_leaf] at hg
    exact Growth.effect_ofLeaf hg
  | append_singleton fs f ih =>
    rw [Trail.plug_concat, insert_fill (hfs f (List.mem_append_right _ (List.mem_singleton_self f)))] at hg
    obtain ⟨gc, hgc, hg⟩ := Option.bind_eq_some_iff.mp hg
    rw [Trail.plug_concat, List.map_append, List.reverse_append]
    exact (ih (fun f' hf' => hfs f' (List.mem_append_left _ hf')) hgc).grow hg

end TracedIndex
