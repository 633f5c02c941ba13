import Mathlib.Algebra.BigOperators.Group.List.Basic
import TracedIndex.Proofs.Subtree.Shape

/-!
# How far a split climbs

A node is **full** if one more key makes it as long as the order. An insertion splits the leaf if that is
full, which adds a separator to the branch above it, and so it splits the branches above as long as these
are full, as a carry goes through the nines at the end of a number. Each split adds one node, and where all
levels are split the subtree falls into two halves.

* `fullRun`: how many nodes from the leaf upwards are full;
* `Frame.grow_of_room`, `Frame.grow_of_full`, `Frame.grow_exhausted`: a split that reaches a branch;
* `Growth.Carries`: how far a split has come, and how many nodes there are then;
* `Growth.carries_ofLeaf`, `Growth.Carries.grow`, **`Subtree.carries_insert`**: at a leaf, through one
  branch, and along a descent.
-/

namespace TracedIndex

variable {K : Type} {o : Order}

/-! ## Full nodes -/

/-- A node with these keys has no room for one more. -/
def isFull (o : Order) (keys : List K) : Bool := keys.length == o.size - 1

theorem isFull_iff {keys : List K} : isFull o keys ↔ keys.length + 1 = o.size := by
  have := o.three_le_size
  rw [isFull, beq_iff_eq]
  omega

/-- The number of the leading nodes that are full, where each node is given by its keys. -/
def fullRun (o : Order) (nodes : List (List K)) : Nat := (nodes.takeWhile (isFull o)).length

theorem fullRun_le (nodes : List (List K)) : fullRun o nodes ≤ nodes.length :=
  (List.takeWhile_prefix _).length_le

/-- A last node counts if all nodes before it are full. -/
theorem fullRun_concat (nodes : List (List K)) (keys : List K) :
    fullRun o (nodes ++ [keys]) =
      if fullRun o nodes = nodes.length ∧ isFull o keys then nodes.length + 1 else fullRun o nodes := by
  unfold fullRun
  rw [List.takeWhile_append]
  by_cases hall : (nodes.takeWhile (isFull o)).length = nodes.length
  · cases hfull : isFull o keys <;> simp [hall, hfull]
  · simp [hall]

/-! ## A split that reaches a branch -/

namespace Frame

variable {f : Frame K} {left right : Subtree K} {separator : K} {fresh : Nat}

theorem size_fill (f : Frame K) (s : Subtree K) : (f.fill s).size = s.size + f.ids.length := by
  have h := (f.ids_fill s).length_eq
  rwa [List.length_append, Subtree.length_ids, Subtree.length_ids] at h

theorem size_entered (f : Frame K) (keys : List K) (left right : Subtree K) :
    (Subtree.branch f.id keys (f.before ++ left :: right :: f.after)).size =
      left.size + right.size + f.ids.length := by
  have h := f.size_fill left
  simp only [fill, Subtree.size_branch, List.map_append, List.map_cons, List.sum_append,
    List.sum_cons] at h ⊢
  omega

/-- A branch that is not full takes the split up. -/
theorem grow_of_room (h : f.keys.length + 1 < o.size) :
    f.grow o.size (.halves left separator right fresh) =
      some (.whole (.branch f.id (f.keys.take f.slot ++ separator :: f.keys.drop f.slot)
        (f.before ++ left :: right :: f.after))) := by
  rw [grow, Growth.ofBranch, if_pos (by rwa [length_entered])]

/-- A full branch is split itself, as long as there is a number for the fresh branch. -/
theorem grow_of_full (f : Frame K) (left right : Subtree K) (separator : K)
    (h : f.keys.length + 1 = o.size) (hfresh : fresh < UInt32.size) :
    ∃ (left' right' : Subtree K) (separator' : K), left'.id = f.id ∧ right'.id.index = fresh ∧
      left'.size + right'.size = left.size + right.size + f.ids.length + 1 ∧
      f.grow o.size (.halves left separator right fresh) =
        some (.halves left' separator' right' (fresh + 1)) := by
  have := o.three_le_size
  have hlen := f.length_entered separator
  have hsize := f.size_entered (f.keys.take f.slot ++ separator :: f.keys.drop f.slot) left right
  rw [grow]
  generalize f.keys.take f.slot ++ separator :: f.keys.drop f.slot = keys at hlen hsize ⊢
  generalize f.before ++ left :: right :: f.after = children at hsize ⊢
  have hsome : Growth.ofBranch o.size fresh f.id keys children ≠ none := by
    rw [Ne, Growth.ofBranch_eq_none (by omega)]
    omega
  obtain ⟨g, hg⟩ := Option.ne_none_iff_exists'.mp hsome
  rcases Growth.ofBranch_cases hg with ⟨hlt, -⟩ | ⟨-, new, separator', hnew, -, rfl⟩
  · omega
  -- the halves have all children and one node more
  refine ⟨.branch f.id (keys.take (o.size / 2)) (children.take (o.size / 2 + 1)),
    .branch new (keys.drop (o.size / 2 + 1)) (children.drop (o.size / 2 + 1)), separator', rfl, hnew, ?_,
    hg⟩
  rw [← hsize, Subtree.size_branch, Subtree.size_branch, Subtree.size_branch, List.map_take,
    List.map_drop, ← List.sum_take_add_sum_drop (children.map Subtree.size) (o.size / 2 + 1)]
  omega

theorem grow_exhausted (h : f.keys.length + 1 = o.size) (hfresh : UInt32.size ≤ fresh) :
    f.grow o.size (.halves left separator right fresh) = none := by
  have := o.three_le_size
  rw [grow, Growth.ofBranch_eq_none (by omega), length_entered]
  exact ⟨Nat.le_of_eq h.symm, hfresh⟩

end Frame

/-! ## How far a split has come -/

namespace Growth

/-- What becomes of the subtree `s` of so many `levels`, of which the last `full` ones are full: the split
stops on a level above these and leaves the root what it is, or it goes through all levels. In either case
it adds `full` nodes, unless the numbers from `fresh` on do not last for them. -/
inductive Carries (s : Subtree K) (fresh full levels : Nat) : Option (Growth K) → Prop
  | exhausted (want : UInt32.size < fresh + full) : Carries s fresh full levels none
  | stops {s' : Subtree K} (lt : full < levels) (fits : fresh + full ≤ UInt32.size) (id_eq : s'.id = s.id)
    (size_eq : s'.size = s.size + full) : Carries s fresh full levels (some (.whole s'))
  | through {left right : Subtree K} {separator : K} (eq : full = levels)
    (fits : fresh + full ≤ UInt32.size) (id_eq : left.id = s.id)
    (index_right : right.id.index + 1 = fresh + full)
    (size_eq : left.size + right.size = s.size + full) :
    Carries s fresh full levels (some (.halves left separator right (fresh + full)))

/-- A leaf is split if it is full. -/
theorem carries_ofLeaf {fresh : Nat} {id : NodeId} {keys keys' : List K} {next : Option NodeId}
    (hlt : keys.length < o.size) (hlen : keys'.length = keys.length + 1) (hfresh : fresh ≤ UInt32.size) :
    Carries (.leaf id keys next) fresh (fullRun o [keys]) 1 (ofLeaf o.size fresh id keys' next) := by
  have := o.three_le_size
  by_cases hfull : isFull o keys
  · have hrun : fullRun o [keys] = 1 := by simp [fullRun, hfull]
    rw [isFull_iff] at hfull
    rw [hrun]
    cases hg : ofLeaf o.size fresh id keys' next with
    | none =>
      rw [ofLeaf_eq_none (by omega)] at hg
      exact .exhausted (by omega)
    | some g =>
      rcases ofLeaf_cases hg with ⟨hroom, -⟩ | ⟨-, right, separator, hright, -, rfl⟩
      · omega
      · have := right.index_lt
        exact .through rfl (by omega) rfl (by rw [Subtree.id, hright]) rfl
  · have hrun : fullRun o [keys] = 0 := by simp [fullRun, hfull]
    rw [isFull_iff] at hfull
    rw [hrun, ofLeaf, if_pos (by omega)]
    exact .stops Nat.one_pos hfresh rfl rfl

/-- **A split goes on through a branch if it has come so far and the branch is full.** -/
theorem Carries.grow {f : Frame K} {c : Subtree K} {fresh full levels : Nat} {g : Option (Growth K)}
    (h : Carries c fresh full levels g) (hf : f.Roomy o) :
    Carries (f.fill c) fresh (if full = levels ∧ isFull o f.keys then levels + 1 else full) (levels + 1)
      (g.bind (f.grow o.size)) := by
  cases h with
  | exhausted want => exact .exhausted (by split <;> omega)
  | @stops s' lt fits id_eq size_eq =>
    rw [if_neg (by omega)]
    refine .stops (Nat.lt_succ_of_lt lt) fits rfl ?_
    rw [f.size_fill, f.size_fill, size_eq]
    omega
  | @through left right separator eq fits id_eq index_right size_eq =>
    rw [Option.bind_some]
    by_cases hfull : isFull o f.keys
    · rw [if_pos ⟨eq, hfull⟩, ← eq]
      rw [isFull_iff] at hfull
      rcases Nat.lt_or_ge (fresh + full) UInt32.size with hlt | hge
      · obtain ⟨left', right', separator', hleft, hright, hsize, hg⟩ :=
          f.grow_of_full left right separator hfull hlt
        rw [hg]
        refine .through rfl hlt hleft (by rw [hright, Nat.add_assoc]) ?_
        rw [hsize, f.size_fill, size_eq]
        omega
      · rw [Frame.grow_exhausted hfull hge]
        exact .exhausted (by omega)
    · rw [if_neg fun h => hfull h.2]
      rw [isFull_iff] at hfull
      have := hf.length_lt
      rw [Frame.grow_of_room (by omega)]
      refine .stops (by omega) fits rfl ?_
      rw [f.size_entered, f.size_fill, size_eq]
      omega

end Growth

/-- **An insertion splits the full nodes from the leaf upwards**, each of which adds one node. -/
theorem Subtree.carries_insert [Ord K] {key : K} {fs : Trail K} (hfs : ∀ f ∈ fs, f.Follows (rankOf key))
    (hroomy : ∀ f ∈ fs, f.Roomy o) {id : NodeId} {keys : List K} {next : Option NodeId}
    (hlt : keys.length < o.size) {fresh : Nat} (hfresh : fresh ≤ UInt32.size) :
    Growth.Carries (fs.plug (.leaf id keys next)) fresh (fullRun o (keys :: fs.map Frame.keys))
      (fs.length + 1) ((fs.plug (.leaf id keys next)).insert o.size fresh key) := by
  induction fs using List.reverseRecOn with
  | nil =>
    rw [Trail.plug_nil, insert_leaf]
    exact Growth.carries_ofLeaf hlt (length_insertBehind key keys) hfresh
  | append_singleton fs f ih =>
    have hmem : ∀ f' ∈ fs, f' ∈ fs ++ [f] := fun f' hf' => List.mem_append_left _ hf'
    have hlast := List.mem_append_right fs (List.mem_singleton_self f)
    have hc := (ih (fun f' hf' => hfs f' (hmem f' hf')) fun f' hf' => hroomy f' (hmem f' hf')).grow
      (hroomy f hlast)
    have hnodes : keys :: (fs ++ [f]).map Frame.keys = (keys :: fs.map Frame.keys) ++ [f.keys] := by simp
    rw [Trail.plug_concat, insert_fill (hfs f hlast), hnodes, fullRun_concat]
    simpa using hc

end TracedIndex
