import TracedIndex.Proofs.Arena.Climb
import TracedIndex.Proofs.Arena.Levels

/-!
# Rounds of the way up

An insertion that splits a leaf goes on in **rounds**: each enters the split that is left from the one
before into the branch above it, and splits this branch if that fills it. The arena is not in order
between two rounds. But what is left of the tree above is a trail that gets shorter by one frame with
each round, and where a split has just been entered the arena stores a tree again, with the same root.

* `Rounds`: what is left to be entered after some rounds;
* `climb_pending`, **`Rounds.pends`**: one round, and a run of them;
* **`Pends.enters`**: where the next round enters its split.
-/

namespace TracedIndex

variable {K : Type}

namespace Arena

variable {a b : Arena K} {o : Order} {s r : Split K} {n : Nat} {fs : Trail K} {left right : Subtree K}
  {separator : K}

/-- After `n` rounds of the way up from the split `s` in `a`, the split `r` is left to be entered
in `b`. -/
inductive Rounds (o : Order) (a : Arena K) (s : Split K) : Nat → Arena K → Split K → Prop
  | start : Rounds o a s 0 a s
  | round {n : Nat} {b c : Arena K} {r r' : Split K} (before : Rounds o a s n b r)
    (climb : b.climb o r = .ok (c, .pending r')) : Rounds o a s (n + 1) c r'

/-- **A round that leaves a split to be entered has used up one frame**, by the step of this frame. -/
theorem climb_pending (h : a.Pends fs left right) (hfs : ∀ f ∈ fs, f.Roomy o)
    (hclimb : a.climb o ⟨left.id, separator, right.id⟩ = .ok (b, .pending r)) :
    ∃ (f : Frame K) (rest : Trail K) (left' right' : Subtree K) (separator' : K), fs = f :: rest ∧
      r = ⟨left'.id, separator', right'.id⟩ ∧ b.Pends rest left' right' ∧
      f.grow o.size (.halves left separator right a.size) =
        some (.halves left' separator' right' b.size) := by
  cases fs with
  | nil =>
    -- above a root there is no branch, but a new root
    obtain ⟨g, hg, hshows⟩ := (climb_root_spec separator h).shows hclimb
    obtain ⟨root, -, rfl⟩ := Option.map_eq_some_iff.mp hg
    cases hshows
  | cons f rest =>
    obtain ⟨g, hg, hshows⟩ := (climb_spec separator h (hfs f List.mem_cons_self)).shows hclimb
    cases hshows with
    | pending pends => exact ⟨f, rest, _, _, _, rfl, rfl, pends, hg⟩

/-- **After some rounds, as many frames are used up**, by their steps. -/
theorem Rounds.pends (h : Rounds o a ⟨left.id, separator, right.id⟩ n b r)
    (hpends : a.Pends fs left right) (hfs : ∀ f ∈ fs, f.Roomy o) :
    ∃ (used rest : Trail K) (left' right' : Subtree K) (separator' : K), fs = used ++ rest ∧
      used.length = n ∧ r = ⟨left'.id, separator', right'.id⟩ ∧ b.Pends rest left' right' ∧
      used.grow o.size (.halves left separator right a.size) =
        some (.halves left' separator' right' b.size) := by
  induction h with
  | start => exact ⟨[], fs, left, right, separator, rfl, rfl, rfl, hpends, rfl⟩
  | round before climb ih =>
    obtain ⟨used, rest, left', right', separator', rfl, rfl, rfl, hb, hused⟩ := ih
    obtain ⟨f, rest, left'', right'', separator'', rfl, rfl, hc, hf⟩ :=
      climb_pending hb (fun f hf => hfs f (List.mem_append_right _ hf)) climb
    refine ⟨used ++ [f], rest, left'', right'', separator'', by simp, by simp, rfl, hc, ?_⟩
    rw [Trail.grow_concat, hused, Option.bind_some, hf]

/-- **The next round enters its split into the first branch of the trail**, from which the way up leads to
the root again. -/
theorem Pends.enters (separator : K) (h : a.Pends fs left right) (hfs : ∀ f ∈ fs, f.Roomy o) {m : Node K}
    {parent : NodeId} (hm : a.node left.id = .ok m) (hparent : m.parent = some parent) :
    ∃ (f : Frame K) (rest : Trail K) (c : Arena K) (branch : Branch K), fs = f :: rest ∧
      a.enter parent ⟨left.id, separator, right.id⟩ = .ok (c, branch) ∧
      ∀ s, c.OnLevel (Trail.plug fs s).id fs.length parent ∧
        c.LeadsUp (Trail.plug fs s).id fs.length parent := by
  obtain ⟨m', hm', hp, -⟩ := h.holds_left.root
  obtain rfl := Except.ok.inj (hm.symm.trans hm')
  rw [hp] at hparent
  cases fs with
  | nil => cases hparent
  | cons f rest =>
    obtain rfl := Option.some.inj hparent
    obtain ⟨c, hc, -, hstores⟩ := enter_spec separator h (hfs f List.mem_cons_self).slot_le
    refine ⟨f, rest, c, _, rfl, hc, fun s => ?_⟩
    -- the branch has another child now, but it is still the one at the root of the hole
    obtain ⟨u, hu, hstores⟩ : ∃ u : Subtree K, u.id = f.id ∧ c.Stores (Trail.plug rest u) :=
      ⟨_, rfl, hstores⟩
    rw [Trail.plug_cons, Trail.id_plug_eq rest (s := f.fill s) (t := u) hu.symm, ← hu]
    exact ⟨onLevel_plug hstores.holds, leadsUp_plug hstores⟩

end Arena

end TracedIndex
