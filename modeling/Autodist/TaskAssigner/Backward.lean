import Autodist.TaskAssigner.Forward

/-!
# `Autodist/TaskAssigner/Backward.lean` — the child-to-parent pass ends, and leaves nothing unassigned

`traverse(self._apply_grad_ops, self._agg_grad_ops, neighbors_fn=__assign_backward)`. From the
apply ops the pass walks along *all* inputs — unlike the forward pass, which keeps to
`_apply_grad_ancestor_ops`, nothing here filters them — and drops every aggregation op it pops. What
it visits is therefore exactly `get_ancestors(apply_grad_ops, agg_grad_ops)`. An op waits until
every placement reference (its consumers among the apply-op ancestors) has a task, and a pop writes
only at an apply-op ancestor that is no aggregation op and has no task yet.

The termination argument is the forward one upside down: a waiting op's unassigned reference is a
consumer, of larger rank, still reachable from a queued op of at least that rank; so the queued op
of *greatest* rank is ready (`BackwardInv.exists_ready`).
-/

set_option autoImplicit false

namespace Autodist
namespace PSGradientTaskAssigner

open Graph

variable (a : PSGradientTaskAssigner)

/-- A pop of `x` does not requeue it: `x` is an end op, has a task, or every reference of it has
one. -/
def ReadyBackward (s : State) (x : Nat) : Prop :=
  x ∈ a.aggGradOps ∨ (s.opToTask x).isSome ∨ ∀ r ∈ a.backwardReferenceOps x, (s.opToTask r).isSome

/-- An apply-op ancestor other than an apply op has a placement reference. -/
theorem backwardReferenceOps_ne_nil {x : Nat} (hx : x ∈ a.applyGradAncestorOps)
    (hnot : x ∉ a.applyGradOps) : a.backwardReferenceOps x ≠ [] := by
  rcases reach_iff.mp ((a.mem_applyGradAncestorOps).mp hx) with happ | ⟨p, hp, -, hpx⟩
  · exact absurd happ hnot
  · exact List.ne_nil_of_mem ((a.mem_backwardReferenceOps).mpr ⟨hpx, (a.mem_applyGradAncestorOps).mpr hp⟩)

/-! ## 1. One pop -/

/-- `__assign_backward` on an op that is no end op, by its three branches. -/
theorem assignBackward_of_not_mem {s : State} {x : Nat} (hagg : x ∉ a.aggGradOps) :
    a.assignBackward s x =
      if (s.opToTask x).isSome then .ok (s, a.graph.inputs x)
      else if ∀ r ∈ a.backwardReferenceOps x, (s.opToTask r).isSome then
        (a.assignTask s x (a.backwardReferenceOps x)).map (·, a.graph.inputs x)
      else .ok (s, [x]) := by
  unfold assignBackward
  by_cases hx : (s.opToTask x).isSome
  · rw [if_pos ⟨hx, hagg⟩, if_pos hx]
  rw [if_neg (fun h => hx h.1), if_neg hx]
  by_cases hall : ∀ r ∈ a.backwardReferenceOps x, (s.opToTask r).isSome
  · simp only [List.all_eq_true.mpr hall, Bool.not_true, if_pos hall, hagg, not_false_eq_true,
      if_true, Bool.false_eq_true, if_false]
    cases a.assignTask s x (a.backwardReferenceOps x) <;> rfl
  · have hall' : ((a.backwardReferenceOps x).all (s.opToTask · |>.isSome)) = false :=
      Bool.eq_false_iff.mpr fun h' => hall (List.all_eq_true.mp h')
    simp only [hall', Bool.not_false, if_neg hall, if_true]

theorem backwardPop_wait {s : State} {x : Nat} (h : ¬a.ReadyBackward s x) :
    popOp a.aggGradOps a.assignBackward s x = .ok (s, [x]) := by
  simp only [ReadyBackward, not_or] at h
  rw [popOp, if_neg h.1, a.assignBackward_of_not_mem h.1, if_neg h.2.1, if_neg h.2.2]

/-- **Everything a pop of the pass can do**: wait, or — ready — append the op's inputs (nothing
for an aggregation op), either without a write or through `__assign_task`, at an op that is no
aggregation op and has no task, with references that all have tasks. -/
theorem backwardPop_cases {s s' : State} {x : Nat} {ys : List Nat}
    (h : popOp a.aggGradOps a.assignBackward s x = .ok (s', ys)) :
    (¬a.ReadyBackward s x ∧ s' = s ∧ ys = [x]) ∨
    (a.ReadyBackward s x ∧ ys = expand a.graph.inputs a.aggGradOps x ∧
      ((s' = s ∧ (x ∈ a.aggGradOps ∨ (s.opToTask x).isSome)) ∨
        (x ∉ a.aggGradOps ∧ s.opToTask x = none ∧
          (∀ r ∈ a.backwardReferenceOps x, (s.opToTask r).isSome) ∧
          a.assignTask s x (a.backwardReferenceOps x) = .ok s'))) := by
  by_cases hr : a.ReadyBackward s x
  swap
  · rw [a.backwardPop_wait hr] at h
    cases h
    exact .inl ⟨hr, rfl, rfl⟩
  refine .inr ⟨hr, ?_⟩
  by_cases hagg : x ∈ a.aggGradOps
  · rw [popOp, if_pos hagg] at h
    cases h
    exact ⟨by simp [expand, hagg], .inl ⟨rfl, .inl hagg⟩⟩
  rw [popOp, if_neg hagg, a.assignBackward_of_not_mem hagg] at h
  have hexp : expand a.graph.inputs a.aggGradOps x = a.graph.inputs x := if_neg hagg
  by_cases hx : (s.opToTask x).isSome
  · rw [if_pos hx] at h
    cases h
    exact ⟨hexp.symm, .inl ⟨rfl, .inr hx⟩⟩
  have hall := (hr.resolve_left hagg).resolve_left hx
  rw [if_neg hx, if_pos hall] at h
  cases ht : a.assignTask s x (a.backwardReferenceOps x) with
  | error e => rw [ht] at h; cases h
  | ok s'' =>
    rw [ht] at h
    cases h
    exact ⟨hexp.symm, .inr ⟨hagg, Option.not_isSome_iff_eq_none.mp hx, hall, rfl⟩⟩

/-- A ready pop with a reference to go by succeeds. -/
theorem backwardPop_ready {s : State} {x : Nat} (hr : a.ReadyBackward s x)
    (hne : x ∈ a.aggGradOps ∨ (s.opToTask x).isSome ∨ a.backwardReferenceOps x ≠ []) :
    ∃ s', popOp a.aggGradOps a.assignBackward s x =
      .ok (s', expand a.graph.inputs a.aggGradOps x) := by
  by_cases hagg : x ∈ a.aggGradOps
  · exact ⟨s, by rw [popOp, if_pos hagg]; simp [expand, hagg]⟩
  have hexp : expand a.graph.inputs a.aggGradOps x = a.graph.inputs x := if_neg hagg
  rw [popOp, if_neg hagg, a.assignBackward_of_not_mem hagg, hexp]
  by_cases hx : (s.opToTask x).isSome
  · exact ⟨s, by rw [if_pos hx]⟩
  have hall := (hr.resolve_left hagg).resolve_left hx
  obtain ⟨v, hv, -⟩ := a.assignTask_ok x hall ((hne.resolve_left hagg).resolve_left hx)
  exact ⟨a.place s x v, by rw [if_neg hx, if_pos hall, hv]; rfl⟩

theorem backwardPop_mono {s s' : State} {x : Nat} {ys : List Nat}
    (h : popOp a.aggGradOps a.assignBackward s x = .ok (s', ys)) {u : Nat}
    (hu : (s.opToTask u).isSome) : (s'.opToTask u).isSome := by
  rcases a.backwardPop_cases h with ⟨-, rfl, -⟩ | ⟨-, -, ⟨rfl, -⟩ | ⟨-, -, href, ht⟩⟩
  · exact hu
  · exact hu
  · obtain ⟨v, rfl, -⟩ := a.assignTask_picked href ht
    exact a.place_isSome hu

/-! ## 2. The invariant -/

/-- The ops the pass must give a task: the apply-op ancestors, other than the aggregation ops it
drops. -/
def BackwardTarget (x : Nat) : Prop := x ∈ a.applyGradAncestorOps ∧ x ∉ a.aggGradOps

/-- What holds at every point of the pass, whatever the seeding. -/
structure BackwardInv (s : State) (q : List Nat) : Prop where
  reach : ∀ x ∈ q, x ∈ a.applyGradAncestorOps
  pending : Pending a.graph.inputs a.aggGradOps a.BackwardTarget
    (fun s u => (s.opToTask u).isSome) s q

theorem BackwardInv.start (s : State) : a.BackwardInv s a.applyGradOps :=
  ⟨fun _ hx => (a.mem_applyGradAncestorOps).mpr (.start hx),
    .start fun _ hu => (a.mem_applyGradAncestorOps).mp hu.1⟩

theorem BackwardInv.pop {s s' : State} {x : Nat} {q ys : List Nat} (hi : a.BackwardInv s (x :: q))
    (h : popOp a.aggGradOps a.assignBackward s x = .ok (s', ys)) : a.BackwardInv s' (q ++ ys) := by
  have hmono := fun u => a.backwardPop_mono h (u := u)
  refine ⟨?_, hi.pending.pop hmono ?_⟩
  · have hx := hi.reach x (List.mem_cons_self _ _)
    rcases a.backwardPop_cases h with ⟨-, -, rfl⟩ | ⟨-, rfl, -⟩ <;> intro y hy <;>
      rcases List.mem_append.mp hy with hy | hy
    · exact hi.reach y (List.mem_cons_of_mem _ hy)
    · rwa [List.mem_singleton.mp hy]
    · exact hi.reach y (List.mem_cons_of_mem _ hy)
    · obtain ⟨hend, hc⟩ := mem_expand.mp hy
      exact (a.mem_applyGradAncestorOps).mpr (((a.mem_applyGradAncestorOps).mp hx).step hend hc)
  · rcases a.backwardPop_cases h with ⟨-, rfl, rfl⟩ | ⟨-, rfl, ⟨rfl, hdone⟩ | ⟨-, -, href, ht⟩⟩
    · exact .inl ⟨rfl, rfl⟩
    · exact .inr ⟨rfl, fun ht => hdone.resolve_left ht.2⟩
    · obtain ⟨v, rfl, -⟩ := a.assignTask_picked href ht
      exact .inr ⟨rfl, fun _ => by simp⟩

/-- At every point of the pass from `s`, `BackwardInv` holds. -/
theorem BackwardInv.run {n : Nat} {s s' : State} {q : List Nat}
    (h : traverse a.aggGradOps a.assignBackward n s a.applyGradOps = .ok (s', q)) :
    a.BackwardInv s' q :=
  traverse_inv _ _ a.BackwardInv (fun _ _ _ _ _ hi h => hi.pop a h) n s _ s' q (.start a s) h

/-- **Some queued op is ready**: a waiting op's missing reference is a consumer still reachable
from a queued op of larger rank, so the queued op of greatest rank does not wait. -/
theorem BackwardInv.exists_ready {s : State} {q : List Nat} (hi : a.BackwardInv s q)
    (hseed : ∀ x ∈ a.aggGradOps ++ a.applyGradOps, (s.opToTask x).isSome) (hq : q ≠ []) :
    ∃ x ∈ q, a.ReadyBackward s x := by
  have higher : ∀ x ∈ q, ¬a.ReadyBackward s x → ∃ y ∈ q, a.graph.rank x < a.graph.rank y := by
    intro x _ hnr
    simp only [ReadyBackward, not_or, not_forall] at hnr
    obtain ⟨-, -, r, hr, hnr'⟩ := hnr
    have hragg : r ∉ a.aggGradOps := fun hagg => hnr' (hseed r (List.mem_append_left _ hagg))
    obtain ⟨hxr, hrA⟩ := (a.mem_backwardReferenceOps).mp hr
    obtain ⟨y, hy, hp⟩ := hi.pending r ⟨hrA, hragg⟩ hnr'
    exact ⟨y, hy, lt_of_lt_of_le (a.graph.rank_lt hxr) (Path.rank_le_of_inputs a.graph hp)⟩
  suffices ∀ n, ∀ x ∈ q, a.ancestorRankBound + 1 - a.graph.rank x = n →
      ∃ x ∈ q, a.ReadyBackward s x by
    obtain ⟨x, hx⟩ := List.exists_mem_of_ne_nil q hq
    exact this _ x hx rfl
  intro n
  induction n using Nat.strong_induction_on with
  | _ n ih =>
    intro x hx hn
    by_cases hr : a.ReadyBackward s x
    · exact ⟨x, hx, hr⟩
    · obtain ⟨y, hy, hlt⟩ := higher x hx hr
      have := a.rank_le_ancestorRankBound (hi.reach y hy)
      exact ih _ (by omega) y hy rfl

/-! ## 3. The pass ends -/

/-- **The child-to-parent pass ends** when every aggregation and apply op is seeded. -/
theorem backward_ends {s : State}
    (hseed : ∀ x ∈ a.aggGradOps ++ a.applyGradOps, (s.opToTask x).isSome) :
    ∃ n s', traverse a.aggGradOps a.assignBackward n s a.applyGradOps = .ok (s', []) := by
  let Inv := fun s q => a.BackwardInv s q ∧ ∀ x ∈ a.aggGradOps ++ a.applyGradOps, (s.opToTask x).isSome
  have hμ : ∀ x, ∀ y ∈ expand a.graph.inputs a.aggGradOps x, a.graph.rank y < a.graph.rank x :=
    fun _ _ hy => a.graph.rank_lt (mem_expand.mp hy).2
  refine traverse_ends _ _ (weight (expand a.graph.inputs a.aggGradOps) _ hμ) a.ReadyBackward Inv
    (fun _ _ _ _ _ hi h => ⟨hi.1.pop a h, fun y hy => a.backwardPop_mono h (hi.2 y hy)⟩)
    (fun _ _ _ _ hr => a.backwardPop_wait hr) (fun s x q hi hr => ?_)
    (fun _ _ hi hq => hi.1.exists_ready a hi.2 hq) s a.applyGradOps ⟨.start a s, hseed⟩
  have hne : x ∈ a.aggGradOps ∨ (s.opToTask x).isSome ∨ a.backwardReferenceOps x ≠ [] := by
    by_cases happ : x ∈ a.applyGradOps
    · exact .inr (.inl (hi.2 x (List.mem_append_right _ happ)))
    · exact .inr (.inr (a.backwardReferenceOps_ne_nil (hi.1.reach x (List.mem_cons_self _ _)) happ))
  obtain ⟨s', hs'⟩ := a.backwardPop_ready hr hne
  exact ⟨s', _, hs', weight_expand_lt _ x⟩

end PSGradientTaskAssigner
end Autodist
