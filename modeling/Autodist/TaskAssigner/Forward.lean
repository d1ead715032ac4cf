import Autodist.TaskAssigner.AssignTask
import Autodist.TaskAssigner.Worklist

/-!
# `Autodist/TaskAssigner/Forward.lean` — the parent-to-child pass ends, and leaves nothing unassigned

`traverse(self._agg_grad_ops, end_ops=self._apply_grad_ops, neighbors_fn=__assign_forward)`.
From the aggregation ops the pass walks along `children` — consumers that are apply-op ancestors —
and drops every apply op it pops without calling `__assign_forward` on it; `ForwardReach` is the set
it visits. An op waits until every placement reference (its inputs, less
`_ancestors_diff_descendants`) has a task. So a pop writes only at an op the pass reaches that is no
apply op and has no task yet (`forwardPop_cases`).

Why no op waits forever: a waiting op's unassigned reference is an input that is an apply-op
ancestor *and* an aggregation descendant, hence itself reachable by the pass
(`forwardReach_of_descendant`), hence still reachable from a queued op (`ForwardInv.pending`) — of
smaller rank. So the queued op of least rank is always ready (`ForwardInv.exists_ready`), and
`traverse_ends` applies. One fact about the start is used, and it is what
`_place_post_grad_agg_ops` produces: every aggregation and apply op is seeded. The invariant itself
needs no seeding, so what it says at the end of a pass (every op the pass reaches, other than an
apply op, has a task) holds of every run that ends.
-/

set_option autoImplicit false

namespace Autodist
namespace PSGradientTaskAssigner

open Graph

variable (a : PSGradientTaskAssigner)

/-- The ops the parent-to-child pass can reach. -/
def ForwardReach (x : Nat) : Prop :=
  Reach a.children a.aggGradOps a.applyGradOps x

/-- A pop of `x` does not requeue it: `x` is an end op, has a task, or every reference of it has
one. -/
def ReadyForward (s : State) (x : Nat) : Prop :=
  x ∈ a.applyGradOps ∨ (s.opToTask x).isSome ∨ ∀ r ∈ a.forwardReferenceOps x, (s.opToTask r).isSome

/-! ## 1. The sets -/

theorem mem_applyGradAncestorOps {x : Nat} :
    x ∈ a.applyGradAncestorOps ↔ Reach a.graph.inputs a.applyGradOps a.aggGradOps x :=
  mem_getAncestors

theorem aggGradDescendantOps_iff {x : Nat} :
    a.aggGradDescendantOps x = true ↔ Reach a.graph.consumers a.aggGradOps a.applyGradOps x :=
  traverseReaches_iff

theorem mem_children {x y : Nat} :
    y ∈ a.children x ↔ x ∈ a.graph.inputs y ∧ y ∈ a.applyGradAncestorOps := by
  simp [children, a.graph.mem_consumers]

theorem mem_backwardReferenceOps {x r : Nat} :
    r ∈ a.backwardReferenceOps x ↔ x ∈ a.graph.inputs r ∧ r ∈ a.applyGradAncestorOps := by
  simp [backwardReferenceOps, a.graph.mem_consumers]

theorem mem_forwardReferenceOps {x r : Nat} :
    r ∈ a.forwardReferenceOps x ↔ r ∈ a.graph.inputs x ∧
      (r ∈ a.applyGradAncestorOps → a.aggGradDescendantOps r = true) := by
  simp [forwardReferenceOps, ancestorsDiffDescendants, imp_iff_not_or]

/-- An op the pass reaches past an aggregation op is an apply-op ancestor. -/
theorem ForwardReach.mem_ancestors {x : Nat} (h : a.ForwardReach x) (hx : x ∉ a.aggGradOps) :
    x ∈ a.applyGradAncestorOps := by
  rcases reach_iff.mp h with hagg | ⟨p, -, -, hp⟩
  · exact absurd hagg hx
  · exact ((a.mem_children).mp hp).2

/-- Every op the pass reaches is an aggregation descendant. -/
theorem ForwardReach.descendant {x : Nat} (h : a.ForwardReach x) :
    a.aggGradDescendantOps x = true := by
  obtain ⟨z, hz, hp⟩ := h
  exact (a.aggGradDescendantOps_iff).mpr ⟨z, hz, hp.mono fun u v huv =>
    ⟨huv.1, (List.mem_filter.mp huv.2).1⟩⟩

/-- **An aggregation descendant that is an apply-op ancestor is reached by the pass.** -/
theorem forwardReach_of_descendant {x : Nat} (hd : a.aggGradDescendantOps x = true)
    (hA : x ∈ a.applyGradAncestorOps) : a.ForwardReach x := by
  obtain ⟨z, hz, hp⟩ := (a.aggGradDescendantOps_iff).mp hd
  clear hd
  induction hp with
  | refl => exact .start hz
  | @tail p y _ hstep ih =>
    by_cases hy : y ∈ a.aggGradOps
    · exact .start hy
    · have hpy : p ∈ a.graph.inputs y := a.graph.mem_consumers.mp hstep.2
      have hpA : p ∈ a.applyGradAncestorOps :=
        (a.mem_applyGradAncestorOps).mpr (((a.mem_applyGradAncestorOps).mp hA).step hy hpy)
      exact (ih hpA).step hstep.1 ((a.mem_children).mpr ⟨hpy, hA⟩)

/-- An op the pass reaches past an aggregation op has a placement reference. -/
theorem ForwardReach.references_ne_nil {x : Nat} (h : a.ForwardReach x) (hx : x ∉ a.aggGradOps) :
    a.forwardReferenceOps x ≠ [] := by
  rcases reach_iff.mp h with hagg | ⟨p, hp, -, hpx⟩
  · exact absurd hagg hx
  · exact List.ne_nil_of_mem ((a.mem_forwardReferenceOps).mpr
      ⟨((a.mem_children).mp hpx).1, fun _ => ForwardReach.descendant a hp⟩)

/-! ## 2. One pop -/

/-- `__assign_forward` on an op that is no end op, by its three branches. -/
theorem assignForward_of_not_mem {s : State} {x : Nat} (happ : x ∉ a.applyGradOps) :
    a.assignForward s x =
      if (s.opToTask x).isSome then .ok (s, a.children x)
      else if ∀ r ∈ a.forwardReferenceOps x, (s.opToTask r).isSome then
        (a.assignTask s x (a.forwardReferenceOps x)).map (·, a.children x)
      else .ok (s, [x]) := by
  unfold assignForward
  by_cases hx : (s.opToTask x).isSome
  · rw [if_pos ⟨hx, happ⟩, if_pos hx]
  rw [if_neg (fun h => hx h.1), if_neg hx]
  by_cases hall : ∀ r ∈ a.forwardReferenceOps x, (s.opToTask r).isSome
  · simp only [List.all_eq_true.mpr hall, Bool.not_true, if_pos hall, happ, not_false_eq_true,
      if_true, Bool.false_eq_true, if_false]
    cases a.assignTask s x (a.forwardReferenceOps x) <;> rfl
  · have hall' : ((a.forwardReferenceOps x).all (s.opToTask · |>.isSome)) = false :=
      Bool.eq_false_iff.mpr fun h' => hall (List.all_eq_true.mp h')
    simp only [hall', Bool.not_false, if_neg hall, if_true]

theorem forwardPop_wait {s : State} {x : Nat} (h : ¬a.ReadyForward s x) :
    popOp a.applyGradOps a.assignForward s x = .ok (s, [x]) := by
  simp only [ReadyForward, not_or] at h
  rw [popOp, if_neg h.1, a.assignForward_of_not_mem h.1, if_neg h.2.1, if_neg h.2.2]

/-- **Everything a pop of the pass can do**: wait, or — ready — append the op's children (nothing
for an apply op), either without a write (an apply op, or an op that has a task) or through
`__assign_task`, at an op that is no apply op and has no task, with references that all have
tasks. -/
theorem forwardPop_cases {s s' : State} {x : Nat} {ys : List Nat}
    (h : popOp a.applyGradOps a.assignForward s x = .ok (s', ys)) :
    (¬a.ReadyForward s x ∧ s' = s ∧ ys = [x]) ∨
    (a.ReadyForward s x ∧ ys = expand a.children a.applyGradOps x ∧
      ((s' = s ∧ (x ∈ a.applyGradOps ∨ (s.opToTask x).isSome)) ∨
        (x ∉ a.applyGradOps ∧ s.opToTask x = none ∧
          (∀ r ∈ a.forwardReferenceOps x, (s.opToTask r).isSome) ∧
          a.assignTask s x (a.forwardReferenceOps x) = .ok s'))) := by
  by_cases hr : a.ReadyForward s x
  swap
  · rw [a.forwardPop_wait hr] at h
    cases h
    exact .inl ⟨hr, rfl, rfl⟩
  refine .inr ⟨hr, ?_⟩
  by_cases happ : x ∈ a.applyGradOps
  · rw [popOp, if_pos happ] at h
    cases h
    exact ⟨by simp [expand, happ], .inl ⟨rfl, .inl happ⟩⟩
  rw [popOp, if_neg happ, a.assignForward_of_not_mem happ] at h
  have hexp : expand a.children a.applyGradOps x = a.children x := if_neg happ
  by_cases hx : (s.opToTask x).isSome
  · rw [if_pos hx] at h
    cases h
    exact ⟨hexp.symm, .inl ⟨rfl, .inr hx⟩⟩
  have hall := (hr.resolve_left happ).resolve_left hx
  rw [if_neg hx, if_pos hall] at h
  cases ht : a.assignTask s x (a.forwardReferenceOps x) with
  | error e => rw [ht] at h; cases h
  | ok s'' =>
    rw [ht] at h
    cases h
    exact ⟨hexp.symm, .inr ⟨happ, Option.not_isSome_iff_eq_none.mp hx, hall, rfl⟩⟩

/-- A ready pop with a reference to go by succeeds. -/
theorem forwardPop_ready {s : State} {x : Nat} (hr : a.ReadyForward s x)
    (hne : x ∈ a.applyGradOps ∨ (s.opToTask x).isSome ∨ a.forwardReferenceOps x ≠ []) :
    ∃ s', popOp a.applyGradOps a.assignForward s x = .ok (s', expand a.children a.applyGradOps x) := by
  by_cases happ : x ∈ a.applyGradOps
  · exact ⟨s, by rw [popOp, if_pos happ]; simp [expand, happ]⟩
  have hexp : expand a.children a.applyGradOps x = a.children x := if_neg happ
  rw [popOp, if_neg happ, a.assignForward_of_not_mem happ, hexp]
  by_cases hx : (s.opToTask x).isSome
  · exact ⟨s, by rw [if_pos hx]⟩
  have hall := (hr.resolve_left happ).resolve_left hx
  obtain ⟨v, hv, -⟩ := a.assignTask_ok x hall ((hne.resolve_left happ).resolve_left hx)
  exact ⟨a.place s x v, by rw [if_neg hx, if_pos hall, hv]; rfl⟩

theorem forwardPop_mono {s s' : State} {x : Nat} {ys : List Nat}
    (h : popOp a.applyGradOps a.assignForward s x = .ok (s', ys)) {u : Nat}
    (hu : (s.opToTask u).isSome) : (s'.opToTask u).isSome := by
  rcases a.forwardPop_cases h with ⟨-, rfl, -⟩ | ⟨-, -, ⟨rfl, -⟩ | ⟨-, -, href, ht⟩⟩
  · exact hu
  · exact hu
  · obtain ⟨v, rfl, -⟩ := a.assignTask_picked href ht
    exact a.place_isSome hu

/-! ## 3. The invariant -/

/-- The ops the pass must give a task: those it reaches, other than the apply ops it drops. -/
def ForwardTarget (x : Nat) : Prop := a.ForwardReach x ∧ x ∉ a.applyGradOps

/-- What holds at every point of the pass, whatever the seeding. -/
structure ForwardInv (s : State) (q : List Nat) : Prop where
  reach : ∀ x ∈ q, a.ForwardReach x
  pending : Pending a.children a.applyGradOps a.ForwardTarget (fun s u => (s.opToTask u).isSome) s q

theorem ForwardInv.start (s : State) : a.ForwardInv s a.aggGradOps :=
  ⟨fun _ hx => .start hx, .start fun _ hu => hu.1⟩

theorem ForwardInv.pop {s s' : State} {x : Nat} {q ys : List Nat} (hi : a.ForwardInv s (x :: q))
    (h : popOp a.applyGradOps a.assignForward s x = .ok (s', ys)) : a.ForwardInv s' (q ++ ys) := by
  have hmono := fun u => a.forwardPop_mono h (u := u)
  refine ⟨?_, hi.pending.pop hmono ?_⟩
  · have hx := hi.reach x (List.mem_cons_self _ _)
    rcases a.forwardPop_cases h with ⟨-, -, rfl⟩ | ⟨-, rfl, -⟩ <;> intro y hy <;>
      rcases List.mem_append.mp hy with hy | hy
    · exact hi.reach y (List.mem_cons_of_mem _ hy)
    · rwa [List.mem_singleton.mp hy]
    · exact hi.reach y (List.mem_cons_of_mem _ hy)
    · obtain ⟨hend, hc⟩ := mem_expand.mp hy
      exact hx.step hend hc
  · rcases a.forwardPop_cases h with ⟨-, rfl, rfl⟩ | ⟨-, rfl, ⟨rfl, hdone⟩ | ⟨-, -, href, ht⟩⟩
    · exact .inl ⟨rfl, rfl⟩
    · exact .inr ⟨rfl, fun ht => hdone.resolve_left ht.2⟩
    · obtain ⟨v, rfl, -⟩ := a.assignTask_picked href ht
      exact .inr ⟨rfl, fun _ => by simp⟩

/-- At every point of the pass from `s`, `ForwardInv` holds. -/
theorem ForwardInv.run {n : Nat} {s s' : State} {q : List Nat}
    (h : traverse a.applyGradOps a.assignForward n s a.aggGradOps = .ok (s', q)) :
    a.ForwardInv s' q :=
  traverse_inv _ _ a.ForwardInv (fun _ _ _ _ _ hi h => hi.pop a h) n s _ s' q (.start a s) h

/-- **Some queued op is ready**: a waiting op's missing reference is still reachable from a
queued op of smaller rank, so the queued op of least rank does not wait. -/
theorem ForwardInv.exists_ready {s : State} {q : List Nat} (hi : a.ForwardInv s q)
    (hseed : ∀ x ∈ a.aggGradOps ++ a.applyGradOps, (s.opToTask x).isSome) (hq : q ≠ []) :
    ∃ x ∈ q, a.ReadyForward s x := by
  have lower : ∀ x ∈ q, ¬a.ReadyForward s x → ∃ y ∈ q, a.graph.rank y < a.graph.rank x := by
    intro x hx hnr
    simp only [ReadyForward, not_or, not_forall] at hnr
    obtain ⟨-, hnx, r, hr, hnr'⟩ := hnr
    have hxagg : x ∉ a.aggGradOps := fun hagg => hnx (hseed x (List.mem_append_left _ hagg))
    have hrapp : r ∉ a.applyGradOps := fun happ => hnr' (hseed r (List.mem_append_right _ happ))
    obtain ⟨hrin, hrD⟩ := (a.mem_forwardReferenceOps).mp hr
    have hxA := ForwardReach.mem_ancestors a (hi.reach x hx) hxagg
    have hrA : r ∈ a.applyGradAncestorOps :=
      (a.mem_applyGradAncestorOps).mpr (((a.mem_applyGradAncestorOps).mp hxA).step hxagg hrin)
    obtain ⟨y, hy, hp⟩ :=
      hi.pending r ⟨a.forwardReach_of_descendant (hrD hrA) hrA, hrapp⟩ hnr'
    exact ⟨y, hy, lt_of_le_of_lt (Path.rank_le_of_consumers a.graph hp) (a.graph.rank_lt hrin)⟩
  suffices ∀ n, ∀ x ∈ q, a.graph.rank x = n → ∃ x ∈ q, a.ReadyForward s x by
    obtain ⟨x, hx⟩ := List.exists_mem_of_ne_nil q hq
    exact this _ x hx rfl
  intro n
  induction n using Nat.strong_induction_on with
  | _ n ih =>
    intro x hx hn
    by_cases hr : a.ReadyForward s x
    · exact ⟨x, hx, hr⟩
    · obtain ⟨y, hy, hlt⟩ := lower x hx hr
      exact ih _ (hn ▸ hlt) y hy rfl

/-! ## 4. The pass ends -/

/-- A bound on the rank of every apply-op ancestor. -/
def ancestorRankBound : Nat := (a.applyGradAncestorOps.map a.graph.rank).sum

theorem rank_le_ancestorRankBound {x : Nat} (hx : x ∈ a.applyGradAncestorOps) :
    a.graph.rank x ≤ a.ancestorRankBound :=
  List.le_sum_of_mem (List.mem_map_of_mem a.graph.rank hx)

/-- Children lie strictly higher in rank, below the bound. -/
theorem forward_measure_lt :
    ∀ x, ∀ y ∈ expand a.children a.applyGradOps x,
      a.ancestorRankBound + 1 - a.graph.rank y < a.ancestorRankBound + 1 - a.graph.rank x := by
  intro x y hy
  obtain ⟨hin, hA⟩ := (a.mem_children).mp (mem_expand.mp hy).2
  have := a.graph.rank_lt hin
  have := a.rank_le_ancestorRankBound hA
  omega

/-- **The parent-to-child pass ends** when every aggregation and apply op is seeded. -/
theorem forward_ends {s : State}
    (hseed : ∀ x ∈ a.aggGradOps ++ a.applyGradOps, (s.opToTask x).isSome) :
    ∃ n s', traverse a.applyGradOps a.assignForward n s a.aggGradOps = .ok (s', []) := by
  let Inv := fun s q => a.ForwardInv s q ∧ ∀ x ∈ a.aggGradOps ++ a.applyGradOps, (s.opToTask x).isSome
  refine traverse_ends _ _ (weight (expand a.children a.applyGradOps) _ a.forward_measure_lt)
    a.ReadyForward Inv (fun _ _ _ _ _ hi h => ⟨hi.1.pop a h, fun y hy => a.forwardPop_mono h (hi.2 y hy)⟩)
    (fun _ _ _ _ hr => a.forwardPop_wait hr) (fun s x q hi hr => ?_)
    (fun _ _ hi hq => hi.1.exists_ready a hi.2 hq) s a.aggGradOps ⟨.start a s, hseed⟩
  have hne : x ∈ a.applyGradOps ∨ (s.opToTask x).isSome ∨ a.forwardReferenceOps x ≠ [] := by
    by_cases hagg : x ∈ a.aggGradOps
    · exact .inr (.inl (hi.2 x (List.mem_append_left _ hagg)))
    · exact .inr (.inr (ForwardReach.references_ne_nil a (hi.1.reach x (List.mem_cons_self _ _)) hagg))
  obtain ⟨s', hs'⟩ := a.forwardPop_ready hr hne
  exact ⟨s', _, hs', weight_expand_lt _ x⟩

end PSGradientTaskAssigner
end Autodist
