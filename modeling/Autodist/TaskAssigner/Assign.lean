import Autodist.TaskAssigner.Backward

/-!
# `Autodist/TaskAssigner/Assign.lean` — what `assign()` guarantees

The two passes of `Forward.lean` and `Backward.lean`, run one after the other. A point of a run of
`assign()` is any result of `assign nF nB s`: while the forward queue is not empty it is a point
of the first pass, afterwards a point of the second (`assign_cases`); so an invariant that every
pop of either pass preserves holds at every point (`assign_inv`). Since `traverse` drops the end
ops, every write of a run is at an op with no task yet: in the first pass at an op the pass reaches
that is no apply op, in the second at an apply-op ancestor that is no aggregation op, once the first
pass has given every op it must a task (`assign_write_inv`).

* `assign_done`: a run that has ended leaves no op of either pass without a task, whatever the
  seeding;
* `assign_terminates`: both passes end, for every acyclic graph, whenever every aggregation and
  apply op is seeded — which is what `_place_post_grad_agg_ops` hands over;
* `assign_places_subgraph`: the run ends without an exception, every op between an aggregation op
  and an apply op has a task, and no device ever gets the shared marker as its task;
* `assign_moves_learning_rate`: the child-to-parent pass does not keep to the ops between the two
  lists. It walks every input of an apply op and places it too: the learning rate, the variable.
-/

set_option autoImplicit false

namespace Autodist
namespace PSGradientTaskAssigner

open Graph

variable (a : PSGradientTaskAssigner)

/-! ## 1. Points of a run -/

theorem assign_of_forward {nF nB : Nat} {s s₁ : State}
    (h : traverse a.applyGradOps a.assignForward nF s a.aggGradOps = .ok (s₁, [])) :
    a.assign nF nB s = traverse a.aggGradOps a.assignBackward nB s₁ a.applyGradOps := by
  simp only [assign, h]
  rfl

/-- A point of a run is a point of the first pass, or of the second once the first has ended. -/
theorem assign_cases {nF nB : Nat} {s s' : State} {q : List Nat}
    (h : a.assign nF nB s = .ok (s', q)) :
    (traverse a.applyGradOps a.assignForward nF s a.aggGradOps = .ok (s', q) ∧ q ≠ []) ∨
    ∃ s₁, traverse a.applyGradOps a.assignForward nF s a.aggGradOps = .ok (s₁, []) ∧
      traverse a.aggGradOps a.assignBackward nB s₁ a.applyGradOps = .ok (s', q) := by
  cases hf : traverse a.applyGradOps a.assignForward nF s a.aggGradOps with
  | error e => simp [assign, hf] at h; cases h
  | ok r =>
    obtain ⟨s₁, q₁⟩ := r
    cases q₁ with
    | nil => exact .inr ⟨s₁, rfl, by rw [← a.assign_of_forward hf]; exact h⟩
    | cons y ys =>
      simp only [assign, hf] at h
      cases h
      exact .inl ⟨rfl, List.cons_ne_nil _ _⟩

/-- **Invariants of every point.** What every forward pop keeps holds at every point of the first
pass, and what every backward pop keeps, once the first pass hands over, at every point of the
second; a run that has ended has ended the second pass. -/
theorem assign_inv (IF IB : State → List Nat → Prop)
    (hF : ∀ s x q s' ys, IF s (x :: q) → popOp a.applyGradOps a.assignForward s x = .ok (s', ys) →
      IF s' (q ++ ys))
    (hB : ∀ s x q s' ys, IB s (x :: q) → popOp a.aggGradOps a.assignBackward s x = .ok (s', ys) →
      IB s' (q ++ ys))
    (hFB : ∀ s, IF s [] → IB s a.applyGradOps) {nF nB : Nat} {s s' : State} {q : List Nat}
    (h0 : IF s a.aggGradOps) (h : a.assign nF nB s = .ok (s', q)) :
    (IF s' q ∧ q ≠ []) ∨ IB s' q := by
  rcases a.assign_cases h with ⟨hf, hq⟩ | ⟨s₁, hf, hb⟩
  · exact .inl ⟨traverse_inv _ _ IF hF nF s _ s' q h0 hf, hq⟩
  · exact .inr (traverse_inv _ _ IB hB nB s₁ _ s' q
      (hFB s₁ (traverse_inv _ _ IF hF nF s _ s₁ [] h0 hf)) hb)

/-- What holds at every point of the second pass: its own invariant, and the first pass done. -/
def BackwardPhase (s : State) (q : List Nat) : Prop :=
  a.BackwardInv s q ∧ ∀ u, a.ForwardTarget u → (s.opToTask u).isSome

theorem BackwardPhase.pop {s s' : State} {x : Nat} {q ys : List Nat}
    (hi : a.BackwardPhase s (x :: q)) (h : popOp a.aggGradOps a.assignBackward s x = .ok (s', ys)) :
    a.BackwardPhase s' (q ++ ys) :=
  ⟨hi.1.pop a h, fun u hu => a.backwardPop_mono h (hi.2 u hu)⟩

theorem BackwardPhase.start {s : State} (hi : a.ForwardInv s []) :
    a.BackwardPhase s a.applyGradOps :=
  ⟨.start a s, fun _ hu => hi.pending.done hu⟩

/-- **A run that has ended leaves nothing unassigned**, whatever the seeding: every op the forward
pass reaches, other than an apply op, and every apply-op ancestor other than an aggregation op has
a task. -/
theorem assign_done {nF nB : Nat} {s s' : State} (h : a.assign nF nB s = .ok (s', [])) :
    (∀ x, a.ForwardTarget x → (s'.opToTask x).isSome) ∧
      ∀ x, a.BackwardTarget x → (s'.opToTask x).isSome := by
  rcases a.assign_inv a.ForwardInv a.BackwardPhase (fun _ _ _ _ _ hi h => hi.pop a h)
    (fun _ _ _ _ _ hi h => hi.pop a h) (fun _ hi => .start a hi) (.start a s) h with
    ⟨-, hne⟩ | ⟨hi, hF⟩
  · exact absurd rfl hne
  · exact ⟨hF, fun x hx => hi.pending.done hx⟩

/-- **What every write sees.** A state invariant holds at every point of a run when every write of
`__assign_task` keeps it: a write of the first pass, at a forward target with no task, or a write
of the second, at a backward target with no task once every forward target has one. -/
theorem assign_write_inv (P : State → Prop)
    (hF : ∀ s x s', P s → s.opToTask x = none → a.ForwardTarget x →
      (∀ r ∈ a.forwardReferenceOps x, (s.opToTask r).isSome) →
      a.assignTask s x (a.forwardReferenceOps x) = .ok s' → P s')
    (hB : ∀ s x s', P s → s.opToTask x = none → a.BackwardTarget x →
      (∀ u, a.ForwardTarget u → (s.opToTask u).isSome) →
      (∀ r ∈ a.backwardReferenceOps x, (s.opToTask r).isSome) →
      a.assignTask s x (a.backwardReferenceOps x) = .ok s' → P s')
    {nF nB : Nat} {s s' : State} {q : List Nat} (h0 : P s) (h : a.assign nF nB s = .ok (s', q)) :
    P s' := by
  have hF' : ∀ s x q s' ys, P s ∧ a.ForwardInv s (x :: q) →
      popOp a.applyGradOps a.assignForward s x = .ok (s', ys) → P s' ∧ a.ForwardInv s' (q ++ ys) := by
    intro s x q s' ys ⟨hs, hi⟩ h
    refine ⟨?_, hi.pop a h⟩
    rcases a.forwardPop_cases h with ⟨-, rfl, -⟩ | ⟨-, -, ⟨rfl, -⟩ | ⟨happ, hx, href, ht⟩⟩
    · exact hs
    · exact hs
    · exact hF s x s' hs hx ⟨hi.reach x (List.mem_cons_self _ _), happ⟩ href ht
  have hB' : ∀ s x q s' ys, P s ∧ a.BackwardPhase s (x :: q) →
      popOp a.aggGradOps a.assignBackward s x = .ok (s', ys) → P s' ∧ a.BackwardPhase s' (q ++ ys) := by
    intro s x q s' ys ⟨hs, hi⟩ h
    refine ⟨?_, hi.pop a h⟩
    rcases a.backwardPop_cases h with ⟨-, rfl, -⟩ | ⟨-, -, ⟨rfl, -⟩ | ⟨hagg, hx, href, ht⟩⟩
    · exact hs
    · exact hs
    · exact hB s x s' hs hx ⟨hi.1.reach x (List.mem_cons_self _ _), hagg⟩ hi.2 href ht
  rcases a.assign_inv (fun s q => P s ∧ a.ForwardInv s q) (fun s q => P s ∧ a.BackwardPhase s q)
    hF' hB' (fun _ hi => ⟨hi.1, .start a hi.2⟩) ⟨h0, .start a s⟩ h with
    ⟨h, -⟩ | h <;> exact h.1

/-- A state invariant that every write of `__assign_task` keeps holds at every point. -/
theorem assign_state_inv (P : State → Prop)
    (hplace : ∀ s x refs s', P s → (∀ r ∈ refs, (s.opToTask r).isSome) →
      a.assignTask s x refs = .ok s' → P s')
    {nF nB : Nat} {s s' : State} {q : List Nat} (h0 : P s) (h : a.assign nF nB s = .ok (s', q)) :
    P s' :=
  a.assign_write_inv P (fun s x _ hs _ _ href ht => hplace s x _ _ hs href ht)
    (fun s x _ hs _ _ _ href ht => hplace s x _ _ hs href ht) h0 h

/-- Tasks are never removed, at any point of a run. -/
theorem assign_mono {nF nB : Nat} {s s' : State} {q : List Nat}
    (h : a.assign nF nB s = .ok (s', q)) {u : Nat} (hu : (s.opToTask u).isSome) :
    (s'.opToTask u).isSome :=
  a.assign_state_inv (fun s => (s.opToTask u).isSome) (fun _ _ _ _ hs href ht => by
    obtain ⟨v, rfl, -⟩ := a.assignTask_picked href ht
    exact a.place_isSome hs) hu h

/-! ## 2. Both passes end -/

/-- Tasks are never removed along the first pass. -/
theorem forward_run_mono {n : Nat} {s s' : State} {q : List Nat}
    (h : traverse a.applyGradOps a.assignForward n s a.aggGradOps = .ok (s', q)) {u : Nat}
    (hu : (s.opToTask u).isSome) : (s'.opToTask u).isSome :=
  traverse_inv _ _ (fun s _ => (s.opToTask u).isSome) (fun _ _ _ _ _ hi h => a.forwardPop_mono h hi)
    n s _ s' q hu h

/-- **`assign()` terminates.** Whenever every aggregation and apply op is seeded, neither pass
requeues an op forever: for some fuel the forward queue is empty, then for some fuel the backward
one, and `assign()` has returned. -/
theorem assign_terminates (s : State)
    (hseed : ∀ x ∈ a.aggGradOps ++ a.applyGradOps, (s.opToTask x).isSome) :
    ∃ nF s₁, traverse a.applyGradOps a.assignForward nF s a.aggGradOps = .ok (s₁, []) ∧
      ∃ nB s₂, traverse a.aggGradOps a.assignBackward nB s₁ a.applyGradOps = .ok (s₂, []) ∧
        a.assign nF nB s = .ok (s₂, []) := by
  obtain ⟨nF, s₁, hf⟩ := a.forward_ends hseed
  obtain ⟨nB, s₂, hb⟩ := a.backward_ends fun x hx => a.forward_run_mono hf (hseed x hx)
  exact ⟨nF, s₁, hf, nB, s₂, hb, by rw [a.assign_of_forward hf]; exact hb⟩

theorem assign_terminates_learning_rate :
    (∀ x ∈ learningRateAssigner.aggGradOps ++ learningRateAssigner.applyGradOps,
      (learningRateState.opToTask x).isSome) ∧
    ∃ nF s₁, traverse learningRateAssigner.applyGradOps learningRateAssigner.assignForward nF
        learningRateState learningRateAssigner.aggGradOps = .ok (s₁, []) ∧
      ∃ nB s₂, traverse learningRateAssigner.aggGradOps learningRateAssigner.assignBackward nB s₁
          learningRateAssigner.applyGradOps = .ok (s₂, []) ∧
        learningRateAssigner.assign nF nB learningRateState = .ok (s₂, []) :=
  ⟨by decide, assign_terminates _ _ (by decide)⟩

/-- A run ends whenever every aggregation and apply op is seeded. -/
theorem assign_ends {s : State}
    (hseed : ∀ x ∈ a.aggGradOps ++ a.applyGradOps, (s.opToTask x).isSome) :
    ∃ nF nB s', a.assign nF nB s = .ok (s', []) := by
  obtain ⟨nF, s₁, hf⟩ := a.forward_ends hseed
  obtain ⟨nB, s₂, hb⟩ := a.backward_ends fun x hx => a.forward_run_mono hf (hseed x hx)
  exact ⟨nF, nB, s₂, by rw [a.assign_of_forward hf]; exact hb⟩

/-- Every device `__assign_task` sets has a task other than the shared marker. -/
theorem place_device_task (s : State) (x : Nat) (v : Task) :
    ((a.place s x v).device x).task ≠ sharedTaskId := by
  simp only [place_device, Function.update_same, taskDevice, DeviceSpec.replace]
  split <;> simp_all [sharedTaskId]

/-- **`assign()` places the subgraph.** With every aggregation and apply op seeded, `assign()`
returns without raising; afterwards every op that is both an aggregation descendant and an apply-op
ancestor has a task, and every op's device is either the one it had or one whose task is not the
shared marker. -/
theorem assign_places_subgraph (s : State)
    (hseed : ∀ x ∈ a.aggGradOps ++ a.applyGradOps, (s.opToTask x).isSome) :
    ∃ nF nB s', a.assign nF nB s = .ok (s', []) ∧
      (∀ x, a.aggGradDescendantOps x = true → x ∈ a.applyGradAncestorOps →
        (s'.opToTask x).isSome) ∧
      ∀ x, s'.device x = s.device x ∨ (s'.device x).task ≠ sharedTaskId := by
  obtain ⟨nF, nB, s', hrun⟩ := a.assign_ends hseed
  refine ⟨nF, nB, s', hrun, fun x _ hA => ?_, ?_⟩
  · by_cases hagg : x ∈ a.aggGradOps
    · exact a.assign_mono hrun (hseed x (List.mem_append_left _ hagg))
    · exact (a.assign_done hrun).2 x ⟨hA, hagg⟩
  refine a.assign_state_inv (fun s' => ∀ x, s'.device x = s.device x ∨
    (s'.device x).task ≠ sharedTaskId) ?_ (fun _ => .inl rfl) hrun
  intro s' y refs s'' hs href ht x
  obtain ⟨v, rfl, -⟩ := a.assignTask_picked href ht
  by_cases hx : x = y
  · subst hx
    exact .inr (a.place_device_task s' x v)
  · simpa [Function.update_noteq hx] using hs x

theorem assign_places_subgraph_learning_rate :
    (∀ x ∈ learningRateAssigner.aggGradOps ++ learningRateAssigner.applyGradOps,
      (learningRateState.opToTask x).isSome) ∧
    ∃ nF nB s', learningRateAssigner.assign nF nB learningRateState = .ok (s', []) ∧
      (∀ x, learningRateAssigner.aggGradDescendantOps x = true →
        x ∈ learningRateAssigner.applyGradAncestorOps → (s'.opToTask x).isSome) ∧
      ∀ x, s'.device x = learningRateState.device x ∨ (s'.device x).task ≠ sharedTaskId :=
  ⟨by decide, assign_places_subgraph _ _ (by decide)⟩

/-! ## 3. What the child-to-parent pass places -/

/-- **The learning rate is moved.** It is no aggregation descendant, yet the child-to-parent pass
walks the apply op's inputs, finds it unassigned, and places it on the variable's PS task. -/
theorem assign_moves_learning_rate :
    learningRateAssigner.aggGradDescendantOps 1 = false ∧
    (learningRateAssigner.assign 4 4 learningRateState).toOption.map
        (fun r => (r.1.device 1, r.1.opToTask 1, r.2)) =
      some (learningRateAssigner.psDevice.replace (some 1), some (some 1), []) ∧
    learningRateState.device 1 ≠ learningRateAssigner.psDevice.replace (some 1) := by
  decide

end PSGradientTaskAssigner
end Autodist
