import Autodist.TaskAssigner.Basic
import Mathlib.Data.Finset.Card

/-!
# `Autodist/TaskAssigner/AssignTask.lean` — the resolution rule of `__assign_task`

`__assign_task` is the only place `assign()` writes anything, so everything later modules prove
about `_op_to_task` and the devices comes from this file. It is read in three steps, one lemma each:

1. the dictionary lookups succeed when every reference has a task (`mapM_lookup`);
2. `pickTask` on the deduplicated tasks follows the rule of the spec's §4.4 step 4, stated over the
   *set* `uniqueTasks` (`pickTask_spec`);
3. so `assignTask` is `place` at the picked task (`assignTask_eq`), which is what callers cite.

`assignTask_spec` is the whole contract. `assignTask_ok`, `assignTask_placed` and
`assignTask_picked` are the facts the traversal proofs need: with references that all have tasks,
the call succeeds; what it stores is the task the rule picks from the set of reference tasks —
one task for one set (`Picks.unique`) — and that is a reference task or the shared marker, the
marker only for an all-shared or a genuinely split reference set.
-/

set_option autoImplicit false

namespace Autodist
namespace PSGradientTaskAssigner

variable (a : PSGradientTaskAssigner)

@[simp] theorem place_opToTask (s : State) (op : Nat) (t : Task) :
    (a.place s op t).opToTask = Function.update s.opToTask op (some t) := rfl

/-- The device `__assign_task` moves an op to when it picks task `t`: `ps_device` at `t`, task `0`
standing in for the shared marker. -/
def taskDevice (t : Task) : DeviceSpec :=
  a.psDevice.replace (if t = sharedTaskId then some 0 else t)

@[simp] theorem place_device (s : State) (op : Nat) (t : Task) :
    (a.place s op t).device = Function.update s.device op (a.taskDevice t) := rfl

/-- Tasks are never removed. -/
theorem place_isSome {s : State} {x u : Nat} {v : Task} (h : (s.opToTask u).isSome) :
    ((a.place s x v).opToTask u).isSome := by
  by_cases hu : u = x <;> simp [Function.update_apply, hu, h]

/-- `unique_tasks = set(placement_reference_tasks)`, as a finite set. -/
def State.uniqueTasks (s : State) (refs : List Nat) : Finset Task :=
  (refs.filterMap s.opToTask).toFinset

theorem mem_uniqueTasks {s : State} {refs : List Nat} {v : Task} :
    v ∈ s.uniqueTasks refs ↔ ∃ r ∈ refs, s.opToTask r = some v := by
  simp [State.uniqueTasks]

/-- The set of reference tasks reads the references through membership, and their tasks only. -/
theorem uniqueTasks_congr {s s' : State} {refs refs' : List Nat} (hmem : ∀ r, r ∈ refs ↔ r ∈ refs')
    (heq : ∀ r ∈ refs, s.opToTask r = s'.opToTask r) : s.uniqueTasks refs = s'.uniqueTasks refs' := by
  ext v
  simp only [mem_uniqueTasks]
  constructor
  · rintro ⟨r, hr, hv⟩
    exact ⟨r, (hmem r).mp hr, heq r hr ▸ hv⟩
  · rintro ⟨r, hr, hv⟩
    exact ⟨r, (hmem r).mpr hr, (heq r ((hmem r).mpr hr)).symm ▸ hv⟩

/-- A write at an op that is no reference leaves the reference tasks as they were. -/
theorem uniqueTasks_place {s : State} {x : Nat} {v : Task} {refs : List Nat} (hx : x ∉ refs) :
    (a.place s x v).uniqueTasks refs = s.uniqueTasks refs :=
  uniqueTasks_congr (fun _ => Iff.rfl) fun r hr =>
    Function.update_noteq (show r ≠ x from fun h => hx (h ▸ hr)) _ _

/-! ## 1. Lookups -/

theorem mapM_lookup {s : State} :
    ∀ {refs : List Nat}, (∀ r ∈ refs, (s.opToTask r).isSome) →
      refs.mapM s.lookup = .ok (refs.filterMap s.opToTask)
  | [], _ => rfl
  | r :: refs, h => by
    obtain ⟨t, ht⟩ := Option.isSome_iff_exists.mp (h r (List.mem_cons_self _ _))
    have hrest := mapM_lookup fun r' hr' => h r' (List.mem_cons_of_mem _ hr')
    rw [List.mapM_cons, hrest, List.filterMap_cons_some ht]
    simp only [State.lookup, ht]
    rfl

/-! ## 2. `pickTask` -/

/-- The rule of the spec's §4.4 step 4 relating the set `T` of reference tasks to the picked
task `v`: the only element of `T`; else the only element left once the shared marker is dropped;
else the shared marker. -/
def Picks (T : Finset Task) (v : Task) : Prop :=
  (T.card = 1 → T = {v}) ∧
  (sharedTaskId ∈ T → (T.erase sharedTaskId).card = 1 → T.erase sharedTaskId = {v}) ∧
  (T.card ≠ 1 → ¬(sharedTaskId ∈ T ∧ (T.erase sharedTaskId).card = 1) → v = sharedTaskId)

theorem erase_toFinset {L : List Task} (hL : L.Nodup) (t : Task) :
    (L.erase t).toFinset = L.toFinset.erase t := by
  ext u
  simp [hL.mem_erase_iff]

/-- **The pick on a nonempty, duplicate-free list of tasks follows the rule on its set.** -/
theorem pickTask_spec (n : String) {L : List Task} (hL : L.Nodup) (hne : L ≠ []) :
    ∃ v, pickTask n L = .ok v ∧ Picks L.toFinset v := by
  match L, hL, hne with
  | [t], _, _ => exact ⟨t, rfl, fun _ => rfl, by rintro h; simp at h; subst h; simp, by simp⟩
  | x :: y :: rest, hL, _ =>
    have hcard : (x :: y :: rest).toFinset.card = rest.length + 2 := List.toFinset_card_of_nodup hL
    have herase := erase_toFinset hL sharedTaskId
    have hlen := List.length_erase sharedTaskId (x :: y :: rest)
    have hnd := hL.erase sharedTaskId
    simp only [Picks]
    rw [← herase, List.toFinset_card_of_nodup hnd]
    match hm : (x :: y :: rest).erase sharedTaskId with
    | [t] =>
      have hmem : sharedTaskId ∈ x :: y :: rest := by
        by_contra h; simp only [h, if_false, hm] at hlen; simp at hlen
      refine ⟨t, ?_, by omega, fun _ _ => rfl, fun _ h => absurd ⟨List.mem_toFinset.mpr hmem, rfl⟩ h⟩
      simp only [pickTask, hm]
    | u :: v :: rest' =>
      refine ⟨sharedTaskId, ?_, by omega, by simp, fun _ _ => rfl⟩
      simp only [pickTask, hm, List.length_cons]
      rw [if_pos (by omega)]
    | [] => split at hlen <;> simp [hm] at hlen

section Picks

variable {T : Finset Task} {v : Task}

/-- The shared marker is picked exactly for an all-shared or a genuinely split reference set. -/
theorem Picks.eq_shared_iff (hT : T.Nonempty) (hp : Picks T v) :
    v = sharedTaskId ↔ T = {sharedTaskId} ∨ 2 ≤ (T.erase sharedTaskId).card := by
  obtain ⟨h1, h2, h3⟩ := hp
  have hcard := Finset.pred_card_le_card_erase (s := T) (a := sharedTaskId)
  have hle := Finset.card_erase_le (s := T) (a := sharedTaskId)
  constructor
  · rintro rfl
    by_cases hc : T.card = 1
    · exact .inl (h1 hc)
    · by_cases he : sharedTaskId ∈ T ∧ (T.erase sharedTaskId).card = 1
      · exact absurd (h2 he.1 he.2 ▸ Finset.mem_singleton_self _) (Finset.not_mem_erase _ _)
      · have hpos := hT.card_pos
        have : (T.erase sharedTaskId).card ≠ 1 := fun h1' => he ⟨by
          by_contra hn; rw [Finset.erase_eq_of_not_mem hn] at h1'; exact hc h1', h1'⟩
        exact .inr (by omega)
  · rintro (hT1 | h2le)
    · exact Finset.singleton_inj.mp ((h1 (by rw [hT1]; rfl)).symm.trans hT1)
    · exact h3 (by omega) (fun he => by omega)

/-- The rule picks one task: the set of reference tasks determines it. -/
theorem Picks.unique {w : Task} (hv : Picks T v) (hw : Picks T w) : v = w := by
  by_cases h1 : T.card = 1
  · exact Finset.singleton_inj.mp ((hv.1 h1).symm.trans (hw.1 h1))
  by_cases h2 : sharedTaskId ∈ T ∧ (T.erase sharedTaskId).card = 1
  · exact Finset.singleton_inj.mp ((hv.2.1 h2.1 h2.2).symm.trans (hw.2.1 h2.1 h2.2))
  · exact (hv.2.2 h1 h2).trans (hw.2.2 h1 h2).symm

/-- What is picked is a reference task, or the shared marker over two distinct non-shared ones. -/
theorem Picks.mem_or (hT : T.Nonempty) (hp : Picks T v) :
    v ∈ T ∨ (v = sharedTaskId ∧ 2 ≤ (T.erase sharedTaskId).card) := by
  by_cases hv : v = sharedTaskId
  · rcases (hp.eq_shared_iff hT).mp hv with h | h
    · exact .inl (by rw [h, hv]; exact Finset.mem_singleton_self _)
    · exact .inr ⟨hv, h⟩
  · obtain ⟨h1, h2, h3⟩ := hp
    by_cases hc : T.card = 1
    · exact .inl (by rw [h1 hc]; exact Finset.mem_singleton_self _)
    · by_cases he : sharedTaskId ∈ T ∧ (T.erase sharedTaskId).card = 1
      · exact .inl (Finset.mem_of_mem_erase (h2 he.1 he.2 ▸ Finset.mem_singleton_self v))
      · exact absurd (h3 hc he) hv

end Picks

/-! ## 3. `assignTask` -/

/-- **`assignTask` is `place` at the pick**, once every reference has a task. -/
theorem assignTask_eq {s : State} {op : Nat} {refs : List Nat}
    (h : ∀ r ∈ refs, (s.opToTask r).isSome) :
    a.assignTask s op refs =
      (pickTask (a.graph.name op) (refs.filterMap s.opToTask).dedup).map (a.place s op) := by
  simp only [assignTask, mapM_lookup h]
  show (pickTask _ _ >>= fun t => pure (a.place s op t)) = _
  cases pickTask (a.graph.name op) (refs.filterMap s.opToTask).dedup <;> rfl

theorem uniqueTasks_eq (s : State) (refs : List Nat) :
    s.uniqueTasks refs = ((refs.filterMap s.opToTask).dedup).toFinset := by
  ext; simp [State.uniqueTasks]

theorem filterMap_ne_nil {s : State} {refs : List Nat} (h : ∀ r ∈ refs, (s.opToTask r).isSome)
    (hne : refs ≠ []) : (refs.filterMap s.opToTask).dedup ≠ [] := by
  obtain ⟨r, rs, rfl⟩ := List.exists_cons_of_ne_nil hne
  obtain ⟨t, ht⟩ := Option.isSome_iff_exists.mp (h r (List.mem_cons_self _ _))
  simp [ht]

/-- With references that all have tasks, `__assign_task` places the op at a task the rule picks. -/
theorem assignTask_ok {s : State} (op : Nat) {refs : List Nat}
    (h : ∀ r ∈ refs, (s.opToTask r).isSome) (hne : refs ≠ []) :
    ∃ v, a.assignTask s op refs = .ok (a.place s op v) ∧ Picks (s.uniqueTasks refs) v ∧
      (s.uniqueTasks refs).Nonempty := by
  obtain ⟨v, hv, hp⟩ :=
    pickTask_spec (a.graph.name op) (List.nodup_dedup _) (filterMap_ne_nil h hne)
  refine ⟨v, by rw [assignTask_eq a h, hv]; rfl, uniqueTasks_eq s refs ▸ hp, ?_⟩
  rw [uniqueTasks_eq]
  exact List.toFinset_nonempty_iff _ |>.mpr (filterMap_ne_nil h hne)

/-- A call of `__assign_task` that returns has placed the op at the task the rule picks. -/
theorem assignTask_placed {s s' : State} {op : Nat} {refs : List Nat}
    (h : ∀ r ∈ refs, (s.opToTask r).isSome) (he : a.assignTask s op refs = .ok s') :
    ∃ v, s' = a.place s op v ∧ Picks (s.uniqueTasks refs) v ∧ (s.uniqueTasks refs).Nonempty := by
  have hne : refs ≠ [] := by
    rintro rfl
    cases he
  obtain ⟨v, hv, hp, hT⟩ := a.assignTask_ok op h hne
  rw [hv] at he
  exact ⟨v, (Except.ok.inj he).symm, hp, hT⟩

/-- **What `__assign_task` stores** is a reference task, or the shared marker for references that
carry two distinct non-shared tasks. -/
theorem assignTask_picked {s s' : State} {op : Nat} {refs : List Nat}
    (h : ∀ r ∈ refs, (s.opToTask r).isSome) (he : a.assignTask s op refs = .ok s') :
    ∃ v, s' = a.place s op v ∧ (v ∈ s.uniqueTasks refs ∨
      (v = sharedTaskId ∧ 2 ≤ ((s.uniqueTasks refs).erase sharedTaskId).card)) := by
  obtain ⟨v, rfl, hp, hT⟩ := a.assignTask_placed h he
  exact ⟨v, rfl, hp.mem_or hT⟩

/-- **`__assign_task`'s contract.** With every reference in `_op_to_task`: it raises the
`RuntimeError` exactly when there is no reference; otherwise it stores the task the §4.4 rule picks
from the set of reference tasks, and moves the op to `ps_device` with only the task replaced — by
that task, or by `0` for the shared marker. The marker is stored exactly when every reference is
shared or the references carry two distinct non-shared tasks. -/
theorem assignTask_spec (s : State) (op : Nat) (refs : List Nat)
    (h : ∀ r ∈ refs, (s.opToTask r).isSome) :
    (a.assignTask s op refs = .error (.runtimeError
        ("Should have placement reference for operation " ++ a.graph.name op)) ↔ refs = []) ∧
    (refs ≠ [] → ∃ v, a.assignTask s op refs =
        .ok ⟨Function.update s.opToTask op (some v), Function.update s.device op
          (a.psDevice.replace (if v = sharedTaskId then some 0 else v))⟩ ∧
      Picks (s.uniqueTasks refs) v ∧
      (v = sharedTaskId ↔ s.uniqueTasks refs = {sharedTaskId} ∨
        2 ≤ ((s.uniqueTasks refs).erase sharedTaskId).card)) := by
  refine ⟨⟨fun herr => ?_, by rintro rfl; rfl⟩, fun hne => ?_⟩
  · by_contra hne
    obtain ⟨v, hv, -⟩ := a.assignTask_ok op h hne
    rw [hv] at herr
    cases herr
  · obtain ⟨v, hv, hp, hT⟩ := a.assignTask_ok op h hne
    exact ⟨v, hv, hp, hp.eq_shared_iff hT⟩

/-- A parameter server's CPU, with no task set. -/
def psCpu : DeviceSpec := ⟨some "ps", none, none, some "CPU", some 0⟩

/-- A worker's CPU. -/
def workerCpu : DeviceSpec := ⟨some "worker", none, some 0, some "CPU", some 0⟩

/-- The apply op `3` reads the variable handle `0`, the learning rate `1` and the aggregated
gradient `2`; one aggregation op, one apply op, the PS at `psCpu`. -/
def learningRateAssigner : PSGradientTaskAssigner :=
  ⟨Graph.ofEdges (fun _ => "op") [(0, 3), (1, 3), (2, 3)] (by decide), [2], [3], psCpu⟩

/-- `_place_post_grad_agg_ops`' seeding for a variable on task `1`; every op starts on the
worker. -/
def learningRateState : State :=
  ⟨fun x => if x = 2 ∨ x = 3 then some (some 1) else none, fun _ => workerCpu⟩

/-- The learning rate `1`, placed by its one reference, the apply op. -/
theorem assignTask_spec_learning_rate :
    (∀ r ∈ [3], (learningRateState.opToTask r).isSome) ∧
    ((learningRateAssigner.assignTask learningRateState 1 [3] = .error (.runtimeError
        ("Should have placement reference for operation " ++ learningRateAssigner.graph.name 1)) ↔
        [3] = []) ∧
    ([3] ≠ [] → ∃ v, learningRateAssigner.assignTask learningRateState 1 [3] =
        .ok ⟨Function.update learningRateState.opToTask 1 (some v),
          Function.update learningRateState.device 1
            (learningRateAssigner.psDevice.replace (if v = sharedTaskId then some 0 else v))⟩ ∧
      Picks (learningRateState.uniqueTasks [3]) v ∧
      (v = sharedTaskId ↔ learningRateState.uniqueTasks [3] = {sharedTaskId} ∨
        2 ≤ ((learningRateState.uniqueTasks [3]).erase sharedTaskId).card))) :=
  ⟨by decide, assignTask_spec _ _ _ _ (by decide)⟩

end PSGradientTaskAssigner
end Autodist
