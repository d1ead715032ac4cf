import Autodist.TaskAssigner.Final

/-!
# `Autodist/TaskAssigner/Values.lean` — what `assign()` stores

`__assign_task` stores a reference task, or the shared marker over references that carry two
distinct non-shared tasks, and every reference task was stored before. So at every point of a run
every stored task is a seeded task or the shared marker, and the marker is stored only when two
seeds carry distinct non-shared tasks — or when a seed is the marker itself: a seed of `-1` is read
as a reference like any other (`assign_stores_shared_from_shared_seed`).

`add_sync_op` calls `_place_post_grad_agg_ops` once per variable, and `_get_accumulation_ops`
hands it that variable's aggregation ops only, so every op it seeds carries the variable's task
`t`. Under such a seeding every write stores `t` (`assign_uniform`), and a finished run has a
closed form (`Settled.uniform`): every op it writes ends on `t` at `ps_device` with task `t`, every
other op keeps its task and its device. Between the aggregation ops and the apply ops that reads
(`settled_between`): every op ends on `t`, the seeded ones — the aggregation and apply ops
themselves — on the device they had, the others on `ps_device` at `t`.
-/

set_option autoImplicit false

namespace Autodist
namespace PSGradientTaskAssigner

open Graph

variable (a : PSGradientTaskAssigner)

/-! ## 1. What can be stored -/

/-- Two seeded ops carry distinct tasks, neither of them the shared marker. -/
def SeedSplits (seed : Nat → Option Task) : Prop :=
  ∃ y z t u, seed y = some t ∧ seed z = some u ∧ t ≠ u ∧ t ≠ sharedTaskId ∧ u ≠ sharedTaskId

/-- What the tasks stored at a point of a run can be, given the seeding. -/
structure ValuesFrom (seed : Nat → Option Task) (s : State) : Prop where
  seeded : ∀ x v, s.opToTask x = some v → (∃ y, seed y = some v) ∨ v = sharedTaskId
  shared : ∀ x, s.opToTask x = some sharedTaskId →
    SeedSplits seed ∨ ∃ y, seed y = some sharedTaskId

theorem ValuesFrom.start (s : State) : ValuesFrom s.opToTask s :=
  ⟨fun x _ h => .inl ⟨x, h⟩, fun x h => .inr ⟨x, h⟩⟩

/-- **A write keeps `ValuesFrom`**: a reference task was stored already, and two distinct
non-shared reference tasks are two distinct non-shared seeds. -/
theorem ValuesFrom.place {seed : Nat → Option Task} {s : State} {x : Nat} {refs : List Nat}
    {v : Task} (h : ValuesFrom seed s) (hv : v ∈ s.uniqueTasks refs ∨
      (v = sharedTaskId ∧ 2 ≤ ((s.uniqueTasks refs).erase sharedTaskId).card)) :
    ValuesFrom seed (a.place s x v) := by
  constructor
  · intro y w hy
    by_cases hyx : y = x
    · subst hyx
      obtain rfl : v = w := by simpa using hy
      rcases hv with hv | ⟨rfl, -⟩
      · obtain ⟨r, -, hr⟩ := mem_uniqueTasks.mp hv
        exact h.seeded r v hr
      · exact .inr rfl
    · exact h.seeded y w (by simpa [Function.update_noteq hyx] using hy)
  · intro y hy
    by_cases hyx : y = x
    · subst hyx
      obtain rfl : v = sharedTaskId := by simpa using hy
      rcases hv with hv | ⟨-, h2⟩
      · obtain ⟨r, -, hr⟩ := mem_uniqueTasks.mp hv
        exact h.shared r hr
      · obtain ⟨t, ht, u, hu, htu⟩ := Finset.one_lt_card.mp h2
        obtain ⟨htS, ht⟩ := Finset.mem_erase.mp ht
        obtain ⟨huS, hu⟩ := Finset.mem_erase.mp hu
        obtain ⟨r₁, -, hr₁⟩ := mem_uniqueTasks.mp ht
        obtain ⟨r₂, -, hr₂⟩ := mem_uniqueTasks.mp hu
        obtain ⟨y₁, hy₁⟩ := (h.seeded r₁ t hr₁).resolve_right htS
        obtain ⟨y₂, hy₂⟩ := (h.seeded r₂ u hr₂).resolve_right huS
        exact .inl ⟨y₁, y₂, t, u, hy₁, hy₂, htu, htS, huS⟩
    · exact h.shared y (by simpa [Function.update_noteq hyx] using hy)

/-- Under a seeding whose only task is `t`, what a write stores is `t`. -/
theorem picked_of_uniform {s : State} {refs : List Nat} {v t : Task}
    (hu : ∀ y w, s.opToTask y = some w → w = t) (hv : v ∈ s.uniqueTasks refs ∨
      (v = sharedTaskId ∧ 2 ≤ ((s.uniqueTasks refs).erase sharedTaskId).card)) : v = t := by
  have hsub : s.uniqueTasks refs ⊆ {t} := fun w hw => by
    obtain ⟨r, -, hr⟩ := mem_uniqueTasks.mp hw
    exact Finset.mem_singleton.mpr (hu r w hr)
  rcases hv with hv | ⟨-, h2⟩
  · exact Finset.mem_singleton.mp (hsub hv)
  · have := (Finset.card_erase_le (a := sharedTaskId)).trans (Finset.card_le_card hsub)
    simp at this
    omega

/-! ## 2. One seeded task -/

/-- **Every point of a run under one seeded task `t`**: every stored task is `t`, and every device
is the one the op had or `ps_device` at `t`. -/
theorem assign_uniform (t : Task) {nF nB : Nat} {s s' : State} {q : List Nat}
    (hu : ∀ y v, s.opToTask y = some v → v = t) (h : a.assign nF nB s = .ok (s', q)) :
    (∀ x v, s'.opToTask x = some v → v = t) ∧
      ∀ x, s'.device x = s.device x ∨ s'.device x = a.taskDevice t := by
  refine a.assign_state_inv (fun s' => (∀ x v, s'.opToTask x = some v → v = t) ∧
    ∀ x, s'.device x = s.device x ∨ s'.device x = a.taskDevice t) ?_ ⟨hu, fun _ => .inl rfl⟩ h
  rintro s₁ x refs s₂ ⟨hvals, hdev⟩ href ht
  obtain ⟨v, rfl, hv⟩ := a.assignTask_picked href ht
  obtain rfl := picked_of_uniform hvals hv
  refine ⟨fun y w hy => ?_, fun y => ?_⟩ <;> by_cases hyx : y = x
  · subst hyx; simpa using hy.symm
  · exact hvals y w (by simpa [Function.update_noteq hyx] using hy)
  · subst hyx; exact .inr (by simp)
  · simpa [Function.update_noteq hyx] using hdev y

section Settled

variable {a} {t : Task} {s₀ s : State}

/-- **A finished run under one task, in closed form**: every op it writes ends on `t`, at
`ps_device` with task `t`. -/
theorem Settled.uniform (hs : a.Settled s₀ s) (hvals : ∀ x v, s.opToTask x = some v → v = t)
    {x : Nat} (hx : a.Written s₀ x) : s.opToTask x = some t ∧ s.device x = a.taskDevice t := by
  obtain ⟨v, hv, hd⟩ := hs.placed a hx
  obtain rfl := hvals x v hv
  exact ⟨hv, hd⟩

/-- **Between the aggregation and the apply ops**, with both lists seeded with `t`: every op ends on
`t`; a seeded op on the device it had, any other on `ps_device` at `t`. -/
theorem settled_between (hs : a.Settled s₀ s) (hu : ∀ y v, s₀.opToTask y = some v → v = t)
    (hvals : ∀ x v, s.opToTask x = some v → v = t)
    (hseed : ∀ x ∈ a.aggGradOps ++ a.applyGradOps, (s₀.opToTask x).isSome) {x : Nat}
    (hD : a.aggGradDescendantOps x = true) (hA : x ∈ a.applyGradAncestorOps) :
    s.opToTask x = some t ∧ ((s₀.opToTask x).isSome → s.device x = s₀.device x) ∧
      (s₀.opToTask x = none → s.device x = a.taskDevice t) := by
  cases h0 : s₀.opToTask x with
  | some v =>
    obtain ⟨ht, hd⟩ := hs.kept x fun hw => by simp [hw.none a] at h0
    exact ⟨by rw [ht, h0, hu x v h0], fun _ => hd, nofun⟩
  | none =>
    have happ : x ∉ a.applyGradOps := fun hm => by simpa [h0] using hseed x (List.mem_append_right _ hm)
    obtain ⟨ht, hd⟩ := hs.uniform hvals (.inl ⟨h0, a.forwardReach_of_descendant hD hA, happ⟩)
    exact ⟨ht, nofun, fun _ => hd⟩

end Settled

/-- **What `assign()` stores, at every point of a run.** Every task in `_op_to_task` is a seeded
task or the shared marker, and the marker is stored only when two seeds carry distinct non-shared
tasks or a seed is the marker itself. When every seed is the same task `t`, every stored task is
`t` and every device the run sets is `ps_device` at task `t` (`0` if `t` is the marker); and once
the run has ended from a seeding of both lists, every op between an aggregation op and an apply op
is on task `t` — the aggregation and apply ops, which the run never writes, on the devices they had,
every op between them on `ps_device` at `t`. -/
theorem assign_values_from_seeding (s : State) (nF nB : Nat) (s' : State) (q : List Nat)
    (h : a.assign nF nB s = .ok (s', q)) :
    ValuesFrom s.opToTask s' ∧
    ∀ t, (∀ y v, s.opToTask y = some v → v = t) →
      (∀ x v, s'.opToTask x = some v → v = t) ∧
      (∀ x, s'.device x = s.device x ∨ s'.device x = a.taskDevice t) ∧
      (q = [] → (∀ x ∈ a.aggGradOps ++ a.applyGradOps, (s.opToTask x).isSome) →
        ∀ x, a.aggGradDescendantOps x = true → x ∈ a.applyGradAncestorOps →
          s'.opToTask x = some t ∧ ((s.opToTask x).isSome → s'.device x = s.device x) ∧
            (s.opToTask x = none → s'.device x = a.taskDevice t)) := by
  refine ⟨a.assign_state_inv _ (fun s₁ x refs s₂ hs href ht => ?_) (ValuesFrom.start s) h,
    fun t hu => ?_⟩
  · obtain ⟨v, rfl, hv⟩ := a.assignTask_picked href ht
    exact hs.place a hv
  obtain ⟨hvals, hdev⟩ := a.assign_uniform t hu h
  refine ⟨hvals, hdev, ?_⟩
  rintro rfl hseed x hD hA
  exact settled_between (a.assign_settled h) hu hvals hseed hD hA

theorem assign_values_learning_rate :
    ∃ s' q, learningRateAssigner.assign 4 4 learningRateState = .ok (s', q) ∧
      ValuesFrom learningRateState.opToTask s' ∧
      ∀ t, (∀ y v, learningRateState.opToTask y = some v → v = t) →
        (∀ x v, s'.opToTask x = some v → v = t) ∧
        (∀ x, s'.device x = learningRateState.device x ∨
          s'.device x = learningRateAssigner.taskDevice t) ∧
        (q = [] → (∀ x ∈ learningRateAssigner.aggGradOps ++ learningRateAssigner.applyGradOps,
            (learningRateState.opToTask x).isSome) →
          ∀ x, learningRateAssigner.aggGradDescendantOps x = true →
            x ∈ learningRateAssigner.applyGradAncestorOps →
            s'.opToTask x = some t ∧
              ((learningRateState.opToTask x).isSome → s'.device x = learningRateState.device x) ∧
              (learningRateState.opToTask x = none →
                s'.device x = learningRateAssigner.taskDevice t)) := by
  obtain ⟨⟨s', q⟩, h⟩ : ∃ r, learningRateAssigner.assign 4 4 learningRateState = .ok r := ⟨_, rfl⟩
  exact ⟨s', q, h, assign_values_from_seeding _ _ _ _ s' q h⟩

/-- An aggregation op `0` feeding an op `1` that feeds the apply op `2`, on a PS device. -/
def sharedSeedAssigner : PSGradientTaskAssigner :=
  ⟨Graph.ofEdges (fun _ => "op") [(0, 1), (1, 2)] (by decide), [0], [2], psCpu⟩

/-- The aggregation op seeded with `-1`, the apply op with `5`. -/
def sharedSeedState : State :=
  ⟨fun x => if x = 0 then some sharedTaskId else if x = 2 then some (some 5) else none,
    fun _ => workerCpu⟩

/-- A seed of `-1` is the marker itself: op `1`'s only reference is the aggregation op, so the
finished run stores the marker at `1`, although the seeding carries only one task other than the
marker. -/
theorem assign_stores_shared_from_shared_seed :
    (sharedSeedAssigner.assign 3 3 sharedSeedState).toOption.map (fun r => (r.1.opToTask 1, r.2)) =
      some (some sharedTaskId, []) ∧ ¬SeedSplits sharedSeedState.opToTask := by
  refine ⟨by decide, ?_⟩
  have hfive : ∀ y t, sharedSeedState.opToTask y = some t → t ≠ sharedTaskId → t = some 5 := by
    intro y t hy ht
    simp only [sharedSeedState] at hy
    split_ifs at hy <;> simp_all
  rintro ⟨y, z, t, u, hy, hz, htu, ht, hu⟩
  exact htu ((hfive y t hy ht).trans (hfive z u hz hu).symm)

end PSGradientTaskAssigner
end Autodist
