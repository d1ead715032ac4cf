import Autodist.Barrier.Invariant
import Mathlib.Data.Nat.Find

/-!
# `Autodist/Barrier/Properties.lean` — what the synchronous barrier guarantees

Read off `Reachable.inv`, for every number of workers and steps and every interleaving:

* `reachable_sync_barrier` — for a trainable variable, the chief's update consumes one contribution
  from every worker's current step and is the variable's `c + 1`-th; a worker's dequeue runs when the
  variable has had exactly one update more than the worker has finished steps; a worker's gradient
  reads the value after exactly as many updates as it has finished steps;
* `reachable_deadlock_free` — while some worker has steps left, some action is enabled.

The progress argument blames the worker at the lowest step. Below any op it has not run lies one
whose dependencies have run (`exists_frontier`); if that op is blocked, it is a take short of
contributions (then a worker at the lowest step has not applied, and its gradient or apply is
enabled), an enqueue into a full queue (impossible: the worker it feeds would be behind the lowest
step), or a dequeue from an empty queue (then the chief is at the lowest step too, with that
enqueue not run, and the argument moves to the chief).
-/

set_option autoImplicit false

namespace Autodist
namespace Barrier

variable {cfg : Config} {s : State} {v : Nat} {k : Variable}

/-! ## 1. Every update, every dequeue, every read -/

section Sync
variable (hI : Inv cfg s) (hv : cfg.vars[v]? = some k) (htr : k.trainable)
include hI hv htr

/-- The chief's update runs on the release of one contribution from each worker's current step,
as the variable's `c + 1`-th update. -/
theorem Inv.update_consumes_release {s' : State} (h : exec cfg s (.run 0 v .update) = some s') :
    (s.taken v).Perm ((List.range cfg.numWorkers).map fun i => (i, s.step 0)) ∧
      s.version v = s.step 0 := by
  obtain ⟨k', he, -⟩ := exec_run.mp h
  obtain rfl : k = k' := Option.some.inj (hv.symm.trans he.var)
  have hT : s.done (0, v, .takeGrad) = true := he.deps _ (by simp [deps, htr])
  refine ⟨hI.taken v k hv htr hT he.fresh, ?_⟩
  rw [hI.version v k hv, State.ran_eq_zero.mpr he.fresh]
  rfl

/-- A worker's dequeue runs after the chief's update of the worker's current step and before the
next one. -/
theorem Inv.version_of_dequeue {j : Nat} {s' : State} (h : exec cfg s (.run j v .dequeue) = some s') :
    s.version v = s.step j + 1 := by
  obtain ⟨k', he, -⟩ := exec_run.mp h
  obtain rfl : k = k' := Option.some.inj (hv.symm.trans he.var)
  have hj0 : j ≠ 0 := dequeue_mem_requiredOps.mp he.required
  have hq : 0 < s.queue (v, j) := by simpa [canRun] using he.free
  exact le_antisymm (hI.version_le hv htr he.worker)
    (hI.step_lt_version hv htr (Nat.pos_of_ne_zero hj0) he.worker (by omega))

/-- Before a worker's gradient, the variable holds exactly as many updates as the worker has
finished steps. -/
theorem Inv.version_of_gradient {i : Nat} (hi : i < cfg.numWorkers)
    (hG : s.done (i, v, .gradient) = false) : s.version v = s.step i := by
  have hAG : s.ran i v .accumApply ≤ s.ran i v .gradient := hI.ran_le hv (by simp [deps])
  have hUT : s.ran 0 v .update ≤ s.ran 0 v .takeGrad := hI.ran_le hv (by simp [deps, htr])
  have hta := hI.applies v k hv htr i hi
  have hG0 := State.ran_eq_zero.mpr hG
  rw [hI.version v k hv]
  unfold State.takes State.applies at hta
  rcases Nat.eq_zero_or_pos i with rfl | hi0
  · omega
  · have hEU : s.ran 0 v (.enqueue i) ≤ s.ran 0 v .update := hI.ran_le hv (by simp [deps, htr])
    have := (hI.queue v k i hv hi0 hi).1
    omega

/-- Before a worker's gradient, its mirror holds exactly as many updates as it has finished
steps: the mirror update of the step waits for the queue op, which waits for the gradient. -/
theorem Inv.mirror_of_gradient (hrp : k.replicated) {i : Nat} (hi : i < cfg.numWorkers)
    (hG : s.done (i, v, .gradient) = false) : s.mirror (v, i) = s.step i := by
  have hAG : s.ran i v .accumApply ≤ s.ran i v .gradient := hI.ran_le hv (by simp [deps])
  have hG0 := State.ran_eq_zero.mpr hG
  rw [hI.mirror v k hv htr hrp i hi]
  rcases Nat.eq_zero_or_pos i with rfl | hi0
  · have hMN : s.ran 0 v .mirrorUpdate ≤ s.ran 0 v .noOp := hI.ran_le hv (by simp [deps])
    have hNA : s.ran 0 v .noOp ≤ s.ran 0 v .accumApply := hI.ran_le hv (by simp [deps, htr])
    omega
  · have hMD : s.ran i v .mirrorUpdate ≤ s.ran i v .dequeue :=
      hI.ran_le hv (by simp [deps, Nat.pos_iff_ne_zero.mp hi0])
    have hDA : s.ran i v .dequeue ≤ s.ran i v .accumApply := hI.ran_le hv (by simp [deps, htr])
    omega

end Sync

/-- **The barrier of a synchronous step.** For a trainable variable, in every reachable state of
every interleaving: the chief's update consumes a release of exactly one contribution from each
worker's current step, and is the `c + 1`-th update when the chief has finished `c` steps; worker
`j`'s dequeue runs when the variable has had exactly `n_j + 1` updates, `n_j` its finished steps;
and worker `i`'s gradient reads the value after exactly `n_i` updates. -/
theorem reachable_sync_barrier (hs : Reachable cfg s) (hv : cfg.vars[v]? = some k)
    (htr : k.trainable) :
    (∀ s', exec cfg s (.run 0 v .update) = some s' →
      (s.taken v).Perm ((List.range cfg.numWorkers).map fun i => (i, s.step 0)) ∧
        s.version v = s.step 0) ∧
    (∀ j s', exec cfg s (.run j v .dequeue) = some s' → s.version v = s.step j + 1) ∧
    (∀ i s', exec cfg s (.run i v .gradient) = some s' → s.read k i v = s.step i) := by
  have hI := hs.inv
  refine ⟨fun _ h => hI.update_consumes_release hv htr h, fun _ _ h => hI.version_of_dequeue hv htr h,
    fun i _ h => ?_⟩
  obtain ⟨k', he, -⟩ := exec_run.mp h
  obtain rfl : k = k' := Option.some.inj (hv.symm.trans he.var)
  unfold State.read
  split_ifs with hrp
  · exact hI.mirror_of_gradient hv htr hrp he.worker he.fresh
  · exact hI.version_of_gradient hv htr he.worker he.fresh

/-- Two workers, two steps, one trainable mirrored variable. -/
def syncConfig : Config := ⟨2, 2, [⟨true, true⟩], by decide⟩

/-- Both workers compute and apply their gradient; the chief takes the release. -/
def syncRun : List Action :=
  [.run 0 0 .gradient, .run 1 0 .gradient, .run 0 0 .accumApply, .run 1 0 .accumApply,
    .run 0 0 .takeGrad]

/-- Where `syncRun` leads: the chief's update is enabled. -/
def syncState : State := (execAll syncConfig init syncRun).getD init

theorem syncState_reachable : Reachable syncConfig syncState :=
  reachable_execAll syncRun .init rfl

theorem reachable_sync_barrier_two_workers :
    (exec syncConfig syncState (.run 0 0 .update)).isSome ∧
    (∀ s', exec syncConfig syncState (.run 0 0 .update) = some s' →
      (syncState.taken 0).Perm
        ((List.range syncConfig.numWorkers).map fun i => (i, syncState.step 0)) ∧
        syncState.version 0 = syncState.step 0) ∧
    (∀ j s', exec syncConfig syncState (.run j 0 .dequeue) = some s' →
      syncState.version 0 = syncState.step j + 1) ∧
    (∀ i s', exec syncConfig syncState (.run i 0 .gradient) = some s' →
      syncState.read ⟨true, true⟩ i 0 = syncState.step i) :=
  ⟨by decide, reachable_sync_barrier syncState_reachable rfl rfl⟩

/-! ## 2. No deadlock -/

/-- How deep an op sits in the dependencies of a step. -/
def Op.rank : Op → Nat
  | .gradient | .takeGrad => 0
  | .accumApply => 1
  | .update | .dequeue => 2
  | .noOp | .enqueue _ => 3
  | .mirrorUpdate => 4

theorem rank_lt_of_mem_deps {W i : Nat} {op p : Op} (hp : p ∈ deps W i k op) : p.rank < op.rank := by
  cases op with
  | gradient | takeGrad => simp [deps] at hp
  | mirrorUpdate =>
    by_cases hi : i = 0 <;> simp [deps, hi] at hp
    · rcases hp with rfl | ⟨j, -, rfl⟩ <;> simp [Op.rank]
    · simp [hp, Op.rank]
  | _ =>
    by_cases htr : k.trainable <;> simp [deps, htr] at hp <;> rcases hp with rfl | rfl <;>
      simp [Op.rank]

/-- Below an op that has not run lies one that has not run and whose dependencies have. -/
theorem exists_frontier {W i : Nat} (d : Op → Bool) (op : Op) (hop : op ∈ requiredOps W i k)
    (hd : d op = false) :
    ∃ op' ∈ requiredOps W i k, d op' = false ∧ ∀ p ∈ deps W i k op', d p = true := by
  by_cases hall : ∀ p ∈ deps W i k op, d p = true
  · exact ⟨op, hop, hd, hall⟩
  · push_neg at hall
    obtain ⟨p, hp, hdp⟩ := hall
    exact exists_frontier d p (deps_required hop hp) (by simpa using hdp)
termination_by op.rank
decreasing_by exact rank_lt_of_mem_deps hp

section Progress
variable (hI : Inv cfg s) {m : Nat} (hmin : ∀ j < cfg.numWorkers, m ≤ s.step j)
  (hm : m < cfg.numSteps)
include hI hmin hm

/-- A take short of contributions, by a chief at the lowest step, waits on a worker at the lowest
step that has not applied: its gradient or its apply is enabled. -/
theorem Inv.progress_of_short (hv : cfg.vars[v]? = some k) (htr : k.trainable)
    (hc : s.step 0 = m) (hT : s.done (0, v, .takeGrad) = false)
    (hshort : (s.pending v).length < cfg.numWorkers) : ∃ a s', exec cfg s a = some s' := by
  have hlen : ((List.range cfg.numWorkers).filter
      fun j => s.applies j v = s.takes v + 1).length < (List.range cfg.numWorkers).length := by
    have := (hI.pending v k hv htr).length_eq
    simp only [State.expected, List.length_map, List.length_range] at *
    omega
  obtain ⟨j, hj, hne⟩ := List.length_filter_lt_length_iff_exists.mp hlen
  have hj := List.mem_range.mp hj
  have hta := hI.applies v k hv htr j hj
  have hle := hI.applies_le hv htr hj
  have := hmin j hj
  have hA : s.ran j v .accumApply = 0 ∧ s.step j = m := by
    simp only [State.takes, State.applies, hc, State.ran_eq_zero.mpr hT, decide_eq_true_eq] at *
    omega
  cases hG : s.done (j, v, .gradient)
  · exact ⟨_, _, Enabled.exec ⟨hv, hj, by omega, by simp, hG, by simp [deps], rfl⟩⟩
  · exact ⟨_, _, Enabled.exec ⟨hv, hj, by omega, by simp [htr], State.ran_eq_zero.mp hA.1,
      by simp [deps, hG], rfl⟩⟩

/-- A worker at the lowest step with an op left for `v` can act, unless what blocks it is a
dequeue from its empty queue. -/
theorem Inv.progress_or_dequeue {i : Nat} {op : Op} (hv : cfg.vars[v]? = some k)
    (hi : i < cfg.numWorkers) (hsi : s.step i = m) (hop : op ∈ requiredOps cfg.numWorkers i k)
    (hd : s.done (i, v, op) = false) :
    (∃ a s', exec cfg s a = some s') ∨
      (0 < i ∧ s.queue (v, i) = 0 ∧ s.done (i, v, .dequeue) = false) := by
  obtain ⟨op', hop', hd', hdeps⟩ := exists_frontier (fun p => s.done (i, v, p)) op hop hd
  cases hfree : canRun cfg.numWorkers s i v op'
  · cases op' with
    | takeGrad =>
      obtain ⟨rfl, htr⟩ := takeGrad_mem_requiredOps.mp hop'
      exact .inl (hI.progress_of_short hmin hm hv htr hsi hd' (by simpa [canRun] using hfree))
    | enqueue j =>
      obtain ⟨rfl, hj, hj0⟩ := enqueue_mem_requiredOps.mp hop'
      have hq : 0 < s.queue (v, j) := Nat.pos_of_ne_zero (by simpa [canRun] using hfree)
      have := (hI.queue v k j hv (Nat.pos_of_ne_zero hj0) hj).1
      have := hmin j hj
      have := State.ran_eq_zero.mpr hd'
      omega
    | dequeue =>
      exact .inr ⟨Nat.pos_of_ne_zero (dequeue_mem_requiredOps.mp hop'),
        by simpa [canRun] using hfree, hd'⟩
    | _ => simp [canRun] at hfree
  · exact .inl ⟨_, _, Enabled.exec ⟨hv, hi, by omega, hop', hd', hdeps, hfree⟩⟩

/-- A worker at the lowest step with an op left can act, or another worker can: a dequeue from an
empty queue means the chief is at the lowest step too, with its enqueue not run. -/
theorem Inv.progress_of_undone {i : Nat} {op : Op} (hv : cfg.vars[v]? = some k)
    (hi : i < cfg.numWorkers) (hsi : s.step i = m) (hop : op ∈ requiredOps cfg.numWorkers i k)
    (hd : s.done (i, v, op) = false) : ∃ a s', exec cfg s a = some s' := by
  rcases hI.progress_or_dequeue hmin hm hv hi hsi hop hd with h | ⟨hi0, hq, hD⟩
  · exact h
  have hqe := (hI.queue v k i hv hi0 hi).1
  have := hmin 0 cfg.numWorkers_pos
  have := State.ran_le_one s 0 v (.enqueue i)
  rw [hq, hsi, State.ran_eq_zero.mpr hD] at hqe
  have hE : s.done (0, v, .enqueue i) = false := State.ran_eq_zero.mp (by omega)
  rcases hI.progress_or_dequeue hmin hm hv cfg.numWorkers_pos (by omega)
    (enqueue_mem_requiredOps.mpr ⟨rfl, hi, by omega⟩) hE with h | ⟨h, -⟩
  · exact h
  · exact absurd h (Nat.lt_irrefl 0)

end Progress

/-- The progress argument, for every state of the invariant: while some worker has steps left, the
worker at the lowest step can finish it or some op is enabled. -/
theorem Inv.exists_enabled (hI : Inv cfg s) (h : ∃ i < cfg.numWorkers, s.step i < cfg.numSteps) :
    ∃ a s', exec cfg s a = some s' := by
  obtain ⟨i, hi, hS⟩ := h
  have hex : ∃ n, ∃ j < cfg.numWorkers, s.step j = n := ⟨_, i, hi, rfl⟩
  obtain ⟨i₀, hi₀, hm⟩ := Nat.find_spec hex
  have hmin : ∀ j < cfg.numWorkers, Nat.find hex ≤ s.step j := fun j hj =>
    Nat.find_min' hex ⟨j, hj, rfl⟩
  have hmS : Nat.find hex < cfg.numSteps := lt_of_le_of_lt (hmin i hi) hS
  by_cases hall : ∀ v k, cfg.vars[v]? = some k → ∀ op ∈ requiredOps cfg.numWorkers i₀ k,
      s.done (i₀, v, op) = true
  · exact ⟨_, _, exec_finish.mpr ⟨⟨hi₀, hm ▸ hmS, hall⟩, rfl⟩⟩
  · push_neg at hall
    obtain ⟨v, k, hv, op, hop, hd⟩ := hall
    exact hI.progress_of_undone hmin hmS hv hi₀ hm hop (by simpa using hd)

/-- **No deadlock.** In every reachable state in which some worker has steps left, some action is
enabled: no interleaving leaves every unfinished worker blocked on an enqueue into a full queue, a
dequeue from an empty one, or a take short of `num_workers` contributions. -/
theorem reachable_deadlock_free (hs : Reachable cfg s)
    (h : ∃ i < cfg.numWorkers, s.step i < cfg.numSteps) : ∃ a s', exec cfg s a = some s' :=
  hs.inv.exists_enabled h

theorem reachable_deadlock_free_two_workers :
    (∃ i < syncConfig.numWorkers, syncState.step i < syncConfig.numSteps) ∧
    ∃ a s', exec syncConfig syncState a = some s' :=
  ⟨⟨0, by decide, by decide⟩, reachable_deadlock_free syncState_reachable ⟨0, by decide, by decide⟩⟩

end Barrier
end Autodist
