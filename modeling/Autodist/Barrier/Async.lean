import Autodist.Barrier.Runs

/-!
# `Autodist/Barrier/Async.lean` — the step `between_graph_apply` builds with `sync=False`

With `sync=False`, `between_graph_apply` still calls `_get_accumulation_ops(..., self.num_workers)`
for a trainable variable; it only skips `add_sync_op`. `_get_accumulation_ops` reroutes the
gradient's consumers — the update op among them — to `take_grad(num_workers)` of the shared
accumulator, and the accumulator apply it creates is a new consumer of the gradient that nothing
waits for: only `_get_queue_ops`, which `add_sync_op` calls, makes an op depend on it. The worker's
train op still waits for the update op. So a worker's step for a trainable variable is the
`take_grad`, then the update that reads it (`asyncOps`); for a variable without an accumulator it
is the gradient, then the update. The state and the effects are those of the synchronous step.

No accumulator apply ever runs, so every accumulator stays empty and a `take_grad(num_workers)`,
which needs at least one contribution, never runs (`AsyncInv`). With a trainable variable no
worker ever ends its first step (`asyncReachable_stalls`), for every number of workers — one
included — and every number of steps. The synchronous step always can complete
(`reachable_completes`).
-/

set_option autoImplicit false

namespace Autodist
namespace Barrier

/-- The ops of worker `i`'s step for `k` when `sync=False`, in the order they can run: the release
`take_grad(num_workers)` and the update that reads it, for a trainable variable; the gradient and
the update, for a variable without an accumulator. -/
def asyncOps (k : Variable) : List Op :=
  if k.trainable then [.takeGrad, .update] else [.gradient, .update]

/-- The data edges of an asynchronous step: `takeGrad → update` (the rerouted gradient), and
`gradient → update` for a variable without an accumulator. -/
def asyncDeps (k : Variable) : Op → List Op
  | .update => if k.trainable then [.takeGrad] else [.gradient]
  | _ => []

/-- Whether every op of worker `i`'s asynchronous step has run, for every variable. -/
def asyncStepDone (cfg : Config) (s : State) (i : Nat) : Bool :=
  (List.range cfg.vars.length).all fun v =>
    match cfg.vars[v]? with
    | some k => (asyncOps k).all fun op => s.done (i, v, op)
    | none => true

/-- One step of the asynchronous system, `none` when the action is not enabled. -/
def asyncExec (cfg : Config) (s : State) : Action → Option State
  | .run i v op =>
    match cfg.vars[v]? with
    | some k =>
      if i < cfg.numWorkers ∧ s.step i < cfg.numSteps ∧ op ∈ asyncOps k ∧
          s.done (i, v, op) = false ∧ (asyncDeps k op).all (fun p => s.done (i, v, p)) ∧
          canRun cfg.numWorkers s i v op
      then some (runOp s i v op) else none
    | none => none
  | .finish i =>
    if i < cfg.numWorkers ∧ s.step i < cfg.numSteps ∧ asyncStepDone cfg s i then
      some (finishStep s i)
    else none

/-- The states some asynchronous interleaving reaches. -/
inductive AsyncReachable (cfg : Config) : State → Prop
  | init : AsyncReachable cfg init
  | step {s s' : State} (a : Action) : AsyncReachable cfg s → asyncExec cfg s a = some s' →
      AsyncReachable cfg s'

variable {cfg : Config} {s s' : State}

/-! ## 1. What one asynchronous action does -/

/-- A run of an op is of an op of the worker's step, fresh, whose resource lets it run. -/
theorem asyncExec_run {i v : Nat} {op : Op} (h : asyncExec cfg s (.run i v op) = some s') :
    ∃ k, cfg.vars[v]? = some k ∧ i < cfg.numWorkers ∧ s.step i < cfg.numSteps ∧
      op ∈ asyncOps k ∧ s.done (i, v, op) = false ∧ canRun cfg.numWorkers s i v op = true ∧
      s' = runOp s i v op := by
  simp only [asyncExec] at h
  split at h
  · split_ifs at h with hc
    cases h
    exact ⟨_, ‹_›, hc.1, hc.2.1, hc.2.2.1, hc.2.2.2.1, hc.2.2.2.2.2, rfl⟩
  · cases h

/-- A worker ends its step once every op of it has run, for every variable. -/
theorem asyncExec_finish {i : Nat} (h : asyncExec cfg s (.finish i) = some s') :
    i < cfg.numWorkers ∧ s.step i < cfg.numSteps ∧
      (∀ v k, cfg.vars[v]? = some k → ∀ op ∈ asyncOps k, s.done (i, v, op) = true) ∧
      s' = finishStep s i := by
  simp only [asyncExec] at h
  split_ifs at h with hc
  cases h
  refine ⟨hc.1, hc.2.1, fun v k hv op hop => ?_, rfl⟩
  have := List.all_eq_true.mp hc.2.2 v (List.mem_range.mpr (List.getElem?_eq_some_iff.mp hv).1)
  rw [hv] at this
  exact List.all_eq_true.mp this op hop

/-! ## 2. No accumulator apply, no release -/

/-- What holds in every asynchronous state: every accumulator is empty, no `take_grad` has run,
and with a trainable variable no worker has ended a step. -/
structure AsyncInv (cfg : Config) (s : State) : Prop where
  pending : ∀ v, s.pending v = []
  noTake : ∀ i v, s.done (i, v, .takeGrad) = false
  stalled : (∃ k ∈ cfg.vars, k.trainable = true) → ∀ i, s.step i = 0

theorem AsyncInv.init : AsyncInv cfg init :=
  ⟨fun _ => rfl, fun _ _ => rfl, fun _ _ => rfl⟩

/-- **One asynchronous action keeps the invariant.** A `take_grad` needs `num_workers ≥ 1`
contributions of an empty accumulator, the other ops of a step touch no accumulator, and a worker
cannot end a step whose `take_grad` has not run. -/
theorem AsyncInv.next (hI : AsyncInv cfg s) {a : Action} (ha : asyncExec cfg s a = some s') :
    AsyncInv cfg s' := by
  cases a with
  | run i v op =>
    obtain ⟨k, -, -, -, hop, -, hcan, rfl⟩ := asyncExec_run ha
    have htake : op ≠ .takeGrad := by
      rintro rfl
      have := cfg.numWorkers_pos
      simp [canRun, hI.pending v] at hcan
      omega
    have happly : op ≠ .accumApply := by
      rintro rfl
      unfold asyncOps at hop
      split at hop <;> simp at hop
    refine ⟨fun w => ?_, fun j w => ?_, fun h j => by rw [runOp_step]; exact hI.stalled h j⟩
    · rw [runOp_pending]
      simp [happly, htake, hI.pending w]
    · rw [runOp_done, Function.update_apply, if_neg fun h => htake (by cases h; rfl)]
      exact hI.noTake j w
  | finish i =>
    obtain ⟨-, -, hall, rfl⟩ := asyncExec_finish ha
    refine ⟨hI.pending, fun j w => ?_, fun ⟨k, hk, htr⟩ => ?_⟩
    · rw [finishStep_done]
      split_ifs
      exacts [rfl, hI.noTake j w]
    · obtain ⟨v, hv⟩ := List.mem_iff_getElem?.mp hk
      have := hall v k hv .takeGrad (by simp [asyncOps, htr])
      simp [hI.noTake] at this

theorem AsyncReachable.inv {s : State} (hs : AsyncReachable cfg s) : AsyncInv cfg s := by
  induction hs with
  | init => exact .init
  | step _ _ ha ih => exact ih.next ha

/-! ## 3. No asynchronous step ends -/

/-- **With `sync=False`, no worker ever ends a step** once some variable is trainable: for every
number of workers — one included — and every number of steps, in every reachable state every worker
is still in its first step, every accumulator is empty and no `take_grad` has run. Nothing makes an
accumulator apply run, so each worker's first `take_grad(num_workers)` waits forever. -/
theorem asyncReachable_stalls (hs : AsyncReachable cfg s)
    (htr : ∃ k ∈ cfg.vars, k.trainable = true) :
    (∀ i, s.step i = 0) ∧ (∀ v, s.pending v = []) ∧ ∀ i v, s.done (i, v, .takeGrad) = false :=
  ⟨hs.inv.stalled htr, hs.inv.pending, hs.inv.noTake⟩

/-- One worker, two steps, one trainable variable. -/
def asyncConfig : Config := ⟨1, 2, [⟨true, false⟩], by decide⟩

theorem asyncReachable_stalls_one_worker :
    (∃ k ∈ asyncConfig.vars, k.trainable = true) ∧ (∀ i, init.step i = 0) ∧
      (∀ v, init.pending v = []) ∧ ∀ i v, init.done (i, v, .takeGrad) = false :=
  ⟨⟨_, List.mem_singleton_self _, rfl⟩,
    asyncReachable_stalls (AsyncReachable.init : AsyncReachable asyncConfig init)
      ⟨_, List.mem_singleton_self _, rfl⟩⟩

end Barrier
end Autodist
