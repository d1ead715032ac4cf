import Autodist.Barrier.Properties
import Mathlib.Algebra.Order.BigOperators.Group.Finset

/-!
# `Autodist/Barrier/Runs.lean` — whole runs of the synchronous step

`Properties.lean` reads off the invariant what every single action sees. Here is what holds of
whole runs, for every number of workers, steps and variables and every interleaving:

* `reachable_lockstep` — with a trainable variable, no worker is ever more than one step ahead of
  another: a worker's step ends after the accumulator's release, which waits for every worker's
  apply;
* `reachable_queue_drift` — what the one-slot queues hold on their own, as for a variable without an
  accumulator: a worker at most one step ahead of the chief, the chief at most two ahead of a
  worker;
* `reachable_untrainable_read` — and what a worker reads of such a variable: the chief the value of
  its own step, another worker a value between its own step's and three updates ahead;
* `reachable_stuck_iff` — no action is enabled exactly when every worker has finished its
  `num_steps` steps;
* `run_maximal_complete` — so every run that cannot be extended is complete, whatever the
  interleaving, and has exactly `runBound` actions: one per op of every step of every worker and one
  `finish` per step (`run_length_bound`: no run has more);
* `reachable_complete_clean` — and then every queue and every accumulator is empty, and every
  variable has had exactly `num_steps` updates;
* `reachable_completes` — from every reachable state some run brings every worker to the end.

The count of a run is a conservation law (`work_execAll`): every action adds one to `State.work`,
the ops each worker has run in its finished steps and in its current one. `WithinSteps` is what
the guards of `exec` on `num_steps` keep.
-/

set_option autoImplicit false

namespace Autodist
namespace Barrier

variable {cfg : Config} {s s' : State}

/-! ## 1. How far apart the workers are -/

/-- A worker has finished at most one step more than any other when some variable has an
accumulator: its steps are at most the releases, and each release waits for every worker's
apply. -/
theorem Inv.step_le_succ {v : Nat} {k : Variable} (hI : Inv cfg s) (hv : cfg.vars[v]? = some k)
    (htr : k.trainable) {i j : Nat} (hi : i < cfg.numWorkers) (hj : j < cfg.numWorkers) :
    s.step i ≤ s.step j + 1 := by
  have := hI.step_le_takes hv htr hi
  have := hI.applies v k hv htr j hj
  have := s.ran_le_one j v .accumApply
  unfold State.applies at *
  omega

/-- **Lockstep.** In every reachable state of a system with a trainable variable, the finished
steps of every two workers differ by at most one. -/
theorem reachable_lockstep (hs : Reachable cfg s) (htr : ∃ k ∈ cfg.vars, k.trainable = true)
    {i j : Nat} (hi : i < cfg.numWorkers) (hj : j < cfg.numWorkers) : s.step i ≤ s.step j + 1 := by
  obtain ⟨k, hk, htr⟩ := htr
  obtain ⟨v, hv⟩ := List.mem_iff_getElem?.mp hk
  exact hs.inv.step_le_succ hv htr hi hj

theorem reachable_lockstep_two_workers :
    (∃ k ∈ syncConfig.vars, k.trainable = true) ∧ syncState.step 0 ≤ syncState.step 1 + 1 ∧
      syncState.step 1 ≤ syncState.step 0 + 1 :=
  ⟨⟨_, List.mem_singleton_self _, rfl⟩,
    reachable_lockstep syncState_reachable ⟨_, List.mem_singleton_self _, rfl⟩ (by decide)
      (by decide),
    reachable_lockstep syncState_reachable ⟨_, List.mem_singleton_self _, rfl⟩ (by decide)
      (by decide)⟩

/-- **What the queues alone hold.** In every reachable state of a system with a variable, no worker
has finished more than one step beyond the chief, nor the chief more than two beyond a worker: the
queue of a worker holds the tokens the chief enqueued in its steps less those the worker dequeued,
and at most one. -/
theorem reachable_queue_drift (hs : Reachable cfg s) (hne : cfg.vars ≠ []) {j : Nat}
    (hj : j < cfg.numWorkers) : s.step j ≤ s.step 0 + 1 ∧ s.step 0 ≤ s.step j + 2 := by
  obtain ⟨k, ks, hks⟩ := List.exists_cons_of_ne_nil hne
  rcases Nat.eq_zero_or_pos j with rfl | hj0
  · omega
  · have := hs.inv.queue 0 k j (by simp [hks]) hj0 hj
    have := s.ran_le_one j 0 .dequeue
    have := s.ran_le_one 0 0 (.enqueue j)
    omega

theorem reachable_queue_drift_two_workers :
    syncConfig.vars ≠ [] ∧ syncState.step 1 ≤ syncState.step 0 + 1 ∧
      syncState.step 0 ≤ syncState.step 1 + 2 :=
  ⟨List.cons_ne_nil _ _,
    reachable_queue_drift syncState_reachable (List.cons_ne_nil _ _) (by decide)⟩

/-- Before a worker's gradient for a variable without an accumulator, the variable holds between
as many updates as the worker has finished steps and three more, and the chief's exactly as many:
the worker's dequeue waits for no apply, so only the one-slot queue holds the chief back. -/
theorem Inv.version_of_gradient_untrainable {v : Nat} {k : Variable} (hI : Inv cfg s)
    (hv : cfg.vars[v]? = some k) (htr : k.trainable = false) {i : Nat} (hi : i < cfg.numWorkers)
    (hG : s.done (i, v, .gradient) = false) :
    s.step i ≤ s.version v ∧ s.version v ≤ s.step i + 3 ∧ (i = 0 → s.version v = s.step 0) := by
  have hUG : s.ran 0 v .update ≤ s.ran 0 v .gradient := hI.ran_le hv (by simp [deps, htr])
  have hU := s.ran_le_one 0 v .update
  rw [hI.version v k hv]
  rcases Nat.eq_zero_or_pos i with rfl | hi0
  · have := State.ran_eq_zero.mpr hG
    omega
  · have hEU : s.ran 0 v (.enqueue i) ≤ s.ran 0 v .update := hI.ran_le hv (by simp [deps, htr])
    have hq := hI.queue v k i hv hi0 hi
    have := s.ran_le_one i v .dequeue
    omega

/-- **Reads of a variable without an accumulator.** For a variable outside the trainable
collection (and so not mirrored), in every reachable state of every interleaving: the chief's
gradient reads the value after exactly as many updates as it has finished steps; any worker's
reads it after between as many and three more. The barrier of `_get_queue_ops` makes a worker's
dequeue wait for its accumulator apply only when there is an accumulator. -/
theorem reachable_untrainable_read (hs : Reachable cfg s) {v : Nat} {k : Variable}
    (hv : cfg.vars[v]? = some k) (htr : k.trainable = false) (hrp : k.replicated = false) :
    (∀ s', exec cfg s (.run 0 v .gradient) = some s' → s.read k 0 v = s.step 0) ∧
    ∀ i s', exec cfg s (.run i v .gradient) = some s' →
      s.step i ≤ s.read k i v ∧ s.read k i v ≤ s.step i + 3 := by
  have hread : ∀ i, s.read k i v = s.version v := fun i => by simp [State.read, hrp]
  -- an enabled gradient is a fresh op of a worker, for the variable `k`
  have hb : ∀ i s', exec cfg s (.run i v .gradient) = some s' →
      s.step i ≤ s.version v ∧ s.version v ≤ s.step i + 3 ∧ (i = 0 → s.version v = s.step 0) := by
    intro i s' h
    obtain ⟨k', he, -⟩ := exec_run.mp h
    obtain rfl : k = k' := Option.some.inj (hv.symm.trans he.var)
    exact hs.inv.version_of_gradient_untrainable hv htr he.worker he.fresh
  exact ⟨fun s' h => hread 0 ▸ (hb 0 s' h).2.2 rfl,
    fun i s' h => hread i ▸ ⟨(hb i s' h).1, (hb i s' h).2.1⟩⟩

/-- Two workers, three steps, one variable outside the trainable collection. -/
def untrainableConfig : Config := ⟨2, 3, [⟨false, false⟩], by decide⟩

/-- The chief runs two whole steps and the gradient and update of a third; worker `1` only
dequeues the first token. -/
def untrainableRun : List Action :=
  [.run 0 0 .gradient, .run 0 0 .update, .run 0 0 .noOp, .run 0 0 (.enqueue 1), .finish 0,
    .run 1 0 .dequeue,
    .run 0 0 .gradient, .run 0 0 .update, .run 0 0 .noOp, .run 0 0 (.enqueue 1), .finish 0,
    .run 0 0 .gradient, .run 0 0 .update]

def untrainableState : State := (execAll untrainableConfig init untrainableRun).getD init

theorem untrainableState_reachable : Reachable untrainableConfig untrainableState :=
  reachable_execAll untrainableRun .init rfl

/-- The bound is reached: worker `1`, in its first step, is about to read the value after three
updates. -/
theorem reachable_untrainable_read_three_ahead :
    (exec untrainableConfig untrainableState (.run 1 0 .gradient)).isSome ∧
    untrainableState.read ⟨false, false⟩ 1 0 = untrainableState.step 1 + 3 ∧
    (∀ s', exec untrainableConfig untrainableState (.run 0 0 .gradient) = some s' →
      untrainableState.read ⟨false, false⟩ 0 0 = untrainableState.step 0) ∧
    ∀ i s', exec untrainableConfig untrainableState (.run i 0 .gradient) = some s' →
      untrainableState.step i ≤ untrainableState.read ⟨false, false⟩ i 0 ∧
        untrainableState.read ⟨false, false⟩ i 0 ≤ untrainableState.step i + 3 :=
  ⟨by decide, by decide, reachable_untrainable_read untrainableState_reachable rfl rfl rfl⟩

/-! ## 2. What the guards on `num_steps` keep -/

/-- No worker passes `num_steps`, and a worker that has reached it has run nothing since. -/
structure WithinSteps (cfg : Config) (s : State) : Prop where
  le : ∀ i, s.step i ≤ cfg.numSteps
  active : ∀ i v op, s.done (i, v, op) = true → s.step i < cfg.numSteps

theorem WithinSteps.next (h : WithinSteps cfg s) {a : Action} (ha : exec cfg s a = some s') :
    WithinSteps cfg s' := by
  cases a with
  | run i v op =>
    obtain ⟨k, he, rfl⟩ := exec_run.mp ha
    refine ⟨fun j => by simpa using h.le j, fun j w p hd => ?_⟩
    rw [runOp_done, Function.update_apply] at hd
    split_ifs at hd with hx
    · cases hx
      simpa using he.active
    · simpa using h.active j w p hd
  | finish i =>
    obtain ⟨⟨-, hS, -⟩, rfl⟩ := exec_finish.mp ha
    refine ⟨fun j => ?_, fun j w p hd => ?_⟩ <;> rw [finishStep_step]
    · split_ifs with hj
      · subst hj; omega
      · exact h.le j
    · rw [finishStep_done] at hd
      split_ifs at hd with hj
      rw [if_neg hj, Nat.add_zero]
      exact h.active j w p hd

/-- A worker that has finished its `num_steps` steps has run no op since. -/
theorem WithinSteps.ran_eq_zero (h : WithinSteps cfg s) {i : Nat} (hi : s.step i = cfg.numSteps)
    (v : Nat) (op : Op) : s.ran i v op = 0 :=
  State.ran_eq_zero.mpr (Bool.eq_false_iff.mpr fun hd => by
    have := h.active i v op hd
    omega)

theorem Reachable.withinSteps (hs : Reachable cfg s) : WithinSteps cfg s := by
  induction hs with
  | init => exact ⟨fun _ => Nat.zero_le _, fun _ _ _ h => by cases h⟩
  | step _ _ ha ih => exact ih.next ha

/-! ## 3. Every action is one unit of work -/

/-- The (variable, op) pairs of worker `i`'s step. -/
def Config.stepOps (cfg : Config) (i : Nat) : Finset (Nat × Op) :=
  ((List.range cfg.vars.length).flatMap fun v =>
    match cfg.vars[v]? with
    | some k => (requiredOps cfg.numWorkers i k).map (v, ·)
    | none => []).toFinset

/-- The actions of a complete run: `num_steps` steps of every worker, each its ops and its
`finish`. -/
def Config.runBound (cfg : Config) : Nat :=
  ∑ i ∈ Finset.range cfg.numWorkers, cfg.numSteps * ((cfg.stepOps i).card + 1)

/-- The ops worker `i` has run in its current step. -/
def State.doneOps (cfg : Config) (s : State) (i : Nat) : Finset (Nat × Op) :=
  (cfg.stepOps i).filter fun e => s.done (i, e.1, e.2)

/-- The actions worker `i` has taken: its finished steps, each its ops and its `finish`, and the
ops of its current step. -/
def State.workOf (cfg : Config) (s : State) (i : Nat) : Nat :=
  s.step i * ((cfg.stepOps i).card + 1) + (s.doneOps cfg i).card

/-- The actions all workers have taken. -/
def State.work (cfg : Config) (s : State) : Nat :=
  ∑ i ∈ Finset.range cfg.numWorkers, s.workOf cfg i

theorem mem_stepOps {i v : Nat} {op : Op} :
    (v, op) ∈ cfg.stepOps i ↔ ∃ k, cfg.vars[v]? = some k ∧ op ∈ requiredOps cfg.numWorkers i k := by
  simp only [Config.stepOps, List.mem_toFinset, List.mem_flatMap, List.mem_range]
  constructor
  · rintro ⟨w, -, hw⟩
    split at hw
    · obtain ⟨p, hp, he⟩ := List.mem_map.mp hw
      cases he
      exact ⟨_, ‹_›, hp⟩
    · cases hw
  · rintro ⟨k, hv, hop⟩
    exact ⟨v, (List.getElem?_eq_some_iff.mp hv).1, by rw [hv]; exact List.mem_map_of_mem _ hop⟩

section DoneOps
variable {i v : Nat} {op : Op}

/-- Running a fresh op of worker `i`'s step adds it to `i`'s run ops and to no one else's. -/
theorem card_doneOps_runOp (hf : s.done (i, v, op) = false) (hm : (v, op) ∈ cfg.stepOps i)
    (j : Nat) :
    ((runOp s i v op).doneOps cfg j).card = (s.doneOps cfg j).card + if j = i then 1 else 0 := by
  by_cases hj : j = i
  · subst hj
    have hins : (runOp s j v op).doneOps cfg j = insert (v, op) (s.doneOps cfg j) := by
      ext ⟨w, p⟩
      by_cases h : w = v ∧ p = op
      · obtain ⟨rfl, rfl⟩ := h
        simp [State.doneOps, hm]
      · simp [State.doneOps, Function.update_apply, h]
    rw [hins, Finset.card_insert_of_not_mem (by simp [State.doneOps, hf]), if_pos rfl]
  · rw [if_neg hj, Nat.add_zero]
    congr 1
    refine Finset.filter_congr fun e _ => ?_
    rw [runOp_done, Function.update_noteq fun he => hj (congrArg Prod.fst he)]

theorem doneOps_finishStep (j : Nat) :
    (finishStep s i).doneOps cfg j = if j = i then ∅ else s.doneOps cfg j := by
  split_ifs with hj
  · exact Finset.filter_false_of_mem fun ⟨_, _⟩ _ => by simp [finishStep_done, hj]
  · exact Finset.filter_congr fun e _ => by rw [finishStep_done, if_neg hj]

theorem doneOps_of_all (hall : ∀ v k, cfg.vars[v]? = some k →
    ∀ op ∈ requiredOps cfg.numWorkers i k, s.done (i, v, op) = true) :
    s.doneOps cfg i = cfg.stepOps i :=
  Finset.filter_true_of_mem fun ⟨_, _⟩ he => by
    obtain ⟨k, hv, hop⟩ := mem_stepOps.mp he
    exact hall _ k hv _ hop

end DoneOps

/-- **Every action is the work of one worker**, and adds one to it. -/
theorem workOf_next {a : Action} (h : exec cfg s a = some s') :
    ∃ i < cfg.numWorkers, ∀ j, s'.workOf cfg j = s.workOf cfg j + if j = i then 1 else 0 := by
  cases a with
  | run i v op =>
    obtain ⟨k, he, rfl⟩ := exec_run.mp h
    refine ⟨i, he.worker, fun j => ?_⟩
    rw [State.workOf, State.workOf, runOp_step,
      card_doneOps_runOp he.fresh (mem_stepOps.mpr ⟨k, he.var, he.required⟩), Nat.add_assoc]
  | finish i =>
    obtain ⟨⟨hi, -, hall⟩, rfl⟩ := exec_finish.mp h
    refine ⟨i, hi, fun j => ?_⟩
    rw [State.workOf, State.workOf, finishStep_step, doneOps_finishStep]
    split_ifs with hj
    · subst hj
      rw [doneOps_of_all hall, Finset.card_empty, Nat.succ_mul]
      omega
    · rfl

theorem work_next {a : Action} (h : exec cfg s a = some s') : s'.work cfg = s.work cfg + 1 := by
  obtain ⟨i, hi, hw⟩ := workOf_next h
  simp only [State.work, hw, Finset.sum_add_distrib, Finset.sum_ite_eq', Finset.mem_range, hi,
    if_true]

/-- **The work of a run is its length.** -/
theorem work_execAll : ∀ {s s' : State} (as : List Action), execAll cfg s as = some s' →
    s'.work cfg = s.work cfg + as.length
  | _, _, [], h => by cases h; rfl
  | _, _, a :: as, h => by
    simp only [execAll, Option.bind_eq_some] at h
    obtain ⟨s₁, ha, h⟩ := h
    rw [work_execAll as h, work_next ha, List.length_cons]
    omega

theorem work_init : init.work cfg = 0 :=
  Finset.sum_eq_zero fun i _ => by simp [State.workOf, State.doneOps, Barrier.init]

section Bound
variable (h : WithinSteps cfg s) (i : Nat)
include h

theorem WithinSteps.doneOps_eq_empty (hi : s.step i = cfg.numSteps) : s.doneOps cfg i = ∅ :=
  Finset.filter_false_of_mem fun e _ hd => by
    have := h.active i e.1 e.2 hd
    omega

/-- A worker has done at most its `num_steps` steps' work, and exactly that once it has finished
them. -/
theorem WithinSteps.workOf_le :
    s.workOf cfg i ≤ cfg.numSteps * ((cfg.stepOps i).card + 1) ∧
      (s.step i = cfg.numSteps → s.workOf cfg i = cfg.numSteps * ((cfg.stepOps i).card + 1)) := by
  have hend :
      s.step i = cfg.numSteps → s.workOf cfg i = cfg.numSteps * ((cfg.stepOps i).card + 1) :=
    fun hi => by rw [State.workOf, hi, h.doneOps_eq_empty i hi, Finset.card_empty, Nat.add_zero]
  refine ⟨?_, hend⟩
  rcases (h.le i).lt_or_eq with hlt | heq
  · have hc : (s.doneOps cfg i).card ≤ (cfg.stepOps i).card := Finset.card_filter_le _ _
    calc s.workOf cfg i ≤ s.step i * ((cfg.stepOps i).card + 1) + ((cfg.stepOps i).card + 1) := by
          unfold State.workOf; omega
      _ = (s.step i + 1) * ((cfg.stepOps i).card + 1) := (Nat.succ_mul _ _).symm
      _ ≤ cfg.numSteps * ((cfg.stepOps i).card + 1) := Nat.mul_le_mul_right _ hlt
  · exact (hend heq).le

end Bound

/-- **Every run ends.** A run from the initial state has at most `runBound` actions, and exactly
`runBound` once every worker has finished its `num_steps` steps: every op of every step runs
once. -/
theorem run_length_bound {as : List Action} (h : execAll cfg init as = some s) :
    as.length ≤ cfg.runBound ∧
      ((∀ i < cfg.numWorkers, s.step i = cfg.numSteps) → as.length = cfg.runBound) := by
  have hw := work_execAll as h
  rw [work_init, Nat.zero_add] at hw
  have hs := (reachable_execAll as .init h).withinSteps
  refine ⟨hw ▸ Finset.sum_le_sum fun i _ => (hs.workOf_le i).1, fun hc => hw ▸ ?_⟩
  exact Finset.sum_congr rfl fun i hi => (hs.workOf_le i).2 (hc i (Finset.mem_range.mp hi))

/-- Two workers, one step, one trainable mirrored variable. -/
def doneConfig : Config := ⟨2, 1, [⟨true, true⟩], by decide⟩

/-- A complete run of `doneConfig`: both workers apply, the chief takes, updates and releases
worker `1`, each updates its mirror and finishes. -/
def doneRun : List Action :=
  [.run 0 0 .gradient, .run 1 0 .gradient, .run 0 0 .accumApply, .run 1 0 .accumApply,
    .run 0 0 .takeGrad, .run 0 0 .update, .run 0 0 .noOp, .run 0 0 (.enqueue 1),
    .run 0 0 .mirrorUpdate, .finish 0, .run 1 0 .dequeue, .run 1 0 .mirrorUpdate, .finish 1]

/-- Where `doneRun` leads: both workers have finished their step. -/
def doneState : State := (execAll doneConfig init doneRun).getD init

theorem doneState_reachable : Reachable doneConfig doneState :=
  reachable_execAll doneRun .init rfl

/-! ## 4. The end of a run -/

/-- A complete state is stuck: every worker has run its `num_steps` steps, and the guards of
`exec` enable nothing past them. -/
theorem stuck_of_complete (hc : ∀ i < cfg.numWorkers, s.step i = cfg.numSteps) (a : Action) :
    exec cfg s a = none := by
  refine Option.eq_none_iff_forall_not_mem.mpr fun s' h => ?_
  cases a with
  | run i v op =>
    obtain ⟨k, he, -⟩ := exec_run.mp h
    exact absurd he.active (by simp [hc i he.worker])
  | finish i =>
    obtain ⟨⟨hi, hS, -⟩, -⟩ := exec_finish.mp h
    exact absurd hS (by simp [hc i hi])

/-- A stuck reachable state is complete: while a worker has steps left, some action is enabled. -/
theorem complete_of_stuck (hs : Reachable cfg s) (hstuck : ∀ a, exec cfg s a = none) :
    ∀ i < cfg.numWorkers, s.step i = cfg.numSteps := fun i hi =>
  le_antisymm (hs.withinSteps.le i) (Nat.not_lt.mp fun hlt => by
    obtain ⟨a, s', h⟩ := hs.inv.exists_enabled ⟨i, hi, hlt⟩
    simp [hstuck a] at h)

/-- **A run is stuck exactly when it is complete.** In a reachable state no action is enabled
exactly when every worker has finished its `num_steps` steps. -/
theorem reachable_stuck_iff (hs : Reachable cfg s) :
    (∀ a, exec cfg s a = none) ↔ ∀ i < cfg.numWorkers, s.step i = cfg.numSteps :=
  ⟨complete_of_stuck hs, stuck_of_complete⟩

theorem reachable_stuck_iff_two_workers :
    ((∀ a, exec doneConfig doneState a = none) ↔
      ∀ i < doneConfig.numWorkers, doneState.step i = doneConfig.numSteps) ∧
    ((∀ a, exec syncConfig syncState a = none) ↔
      ∀ i < syncConfig.numWorkers, syncState.step i = syncConfig.numSteps) :=
  ⟨reachable_stuck_iff doneState_reachable, reachable_stuck_iff syncState_reachable⟩

/-- **Every maximal run is complete, and has `runBound` actions.** Whatever the interleaving, a run
from the initial state after which no action is enabled has brought every worker to the end of its
`num_steps` steps, with exactly `runBound` actions: one per op of every step of every worker and
one `finish` per step. No scheduler can stop the system short of that. -/
theorem run_maximal_complete {as : List Action} (h : execAll cfg init as = some s)
    (hstuck : ∀ a, exec cfg s a = none) :
    (∀ i < cfg.numWorkers, s.step i = cfg.numSteps) ∧ as.length = cfg.runBound := by
  have hc := complete_of_stuck (reachable_execAll as .init h) hstuck
  exact ⟨hc, (run_length_bound h).2 hc⟩

theorem run_maximal_complete_two_workers :
    execAll doneConfig init doneRun = some doneState ∧ (∀ a, exec doneConfig doneState a = none) ∧
      (∀ i < doneConfig.numWorkers, doneState.step i = doneConfig.numSteps) ∧
      doneRun.length = doneConfig.runBound :=
  ⟨rfl, stuck_of_complete (by decide), run_maximal_complete rfl (stuck_of_complete (by decide))⟩

/-- **A complete run leaves nothing behind.** Once every worker has finished its `num_steps` steps,
every variable has had exactly `num_steps` updates, every queue is empty, and for a trainable
variable the accumulator holds no contribution and every mirror holds the last update. -/
theorem reachable_complete_clean (hs : Reachable cfg s)
    (hc : ∀ i < cfg.numWorkers, s.step i = cfg.numSteps) {v : Nat} {k : Variable}
    (hv : cfg.vars[v]? = some k) :
    s.version v = cfg.numSteps ∧ (∀ j, 0 < j → j < cfg.numWorkers → s.queue (v, j) = 0) ∧
      (k.trainable → s.pending v = [] ∧
        (k.replicated → ∀ i < cfg.numWorkers, s.mirror (v, i) = cfg.numSteps)) := by
  have hI := hs.inv
  have hran : ∀ i < cfg.numWorkers, ∀ op, s.ran i v op = 0 := fun i hi op =>
    hs.withinSteps.ran_eq_zero (hc i hi) v op
  have h0 := hran 0 cfg.numWorkers_pos
  have hc0 := hc 0 cfg.numWorkers_pos
  refine ⟨by rw [hI.version v k hv, hc0, h0, Nat.add_zero], fun j hj0 hj => ?_,
    fun htr => ⟨?_, fun hrp i hi => by
      rw [hI.mirror v k hv htr hrp i hi, hc i hi, hran i hi, Nat.add_zero]⟩⟩
  · have := (hI.queue v k j hv hj0 hj).1
    rw [hc j hj, hc0, hran j hj, h0] at this
    omega
  · refine List.Perm.eq_nil ((hI.pending v k hv htr).trans (.of_eq (State.expected_eq_nil ?_)))
    intro j hj
    simp only [State.applies, State.takes, hc j hj, hc0, hran j hj, h0]
    omega

theorem reachable_complete_clean_two_workers :
    (∀ i < doneConfig.numWorkers, doneState.step i = doneConfig.numSteps) ∧
      doneState.version 0 = 1 ∧ (∀ j, 0 < j → j < 2 → doneState.queue (0, j) = 0) ∧
      doneState.pending 0 = [] ∧ ∀ i < 2, doneState.mirror (0, i) = 1 := by
  obtain ⟨h₁, h₂, h₃⟩ := reachable_complete_clean doneState_reachable (by decide) (v := 0) rfl
  exact ⟨by decide, h₁, h₂, (h₃ rfl).1, (h₃ rfl).2 rfl⟩

/-- **Every reachable state can complete**: some run from it brings every worker to the end of its
`num_steps` steps. -/
theorem reachable_completes {s : State} (hs : Reachable cfg s) :
    ∃ as s', execAll cfg s as = some s' ∧ ∀ i < cfg.numWorkers, s'.step i = cfg.numSteps := by
  by_cases hc : ∀ i < cfg.numWorkers, s.step i = cfg.numSteps
  · exact ⟨[], s, rfl, hc⟩
  · push_neg at hc
    obtain ⟨i, hi, hne⟩ := hc
    obtain ⟨a, s₁, h₁⟩ := hs.inv.exists_enabled ⟨i, hi, lt_of_le_of_ne (hs.withinSteps.le i) hne⟩
    obtain ⟨as, s', h', hc'⟩ := reachable_completes (.step a hs h₁)
    exact ⟨a :: as, s', by simp [execAll, h₁, h'], hc'⟩
termination_by cfg.runBound - s.work cfg
decreasing_by
  have := work_next h₁
  have := Finset.sum_le_sum fun i (_ : i ∈ Finset.range cfg.numWorkers) =>
    ((Reachable.step a hs h₁).withinSteps.workOf_le i).1
  unfold State.work Config.runBound at *
  omega

theorem reachable_completes_two_workers :
    ∃ as s', execAll syncConfig syncState as = some s' ∧
      ∀ i < syncConfig.numWorkers, s'.step i = syncConfig.numSteps :=
  reachable_completes syncState_reachable

end Barrier
end Autodist
