import Autodist.Barrier.Basic
import Mathlib.Data.List.Nodup

/-!
# `Autodist/Barrier/Invariant.lean` — what every reachable state satisfies

Everything the barrier guarantees is counting. Write `c` for the chief's finished steps, `n_j`
for worker `j`'s, and `[op]` for `1` once the op has run in the current step. Then in every
reachable state, for every variable:

* `queue`: the tokens in queue `j` are `c + [enqueue j] - (n_j + [dequeue])`, and at most one —
  the chief has enqueued one token per step, worker `j` dequeued one per step;
* `version`: the updates are `c + [update]`;
* for a variable with an accumulator, with `t = c + [takeGrad]` the releases and
  `a_i = n_i + [accumApply]` worker `i`'s applies: `t ≤ a_i ≤ t + 1` (`applies`), the pending
  contributions are exactly `(i, t)` for the workers with `a_i = t + 1` (`pending`), and between the
  take and the update the release is one `(i, c)` per worker (`taken`);
* for a mirrored variable with an accumulator, worker `i`'s mirror holds `n_i + [mirrorUpdate]`.

Together with `closed` — an op that has run is one of the worker's ops and its dependencies have
run — these are `Inv`. `Inv.init` and `Inv.next` give `Reachable.inv`.
-/

set_option autoImplicit false

namespace Autodist
namespace Barrier

/-! ## 1. The ops of a step -/

section Required
variable {W i j : Nat} {k : Variable}

@[simp] theorem gradient_mem_requiredOps : .gradient ∈ requiredOps W i k := by
  simp [requiredOps]

@[simp] theorem accumApply_mem_requiredOps : .accumApply ∈ requiredOps W i k ↔ k.trainable := by
  simp [requiredOps, apply_ite (Op.accumApply ∈ ·)]

@[simp] theorem takeGrad_mem_requiredOps : .takeGrad ∈ requiredOps W i k ↔ i = 0 ∧ k.trainable := by
  simp [requiredOps, apply_ite (Op.takeGrad ∈ ·)]

@[simp] theorem update_mem_requiredOps : .update ∈ requiredOps W i k ↔ i = 0 := by
  simp [requiredOps, apply_ite (Op.update ∈ ·)]

@[simp] theorem noOp_mem_requiredOps : .noOp ∈ requiredOps W i k ↔ i = 0 := by
  simp [requiredOps, apply_ite (Op.noOp ∈ ·)]

@[simp] theorem enqueue_mem_requiredOps :
    .enqueue j ∈ requiredOps W i k ↔ i = 0 ∧ j < W ∧ j ≠ 0 := by
  simp [requiredOps, apply_ite (Op.enqueue j ∈ ·)]

@[simp] theorem dequeue_mem_requiredOps : .dequeue ∈ requiredOps W i k ↔ i ≠ 0 := by
  simp [requiredOps, apply_ite (Op.dequeue ∈ ·)]

@[simp] theorem mirrorUpdate_mem_requiredOps : .mirrorUpdate ∈ requiredOps W i k ↔ k.replicated := by
  simp [requiredOps, apply_ite (Op.mirrorUpdate ∈ ·)]

/-- The dependencies of one of a worker's ops are ops of the worker. -/
theorem deps_required {op p : Op} (hop : op ∈ requiredOps W i k) (hp : p ∈ deps W i k op) :
    p ∈ requiredOps W i k := by
  cases op with
  | gradient | takeGrad => simp [deps] at hp
  | accumApply => simp_all [deps]
  | update | noOp | enqueue _ | dequeue =>
    simp only [update_mem_requiredOps, noOp_mem_requiredOps, enqueue_mem_requiredOps,
      dequeue_mem_requiredOps] at hop
    by_cases htr : k.trainable <;> simp only [deps, htr, if_true, if_false, Bool.false_eq_true,
      List.mem_cons, List.mem_singleton, List.not_mem_nil, or_false] at hp <;>
      rcases hp with rfl | rfl <;> simp_all
  | mirrorUpdate =>
    by_cases hi : i = 0 <;> simp [deps, hi] at hp
    · rcases hp with rfl | ⟨j, ⟨hj, hj0⟩, rfl⟩ <;> simp_all
    · simp [hp, hi]

end Required

/-- What `exec` checks before worker `i` runs `op` for variable `v`. -/
structure Enabled (cfg : Config) (s : State) (i v : Nat) (k : Variable) (op : Op) : Prop where
  var : cfg.vars[v]? = some k
  worker : i < cfg.numWorkers
  active : s.step i < cfg.numSteps
  required : op ∈ requiredOps cfg.numWorkers i k
  fresh : s.done (i, v, op) = false
  deps : ∀ p ∈ deps cfg.numWorkers i k op, s.done (i, v, p) = true
  free : canRun cfg.numWorkers s i v op = true

variable {cfg : Config} {s s' : State}

/-- **Running an op**: `exec` runs it exactly when it is enabled. -/
theorem exec_run {i v : Nat} {op : Op} :
    exec cfg s (.run i v op) = some s' ↔ ∃ k, Enabled cfg s i v k op ∧ s' = runOp s i v op := by
  simp only [exec]
  cases hv : cfg.vars[v]? with
  | none => exact ⟨nofun, fun ⟨_, he, _⟩ => absurd (hv.symm.trans he.var) nofun⟩
  | some k =>
    simp only [List.all_eq_true, Bool.and_eq_true, decide_eq_true_eq]
    constructor
    · intro h
      split_ifs at h with hc
      cases h
      exact ⟨k, ⟨hv, hc.1, hc.2.1, hc.2.2.1, hc.2.2.2.1, hc.2.2.2.2.1, hc.2.2.2.2.2⟩, rfl⟩
    · rintro ⟨k', he, rfl⟩
      obtain rfl : k' = k := Option.some.inj (he.var.symm.trans hv)
      rw [if_pos ⟨he.worker, he.active, he.required, he.fresh, he.deps, he.free⟩]

theorem Enabled.exec {i v : Nat} {k : Variable} {op : Op} (he : Enabled cfg s i v k op) :
    exec cfg s (.run i v op) = some (runOp s i v op) :=
  exec_run.mpr ⟨k, he, rfl⟩

/-- A worker's step is done when every op of its step has run, for every variable. -/
theorem stepDone_iff {i : Nat} : stepDone cfg s i = true ↔ ∀ v k, cfg.vars[v]? = some k →
    ∀ op ∈ requiredOps cfg.numWorkers i k, s.done (i, v, op) = true := by
  simp only [stepDone, List.all_eq_true, List.mem_range]
  constructor
  · intro h v k hv op hop
    have := h v (List.getElem?_eq_some_iff.mp hv).1
    rw [hv] at this
    exact List.all_eq_true.mp this op hop
  · intro h v _
    split
    · exact List.all_eq_true.mpr (h v _ ‹_›)
    · rfl

/-- **Ending a step**: `exec` ends worker `i`'s step exactly when all its ops have run. -/
theorem exec_finish {i : Nat} :
    exec cfg s (.finish i) = some s' ↔ (i < cfg.numWorkers ∧ s.step i < cfg.numSteps ∧
      ∀ v k, cfg.vars[v]? = some k → ∀ op ∈ requiredOps cfg.numWorkers i k,
        s.done (i, v, op) = true) ∧ s' = finishStep s i := by
  simp only [exec, ← stepDone_iff]
  constructor
  · intro h
    split_ifs at h with hc
    cases h
    exact ⟨hc, rfl⟩
  · rintro ⟨hc, rfl⟩
    rw [if_pos hc]

/-! ## 2. Counting -/

/-- `1` once worker `i` has run `op` for `v` in its current step, `0` before. -/
def State.ran (s : State) (i v : Nat) (op : Op) : Nat := (s.done (i, v, op)).toNat

/-- The releases of `v`'s accumulator so far: one per finished chief step, and the current one. -/
def State.takes (s : State) (v : Nat) : Nat := s.step 0 + s.ran 0 v .takeGrad

/-- The contributions worker `i` has applied to `v`'s accumulator. -/
def State.applies (s : State) (i v : Nat) : Nat := s.step i + s.ran i v .accumApply

/-- The contributions of the current release of `v` that are pending: `(i, t)` for every worker
that has applied its `t`-th. -/
def State.expected (numWorkers : Nat) (s : State) (v : Nat) : List (Nat × Nat) :=
  ((List.range numWorkers).filter fun i => s.applies i v = s.takes v + 1).map fun i => (i, s.takes v)

theorem State.ran_le_one (s : State) (i v : Nat) (op : Op) : s.ran i v op ≤ 1 :=
  Bool.toNat_le _

theorem State.ran_eq_one {s : State} {i v : Nat} {op : Op} :
    s.ran i v op = 1 ↔ s.done (i, v, op) = true :=
  Bool.toNat_eq_one

theorem State.ran_eq_zero {s : State} {i v : Nat} {op : Op} :
    s.ran i v op = 0 ↔ s.done (i, v, op) = false :=
  Bool.toNat_eq_zero

/-! ### What running a fresh op changes

Running `op` marks it run and changes at most one field entry; every other counter is as it was. -/

section RunOp
variable (s : State) (i v : Nat) (op : Op)

@[simp] theorem runOp_step : (runOp s i v op).step = s.step := by cases op <;> rfl

@[simp] theorem runOp_done : (runOp s i v op).done = Function.update s.done (i, v, op) true := rfl

theorem State.ran_runOp {s : State} {i v : Nat} {op : Op} (hf : s.done (i, v, op) = false)
    (j w : Nat) (p : Op) :
    (runOp s i v op).ran j w p = s.ran j w p + if (j, w, p) = (i, v, op) then 1 else 0 := by
  simp only [State.ran, runOp, Function.update_apply]
  split_ifs with h
  · rw [h, hf]; rfl
  · rfl

theorem runOp_version (w : Nat) :
    (runOp s i v op).version w = s.version w + if op = .update ∧ w = v then 1 else 0 := by
  cases op with
  | update => by_cases hw : w = v <;> simp [runOp, effect, Function.update_apply, hw]
  | _ => simp [runOp, effect]

theorem runOp_queue (w j : Nat) :
    (runOp s i v op).queue (w, j) = s.queue (w, j) + (if op = .enqueue j ∧ w = v then 1 else 0) -
      if op = .dequeue ∧ w = v ∧ j = i then 1 else 0 := by
  cases op with
  | enqueue j' =>
    by_cases h : w = v ∧ j = j'
    · obtain ⟨rfl, rfl⟩ := h
      simp [runOp, effect]
    · have h' : (w, j) ≠ (v, j') := fun e => h (by simpa using e)
      simp only [runOp, effect, Function.update_noteq h', Op.enqueue.injEq, reduceCtorEq, false_and,
        if_false]
      rw [if_neg fun e => h ⟨e.2, e.1.symm⟩]
      rfl
  | dequeue =>
    by_cases h : w = v ∧ j = i
    · obtain ⟨rfl, rfl⟩ := h
      simp [runOp, effect]
    · have h' : (w, j) ≠ (v, i) := fun e => h (by simpa using e)
      simp only [runOp, effect, Function.update_noteq h', reduceCtorEq, false_and, if_false, true_and]
      rw [if_neg h]
      rfl
  | _ => simp [runOp, effect]

theorem runOp_pending (w : Nat) :
    (runOp s i v op).pending w = if w = v ∧ op = .accumApply then s.pending v ++ [(i, s.step i)]
      else if w = v ∧ op = .takeGrad then [] else s.pending w := by
  cases op with
  | accumApply | takeGrad => by_cases hw : w = v <;> simp [runOp, effect, Function.update_apply, hw]
  | _ => simp [runOp, effect]

theorem runOp_taken (w : Nat) :
    (runOp s i v op).taken w = if w = v ∧ op = .takeGrad then s.pending v else s.taken w := by
  cases op with
  | takeGrad => by_cases hw : w = v <;> simp [runOp, effect, Function.update_apply, hw]
  | _ => simp [runOp, effect]

theorem runOp_mirror (w j : Nat) :
    (runOp s i v op).mirror (w, j) =
      if op = .mirrorUpdate ∧ w = v ∧ j = i then s.version v else s.mirror (w, j) := by
  cases op with
  | mirrorUpdate =>
    by_cases h : w = v ∧ j = i
    · obtain ⟨rfl, rfl⟩ := h
      simp [runOp, effect]
    · have h' : (w, j) ≠ (v, i) := fun e => h (by simpa using e)
      simp only [runOp, effect, Function.update_noteq h', true_and, if_neg h]
  | _ => simp [runOp, effect]

theorem State.takes_runOp {s : State} {i v : Nat} {op : Op} (hf : s.done (i, v, op) = false)
    (w : Nat) :
    (runOp s i v op).takes w = s.takes w + if (0, w, .takeGrad) = (i, v, op) then 1 else 0 := by
  rw [State.takes, State.takes, runOp_step, State.ran_runOp hf, Nat.add_assoc]

theorem State.applies_runOp {s : State} {i v : Nat} {op : Op} (hf : s.done (i, v, op) = false)
    (j w : Nat) : (runOp s i v op).applies j w =
      s.applies j w + if (j, w, .accumApply) = (i, v, op) then 1 else 0 := by
  rw [State.applies, State.applies, runOp_step, State.ran_runOp hf, Nat.add_assoc]

end RunOp

/-! ### What ending a step changes -/

section FinishStep
variable (s : State) (i : Nat)

theorem finishStep_step (j : Nat) : (finishStep s i).step j = s.step j + if j = i then 1 else 0 := by
  by_cases h : j = i <;> simp [finishStep, Function.update_apply, h]

theorem State.ran_finishStep (j w : Nat) (p : Op) :
    (finishStep s i).ran j w p = if j = i then 0 else s.ran j w p := by
  by_cases h : j = i <;> simp [State.ran, finishStep, h]

theorem finishStep_done (j w : Nat) (p : Op) :
    (finishStep s i).done (j, w, p) = if j = i then false else s.done (j, w, p) := rfl

@[simp] theorem finishStep_pending : (finishStep s i).pending = s.pending := rfl
@[simp] theorem finishStep_taken : (finishStep s i).taken = s.taken := rfl
@[simp] theorem finishStep_version : (finishStep s i).version = s.version := rfl
@[simp] theorem finishStep_queue : (finishStep s i).queue = s.queue := rfl
@[simp] theorem finishStep_mirror : (finishStep s i).mirror = s.mirror := rfl

end FinishStep

/-- Adding one worker `i` to the filter over the workers adds `i` once. -/
theorem filter_range_perm_append {W i : Nat} {p q : Nat → Bool} (hi : i < W) (hpi : p i = false)
    (hqi : q i = true) (hpq : ∀ j, j ≠ i → q j = p j) :
    ((List.range W).filter q).Perm ((List.range W).filter p ++ [i]) := by
  have hnd : ((List.range W).filter p ++ [i]).Nodup :=
    List.nodup_append.mpr ⟨(List.nodup_range W).filter p, List.nodup_singleton i,
      fun j hj hj' => by simp_all⟩
  refine (List.perm_ext_iff_of_nodup ((List.nodup_range W).filter q) hnd).mpr fun j => ?_
  by_cases hj : j = i
  · subst hj; simp [hi, hpi, hqi]
  · simp [hj, hpq j hj]

/-! ## 3. The invariant -/

/-- What holds in every reachable state. -/
structure Inv (cfg : Config) (s : State) : Prop where
  closed : ∀ i v op, s.done (i, v, op) = true → i < cfg.numWorkers ∧ ∃ k, cfg.vars[v]? = some k ∧
    op ∈ requiredOps cfg.numWorkers i k ∧ ∀ p ∈ deps cfg.numWorkers i k op, s.done (i, v, p) = true
  queue : ∀ v k j, cfg.vars[v]? = some k → 0 < j → j < cfg.numWorkers →
    s.queue (v, j) + s.step j + s.ran j v .dequeue = s.step 0 + s.ran 0 v (.enqueue j) ∧
      s.queue (v, j) ≤ 1
  version : ∀ v k, cfg.vars[v]? = some k → s.version v = s.step 0 + s.ran 0 v .update
  applies : ∀ v k, cfg.vars[v]? = some k → k.trainable → ∀ i < cfg.numWorkers,
    s.takes v ≤ s.applies i v
  pending : ∀ v k, cfg.vars[v]? = some k → k.trainable →
    (s.pending v).Perm (s.expected cfg.numWorkers v)
  taken : ∀ v k, cfg.vars[v]? = some k → k.trainable → s.done (0, v, .takeGrad) = true →
    s.done (0, v, .update) = false →
      (s.taken v).Perm ((List.range cfg.numWorkers).map fun i => (i, s.step 0))
  mirror : ∀ v k, cfg.vars[v]? = some k → k.trainable → k.replicated → ∀ i < cfg.numWorkers,
    s.mirror (v, i) = s.step i + s.ran i v .mirrorUpdate

theorem Inv.init : Inv cfg init := by
  refine ⟨fun _ _ _ h => (by cases h), fun _ _ _ _ _ _ => ?_, fun _ _ _ => rfl,
    fun _ _ _ _ _ _ => ?_, fun _ _ _ _ => ?_, fun _ _ _ _ h => (by cases h),
    fun _ _ _ _ _ _ _ => rfl⟩
  · simp [State.ran, Barrier.init]
  · simp [State.takes, State.applies, State.ran, Barrier.init]
  · simp [State.expected, State.takes, State.applies, State.ran, Barrier.init]

/-! ### What the invariant gives -/

section Consequences
variable {v : Nat} {k : Variable} (hI : Inv cfg s) (hv : cfg.vars[v]? = some k)
include hI hv

/-- **An op runs after its dependencies**: as counters, `[op] ≤ [p]` for each dependency `p`. -/
theorem Inv.ran_le {i : Nat} {op p : Op} (hp : p ∈ deps cfg.numWorkers i k op) :
    s.ran i v op ≤ s.ran i v p := by
  cases hd : s.done (i, v, op)
  · simp [State.ran, hd]
  · obtain ⟨-, k', hk', -, hdeps⟩ := hI.closed i v op hd
    obtain rfl : k' = k := Option.some.inj (hk'.symm.trans hv)
    rw [State.ran_eq_one.mpr hd, State.ran_eq_one.mpr (hdeps p hp)]

/-- No worker has finished more steps than the accumulator has released: a non-chief worker's
step ends with a dequeue, whose token the chief enqueued after its update, after its take. -/
theorem Inv.step_le_takes (htr : k.trainable) {i : Nat} (hi : i < cfg.numWorkers) :
    s.step i ≤ s.takes v := by
  have hUT : s.ran 0 v .update ≤ s.ran 0 v .takeGrad := hI.ran_le hv (by simp [deps, htr])
  unfold State.takes
  rcases Nat.eq_zero_or_pos i with rfl | hi0
  · omega
  · have hEU : s.ran 0 v (.enqueue i) ≤ s.ran 0 v .update := hI.ran_le hv (by simp [deps, htr])
    have := (hI.queue v k i hv hi0 hi).1
    omega

theorem Inv.applies_le (htr : k.trainable) {i : Nat} (hi : i < cfg.numWorkers) :
    s.applies i v ≤ s.takes v + 1 := by
  have := hI.step_le_takes hv htr hi
  have := s.ran_le_one i v .accumApply
  unfold State.applies
  omega

/-- A full accumulator holds one contribution of the current release from every worker. -/
theorem Inv.applies_of_full (htr : k.trainable) (hfull : cfg.numWorkers ≤ (s.pending v).length) :
    ∀ j < cfg.numWorkers, s.applies j v = s.takes v + 1 := by
  have hlen : ((List.range cfg.numWorkers).filter fun j => s.applies j v = s.takes v + 1).length =
      (List.range cfg.numWorkers).length := by
    have := (hI.pending v k hv htr).length_eq
    have := List.length_filter_le (fun j => decide (s.applies j v = s.takes v + 1))
      (List.range cfg.numWorkers)
    simp only [State.expected, List.length_map] at *
    simp only [List.length_range] at *
    omega
  intro j hj
  simpa using List.filter_length_eq_length.mp hlen j (List.mem_range.mpr hj)

/-- The variable has had at most one update more than any worker has finished steps: the chief's
update waits for its take, the take for every worker's apply. -/
theorem Inv.version_le (htr : k.trainable) {j : Nat} (hj : j < cfg.numWorkers) :
    s.version v ≤ s.step j + 1 := by
  have hUT : s.ran 0 v .update ≤ s.ran 0 v .takeGrad := hI.ran_le hv (by simp [deps, htr])
  have := hI.applies v k hv htr j hj
  have := s.ran_le_one j v .accumApply
  rw [hI.version v k hv]
  unfold State.takes State.applies at *
  omega

/-- A worker that holds or has taken a token of its queue has seen the update it announces. -/
theorem Inv.step_lt_version (htr : k.trainable) {j : Nat} (hj0 : 0 < j) (hj : j < cfg.numWorkers)
    (htoken : 0 < s.queue (v, j) + s.ran j v .dequeue) : s.step j + 1 ≤ s.version v := by
  have hEU : s.ran 0 v (.enqueue j) ≤ s.ran 0 v .update := hI.ran_le hv (by simp [deps, htr])
  have := (hI.queue v k j hv hj0 hj).1
  rw [hI.version v k hv]
  omega

/-- When a worker's mirror update runs, the variable holds one update more than the worker's
finished steps. -/
theorem Inv.version_of_mirrorUpdate (htr : k.trainable) {i : Nat} (hi : i < cfg.numWorkers)
    (hdeps : ∀ p ∈ deps cfg.numWorkers i k .mirrorUpdate, s.done (i, v, p) = true) :
    s.version v = s.step i + 1 := by
  refine le_antisymm (hI.version_le hv htr hi) ?_
  rcases Nat.eq_zero_or_pos i with rfl | hi0
  · have hN : s.ran 0 v .noOp = 1 := State.ran_eq_one.mpr (hdeps _ (by simp [deps]))
    have hNU : s.ran 0 v .noOp ≤ s.ran 0 v .update := hI.ran_le hv (by simp [deps, htr])
    rw [hI.version v k hv]
    omega
  · have hD : s.ran i v .dequeue = 1 :=
      State.ran_eq_one.mpr (hdeps _ (by simp [deps, Nat.pos_iff_ne_zero.mp hi0]))
    exact hI.step_lt_version hv htr hi0 hi (by omega)

end Consequences

theorem State.expected_of_full {W v : Nat} (h : ∀ j < W, s.applies j v = s.takes v + 1) :
    s.expected W v = (List.range W).map fun j => (j, s.takes v) := by
  rw [State.expected, List.filter_eq_self.mpr fun j hj => by simpa using h j (List.mem_range.mp hj)]

theorem State.expected_eq_nil {W v : Nat} (h : ∀ j < W, s.applies j v ≠ s.takes v + 1) :
    s.expected W v = [] := by
  simpa [State.expected, List.filter_eq_nil_iff] using h

theorem State.expected_congr {W v : Nat} (ha : ∀ j < W, s'.applies j v = s.applies j v)
    (ht : s'.takes v = s.takes v) : s'.expected W v = s.expected W v := by
  simp only [State.expected, ht]
  congr 1
  exact List.filter_congr fun j hj => by rw [ha j (List.mem_range.mp hj)]

/-! ## 4. One step keeps the invariant -/

/-- The entry of another variable or another op is not the one that ran. -/
theorem entry_ne {i j v w : Nat} {op p : Op} (h : ¬(w = v ∧ op = p)) : (j, w, p) ≠ (i, v, op) :=
  fun e => h ⟨congrArg (·.2.1) e, (congrArg (·.2.2) e).symm⟩

section Accumulator
variable {i v : Nat} {k : Variable} (hI : Inv cfg s) (hv : cfg.vars[v]? = some k)
  (htr : k.trainable)
include hI hv htr

/-- An apply appends the worker's contribution tagged with its step, which is the current release:
the pending contributions are again those of the release from the workers that have applied. -/
theorem Inv.pending_accumApply (hi : i < cfg.numWorkers) (hf : s.done (i, v, .accumApply) = false) :
    (s.pending v ++ [(i, s.step i)]).Perm
      ((runOp s i v .accumApply).expected cfg.numWorkers v) := by
  have hstep : s.step i = s.takes v := by
    have := hI.step_le_takes hv htr hi
    have := hI.applies v k hv htr i hi
    simp only [State.applies, State.ran_eq_zero.mpr hf] at *
    omega
  have happ : s.applies i v = s.takes v := by
    rw [State.applies, State.ran_eq_zero.mpr hf, hstep, Nat.add_zero]
  have hperm := filter_range_perm_append (p := fun j => s.applies j v = s.takes v + 1)
    (q := fun j => (runOp s i v .accumApply).applies j v = s.takes v + 1) hi
    (by simp [happ]) (by simp [State.applies_runOp hf, happ])
    (fun j hj => by simp [State.applies_runOp hf, hj])
  have hT : (runOp s i v .accumApply).takes v = s.takes v := by
    rw [State.takes_runOp hf]
    simp
  rw [State.expected, hT, hstep]
  refine ((hI.pending v k hv htr).append_right _).trans ?_
  simpa [State.expected] using (hperm.map fun j => (j, s.takes v)).symm

/-- After a take, no worker has applied a contribution of the next release yet. -/
theorem Inv.expected_takeGrad (hf : s.done (0, v, .takeGrad) = false) :
    (runOp s 0 v .takeGrad).expected cfg.numWorkers v = [] := by
  refine State.expected_eq_nil fun j hj => ?_
  have := hI.applies_le hv htr hj
  rw [State.takes_runOp hf, State.applies_runOp hf]
  simp only [Prod.mk.injEq, reduceCtorEq, and_false, if_false, eq_self_iff_true, and_self, if_true,
    Nat.add_zero]
  omega

end Accumulator

section Run
variable {i v : Nat} {k : Variable} {op : Op} (hI : Inv cfg s) (he : Enabled cfg s i v k op)
include hI he

theorem Inv.closed_runOp (j w : Nat) (p : Op) (h : (runOp s i v op).done (j, w, p) = true) :
    j < cfg.numWorkers ∧ ∃ k', cfg.vars[w]? = some k' ∧ p ∈ requiredOps cfg.numWorkers j k' ∧
      ∀ q ∈ deps cfg.numWorkers j k' p, (runOp s i v op).done (j, w, q) = true := by
  have mono : ∀ x, s.done x = true → (runOp s i v op).done x = true := fun x hx => by
    by_cases e : x = (i, v, op) <;> simp [Function.update_apply, e, hx]
  by_cases e : (j, w, p) = (i, v, op)
  · obtain ⟨rfl, rfl, rfl⟩ : j = i ∧ w = v ∧ p = op := by simpa using e
    exact ⟨he.worker, k, he.var, he.required, fun q hq => mono _ (he.deps q hq)⟩
  · rw [runOp_done, Function.update_noteq e] at h
    obtain ⟨hj, k', hk', hr, hd⟩ := hI.closed j w p h
    exact ⟨hj, k', hk', hr, fun q hq => mono _ (hd q hq)⟩

theorem Inv.queue_runOp {w : Nat} {k' : Variable} {j : Nat} (hw : cfg.vars[w]? = some k')
    (hj : 0 < j) (hjW : j < cfg.numWorkers) :
    (runOp s i v op).queue (w, j) + (runOp s i v op).step j + (runOp s i v op).ran j w .dequeue =
        (runOp s i v op).step 0 + (runOp s i v op).ran 0 w (.enqueue j) ∧
      (runOp s i v op).queue (w, j) ≤ 1 := by
  obtain ⟨heq, hle⟩ := hI.queue w k' j hw hj hjW
  rw [runOp_queue, runOp_step, State.ran_runOp he.fresh, State.ran_runOp he.fresh]
  cases op with
  | enqueue j' =>
    obtain ⟨rfl, -, -⟩ := enqueue_mem_requiredOps.mp he.required
    have hfree : s.queue (v, j') < 1 := by simpa [canRun] using he.free
    by_cases hx : w = v ∧ j = j'
    · obtain ⟨rfl, rfl⟩ := hx
      simp only [eq_self_iff_true, and_self, if_true, reduceCtorEq, false_and, and_false,
        Prod.mk.injEq, if_false, Nat.add_zero, Nat.sub_zero]
      omega
    · have hx' : ¬(j' = j ∧ w = v) := fun h => hx ⟨h.2, h.1.symm⟩
      simp [hx, hx', heq, hle]
  | dequeue =>
    have hi := dequeue_mem_requiredOps.mp he.required
    have hfree : 0 < s.queue (v, i) := by simpa [canRun] using he.free
    by_cases hx : w = v ∧ j = i
    · obtain ⟨rfl, rfl⟩ := hx
      simp only [eq_self_iff_true, and_self, if_true, reduceCtorEq, false_and, and_false,
        Prod.mk.injEq, if_false, Nat.add_zero]
      omega
    · have hx' : ¬(j = i ∧ w = v) := fun h => hx ⟨h.2, h.1⟩
      simp [hx, hx', heq, hle]
  | _ => simp [heq, hle]


theorem Inv.version_runOp {w : Nat} {k' : Variable} (hw : cfg.vars[w]? = some k') :
    (runOp s i v op).version w = (runOp s i v op).step 0 + (runOp s i v op).ran 0 w .update := by
  rw [runOp_version, runOp_step, State.ran_runOp he.fresh, hI.version w k' hw]
  by_cases hu : op = .update
  · subst hu
    obtain rfl := update_mem_requiredOps.mp he.required
    by_cases hwv : w = v <;> simp [hwv, Nat.add_assoc]
  · simp [hu, Ne.symm hu]

theorem Inv.applies_runOp {w : Nat} {k' : Variable} (hw : cfg.vars[w]? = some k')
    (htr : k'.trainable) {j : Nat} (hj : j < cfg.numWorkers) :
    (runOp s i v op).takes w ≤ (runOp s i v op).applies j w := by
  have hta := hI.applies w k' hw htr j hj
  rw [State.takes_runOp he.fresh, State.applies_runOp he.fresh]
  by_cases hx : w = v ∧ op = .takeGrad
  · obtain ⟨rfl, rfl⟩ := hx
    obtain ⟨rfl, -⟩ := takeGrad_mem_requiredOps.mp he.required
    have hfull := hI.applies_of_full hw htr (by simpa [canRun] using he.free) j hj
    simp only [if_true]
    omega
  · rw [if_neg (entry_ne hx)]
    omega

theorem Inv.pending_runOp {w : Nat} {k' : Variable} (hw : cfg.vars[w]? = some k')
    (htr : k'.trainable) :
    ((runOp s i v op).pending w).Perm ((runOp s i v op).expected cfg.numWorkers w) := by
  have hp := hI.pending w k' hw htr
  rw [runOp_pending]
  by_cases hA : w = v ∧ op = .accumApply
  · obtain ⟨rfl, rfl⟩ := hA
    obtain rfl : k' = k := Option.some.inj (hw.symm.trans he.var)
    rw [if_pos ⟨rfl, rfl⟩]
    exact hI.pending_accumApply hw htr he.worker he.fresh
  by_cases hT : w = v ∧ op = .takeGrad
  · obtain ⟨rfl, rfl⟩ := hT
    obtain ⟨rfl, -⟩ := takeGrad_mem_requiredOps.mp he.required
    rw [if_neg hA, if_pos ⟨rfl, rfl⟩, hI.expected_takeGrad hw htr he.fresh]
  · rw [if_neg hA, if_neg hT, State.expected_congr (s := s) (fun j _ => ?_) ?_]
    · exact hp
    · rw [State.takes_runOp he.fresh, if_neg (entry_ne hT)]
      rfl
    · rw [State.applies_runOp he.fresh, if_neg (entry_ne hA)]
      rfl

theorem Inv.taken_runOp {w : Nat} {k' : Variable} (hw : cfg.vars[w]? = some k') (htr : k'.trainable)
    (ht : (runOp s i v op).done (0, w, .takeGrad) = true)
    (hu : (runOp s i v op).done (0, w, .update) = false) :
    ((runOp s i v op).taken w).Perm
      ((List.range cfg.numWorkers).map fun j => (j, (runOp s i v op).step 0)) := by
  rw [runOp_taken, runOp_step]
  by_cases hx : w = v ∧ op = .takeGrad
  · obtain ⟨rfl, rfl⟩ := hx
    obtain ⟨rfl, -⟩ := takeGrad_mem_requiredOps.mp he.required
    have hfull := hI.applies_of_full hw htr (by simpa [canRun] using he.free)
    have hts : s.takes w = s.step 0 := by simp [State.takes, State.ran_eq_zero.mpr he.fresh]
    rw [if_pos ⟨rfl, rfl⟩, ← hts, ← State.expected_of_full hfull]
    exact hI.pending w k' hw htr
  · have hne' : (0, w, Op.update) ≠ (i, v, op) := fun e => by simp [e] at hu
    rw [runOp_done, Function.update_noteq (entry_ne hx)] at ht
    rw [runOp_done, Function.update_noteq hne'] at hu
    rw [if_neg hx]
    exact hI.taken w k' hw htr ht hu

theorem Inv.mirror_runOp {w : Nat} {k' : Variable} (hw : cfg.vars[w]? = some k') (htr : k'.trainable)
    (hrp : k'.replicated) {j : Nat} (hj : j < cfg.numWorkers) :
    (runOp s i v op).mirror (w, j) = (runOp s i v op).step j + (runOp s i v op).ran j w .mirrorUpdate := by
  rw [runOp_mirror, runOp_step, State.ran_runOp he.fresh]
  by_cases hx : op = .mirrorUpdate ∧ w = v ∧ j = i
  · obtain ⟨rfl, rfl, rfl⟩ := hx
    obtain rfl : k' = k := Option.some.inj (hw.symm.trans he.var)
    rw [if_pos ⟨rfl, rfl, rfl⟩, if_pos rfl, State.ran_eq_zero.mpr he.fresh]
    exact hI.version_of_mirrorUpdate hw htr hj he.deps
  · have hne : (j, w, Op.mirrorUpdate) ≠ (i, v, op) := fun e =>
      hx (by simp at e; exact ⟨e.2.2.symm, e.2.1, e.1⟩)
    rw [if_neg hx, if_neg hne, hI.mirror w k' hw htr hrp j hj, Nat.add_zero]

/-- **Running an enabled op keeps the invariant.** -/
theorem Inv.runOp : Inv cfg (runOp s i v op) :=
  ⟨hI.closed_runOp he, fun _ _ _ hw hj hjW => hI.queue_runOp he hw hj hjW,
    fun _ _ hw => hI.version_runOp he hw, fun _ _ hw htr _ hj => hI.applies_runOp he hw htr hj,
    fun _ _ hw htr => hI.pending_runOp he hw htr, fun _ _ hw htr ht hu => hI.taken_runOp he hw htr ht hu,
    fun _ _ hw htr hrp _ hj => hI.mirror_runOp he hw htr hrp hj⟩

end Run

section Finish
variable {i : Nat} (hall : ∀ v k, cfg.vars[v]? = some k →
  ∀ op ∈ requiredOps cfg.numWorkers i k, s.done (i, v, op) = true)
include hall

theorem State.takes_finishStep {w : Nat} {k : Variable} (hw : cfg.vars[w]? = some k)
    (htr : k.trainable) : (finishStep s i).takes w = s.takes w := by
  simp only [State.takes, finishStep_step, State.ran_finishStep]
  split_ifs with h0
  · subst h0
    have := State.ran_eq_one.mpr (hall w k hw .takeGrad (by simp [htr]))
    omega
  · rfl

theorem State.applies_finishStep {w : Nat} {k : Variable} (hw : cfg.vars[w]? = some k)
    (htr : k.trainable) (j : Nat) : (finishStep s i).applies j w = s.applies j w := by
  simp only [State.applies, finishStep_step, State.ran_finishStep]
  split_ifs with hj
  · subst hj
    have := State.ran_eq_one.mpr (hall w k hw .accumApply (by simp [htr]))
    omega
  · rfl

/-- **Ending a step keeps the invariant**: the counters of the finished step move into `step`. -/
theorem Inv.finishStep (hI : Inv cfg s) : Inv cfg (finishStep s i) where
  closed j w p h := by
    have hj : j ≠ i := fun e => by simp [finishStep_done, e] at h
    rw [finishStep_done, if_neg hj] at h
    obtain ⟨hjW, k, hk, hr, hd⟩ := hI.closed j w p h
    exact ⟨hjW, k, hk, hr, fun q hq => by rw [finishStep_done, if_neg hj]; exact hd q hq⟩
  queue w k j hw hj hjW := by
    obtain ⟨heq, hle⟩ := hI.queue w k j hw hj hjW
    simp only [finishStep_queue, finishStep_step, State.ran_finishStep]
    split_ifs with hji h0 h0
    · omega
    · subst hji
      have := State.ran_eq_one.mpr (hall w k hw .dequeue (by simp; omega))
      omega
    · subst h0
      have := State.ran_eq_one.mpr (hall w k hw (.enqueue j) (by simp; omega))
      omega
    · omega
  version w k hw := by
    rw [finishStep_version, hI.version w k hw, finishStep_step, State.ran_finishStep]
    split_ifs with h0
    · subst h0
      have := State.ran_eq_one.mpr (hall w k hw .update (by simp))
      omega
    · rfl
  applies w k hw htr j hj := by
    rw [State.takes_finishStep hall hw htr, State.applies_finishStep hall hw htr]
    exact hI.applies w k hw htr j hj
  pending w k hw htr := by
    rw [finishStep_pending, State.expected_congr (s := s)
      (fun j _ => State.applies_finishStep hall hw htr j) (State.takes_finishStep hall hw htr)]
    exact hI.pending w k hw htr
  taken w k hw htr ht hu := by
    have h0 : (0 : Nat) ≠ i := fun e => by simp [finishStep_done, e] at ht
    rw [finishStep_done, if_neg h0] at ht hu
    rw [finishStep_taken, finishStep_step, if_neg h0, Nat.add_zero]
    exact hI.taken w k hw htr ht hu
  mirror w k hw htr hrp j hj := by
    rw [finishStep_mirror, hI.mirror w k hw htr hrp j hj, finishStep_step, State.ran_finishStep]
    split_ifs with hji
    · subst hji
      have := State.ran_eq_one.mpr (hall w k hw .mirrorUpdate (by simp [hrp]))
      omega
    · rfl

end Finish

/-- **Every step of the system keeps the invariant.** -/
theorem Inv.next (hI : Inv cfg s) {a : Action} (h : exec cfg s a = some s') : Inv cfg s' := by
  cases a with
  | run i v op =>
    obtain ⟨k, he, rfl⟩ := exec_run.mp h
    exact hI.runOp he
  | finish i =>
    obtain ⟨⟨-, -, hall⟩, rfl⟩ := exec_finish.mp h
    exact hI.finishStep hall

/-- **Every reachable state satisfies the invariant.** -/
theorem Reachable.inv (h : Reachable cfg s) : Inv cfg s := by
  induction h with
  | init => exact Inv.init
  | step _ _ ha ih => exact ih.next ha

end Barrier
end Autodist
