import Mathlib.Logic.Function.Basic

/-!
# `Autodist/Barrier/Basic.lean` — the synchronous PS step, as the rewritten graph runs it

`between_graph_apply` with `sync=True` gives every trainable variable a `ConditionalAccumulator`
(`_get_accumulation_ops`) and every variable `num_workers` one-slot queues (`_get_queue_ops`);
`add_sync_op` makes the worker's train op wait for the queue ops (or for the mirror updates that
wait for them). At run time each of the `W` workers runs `S` steps of its own copy of that graph,
and one step of worker `i` runs, for each variable `v`, the ops `requiredOps` lists:

* `gradient` — read `v` (its local mirror when it is replicated) and compute its gradient;
* `accumApply` — `grad_accum.apply_grad(grad, local_step=MAX_INT64)`, trainable variables only;
* the chief (`worker_id == 0`): `takeGrad` (`take_grad(num_workers)`, trainable only), `update` (the
  variable's update op, which reads the taken gradient), `noOp` for its own queue and `enqueue j`
  into every other worker's queue, all after the accumulator apply and the update;
* every other worker `j`: `dequeue` from queue `j`, after its accumulator apply;
* `mirrorUpdate` — the local mirror's update, after the worker's queue ops.

An op runs once its dependencies (`deps`) have run in the same step and, for the three blocking
ops, once its resource lets it (`canRun`): `take_grad` once `num_workers` contributions are
pending, an enqueue into an empty queue, a dequeue from a full one. The accumulator accepts every
apply (the `MAX_INT64` step tag) and `take_grad` releases all pending contributions and resets.
A worker's step ends (`finish`) once all its ops for all variables have run. The GLOBAL_STEP branch
of `add_sync_op` only adds dependencies to a worker's `finish_op` (`globalStepDeps`); for the usual
non-trainable counter they are ops of the worker's step already, and none of them blocks
(`globalStepDeps_nonblocking_iff`).

The runs of the system are the sequences of `exec` steps from `init`, in any interleaving of the
workers and of the ops of one step. The contributions carry their worker and step, the variable
its number of updates: ghost data that the graph does not hold, and from which
`Autodist/Barrier/Properties.lean` reads what every update consumes and what every read sees.
-/

set_option autoImplicit false

namespace Autodist
namespace Barrier

/-- One op a worker runs for one variable in each step. -/
inductive Op
  | gradient
  | accumApply
  | takeGrad
  | update
  | noOp
  | enqueue (j : Nat)
  | dequeue
  | mirrorUpdate
  deriving DecidableEq, Repr

/-- What the graph rewrite knows about a variable: whether it is in the trainable collection (and
so gets an accumulator), and whether a `ResourceVariableReplicator` mirrors it on each worker. -/
structure Variable where
  trainable : Bool
  replicated : Bool
  deriving DecidableEq, Repr

/-- The system: `num_workers` workers (worker `0` is the chief), the steps each runs, and the
variables. -/
structure Config where
  numWorkers : Nat
  numSteps : Nat
  vars : List Variable
  numWorkers_pos : 0 < numWorkers

/-- The ops of worker `i`'s step for a variable `k`: its queue ops are `enqueue j` into every
queue but its own and a `noOp` for its own, for the chief; a `dequeue`, for every other worker. -/
def requiredOps (numWorkers i : Nat) (k : Variable) : List Op :=
  .gradient :: (if k.trainable then [.accumApply] else []) ++
  (if i = 0 then
    (if k.trainable then [.takeGrad] else []) ++ .update :: .noOp ::
      ((List.range numWorkers).filter (· ≠ 0)).map .enqueue
  else [.dequeue]) ++
  (if k.replicated then [.mirrorUpdate] else [])

/-- The ops that must have run, in the same step, before `op`: the control dependencies of
`_get_queue_ops` (`var_update_deps`; the accumulator apply before a dequeue), the data edges
`gradient → accumApply`, `takeGrad → update` (and `gradient → update` for a variable without an
accumulator), and the mirror updates' dependency on the queue ops. -/
def deps (numWorkers i : Nat) (k : Variable) : Op → List Op
  | .gradient => []
  | .accumApply => [.gradient]
  | .takeGrad => []
  | .update => if k.trainable then [.takeGrad] else [.gradient]
  | .noOp | .enqueue _ => if k.trainable then [.accumApply, .update] else [.update]
  | .dequeue => if k.trainable then [.accumApply] else []
  | .mirrorUpdate =>
    if i = 0 then .noOp :: ((List.range numWorkers).filter (· ≠ 0)).map .enqueue else [.dequeue]

/-- The shared state and every worker's progress. -/
structure State where
  /-- The steps worker `i` has finished. -/
  step : Nat → Nat
  /-- Whether worker `i` has run `op` for variable `v` in its current step. -/
  done : Nat × Nat × Op → Bool
  /-- The contributions the accumulator of `v` holds, as (worker, step). -/
  pending : Nat → List (Nat × Nat)
  /-- What the chief's last `take_grad` of `v` released. -/
  taken : Nat → List (Nat × Nat)
  /-- The updates applied to `v`. -/
  version : Nat → Nat
  /-- The tokens in queue `j` of `v`. -/
  queue : Nat × Nat → Nat
  /-- The version worker `i`'s mirror of `v` holds. -/
  mirror : Nat × Nat → Nat

/-- Nothing has run; every queue and accumulator is empty and every mirror holds the initial
value. -/
def init : State where
  step _ := 0
  done _ := false
  pending _ := []
  taken _ := []
  version _ := 0
  queue _ := 0
  mirror _ := 0

/-- Whether the resource of a blocking op lets it run: `take_grad(num_workers)` waits for
`num_workers` contributions, an enqueue for room in the one-slot queue, a dequeue for a token. -/
def canRun (numWorkers : Nat) (s : State) (i v : Nat) : Op → Bool
  | .takeGrad => numWorkers ≤ (s.pending v).length
  | .enqueue j => s.queue (v, j) < 1
  | .dequeue => 0 < s.queue (v, i)
  | _ => true

/-- What running `op` does to the shared state, besides marking it run. -/
def effect (s : State) (i v : Nat) : Op → State
  | .accumApply => { s with pending := Function.update s.pending v (s.pending v ++ [(i, s.step i)]) }
  | .takeGrad =>
    { s with taken := Function.update s.taken v (s.pending v),
             pending := Function.update s.pending v [] }
  | .update => { s with version := Function.update s.version v (s.version v + 1) }
  | .enqueue j => { s with queue := Function.update s.queue (v, j) (s.queue (v, j) + 1) }
  | .dequeue => { s with queue := Function.update s.queue (v, i) (s.queue (v, i) - 1) }
  | .mirrorUpdate => { s with mirror := Function.update s.mirror (v, i) (s.version v) }
  | .gradient | .noOp => s

/-- Worker `i` runs `op` for variable `v`. -/
def runOp (s : State) (i v : Nat) (op : Op) : State :=
  { effect s i v op with done := Function.update s.done (i, v, op) true }

/-- Worker `i` ends its step. -/
def finishStep (s : State) (i : Nat) : State :=
  { s with step := Function.update s.step i (s.step i + 1),
           done := fun x => if x.1 = i then false else s.done x }

/-- The version of `v` that worker `i`'s gradient op reads: its local mirror when the variable is
replicated, the variable itself otherwise. -/
def State.read (s : State) (k : Variable) (i v : Nat) : Nat :=
  if k.replicated then s.mirror (v, i) else s.version v

/-- What can happen next. -/
inductive Action
  | run (i v : Nat) (op : Op)
  | finish (i : Nat)
  deriving DecidableEq, Repr

/-- Whether every op of worker `i`'s step has run. -/
def stepDone (cfg : Config) (s : State) (i : Nat) : Bool :=
  (List.range cfg.vars.length).all fun v =>
    match cfg.vars[v]? with
    | some k => (requiredOps cfg.numWorkers i k).all fun op => s.done (i, v, op)
    | none => true

/-- One step of the system, `none` when the action is not enabled. -/
def exec (cfg : Config) (s : State) : Action → Option State
  | .run i v op =>
    match cfg.vars[v]? with
    | some k =>
      if i < cfg.numWorkers ∧ s.step i < cfg.numSteps ∧ op ∈ requiredOps cfg.numWorkers i k ∧
          s.done (i, v, op) = false ∧ (deps cfg.numWorkers i k op).all (fun p => s.done (i, v, p)) ∧
          canRun cfg.numWorkers s i v op
      then some (runOp s i v op) else none
    | none => none
  | .finish i =>
    if i < cfg.numWorkers ∧ s.step i < cfg.numSteps ∧ stepDone cfg s i then some (finishStep s i)
    else none

/-- The states some interleaving reaches. -/
inductive Reachable (cfg : Config) : State → Prop
  | init : Reachable cfg init
  | step {s s' : State} (a : Action) : Reachable cfg s → exec cfg s a = some s' → Reachable cfg s'

/-- The actions of a run, in order; `none` as soon as one is not enabled. -/
def execAll (cfg : Config) : State → List Action → Option State
  | s, [] => some s
  | s, a :: as => (exec cfg s a).bind fun s' => execAll cfg s' as

theorem reachable_execAll {cfg : Config} :
    ∀ {s s' : State} (as : List Action), Reachable cfg s → execAll cfg s as = some s' →
      Reachable cfg s'
  | _, _, [], hs, h => by cases h; exact hs
  | s, s', a :: as, hs, h => by
    cases ha : exec cfg s a with
    | none => simp [execAll, ha] at h
    | some s₁ =>
      simp only [execAll, ha, Option.bind_some] at h
      exact reachable_execAll as (.step a hs ha) h

end Barrier
end Autodist
