import Autodist.Graph
import Mathlib.Data.List.Dedup

/-!
# `Autodist/TaskAssigner/Basic.lean` — `PSGradientTaskAssigner`, as the code computes it

`ps_synchronizer.py` L393–518, transliterated. The assigner's constructor arguments and the two
sets `__init__` derives from them are `PSGradientTaskAssigner`; the two things `assign()` mutates —
the dictionary `_op_to_task` and the ops' devices — are `State`. Each method is a function of both:

* `assignTask` is `__assign_task`: look the references' tasks up, collapse them to a set, pick one
  task by the rule in the code (one task; else drop `SHARED_TASK_ID` and take the one left; else
  `SHARED_TASK_ID`), store it, and set the device to `ps_device` with that task (`0` for shared);
* `assignForward` / `assignBackward` are the two `neighbors_fn`s, with their requeue branch;
* `traverse` is the worklist `assign()` hands them to, with the end ops it passes (L442, L445),
  and `assign` runs the two passes.

A dictionary is a function to `Option`: `curr_op in self._op_to_task` is `isSome`. A Python
exception is an `Except PyError` result, and since a method that raises returns no state, a raise
leaves `_op_to_task` and the devices as they were by construction. `traverse` pops at most `fuel`
ops and returns the ops still queued, so a run that has ended is one that returns `[]`: termination
is a theorem about fuel (`Autodist/TaskAssigner/Assign.lean`), not an assumption of the model.

`_place_post_grad_agg_ops` (L393–414) is here too: the seeding it builds from the variables'
devices, and the lists it hands the assigner.
-/

set_option autoImplicit false

namespace Autodist

/-- The exceptions the assigner's code can raise. -/
inductive PyError
  | runtimeError (msg : String)
  | assertionError
  | keyError (op : Nat)
  deriving DecidableEq, Repr

/-- A device's task field, as `DeviceSpecV2.task` holds it: an integer, or `None` when the device
string names no task. -/
abbrev Task := Option Int

/-- `DeviceSpecV2`: job, replica, task, device type and device index, each possibly unset. -/
structure DeviceSpec where
  job : Option String
  replica : Option Int
  task : Task
  deviceType : Option String
  deviceIndex : Option Int
  deriving DecidableEq, Repr

/-- `spec.replace(task=t)`: the same specifier with only the task field replaced. -/
def DeviceSpec.replace (d : DeviceSpec) (task : Task) : DeviceSpec :=
  { d with task := task }

/-- `PSGradientTaskAssigner.SHARED_TASK_ID` -/
def sharedTaskId : Task := some (-1)

/-- `traverse(start_ops, end_ops, neighbors_fn)` of `autodist.kernel.common.utils`: a FIFO
worklist that pops an op and, unless it is an end op, calls `neighbors_fn` on it and appends
everything it returns, a waiting op returned as `[curr_op]` included. An end op is popped and
dropped: it belongs to the traversal's set (`Autodist/Graph.lean`) but is never expanded, so
`neighbors_fn` never sees it. At most `fuel` ops are popped; the result is the state and the ops
still queued. -/
def traverse {σ : Type} (endOps : List Nat) (neighborsFn : σ → Nat → Except PyError (σ × List Nat)) :
    Nat → σ → List Nat → Except PyError (σ × List Nat)
  | 0, s, queue => .ok (s, queue)
  | _ + 1, s, [] => .ok (s, [])
  | n + 1, s, op :: queue =>
    if op ∈ endOps then traverse endOps neighborsFn n s queue
    else do
      let (s, next) ← neighborsFn s op
      traverse endOps neighborsFn n s (queue ++ next)

/-- The constructor arguments of `PSGradientTaskAssigner`, which `assign()` never changes. -/
structure PSGradientTaskAssigner where
  graph : Graph
  aggGradOps : List Nat
  applyGradOps : List Nat
  psDevice : DeviceSpec

namespace PSGradientTaskAssigner

/-- What `assign()` mutates: `_op_to_task`, and every op's device. -/
structure State where
  opToTask : Nat → Option Task
  device : Nat → DeviceSpec

/-- `self._op_to_task[op]`, which raises `KeyError` for an op with no task. -/
def State.lookup (s : State) (op : Nat) : Except PyError Task :=
  match s.opToTask op with
  | some t => .ok t
  | none => .error (.keyError op)

variable (a : PSGradientTaskAssigner)

/-- `self._apply_grad_ancestor_ops = get_ancestors(self._apply_grad_ops, self._agg_grad_ops)` -/
def applyGradAncestorOps : List Nat :=
  a.graph.getAncestors a.applyGradOps a.aggGradOps

/-- `self._agg_grad_descendant_ops = traverse(self._agg_grad_ops, end_ops=self._apply_grad_ops)`,
as its membership test. -/
def aggGradDescendantOps (x : Nat) : Bool :=
  a.graph.traverseReaches a.aggGradOps a.applyGradOps x

/-- `self._ancestors_diff_descendants`, as its membership test. -/
def ancestorsDiffDescendants (x : Nat) : Bool :=
  decide (x ∈ a.applyGradAncestorOps) && !a.aggGradDescendantOps x

/-- The branch of `__assign_task` that picks one task from `unique_tasks`. -/
def pickTask (opName : String) (uniqueTasks : List Task) : Except PyError Task :=
  match uniqueTasks with
  | [] => .error (.runtimeError ("Should have placement reference for operation " ++ opName))
  | [t] => .ok t
  | _ =>
    -- priority: assigned placement > shared
    match uniqueTasks.erase sharedTaskId with
    | [t] => .ok t
    | rest => if rest.length > 1 then .ok sharedTaskId else .error .assertionError

/-- The last lines of `__assign_task`: store `curr_op_task`, then move the op to `ps_device` with
that task, task `0` standing in for a shared op. -/
def place (s : State) (currOp : Nat) (currOpTask : Task) : State where
  opToTask := Function.update s.opToTask currOp (some currOpTask)
  device := Function.update s.device currOp
    (a.psDevice.replace (if currOpTask = sharedTaskId then some 0 else currOpTask))

/-- `__assign_task(curr_op, placement_reference_ops)` -/
def assignTask (s : State) (currOp : Nat) (placementReferenceOps : List Nat) :
    Except PyError State := do
  let placementReferenceTasks ← placementReferenceOps.mapM s.lookup
  let currOpTask ← pickTask (a.graph.name currOp) placementReferenceTasks.dedup
  pure (a.place s currOp currOpTask)

/-- The consumers of `curr_op` that `__assign_forward` walks on to. -/
def children (currOp : Nat) : List Nat :=
  (a.graph.consumers currOp).filter (· ∈ a.applyGradAncestorOps)

/-- `placement_reference_ops` of `__assign_forward`: the ops of `curr_op`'s inputs, less
`_ancestors_diff_descendants`. -/
def forwardReferenceOps (currOp : Nat) : List Nat :=
  (a.graph.inputs currOp).filter (!a.ancestorsDiffDescendants ·)

/-- `placement_reference_ops` of `__assign_backward`: the consumers of `curr_op` that are
ancestors of an apply op. -/
def backwardReferenceOps (currOp : Nat) : List Nat :=
  (a.graph.consumers currOp).filter (· ∈ a.applyGradAncestorOps)

/-- `__assign_forward(curr_op, end_ops=self._apply_grad_ops)`: the `neighbors_fn` of the
parent-to-child pass. -/
def assignForward (s : State) (currOp : Nat) : Except PyError (State × List Nat) :=
  if (s.opToTask currOp).isSome ∧ currOp ∉ a.applyGradOps then .ok (s, a.children currOp)
  else
    let placementReferenceOps := a.forwardReferenceOps currOp
    if !placementReferenceOps.all (s.opToTask · |>.isSome) then
      -- re-add `curr_op` to the queue and wait for its references to have tasks
      .ok (s, [currOp])
    else do
      let s ← a.assignTask s currOp placementReferenceOps
      pure (s, if currOp ∉ a.applyGradOps then a.children currOp else [])

/-- `__assign_backward(curr_op, end_ops=self._agg_grad_ops)`: the `neighbors_fn` of the
child-to-parent pass. -/
def assignBackward (s : State) (currOp : Nat) : Except PyError (State × List Nat) :=
  if (s.opToTask currOp).isSome ∧ currOp ∉ a.aggGradOps then .ok (s, a.graph.inputs currOp)
  else
    let placementReferenceOps := a.backwardReferenceOps currOp
    if !placementReferenceOps.all (s.opToTask · |>.isSome) then
      .ok (s, [currOp])
    else do
      let s ← a.assignTask s currOp placementReferenceOps
      pure (s, if currOp ∉ a.aggGradOps then a.graph.inputs currOp else [])

/-- `assign()`: the parent-to-child traversal, which stops at the apply ops, then the
child-to-parent one, which stops at the aggregation ops, each with its own fuel. A result with ops
still queued is a run that has not ended yet. -/
def assign (fuelForward fuelBackward : Nat) (s : State) : Except PyError (State × List Nat) := do
  let (s, queue) ← traverse a.applyGradOps a.assignForward fuelForward s a.aggGradOps
  if queue.isEmpty then traverse a.aggGradOps a.assignBackward fuelBackward s a.applyGradOps
  else pure (s, queue)

end PSGradientTaskAssigner

/-- One iteration of the first loop of `_place_post_grad_agg_ops`, over `var_op_to_agg_grad`: list
the aggregated gradient's ops (the indices op first, when there is one) and seed each with the
task of the variable's device. -/
def aggGradStep (device : Nat → DeviceSpec) (acc : List Nat × (Nat → Option Task))
    (entry : Nat × Option Nat × Nat) : List Nat × (Nat → Option Task) :=
  let task := (device entry.1).task
  let acc := match entry.2.1 with
    | some indices => (acc.1 ++ [indices], Function.update acc.2 indices (some task))
    | none => acc
  (acc.1 ++ [entry.2.2], Function.update acc.2 entry.2.2 (some task))

/-- One iteration of the second loop, over `var_op_to_apply_grad_op`: list the apply op, colocate
it with its variable (`apply_grad_op._set_device(var_device)`) and seed it with the variable's
task. -/
def applyGradStep (device : Nat → DeviceSpec)
    (acc : List Nat × (Nat → Option Task) × (Nat → DeviceSpec)) (entry : Nat × Nat) :
    List Nat × (Nat → Option Task) × (Nat → DeviceSpec) :=
  let varDevice := device entry.1
  (acc.1 ++ [entry.2], Function.update acc.2.1 entry.2 (some varDevice.task),
    Function.update acc.2.2 entry.2 varDevice)

/-- `_place_post_grad_agg_ops(ps_device, var_op_to_agg_grad, var_op_to_apply_grad_op)` up to its
last line: the assigner it builds and the state it hands it, before `.assign()`. Each aggregated
gradient is `(indices op or None, values op)`; `device` is every op's device before the call. -/
def placePostGradAggOps (g : Graph) (psDevice : DeviceSpec) (device : Nat → DeviceSpec)
    (varOpToAggGrad : List (Nat × Option Nat × Nat)) (varOpToApplyGradOp : List (Nat × Nat)) :
    PSGradientTaskAssigner × PSGradientTaskAssigner.State :=
  let agg := varOpToAggGrad.foldl (aggGradStep device) ([], fun _ => none)
  let apply := varOpToApplyGradOp.foldl (applyGradStep device) ([], agg.2, device)
  (⟨g, agg.1, apply.1, psDevice⟩, ⟨apply.2.1, apply.2.2⟩)

end Autodist
