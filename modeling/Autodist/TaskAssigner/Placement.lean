import Autodist.TaskAssigner.Values

/-!
# `Autodist/TaskAssigner/Placement.lean` — `_place_post_grad_agg_ops` and the `assign()` it runs

For a trainable variable `add_sync_op` calls `_place_post_grad_agg_ops(ps_device,
self._var_op_to_agg_grad, {var_op: var_update_op})`: one variable, its aggregation ops (the take
op, or the indices and values ops of a sparse gradient) and its update op. The two loops of
`_place_post_grad_agg_ops` list those ops and seed each with the task of its variable's device, so
every seed is one task whenever the variables handed over share a task — always, for the one
variable of `add_sync_op`. The second loop also moves each apply op to its variable's device
(`apply_grad_op._set_device(var_device)`).

`placePostGradAggOps_assign` composes the two: for every graph and every such call, `assign()`
ends; every op between an aggregation op and an apply op carries the variables' task; the ops the
run writes (`Written`) sit on `ps_device` at that task and every other op keeps its device. The
aggregation and apply ops are seeded, so the run never writes them: `traverse` drops them as end
ops, and a seeded op is passed over. An aggregation op stays where the graph had it, and an apply
op on the device of a variable it was listed with.
-/

set_option autoImplicit false

namespace Autodist
namespace PSGradientTaskAssigner

variable {device : Nat → DeviceSpec}

/-! ## 1. The lists the two loops build -/

theorem aggGradStep_fst (acc : List Nat × (Nat → Option Task)) (e : Nat × Option Nat × Nat) :
    (aggGradStep device acc e).1 = acc.1 ++ (e.2.1.toList ++ [e.2.2]) := by
  obtain ⟨_, _ | _, _⟩ := e <;> simp [aggGradStep]

theorem foldl_aggGradStep_fst :
    ∀ (l : List (Nat × Option Nat × Nat)) (acc : List Nat × (Nat → Option Task)),
      (l.foldl (aggGradStep device) acc).1 = acc.1 ++ l.flatMap fun e => e.2.1.toList ++ [e.2.2]
  | [], _ => by simp
  | e :: l, acc => by
    rw [List.foldl_cons, foldl_aggGradStep_fst l, aggGradStep_fst, List.flatMap_cons,
      List.append_assoc]

theorem foldl_applyGradStep_fst :
    ∀ (l : List (Nat × Nat)) (acc : List Nat × (Nat → Option Task) × (Nat → DeviceSpec)),
      (l.foldl (applyGradStep device) acc).1 = acc.1 ++ l.map Prod.snd
  | [], _ => by simp
  | f :: l, acc => by
    rw [List.foldl_cons, foldl_applyGradStep_fst l, List.map_cons]
    simp [applyGradStep]

/-- The second loop leaves the device of an op it does not list as it was. -/
theorem foldl_applyGradStep_device_of_not_mem :
    ∀ (l : List (Nat × Nat)) (acc : List Nat × (Nat → Option Task) × (Nat → DeviceSpec)) {x : Nat},
      x ∉ l.map Prod.snd → (l.foldl (applyGradStep device) acc).2.2 x = acc.2.2 x
  | [], _, _, _ => rfl
  | f :: l, acc, x, hx => by
    simp only [List.map_cons, List.mem_cons, not_or] at hx
    rw [List.foldl_cons, foldl_applyGradStep_device_of_not_mem l _ hx.2]
    simp [applyGradStep, Function.update_noteq hx.1]

/-- The second loop puts every apply op it lists on the device of a variable it is listed with. -/
theorem foldl_applyGradStep_device_of_mem :
    ∀ (l : List (Nat × Nat)) (acc : List Nat × (Nat → Option Task) × (Nat → DeviceSpec)) {x : Nat},
      x ∈ l.map Prod.snd → ∃ f ∈ l, f.2 = x ∧ (l.foldl (applyGradStep device) acc).2.2 x = device f.1
  | [], _, _, hx => absurd hx (List.not_mem_nil _)
  | f :: l, acc, x, hx => by
    rw [List.foldl_cons]
    by_cases hl : x ∈ l.map Prod.snd
    · obtain ⟨f', hf', hx', hd⟩ := foldl_applyGradStep_device_of_mem l _ hl
      exact ⟨f', List.mem_cons_of_mem _ hf', hx', hd⟩
    · have hfx : f.2 = x := by simpa [hl, eq_comm] using hx
      refine ⟨f, List.mem_cons_self _ _, hfx, ?_⟩
      rw [foldl_applyGradStep_device_of_not_mem l _ hl]
      simp [applyGradStep, hfx]

/-! ## 2. The seeding -/

/-- Every listed op has a task, and every task is `t`. -/
structure Seeded (t : Task) (ops : List Nat) (opToTask : Nat → Option Task) : Prop where
  seeded : ∀ x ∈ ops, (opToTask x).isSome
  uniform : ∀ x v, opToTask x = some v → v = t

section Seeded
variable {t : Task} {ops : List Nat} {m : Nat → Option Task}

theorem Seeded.update (h : Seeded t ops m) (y : Nat) : Seeded t ops (Function.update m y (some t)) :=
  ⟨fun x hx => by by_cases hxy : x = y <;> simp [Function.update_apply, hxy, h.seeded x hx],
    fun x v hx => by
      rw [Function.update_apply] at hx
      split_ifs at hx
      exacts [(Option.some.inj hx).symm, h.uniform x v hx]⟩

theorem Seeded.append (h : Seeded t ops m) (y : Nat) :
    Seeded t (ops ++ [y]) (Function.update m y (some t)) :=
  ⟨fun x hx => by
    rcases List.mem_append.mp hx with hx | hx
    · exact (h.update y).seeded x hx
    · obtain rfl := List.mem_singleton.mp hx
      simp, (h.update y).uniform⟩

/-- One iteration of the first loop keeps the seeding when the entry's variable is on task `t`. -/
theorem Seeded.aggGradStep {acc : List Nat × (Nat → Option Task)} (h : Seeded t acc.1 acc.2)
    {e : Nat × Option Nat × Nat} (ht : (device e.1).task = t) :
    Seeded t (aggGradStep device acc e).1 (aggGradStep device acc e).2 := by
  obtain ⟨_, _ | i, w⟩ := e
  · simpa [Autodist.aggGradStep, ht] using h.append w
  · simpa [Autodist.aggGradStep, ht] using (h.append i).append w

end Seeded

/-! ## 3. The run `_place_post_grad_agg_ops` hands to `assign()` -/

/-- What `_place_post_grad_agg_ops` hands `assign()`, when every variable it is given is on task
`t`: the graph and `ps_device` as given, the aggregation ops and the apply ops in the order of the
entries, and a seeding of every listed op, with `t` only. -/
theorem placePostGradAggOps_seeded {g : Graph} {psDevice : DeviceSpec}
    {aggs : List (Nat × Option Nat × Nat)} {applies : List (Nat × Nat)}
    {a : PSGradientTaskAssigner} {s : State} {t : Task}
    (hp : placePostGradAggOps g psDevice device aggs applies = (a, s))
    (ht : ∀ e ∈ aggs, (device e.1).task = t) (ht' : ∀ f ∈ applies, (device f.1).task = t) :
    a.aggGradOps = (aggs.flatMap fun e => e.2.1.toList ++ [e.2.2]) ∧
      a.applyGradOps = applies.map Prod.snd ∧ Seeded t (a.aggGradOps ++ a.applyGradOps) s.opToTask := by
  simp only [placePostGradAggOps, Prod.mk.injEq] at hp
  obtain ⟨rfl, rfl⟩ := hp
  have h₁ := List.foldlRecOn aggs (aggGradStep device) ([], fun _ => none)
    (motive := fun acc => Seeded t acc.1 acc.2) ⟨nofun, nofun⟩
    fun acc hacc e he => hacc.aggGradStep (ht e he)
  have h₂ := List.foldlRecOn applies (applyGradStep device) ([], _, device)
    (motive := fun acc => Seeded t _ acc.2.1 ∧ Seeded t acc.1 acc.2.1) ⟨h₁, nofun, h₁.uniform⟩
    fun acc hacc f hf => by
      simpa [applyGradStep, ht' f hf] using And.intro (hacc.1.update f.2) (hacc.2.append f.2)
  refine ⟨by simp [foldl_aggGradStep_fst], by simp [foldl_applyGradStep_fst],
    fun x hx => ?_, h₂.2.uniform⟩
  rcases List.mem_append.mp hx with hx | hx
  exacts [h₂.1.seeded x hx, h₂.2.seeded x hx]

/-- What `_place_post_grad_agg_ops` hands `assign()` as devices: an op it does not list as an
apply op keeps its device, and an apply op is on the device of a variable it is listed with. -/
theorem placePostGradAggOps_device {g : Graph} {psDevice : DeviceSpec}
    {aggs : List (Nat × Option Nat × Nat)} {applies : List (Nat × Nat)}
    {a : PSGradientTaskAssigner} {s : State}
    (hp : placePostGradAggOps g psDevice device aggs applies = (a, s)) :
    (∀ x ∉ applies.map Prod.snd, s.device x = device x) ∧
      ∀ f ∈ applies, ∃ f' ∈ applies, f'.2 = f.2 ∧ s.device f.2 = device f'.1 := by
  simp only [placePostGradAggOps, Prod.mk.injEq] at hp
  obtain ⟨-, rfl⟩ := hp
  exact ⟨fun x hx => foldl_applyGradStep_device_of_not_mem _ _ hx,
    fun f hf => foldl_applyGradStep_device_of_mem _ _ (List.mem_map_of_mem _ hf)⟩

/-- **`_place_post_grad_agg_ops`, then `assign()`.** For every graph, when every variable handed
over is on one task `t` (the one variable of `add_sync_op` always is): the run ends for some fuel;
every op between an aggregation op and an apply op ends on task `t`; the ops the run writes end on
`ps_device` at task `t` and every other op keeps the device it was handed. So an aggregation op
that is no apply op stays on the device it had, and every apply op stays on the device of a
variable it was listed with, where the loop colocated it. -/
theorem placePostGradAggOps_assign {g : Graph} {psDevice : DeviceSpec}
    {aggs : List (Nat × Option Nat × Nat)} {applies : List (Nat × Nat)}
    {a : PSGradientTaskAssigner} {s : State} {t : Task}
    (hp : placePostGradAggOps g psDevice device aggs applies = (a, s))
    (ht : ∀ e ∈ aggs, (device e.1).task = t) (ht' : ∀ f ∈ applies, (device f.1).task = t) :
    ∃ nF nB s', a.assign nF nB s = .ok (s', []) ∧
      (∀ x, a.aggGradDescendantOps x = true → x ∈ a.applyGradAncestorOps →
        s'.opToTask x = some t) ∧
      (∀ x, a.Written s x → s'.device x = a.taskDevice t) ∧
      (∀ x, ¬a.Written s x → s'.device x = s.device x) ∧
      (∀ x ∈ a.aggGradOps, x ∉ a.applyGradOps → s'.device x = device x) ∧
      ∀ f ∈ applies, ∃ f' ∈ applies, f'.2 = f.2 ∧ s'.device f.2 = device f'.1 := by
  obtain ⟨-, happly, hs⟩ := placePostGradAggOps_seeded hp ht ht'
  obtain ⟨hkeep, happ⟩ := placePostGradAggOps_device hp
  obtain ⟨nF, nB, s', h⟩ := a.assign_ends hs.seeded
  have hS := a.assign_settled h
  have hvals := (a.assign_uniform t hs.uniform h).1
  -- a listed op is seeded, so the run does not write it
  have hlisted : ∀ x ∈ a.aggGradOps ++ a.applyGradOps, s'.device x = s.device x := fun x hx =>
    (hS.kept x fun hw => by simpa [hw.none a] using hs.seeded x hx).2
  refine ⟨nF, nB, s', h, fun x hD hA => (settled_between hS hs.uniform hvals hs.seeded hD hA).1,
    fun x hx => (hS.uniform hvals hx).2, fun x hx => (hS.kept x hx).2, fun x hx hx' => ?_,
    fun f hf => ?_⟩
  · rw [hlisted x (List.mem_append_left _ hx), hkeep x (happly ▸ hx')]
  · obtain ⟨f', hf', hx, hd⟩ := happ f hf
    have hfa : f.2 ∈ a.applyGradOps := happly ▸ List.mem_map_of_mem _ hf
    exact ⟨f', hf', hx, by rw [hlisted _ (List.mem_append_right _ hfa), hd]⟩

/-- A variable `0` on task `1` of the PS; every other op starts on the worker. -/
def syncDevice (x : Nat) : DeviceSpec :=
  if x = 0 then ⟨some "ps", none, some 1, some "CPU", some 0⟩ else workerCpu

/-- The call of `add_sync_op` for the variable `0` of the learning-rate graph: its take op `2`
and its update op `3`, which also reads the learning rate `1`. -/
def syncPlacement : PSGradientTaskAssigner × State :=
  placePostGradAggOps learningRateAssigner.graph psCpu syncDevice [(0, none, 2)] [(0, 3)]

theorem placePostGradAggOps_assign_learning_rate :
    (∀ e ∈ [((0 : Nat), (none : Option Nat), (2 : Nat))], (syncDevice e.1).task = some 1) ∧
    (∀ f ∈ [((0 : Nat), (3 : Nat))], (syncDevice f.1).task = some 1) ∧
    ∃ nF nB s', syncPlacement.1.assign nF nB syncPlacement.2 = .ok (s', []) ∧
      (∀ x, syncPlacement.1.aggGradDescendantOps x = true →
        x ∈ syncPlacement.1.applyGradAncestorOps → s'.opToTask x = some (some 1)) ∧
      (∀ x, syncPlacement.1.Written syncPlacement.2 x →
        s'.device x = syncPlacement.1.taskDevice (some 1)) ∧
      (∀ x, ¬syncPlacement.1.Written syncPlacement.2 x → s'.device x = syncPlacement.2.device x) ∧
      (∀ x ∈ syncPlacement.1.aggGradOps, x ∉ syncPlacement.1.applyGradOps →
        s'.device x = syncDevice x) ∧
      ∀ f ∈ [((0 : Nat), (3 : Nat))], ∃ f' ∈ [((0 : Nat), (3 : Nat))], f'.2 = f.2 ∧
        s'.device f.2 = syncDevice f'.1 :=
  ⟨by decide, by decide, placePostGradAggOps_assign rfl (by decide) (by decide)⟩

end PSGradientTaskAssigner
end Autodist
