import Autodist.TaskAssigner.Assign

/-!
# `Autodist/TaskAssigner/Final.lean` — what a finished run of `assign()` leaves

Every write of a run is at an op with no task (`assign_write_inv`), so a run writes each op at most
once, and which ops it writes is fixed before it starts: the forward targets with no task
(`WrittenForward`), then the backward targets with no task that the first pass does not write
(`WrittenBackward`). At every point each op satisfies its equation (`Eqn`): it is untouched, or
written by the first pass from its forward references — each of them seeded or itself written by
the first pass, since the second pass writes nothing before the first has ended — or written by the
second pass from its backward references. A finished run has written all of them, so it leaves
(`assign_settled`, the fields of `Settled`):

* every op it does not write with the task and the device it had;
* every op it writes with the task the rule of `__assign_task` picks from the final tasks of its
  placement references, on `ps_device` at that task.

**These equations have one solution** (`Settled.unique`), by induction on the rank for the first
pass's writes, whose references lie lower, and on the rank counted down from `ancestorRankBound` for
the second's, whose references lie higher. They read the graph, the two lists and `ps_device`
through membership only (`SameUpToOrder`), so

* `assign_order_independent`: two assigners that differ only in the order of the lists, of each
  op's inputs and of each op's consumers end every finished run from one seeding on the same
  `_op_to_task` and the same devices;
* `assign_idempotent`: a second run from the first's result writes nothing — every op it could
  write has a task — so at every point it has changed nothing.
-/

set_option autoImplicit false

namespace Autodist
namespace PSGradientTaskAssigner

open Graph

variable (a : PSGradientTaskAssigner)

/-! ## 1. The ops a run writes, and their equations -/

/-- The first pass writes `x`: a forward target with no task at the start. -/
def WrittenForward (s₀ : State) (x : Nat) : Prop :=
  s₀.opToTask x = none ∧ a.ForwardTarget x

/-- The second pass writes `x`: a backward target with no task at the start that the first pass
does not write. -/
def WrittenBackward (s₀ : State) (x : Nat) : Prop :=
  s₀.opToTask x = none ∧ a.BackwardTarget x ∧ ¬a.ForwardTarget x

/-- The ops a run from `s₀` writes. -/
def Written (s₀ : State) (x : Nat) : Prop :=
  a.WrittenForward s₀ x ∨ a.WrittenBackward s₀ x

theorem Written.none {s₀ : State} {x : Nat} (h : a.Written s₀ x) : s₀.opToTask x = none := by
  rcases h with ⟨h, -⟩ | ⟨h, -⟩ <;> exact h

/-- `x` carries the task the rule picks from the tasks of `refs`, all of them assigned, and sits on
`ps_device` at that task. -/
def PlacedBy (s : State) (refs : List Nat) (x : Nat) : Prop :=
  (∀ r ∈ refs, (s.opToTask r).isSome) ∧
    ∃ v, s.opToTask x = some v ∧ s.device x = a.taskDevice v ∧ Picks (s.uniqueTasks refs) v

/-- The equation of `x` at a point `s` of a run from `s₀`: untouched; or written by the first pass
from its forward references, each seeded or written by the first pass; or written by the second
pass from its backward references. -/
def Eqn (s₀ s : State) (x : Nat) : Prop :=
  (s.opToTask x = s₀.opToTask x ∧ s.device x = s₀.device x) ∨
  (a.WrittenForward s₀ x ∧ a.PlacedBy s (a.forwardReferenceOps x) x ∧
    ∀ r ∈ a.forwardReferenceOps x, (s₀.opToTask r).isSome ∨ a.WrittenForward s₀ r) ∨
  (a.WrittenBackward s₀ x ∧ a.PlacedBy s (a.backwardReferenceOps x) x)

section Eqn

variable {a} {s₀ s : State} {x y : Nat} {refs : List Nat} {v : Task}

theorem PlacedBy.isSome (h : a.PlacedBy s refs x) : (s.opToTask x).isSome := by
  obtain ⟨-, v, hv, -⟩ := h
  simp [hv]

/-- A write at an op with no task is no reference of an op already placed, so it keeps it. -/
theorem PlacedBy.place (h : a.PlacedBy s refs y) (hx : s.opToTask x = none) (hyx : y ≠ x) :
    a.PlacedBy (a.place s x v) refs y := by
  obtain ⟨href, w, hw, hd, hp⟩ := h
  have hxr : x ∉ refs := fun hr => by simpa [hx] using href x hr
  refine ⟨fun r hr => a.place_isSome (href r hr), w, ?_, ?_, ?_⟩
  · simpa [Function.update_noteq hyx] using hw
  · simpa [Function.update_noteq hyx] using hd
  · rwa [a.uniqueTasks_place hxr]

/-- The write itself places `x` from its references. -/
theorem placedBy_place (href : ∀ r ∈ refs, (s.opToTask r).isSome) (hx : s.opToTask x = none)
    (hp : Picks (s.uniqueTasks refs) v) : a.PlacedBy (a.place s x v) refs x := by
  have hxr : x ∉ refs := fun hr => by simpa [hx] using href x hr
  exact ⟨fun r hr => a.place_isSome (href r hr), v, by simp, by simp,
    by rwa [a.uniqueTasks_place hxr]⟩

theorem Eqn.start : a.Eqn s₀ s₀ x := .inl ⟨rfl, rfl⟩

/-- An op without a task at a point had none at the start. -/
theorem Eqn.none_start (h : a.Eqn s₀ s x) (hx : s.opToTask x = none) : s₀.opToTask x = none := by
  rcases h with ⟨h, -⟩ | ⟨-, hp, -⟩ | ⟨-, hp⟩
  · rwa [← h]
  all_goals exact absurd hp.isSome (by simp [hx])

/-- An op the run does not write is untouched. -/
theorem Eqn.kept (h : a.Eqn s₀ s x) (hx : ¬a.Written s₀ x) :
    s.opToTask x = s₀.opToTask x ∧ s.device x = s₀.device x := by
  rcases h with h | ⟨hw, -⟩ | ⟨hw, -⟩
  exacts [h, absurd (.inl hw) hx, absurd (.inr hw) hx]

/-- A first-pass write that has happened is placed from its forward references. -/
theorem Eqn.forward (h : a.Eqn s₀ s x) (hw : a.WrittenForward s₀ x) (hs : (s.opToTask x).isSome) :
    a.PlacedBy s (a.forwardReferenceOps x) x ∧
      ∀ r ∈ a.forwardReferenceOps x, (s₀.opToTask r).isSome ∨ a.WrittenForward s₀ r := by
  rcases h with ⟨h, -⟩ | ⟨-, hp, hr⟩ | ⟨hb, -⟩
  · simp [h, hw.1] at hs
  · exact ⟨hp, hr⟩
  · exact absurd hw.2 hb.2.2

/-- A second-pass write that has happened is placed from its backward references. -/
theorem Eqn.backward (h : a.Eqn s₀ s x) (hw : a.WrittenBackward s₀ x)
    (hs : (s.opToTask x).isSome) : a.PlacedBy s (a.backwardReferenceOps x) x := by
  rcases h with ⟨h, -⟩ | ⟨hf, -⟩ | ⟨-, hp⟩
  · simp [h, hw.1] at hs
  · exact absurd hf.2 hw.2.2
  · exact hp

/-- A write at another op with no task keeps an equation. -/
theorem Eqn.place (h : a.Eqn s₀ s y) (hx : s.opToTask x = none) (hyx : y ≠ x) :
    a.Eqn s₀ (a.place s x v) y := by
  rcases h with ⟨ht, hd⟩ | ⟨hw, hp, hr⟩ | ⟨hw, hp⟩
  · exact .inl ⟨by simpa [Function.update_noteq hyx] using ht,
      by simpa [Function.update_noteq hyx] using hd⟩
  · exact .inr (.inl ⟨hw, hp.place hx hyx, hr⟩)
  · exact .inr (.inr ⟨hw, hp.place hx hyx⟩)

end Eqn

/-! ## 2. Every point of a run, and its end -/

/-- What holds at every point of a run from `s₀`: every op satisfies its equation, and the second
pass has written nothing while a forward target still has no task. -/
structure RunInv (s₀ s : State) : Prop where
  eqn : ∀ x, a.Eqn s₀ s x
  phase : (∀ x, a.WrittenBackward s₀ x → s.opToTask x = none) ∨
    ∀ u, a.ForwardTarget u → (s.opToTask u).isSome

section Writes

variable {a} {s₀ s s' : State} {x : Nat}

/-- **A write of the first pass keeps the invariant.** Its references have tasks, and a task at a
reference the second pass writes would mean the first pass had ended — with `x` still unassigned. -/
theorem RunInv.writeForward (hi : a.RunInv s₀ s) (hx : s.opToTask x = none)
    (hF : a.ForwardTarget x) (href : ∀ r ∈ a.forwardReferenceOps x, (s.opToTask r).isSome)
    (ht : a.assignTask s x (a.forwardReferenceOps x) = .ok s') : a.RunInv s₀ s' := by
  obtain ⟨v, rfl, hp, -⟩ := a.assignTask_placed href ht
  have hw : a.WrittenForward s₀ x := ⟨(hi.eqn x).none_start hx, hF⟩
  have hrefs : ∀ r ∈ a.forwardReferenceOps x, (s₀.opToTask r).isSome ∨ a.WrittenForward s₀ r := by
    intro r hr
    rcases hi.eqn r with ⟨h, -⟩ | ⟨hrw, -⟩ | ⟨hrw, -⟩
    · exact .inl (h ▸ href r hr)
    · exact .inr hrw
    · rcases hi.phase with hph | hph
      · simpa [hph r hrw] using href r hr
      · simpa [hx] using hph x hF
  refine ⟨fun y => ?_, ?_⟩
  · by_cases hyx : y = x
    · subst hyx
      exact .inr (.inl ⟨hw, placedBy_place href hx hp, hrefs⟩)
    · exact (hi.eqn y).place hx hyx
  · rcases hi.phase with hph | hph
    · refine .inl fun y hy => ?_
      have hyx : y ≠ x := by rintro rfl; exact hy.2.2 hF
      simpa [Function.update_noteq hyx] using hph y hy
    · exact .inr fun u hu => a.place_isSome (hph u hu)

/-- **A write of the second pass keeps the invariant**: the first pass has ended, so the op it
writes is no forward target. -/
theorem RunInv.writeBackward (hi : a.RunInv s₀ s) (hx : s.opToTask x = none)
    (hB : a.BackwardTarget x) (hdone : ∀ u, a.ForwardTarget u → (s.opToTask u).isSome)
    (href : ∀ r ∈ a.backwardReferenceOps x, (s.opToTask r).isSome)
    (ht : a.assignTask s x (a.backwardReferenceOps x) = .ok s') : a.RunInv s₀ s' := by
  obtain ⟨v, rfl, hp, -⟩ := a.assignTask_placed href ht
  have hnF : ¬a.ForwardTarget x := fun hF => by simpa [hx] using hdone x hF
  refine ⟨fun y => ?_, .inr fun u hu => a.place_isSome (hdone u hu)⟩
  by_cases hyx : y = x
  · subst hyx
    exact .inr (.inr ⟨⟨(hi.eqn y).none_start hx, hB, hnF⟩, placedBy_place href hx hp⟩)
  · exact (hi.eqn y).place hx hyx

end Writes

/-- The equations a finished run from `s₀` leaves. -/
structure Settled (s₀ s : State) : Prop where
  kept : ∀ x, ¬a.Written s₀ x → s.opToTask x = s₀.opToTask x ∧ s.device x = s₀.device x
  forward : ∀ x, a.WrittenForward s₀ x → a.PlacedBy s (a.forwardReferenceOps x) x
  backward : ∀ x, a.WrittenBackward s₀ x → a.PlacedBy s (a.backwardReferenceOps x) x
  forwardRefs : ∀ x, a.WrittenForward s₀ x → ∀ r ∈ a.forwardReferenceOps x,
    (s₀.opToTask r).isSome ∨ a.WrittenForward s₀ r

/-- **A finished run is settled**, whatever the seeding: the invariant holds at its end, where
every op the run writes has been written. -/
theorem assign_settled {nF nB : Nat} {s₀ s : State} (h : a.assign nF nB s₀ = .ok (s, [])) :
    a.Settled s₀ s := by
  have hi : a.RunInv s₀ s := a.assign_write_inv (a.RunInv s₀)
    (fun _ _ _ hi hx hF href ht => hi.writeForward hx hF href ht)
    (fun _ _ _ hi hx hB hdone href ht => hi.writeBackward hx hB hdone href ht)
    ⟨fun _ => .start, .inl fun _ hx => hx.1⟩ h
  obtain ⟨hF, hB⟩ := a.assign_done h
  exact ⟨fun x hx => (hi.eqn x).kept hx, fun x hx => ((hi.eqn x).forward hx (hF x hx.2)).1,
    fun x hx => (hi.eqn x).backward hx (hB x hx.2.1),
    fun x hx => ((hi.eqn x).forward hx (hF x hx.2)).2⟩

/-- A settled op the run writes carries a task, and sits on `ps_device` at that task. -/
theorem Settled.placed {s₀ s : State} (hs : a.Settled s₀ s) {x : Nat} (hx : a.Written s₀ x) :
    ∃ v, s.opToTask x = some v ∧ s.device x = a.taskDevice v := by
  rcases hx with hx | hx
  · obtain ⟨-, v, hv, hd, -⟩ := hs.forward x hx
    exact ⟨v, hv, hd⟩
  · obtain ⟨-, v, hv, hd, -⟩ := hs.backward x hx
    exact ⟨v, hv, hd⟩

/-! ## 3. The equations have one solution -/

/-- Two assigners alike up to order: the same inputs of every op (as sets; the consumers follow),
the same members of each list, the same `ps_device`. -/
structure SameUpToOrder (b : PSGradientTaskAssigner) : Prop where
  inputs : ∀ x y, x ∈ a.graph.inputs y ↔ x ∈ b.graph.inputs y
  agg : ∀ x, x ∈ a.aggGradOps ↔ x ∈ b.aggGradOps
  apply : ∀ x, x ∈ a.applyGradOps ↔ x ∈ b.applyGradOps
  psDevice : a.psDevice = b.psDevice

namespace SameUpToOrder

variable {a} {b : PSGradientTaskAssigner} (h : a.SameUpToOrder b)
include h

theorem mem_applyGradAncestorOps (x : Nat) :
    x ∈ a.applyGradAncestorOps ↔ x ∈ b.applyGradAncestorOps := by
  rw [a.mem_applyGradAncestorOps, b.mem_applyGradAncestorOps]
  exact reach_congr (fun y z => h.inputs z y) h.apply h.agg x

theorem aggGradDescendantOps_eq (x : Nat) : a.aggGradDescendantOps x = b.aggGradDescendantOps x := by
  rw [Bool.eq_iff_iff, a.aggGradDescendantOps_iff, b.aggGradDescendantOps_iff]
  exact reach_congr (fun y z => by rw [a.graph.mem_consumers, b.graph.mem_consumers, h.inputs])
    h.agg h.apply x

theorem forwardTarget (x : Nat) : a.ForwardTarget x ↔ b.ForwardTarget x := by
  have hR : a.ForwardReach x ↔ b.ForwardReach x := reach_congr
    (fun y z => by rw [a.mem_children, b.mem_children, h.inputs, h.mem_applyGradAncestorOps])
    h.agg h.apply x
  rw [ForwardTarget, ForwardTarget, hR, h.apply]

theorem backwardTarget (x : Nat) : a.BackwardTarget x ↔ b.BackwardTarget x := by
  rw [BackwardTarget, BackwardTarget, h.mem_applyGradAncestorOps, h.agg]

theorem mem_forwardReferenceOps (x r : Nat) :
    r ∈ a.forwardReferenceOps x ↔ r ∈ b.forwardReferenceOps x := by
  rw [a.mem_forwardReferenceOps, b.mem_forwardReferenceOps, h.inputs, h.mem_applyGradAncestorOps,
    h.aggGradDescendantOps_eq]

theorem mem_backwardReferenceOps (x r : Nat) :
    r ∈ a.backwardReferenceOps x ↔ r ∈ b.backwardReferenceOps x := by
  rw [a.mem_backwardReferenceOps, b.mem_backwardReferenceOps, h.inputs, h.mem_applyGradAncestorOps]

theorem writtenForward (s₀ : State) (x : Nat) : a.WrittenForward s₀ x ↔ b.WrittenForward s₀ x := by
  rw [WrittenForward, WrittenForward, h.forwardTarget]

theorem writtenBackward (s₀ : State) (x : Nat) : a.WrittenBackward s₀ x ↔ b.WrittenBackward s₀ x := by
  rw [WrittenBackward, WrittenBackward, h.forwardTarget, h.backwardTarget]

theorem written (s₀ : State) (x : Nat) : a.Written s₀ x ↔ b.Written s₀ x :=
  or_congr (h.writtenForward s₀ x) (h.writtenBackward s₀ x)

theorem taskDevice : a.taskDevice = b.taskDevice := by
  funext t
  rw [PSGradientTaskAssigner.taskDevice, PSGradientTaskAssigner.taskDevice, h.psDevice]

end SameUpToOrder

/-- **Two settled states of runs alike up to order are equal.** -/
theorem Settled.unique {b : PSGradientTaskAssigner} (hab : a.SameUpToOrder b) {s₀ sa sb : State}
    (ha : a.Settled s₀ sa) (hb : b.Settled s₀ sb) :
    sa.opToTask = sb.opToTask ∧ sa.device = sb.device := by
  -- an op neither run writes is where it started
  have hkept : ∀ x, ¬a.Written s₀ x →
      sa.opToTask x = sb.opToTask x ∧ sa.device x = sb.device x := fun x hx => by
    have hx' : ¬b.Written s₀ x := (hab.written s₀ x).not.mp hx
    exact ⟨(ha.kept x hx).1.trans (hb.kept x hx').1.symm, (ha.kept x hx).2.trans (hb.kept x hx').2.symm⟩
  -- an op both runs place from references with equal tasks gets the same task and device
  have hplaced : ∀ x ra rb, a.PlacedBy sa ra x → b.PlacedBy sb rb x → (∀ r, r ∈ ra ↔ r ∈ rb) →
      (∀ r ∈ ra, sa.opToTask r = sb.opToTask r) →
      sa.opToTask x = sb.opToTask x ∧ sa.device x = sb.device x := by
    rintro x ra rb ⟨-, va, hva, hda, hpa⟩ ⟨-, vb, hvb, hdb, hpb⟩ hmem heq
    obtain rfl : va = vb := hpa.unique (uniqueTasks_congr hmem heq ▸ hpb)
    exact ⟨hva.trans hvb.symm, by rw [hda, hdb, hab.taskDevice]⟩
  -- first-pass writes, by induction on the rank: their references lie lower
  have hfwd : ∀ n x, a.graph.rank x < n → (s₀.opToTask x).isSome ∨ a.WrittenForward s₀ x →
      sa.opToTask x = sb.opToTask x ∧ sa.device x = sb.device x := by
    intro n
    induction n with
    | zero => intro x hx; omega
    | succ n ih =>
      rintro x hx (hs | hw)
      · exact hkept x fun hw => by simp [hw.none] at hs
      · refine hplaced x _ _ (ha.forward x hw) (hb.forward x ((hab.writtenForward s₀ x).mp hw))
          (hab.mem_forwardReferenceOps x) fun r hr => (ih r ?_ (ha.forwardRefs x hw r hr)).1
        have := a.graph.rank_lt ((a.mem_forwardReferenceOps).mp hr).1
        omega
  -- second-pass writes, by induction on the rank counted down: their references lie higher
  have hbwd : ∀ n x, a.ancestorRankBound + 1 - a.graph.rank x < n → a.WrittenBackward s₀ x →
      sa.opToTask x = sb.opToTask x ∧ sa.device x = sb.device x := by
    intro n
    induction n with
    | zero => intro x hx; omega
    | succ n ih =>
      intro x hx hw
      refine hplaced x _ _ (ha.backward x hw) (hb.backward x ((hab.writtenBackward s₀ x).mp hw))
        (hab.mem_backwardReferenceOps x) fun c hc => ?_
      obtain ⟨hxc, hcA⟩ := (a.mem_backwardReferenceOps).mp hc
      by_cases hcF : a.WrittenForward s₀ c
      · exact (hfwd _ c (Nat.lt_succ_self _) (.inr hcF)).1
      by_cases hcB : a.WrittenBackward s₀ c
      · have := a.graph.rank_lt hxc
        have := a.rank_le_ancestorRankBound hcA
        exact (ih c (by omega) hcB).1
      · exact (hkept c (by rintro (h | h) <;> contradiction)).1
  have hall : ∀ x, sa.opToTask x = sb.opToTask x ∧ sa.device x = sb.device x := fun x => by
    by_cases hF : a.WrittenForward s₀ x
    · exact hfwd _ x (Nat.lt_succ_self _) (.inr hF)
    by_cases hB : a.WrittenBackward s₀ x
    · exact hbwd _ x (Nat.lt_succ_self _) hB
    · exact hkept x (by rintro (h | h) <;> contradiction)
  exact ⟨funext fun x => (hall x).1, funext fun x => (hall x).2⟩

/-! ## 4. Order independence -/

/-- **The order of the lists and of the graph's edge lists does not matter**: two assigners whose
graphs have the same inputs (as sets), whose aggregation and apply lists have the same members and
whose `ps_device` is the same end every finished run from the same seeding on the same
`_op_to_task` and the same devices. -/
theorem assign_order_independent (b : PSGradientTaskAssigner)
    (hinputs : ∀ x y, x ∈ a.graph.inputs y ↔ x ∈ b.graph.inputs y)
    (hagg : ∀ x, x ∈ a.aggGradOps ↔ x ∈ b.aggGradOps)
    (happly : ∀ x, x ∈ a.applyGradOps ↔ x ∈ b.applyGradOps) (hps : a.psDevice = b.psDevice)
    (s : State) {nF nB mF mB : Nat} {sa sb : State}
    (ha : a.assign nF nB s = .ok (sa, [])) (hb : b.assign mF mB s = .ok (sb, [])) :
    sa.opToTask = sb.opToTask ∧ sa.device = sb.device :=
  (a.assign_settled ha).unique a ⟨hinputs, hagg, happly, hps⟩ (b.assign_settled hb)

/-- Aggregation ops `0` and `1`, apply ops `2` and `4`; op `3` reads the apply op `2` and the
aggregation op `1`, and feeds the apply op `4`. -/
def orderAssigner (aggGradOps : List Nat) : PSGradientTaskAssigner :=
  ⟨Graph.ofEdges (fun _ => "op") [(0, 2), (2, 3), (1, 3), (3, 4)] (by decide), aggGradOps, [2, 4],
    psCpu⟩

/-- Op `0` seeded with task `1`, ops `1`, `2` and `4` with task `0`. -/
def orderState : State :=
  ⟨fun x => if x = 0 then some (some 1) else if x = 1 ∨ x = 2 ∨ x = 4 then some (some 0) else none,
    fun _ => workerCpu⟩

theorem assign_order_independent_order :
    ∃ sa sb, (orderAssigner [0, 1]).assign 10 10 orderState = .ok (sa, []) ∧
      (orderAssigner [1, 0]).assign 10 10 orderState = .ok (sb, []) ∧
      sa.opToTask = sb.opToTask ∧ sa.device = sb.device := by
  obtain ⟨sa, sb, ha, hb⟩ : ∃ sa sb,
      (orderAssigner [0, 1]).assign 10 10 orderState = .ok (sa, []) ∧
      (orderAssigner [1, 0]).assign 10 10 orderState = .ok (sb, []) := ⟨_, _, rfl, rfl⟩
  exact ⟨sa, sb, ha, hb, assign_order_independent (orderAssigner [0, 1]) (orderAssigner [1, 0])
    (fun _ _ => Iff.rfl) (fun _ => (List.Perm.swap 1 0 []).mem_iff) (fun _ => Iff.rfl) rfl
    orderState ha hb⟩

/-! ## 5. Idempotence -/

/-- **A second run changes nothing**, whatever the seeding: from the result of a finished run,
every point of a second run of the same assigner has the same `_op_to_task` and the same devices.
Every op the second run could write already has a task. -/
theorem assign_idempotent (s : State) {nF nB mF mB : Nat} {s₁ s₂ : State} {q : List Nat}
    (h₁ : a.assign nF nB s = .ok (s₁, [])) (h₂ : a.assign mF mB s₁ = .ok (s₂, q)) :
    s₂.opToTask = s₁.opToTask ∧ s₂.device = s₁.device := by
  obtain ⟨hF, hB⟩ := a.assign_done h₁
  obtain rfl : s₂ = s₁ := a.assign_write_inv (· = s₁)
    (fun _ x _ hs hx hx' _ _ => absurd (hF x hx') (by simp [← hs, hx]))
    (fun _ x _ hs hx hx' _ _ _ => absurd (hB x hx') (by simp [← hs, hx])) rfl h₂
  exact ⟨rfl, rfl⟩

theorem assign_idempotent_order :
    ∃ s₁ s₂, (orderAssigner [0, 1]).assign 10 10 orderState = .ok (s₁, []) ∧
      (orderAssigner [0, 1]).assign 10 10 s₁ = .ok (s₂, []) ∧
      s₂.opToTask = s₁.opToTask ∧ s₂.device = s₁.device := by
  obtain ⟨s₁, s₂, h₁, h₂⟩ : ∃ s₁ s₂,
      (orderAssigner [0, 1]).assign 10 10 orderState = .ok (s₁, []) ∧
      (orderAssigner [0, 1]).assign 10 10 s₁ = .ok (s₂, []) := ⟨_, _, rfl, rfl⟩
  exact ⟨s₁, s₂, h₁, h₂, assign_idempotent (orderAssigner [0, 1]) orderState h₁ h₂⟩

end PSGradientTaskAssigner
end Autodist
