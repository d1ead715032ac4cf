import Autodist.TaskAssigner.Basic

/-!
# `Autodist/TaskAssigner/Worklist.lean` — runs of the requeueing worklist

Both passes of `assign()` are `traverse` with a `neighbors_fn` and a list of end ops. A pop
(`popOp`) drops an end op; any other op is handed to `neighbors_fn`, which either *waits* (state
unchanged, `[curr_op]` appended again) or *expands* (the op gets its task if it needs one, and its
neighbours are appended). This file proves, once, the three facts
about such runs that both passes need:

* `traverse_inv` — the run lemma: what every pop preserves holds at every point of the run;
* `traverse_ends` — termination: if a ready pop lowers a weight and some queued op is always ready,
  some fuel empties the queue. A waiting pop changes nothing, so the ready op keeps its place and
  moves one step closer to the head; the weight `1 + Σ` over what a pop appends falls by at least
  one at every ready pop;
* `Pending.pop` — the witness invariant behind completeness: every target not yet done can still be
  reached from a queued op by expansions. When the queue is empty nothing is left undone.
-/

set_option autoImplicit false

namespace Autodist

open Graph

section Traverse

variable {σ : Type} (ends : List Nat) (nbrs : σ → Nat → Except PyError (σ × List Nat))

/-- One pop of `traverse`: an end op is dropped, any other op is handed to `neighbors_fn`. -/
def popOp (s : σ) (x : Nat) : Except PyError (σ × List Nat) :=
  if x ∈ ends then .ok (s, []) else nbrs s x

theorem traverse_cons (n : Nat) (s : σ) (x : Nat) (q : List Nat) :
    traverse ends nbrs (n + 1) s (x :: q) =
      (popOp ends nbrs s x >>= fun r => traverse ends nbrs n r.1 (q ++ r.2)) := by
  unfold popOp
  split
  · rw [traverse, if_pos ‹_›]
    exact (congrArg _ (List.append_nil q)).symm
  · rw [traverse, if_neg ‹_›]

/-- **The run lemma.** An invariant of the configuration that every successful pop preserves holds
at every point of the run. -/
theorem traverse_inv (Inv : σ → List Nat → Prop)
    (hstep : ∀ s x q s' ys, Inv s (x :: q) → popOp ends nbrs s x = .ok (s', ys) → Inv s' (q ++ ys)) :
    ∀ (n : Nat) (s : σ) (q : List Nat) (s' : σ) (q' : List Nat),
      Inv s q → traverse ends nbrs n s q = .ok (s', q') → Inv s' q'
  | 0, s, q, s', q', hi, h => by
    cases h
    exact hi
  | n + 1, s, [], s', q', hi, h => by
    cases h
    exact hi
  | n + 1, s, x :: q, s', q', hi, h => by
    rw [traverse_cons] at h
    cases hx : popOp ends nbrs s x with
    | error e => rw [hx] at h; cases h
    | ok r =>
      rw [hx] at h
      exact traverse_inv Inv hstep n r.1 (q ++ r.2) s' q' (hstep s x q r.1 r.2 hi hx) h

/-- **Termination of the requeueing worklist.** Suppose every pop of an op that is not ready
requeues it and changes nothing, every ready pop succeeds and appends ops of smaller total weight,
and the invariant guarantees a ready op in every nonempty queue. Then some fuel empties the
queue. -/
theorem traverse_ends (w : Nat → Nat) (Ready : σ → Nat → Prop) (Inv : σ → List Nat → Prop)
    (hstep : ∀ s x q s' ys, Inv s (x :: q) → popOp ends nbrs s x = .ok (s', ys) → Inv s' (q ++ ys))
    (hwait : ∀ s x q, Inv s (x :: q) → ¬Ready s x → popOp ends nbrs s x = .ok (s, [x]))
    (hready : ∀ s x q, Inv s (x :: q) → Ready s x →
      ∃ s' ys, popOp ends nbrs s x = .ok (s', ys) ∧ (ys.map w).sum < w x)
    (hprog : ∀ s q, Inv s q → q ≠ [] → ∃ x ∈ q, Ready s x) :
    ∀ (s : σ) (q : List Nat), Inv s q → ∃ n s', traverse ends nbrs n s q = .ok (s', []) := by
  intro s q hi
  generalize hN : (q.map w).sum = N
  induction N using Nat.strong_induction_on generalizing s q with
  | _ N outer =>
    -- a ready pop lowers the weight: the outer induction takes over
    have ready_pop : ∀ x q', ((x :: q').map w).sum = N → Inv s (x :: q') → Ready s x →
        ∃ n s', traverse ends nbrs n s (x :: q') = .ok (s', []) := by
      intro x q' hs hi hx
      obtain ⟨s', ys, hnx, hlt⟩ := hready s x q' hi hx
      have hsum : ((q' ++ ys).map w).sum < N := by
        simp only [List.map_append, List.sum_append, ← hs, List.map_cons, List.sum_cons]
        omega
      obtain ⟨n, s'', hrun⟩ := outer _ hsum s' (q' ++ ys) (hstep s x q' s' ys hi hnx) rfl
      exact ⟨n + 1, s'', by rw [traverse_cons, hnx]; exact hrun⟩
    -- a waiting pop rotates the queue: the ready op moves one place toward the head
    have rotate : ∀ (k x : Nat) (q' : List Nat) (y : Nat), ((x :: q').map w).sum = N → Inv s (x :: q') →
        (x :: q')[k]? = some y → Ready s y → ∃ n s', traverse ends nbrs n s (x :: q') = .ok (s', []) := by
      intro k
      induction k with
      | zero =>
        intro x q' y hs hi hk hy
        obtain rfl : x = y := by simpa using hk
        exact ready_pop x q' hs hi hy
      | succ k ih =>
        intro x q' y hs hi hk hy
        by_cases hx : Ready s x
        · exact ready_pop x q' hs hi hx
        · have hnx := hwait s x q' hi hx
          obtain ⟨x', q'', he⟩ : ∃ x' q'', q' ++ [x] = x' :: q'' :=
            List.exists_cons_of_ne_nil (List.append_ne_nil_of_right_ne_nil _ (List.cons_ne_nil _ _))
          have hk' : q'[k]? = some y := by simpa using hk
          have hlt : k < q'.length := (List.getElem?_eq_some_iff.mp hk').1
          obtain ⟨n, s', hrun⟩ := ih x' q'' y
            (by rw [← he, ← hs]; simp [Nat.add_comm]) (he ▸ hstep s x q' s [x] hi hnx)
            (by rw [← he, List.getElem?_append_left hlt]; exact hk') hy
          exact ⟨n + 1, s', by rw [traverse_cons, hnx]; show traverse ends nbrs n s (q' ++ [x]) = _; rw [he]; exact hrun⟩
    cases q with
    | nil => exact ⟨0, s, rfl⟩
    | cons x q' =>
      obtain ⟨y, hy, hry⟩ := hprog s (x :: q') hi (List.cons_ne_nil _ _)
      obtain ⟨k, hk⟩ := List.mem_iff_getElem?.mp hy
      exact rotate k x q' y hN hi hk hry

end Traverse

/-! ## What a ready pop appends, and its weight -/

/-- The ops a ready pop of `x` appends: its neighbours, or nothing for an end op. -/
def expand (next : Nat → List Nat) (ends : List Nat) (x : Nat) : List Nat :=
  if x ∈ ends then [] else next x

theorem mem_expand {next : Nat → List Nat} {ends : List Nat} {x y : Nat} :
    y ∈ expand next ends x ↔ Step next ends x y := by
  unfold expand Step
  split <;> simp [*]

/-- The number of pops a ready pop of `x` stands for: itself, and the weight of all it appends.
Well defined when appending lowers a measure `μ`. -/
def weight (exp : Nat → List Nat) (μ : Nat → Nat) (hμ : ∀ x, ∀ y ∈ exp x, μ y < μ x)
    (x : Nat) : Nat :=
  1 + ((exp x).attach.map fun y => weight exp μ hμ y.1).sum
termination_by μ x
decreasing_by exact hμ x y.1 y.2

theorem weight_expand_lt {exp : Nat → List Nat} {μ : Nat → Nat} (hμ : ∀ x, ∀ y ∈ exp x, μ y < μ x)
    (x : Nat) : ((exp x).map (weight exp μ hμ)).sum < weight exp μ hμ x := by
  conv => rhs; rw [weight]
  simp only [List.map_attach, List.pmap_eq_map]
  omega

/-! ## The witness invariant -/

section Pending

variable {σ : Type} {next : Nat → List Nat} {ends : List Nat} {Target : Nat → Prop}
  {Done : σ → Nat → Prop}

/-- Every target `u` not yet `Done` is reached, by expansions along `next` that stop at `ends`,
from an op still queued. -/
def Pending (next : Nat → List Nat) (ends : List Nat) (Target : Nat → Prop)
    (Done : σ → Nat → Prop) (s : σ) (q : List Nat) : Prop :=
  ∀ u, Target u → ¬Done s u → ∃ y ∈ q, Path next ends y u

/-- **A pop keeps the witnesses**: a waiting pop requeues its op, a ready pop appends the next op
of every chain through it, and finishes the op itself if it is a target. -/
theorem Pending.pop {s s' : σ} {x : Nat} {q ys : List Nat}
    (h : Pending next ends Target Done s (x :: q)) (hmono : ∀ u, Done s u → Done s' u)
    (hpop : (s' = s ∧ ys = [x]) ∨ (ys = expand next ends x ∧ (Target x → Done s' x))) :
    Pending next ends Target Done s' (q ++ ys) := by
  intro u hu hnd
  obtain ⟨y, hy, hp⟩ := h u hu fun hd => hnd (hmono u hd)
  rcases List.mem_cons.mp hy with rfl | hy
  · rcases hpop with ⟨rfl, rfl⟩ | ⟨rfl, hdone⟩
    · exact ⟨y, by simp, hp⟩
    · rcases hp.cases_head with rfl | ⟨z, hz, hzu⟩
      · exact absurd (hdone hu) hnd
      · exact ⟨z, List.mem_append_right _ (mem_expand.mpr hz), hzu⟩
  · exact ⟨y, List.mem_append_left _ hy, hp⟩

/-- With the queue empty, every target is done. -/
theorem Pending.done {s : σ} (h : Pending next ends Target Done s []) {u : Nat}
    (hu : Target u) : Done s u := by
  by_contra hnd
  obtain ⟨y, hy, -⟩ := h u hu hnd
  cases hy

/-- At the start, every target reached from the start ops is pending. -/
theorem Pending.start {s : σ} {starts : List Nat} (h : ∀ u, Target u → Reach next starts ends u) :
    Pending next ends Target Done s starts :=
  fun u hu _ => h u hu

end Pending

end Autodist
