import Mathlib.Logic.Relation
import Mathlib.Algebra.Order.BigOperators.Group.List
import Mathlib.Algebra.Order.Ring.Nat

/-!
# `Autodist/Graph.lean` — the op graph, and the two reachability sets of `__init__`

`PSGradientTaskAssigner` reads a TensorFlow graph through four calls of the graph access layer:
`curr_op.inputs` (each input tensor's producing op), `get_consumers(op)`, `op.name` for the error
message, and the two set-valued helpers `get_ancestors` and `traverse` of
`autodist.kernel.common.utils`. Those two helpers are not part of the repository's source we model;
their behaviour is fixed by the reading the task assigner's own code relies on: both are
**reachability** from a list of start ops along one kind of edge, stopping at (and including) the
end ops. `traverse` with a `neighbors_fn` (`Autodist/TaskAssigner/Basic.lean`) is the same loop:
an end op is popped and dropped, never handed to `neighbors_fn`.

Ops are `Nat` ids — the arena the design notes ask for. A graph carries a rank that strictly grows
along every data edge; that field is the whole of acyclicity, and every finite acyclic graph has one
(its longest-path depth). Nothing here asks the graph to be finite beyond its finite adjacency lists,
so every theorem over `Graph` is also a theorem over every finite DAG.

`getAncestors` is computed as a list by recursion on the rank; `traverseReaches` decides membership
in `traverse`'s set by the same recursion run backwards. Both are structurally recursive on fuel
(`rank + 1` suffices), so concrete assigners evaluate by `decide`, and `mem_getAncestors` and
`traverseReaches_iff` tie them to the one inductive notion `Reach` that every proof uses.
-/

set_option autoImplicit false

namespace Autodist

/-- A computation graph as the task assigner sees it. -/
structure Graph where
  /-- `op.name` -/
  name : Nat → String
  /-- `[t.op for t in op.inputs]`, in input order. -/
  inputs : Nat → List Nat
  /-- `get_consumers(op)`, in the graph's own enumeration order. -/
  consumers : Nat → List Nat
  mem_consumers : ∀ {x y : Nat}, y ∈ consumers x ↔ x ∈ inputs y
  /-- A rank growing along every data edge: the witness that the graph is acyclic. -/
  rank : Nat → Nat
  rank_lt : ∀ {x y : Nat}, x ∈ inputs y → rank x < rank y

namespace Graph

/-- A graph from a list of data edges `(producer, consumer)` numbered in topological order. -/
def ofEdges (names : Nat → String) (edges : List (Nat × Nat))
    (h : ∀ e ∈ edges, e.1 < e.2) : Graph where
  name := names
  inputs y := (edges.filter fun e => e.2 = y).map Prod.fst
  consumers x := (edges.filter fun e => e.1 = x).map Prod.snd
  mem_consumers := by simp
  rank := id
  rank_lt := by
    intro x y hx
    simp only [List.mem_map, List.mem_filter, decide_eq_true_eq] at hx
    obtain ⟨e, ⟨he, rfl⟩, rfl⟩ := hx
    exact h e he

/-! ## 1. Traversals and what they reach -/

/-- One expansion of a traversal along `next` that stops at `ends`: `x` is expanded because it is
not an end op, and `y` is one of its neighbours. -/
def Step (next : Nat → List Nat) (ends : List Nat) (x y : Nat) : Prop :=
  x ∉ ends ∧ y ∈ next x

/-- `y` is reached from `x` by a chain of expansions. -/
abbrev Path (next : Nat → List Nat) (ends : List Nat) : Nat → Nat → Prop :=
  Relation.ReflTransGen (Step next ends)

/-- The set a traversal from `starts` along `next` visits, end ops included but not expanded. -/
def Reach (next : Nat → List Nat) (starts ends : List Nat) (y : Nat) : Prop :=
  ∃ x ∈ starts, Path next ends x y

theorem Reach.start {next : Nat → List Nat} {starts ends : List Nat} {x : Nat}
    (h : x ∈ starts) : Reach next starts ends x :=
  ⟨x, h, .refl⟩

theorem Reach.step {next : Nat → List Nat} {starts ends : List Nat} {x y : Nat}
    (hx : Reach next starts ends x) (hend : x ∉ ends) (hy : y ∈ next x) :
    Reach next starts ends y :=
  let ⟨z, hz, hp⟩ := hx
  ⟨z, hz, hp.tail ⟨hend, hy⟩⟩

theorem reach_iff {next : Nat → List Nat} {starts ends : List Nat} {y : Nat} :
    Reach next starts ends y ↔
      y ∈ starts ∨ ∃ x, Reach next starts ends x ∧ x ∉ ends ∧ y ∈ next x := by
  constructor
  · rintro ⟨z, hz, hp⟩
    rcases hp.cases_tail with rfl | ⟨x, hzx, hend, hy⟩
    · exact .inl hz
    · exact .inr ⟨x, ⟨z, hz, hzx⟩, hend, hy⟩
  · rintro (h | ⟨x, hx, hend, hy⟩)
    · exact .start h
    · exact hx.step hend hy

/-- Reachability reads `next`, `starts` and `ends` only through membership. -/
theorem reach_congr {next next' : Nat → List Nat} {starts starts' ends ends' : List Nat}
    (hn : ∀ x y, y ∈ next x ↔ y ∈ next' x) (hs : ∀ x, x ∈ starts ↔ x ∈ starts')
    (he : ∀ x, x ∈ ends ↔ x ∈ ends') (y : Nat) :
    Reach next starts ends y ↔ Reach next' starts' ends' y := by
  have hstep : ∀ x z, Step next ends x z ↔ Step next' ends' x z := fun x z => by
    simp only [Step, hn, he]
  have hrel : Step next ends = Step next' ends' := funext fun x => funext fun z => propext (hstep x z)
  simp only [Reach, Path, hrel, hs]

/-- Along `inputs` the rank falls. -/
theorem Path.rank_le_of_inputs (g : Graph) {ends : List Nat} {x y : Nat}
    (h : Path g.inputs ends x y) : g.rank y ≤ g.rank x := by
  induction h with
  | refl => exact le_rfl
  | tail _ hs ih => exact (g.rank_lt hs.2).le.trans ih

/-- Along (a filter of) `get_consumers` the rank rises. -/
theorem Path.rank_le_of_consumers (g : Graph) {p : Nat → Bool} {ends : List Nat} {x y : Nat}
    (h : Path (fun z => (g.consumers z).filter p) ends x y) : g.rank x ≤ g.rank y := by
  induction h with
  | refl => exact le_rfl
  | tail _ hs ih =>
    exact ih.trans (g.rank_lt (g.mem_consumers.mp (List.mem_filter.mp hs.2).1)).le

/-! ## 2. `get_ancestors`, computed -/

/-- The ops `get_ancestors` collects below `y`, with `n` as fuel (`rank y + 1` is enough). -/
def ancestorsFrom (g : Graph) (endOps : List Nat) : Nat → Nat → List Nat
  | 0, _ => []
  | n + 1, y => y :: if y ∈ endOps then [] else (g.inputs y).flatMap (g.ancestorsFrom endOps n)

/-- `get_ancestors(start_ops, end_ops)`: every op reached from a start op along inputs, end ops
included but not expanded. -/
def getAncestors (g : Graph) (startOps endOps : List Nat) : List Nat :=
  startOps.flatMap fun y => g.ancestorsFrom endOps (g.rank y + 1) y

theorem path_of_mem_ancestorsFrom (g : Graph) {endOps : List Nat} :
    ∀ {n y x : Nat}, x ∈ g.ancestorsFrom endOps n y → Path g.inputs endOps y x
  | 0, _, _, h => by simp [ancestorsFrom] at h
  | n + 1, y, x, h => by
    simp only [ancestorsFrom, List.mem_cons] at h
    rcases h with rfl | h
    · exact .refl
    · split at h
      · simp at h
      · obtain ⟨z, hz, hx⟩ := List.mem_flatMap.mp h
        exact .head ⟨‹_›, hz⟩ (path_of_mem_ancestorsFrom g hx)

theorem mem_ancestorsFrom_of_path (g : Graph) {endOps : List Nat} {y x : Nat}
    (h : Path g.inputs endOps y x) : ∀ {n : Nat}, g.rank y < n → x ∈ g.ancestorsFrom endOps n y := by
  induction h using Relation.ReflTransGen.head_induction_on with
  | refl =>
    intro n hn
    obtain ⟨m, rfl⟩ := Nat.exists_eq_add_of_lt hn
    simp [ancestorsFrom]
  | @head y z hs _ ih =>
    intro n hn
    obtain ⟨m, rfl⟩ := Nat.exists_eq_add_of_lt hn
    have hlt := g.rank_lt hs.2
    simp only [ancestorsFrom, if_neg hs.1, List.mem_cons, List.mem_flatMap]
    exact .inr ⟨z, hs.2, ih (by omega)⟩

/-- **`getAncestors` is the set `Reach` describes.** -/
theorem mem_getAncestors {g : Graph} {startOps endOps : List Nat} {x : Nat} :
    x ∈ g.getAncestors startOps endOps ↔ Reach g.inputs startOps endOps x := by
  simp only [getAncestors, List.mem_flatMap]
  constructor
  · rintro ⟨y, hy, hx⟩
    exact ⟨y, hy, g.path_of_mem_ancestorsFrom hx⟩
  · rintro ⟨y, hy, hp⟩
    exact ⟨y, hy, g.mem_ancestorsFrom_of_path hp (Nat.lt_succ_self _)⟩

/-! ## 3. `traverse` along consumers, decided -/

/-- Does `traverse(start_ops, end_ops)` reach `x`? Decided by walking `x`'s inputs, `n` as fuel. -/
def reachesFrom (g : Graph) (startOps endOps : List Nat) : Nat → Nat → Bool
  | 0, _ => false
  | n + 1, x => decide (x ∈ startOps) ||
      (g.inputs x).any fun y => decide (y ∉ endOps) && g.reachesFrom startOps endOps n y

/-- Membership in the set `traverse(start_ops, end_ops)` returns with `get_consumers` as neighbours. -/
def traverseReaches (g : Graph) (startOps endOps : List Nat) (x : Nat) : Bool :=
  g.reachesFrom startOps endOps (g.rank x + 1) x

theorem reachesFrom_iff (g : Graph) {startOps endOps : List Nat} :
    ∀ {n x : Nat}, g.rank x < n →
      (g.reachesFrom startOps endOps n x = true ↔ Reach g.consumers startOps endOps x)
  | 0, _, h => absurd h (Nat.not_lt_zero _)
  | n + 1, x, h => by
    rw [reach_iff]
    simp only [reachesFrom, Bool.or_eq_true, decide_eq_true_eq, List.any_eq_true,
      Bool.and_eq_true, decide_eq_true_eq, g.mem_consumers]
    refine or_congr Iff.rfl ⟨?_, ?_⟩
    · rintro ⟨y, hy, hend, hr⟩
      exact ⟨y, (g.reachesFrom_iff (by have := g.rank_lt hy; omega)).mp hr, hend, hy⟩
    · rintro ⟨y, hr, hend, hy⟩
      exact ⟨y, hy, hend, (g.reachesFrom_iff (by have := g.rank_lt hy; omega)).mpr hr⟩

/-- **`traverseReaches` decides `Reach` along consumers.** -/
theorem traverseReaches_iff {g : Graph} {startOps endOps : List Nat} {x : Nat} :
    g.traverseReaches startOps endOps x = true ↔ Reach g.consumers startOps endOps x :=
  g.reachesFrom_iff (Nat.lt_succ_self _)

end Graph

end Autodist
