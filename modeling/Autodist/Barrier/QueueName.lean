import Autodist.Network.Address

/-!
# `Autodist/Barrier/QueueName.lean` — the shared names of the barrier's queues

`_get_queue_ops` builds, for the variable `var_op` and each worker `i` in `range(num_workers)`, the
one-slot queue

    FIFOQueue(1, [dtypes.bool], shapes=[[]],
              name='auto_parallel_%s_update_sync_queue_%d' % (var_op.name, i),
              shared_name='auto_parallel_%s_update_sync_queue_%d' % (var_op.name, i))

and the workers' graphs meet in a queue through its shared name: two queues with one shared name
are one queue. `Autodist/Barrier/Basic.lean` keys the queues by the pair `(v, j)`, and
`updateSyncQueueName_eq_iff` is what makes that faithful: the name is one-to-one in the pair, for
every variable name, whatever characters it holds, and every index.

The index is the text after the name's last `_`, since `'%d' % i` is digits only, so
`str.rpartition('_')` reads it back (`rpartition_updateSyncQueueName`); what stands before that `_`
then gives the variable's name.
-/

set_option autoImplicit false

namespace Autodist
namespace Barrier

open Network

/-- `'auto_parallel_%s_update_sync_queue_%d' % (var_op.name, i)`: the name and the shared name of
queue `i` of the variable whose op is named `varOpName`. -/
def updateSyncQueueName (varOpName : String) (i : Nat) : String :=
  "auto_parallel_" ++ varOpName ++ "_update_sync_queue_" ++ String.mk (pyStr i)

theorem updateSyncQueueName_toList (n : String) (i : Nat) :
    (updateSyncQueueName n i).toList =
      ("auto_parallel_" ++ n ++ "_update_sync_queue").toList ++ '_' :: pyStr i := by
  simp only [updateSyncQueueName, String.toList, String.data_append, List.append_assoc]
  rfl

/-- The name's last `_` is the one before the index: `rpartition('_')` splits off `str(i)`. -/
theorem rpartition_updateSyncQueueName (n : String) (i : Nat) :
    rpartition '_' (updateSyncQueueName n i).toList =
      (("auto_parallel_" ++ n ++ "_update_sync_queue").toList, ['_'], pyStr i) := by
  rw [updateSyncQueueName_toList]
  exact rpartition_append (not_mem_pyStr (by decide) i) _

/-- **No two (variable, worker) pairs share a barrier queue**: the shared name determines the
variable's name and the worker's index. -/
theorem updateSyncQueueName_eq_iff {n₁ n₂ : String} {i₁ i₂ : Nat} :
    updateSyncQueueName n₁ i₁ = updateSyncQueueName n₂ i₂ ↔ n₁ = n₂ ∧ i₁ = i₂ := by
  constructor
  · intro h
    have hr := congrArg (fun s => rpartition '_' s.toList) h
    simp only [rpartition_updateSyncQueueName, Prod.mk.injEq] at hr
    obtain ⟨hn, -, hi⟩ := hr
    simp only [String.toList, String.data_append, List.append_assoc] at hn
    exact ⟨String.ext (List.append_cancel_right (List.append_cancel_left hn)), pyStr_injective hi⟩
  · rintro ⟨rfl, rfl⟩
    rfl

end Barrier
end Autodist
