import Mathlib.Data.Multiset.DershowitzManna
import Mathlib.Order.UpperLower.CompleteLattice
import Mathlib.Order.WellQuasiOrder

/-!
Two reasons for a worklist to run empty. Where each element taken out is replaced
by elements of lower rank, the multiset of ranks decreases. Where each element
taken out enlarges what is covered, and what covers an element covers all above
it, the covered sets grow, which a well-quasi-order allows finitely often.
-/
namespace AtpEngine.Exhaustion

variable {α β : Type*}

theorem taken_lt [Preorder β] (rank : α → β) {a : α} {queue rest added queue' : List α}
    (taken : queue.Perm (a :: rest)) (put : queue'.Perm (added ++ rest))
    (lower : ∀ b ∈ added, rank b < rank a) :
    Multiset.IsDershowitzMannaLT (queue'.map rank : Multiset β)
      (queue.map rank : Multiset β) := by
  refine ⟨rest.map rank, added.map rank, {rank a}, by simp, ?_, ?_, ?_⟩
  · rw [Multiset.coe_add, ← List.map_append, Multiset.coe_eq_coe]
    exact (put.trans List.perm_append_comm).map rank
  · rw [Multiset.add_comm, Multiset.singleton_add, Multiset.cons_coe, Multiset.coe_eq_coe]
    exact taken.map rank
  · intro b member
    rcases List.mem_map.mp (Multiset.mem_coe.mp member) with ⟨c, inside, rfl⟩
    exact ⟨rank a, Multiset.mem_singleton_self _, lower c inside⟩

theorem upperSet_wellFounded [Preorder α] [WellQuasiOrderedLE α] :
    WellFounded (fun s t : UpperSet α => s < t) := by
  rw [wellFounded_iff_isEmpty_descending_chain]
  refine ⟨fun ⟨chain, grows⟩ => ?_⟩
  have new : ∀ n, ∃ a, a ∈ chain (n + 1) ∧ a ∉ chain n := by
    intro n
    rcases Set.not_subset.mp (not_le_of_gt (grows n)) with ⟨a, inside, outside⟩
    exact ⟨a, inside, outside⟩
  choose first inside outside using new
  rcases wellQuasiOrdered_le first with ⟨i, j, before, above⟩
  have later : chain j ≤ chain (i + 1) := antitone_nat_of_succ_le (fun n => (grows n).le) before
  exact outside j ((chain j).upper above (later (inside i)))

end AtpEngine.Exhaustion
