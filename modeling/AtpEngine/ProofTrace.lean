import AtpEngine.ClauseStore
import AtpEngine.DepthFirst
import Mathlib.Data.List.Perm.Subperm

/-!
Proof extraction and formatting of proof/proof_trace.cc. The derivation is a
graph over clause ids; `extractLoop` is its stack search, with the sentinel
pushed for missing parents. Text is a list of characters, the UTF-8 strings of
the source being read as the characters they encode.
-/
namespace AtpEngine

open Fuelled DepthFirst

structure ProofStep where
  clauseId : ClauseId
  rule : InferenceRule
  parent1 : ClauseId
  parent2 : ClauseId
  deriving DecidableEq, Repr

section Extraction

def extractLoop (store : ClauseStore) :
    Nat → List ClauseId → List ClauseId → List ProofStep → Except Fault (List ProofStep)
  | 0, _, _, _ => .error .outOfFuel
  | _ + 1, [], _, steps => .ok steps
  | fuel + 1, cid :: worklist, visited, steps =>
      if cid = kInvalidId then extractLoop store fuel worklist visited steps
      else if cid ∈ visited then extractLoop store fuel worklist visited steps
      else do
        let c ← store.getClause cid
        let steps := steps ++ [⟨cid, c.rule, c.parent1, c.parent2⟩]
        extractLoop store fuel (c.parent2 :: c.parent1 :: worklist) (cid :: visited) steps

def extractProof (fuel : Nat) (store : ClauseStore) (emptyClauseId : ClauseId) :
    Except Fault (List ProofStep) := do
  let steps ← extractLoop store fuel [emptyClauseId] [] []
  pure steps.reverse

/-- The ids that are no sentinel, in the order the stack yields them. -/
def realIds (ids : List ClauseId) : List ClauseId := ids.filter fun id => id != kInvalidId

/-- The parents of a stored clause, the one on top of the stack first. -/
def ClauseStore.parents (store : ClauseStore) (id : ClauseId) : List ClauseId :=
  match store.find id with
  | some c => realIds [c.parent2, c.parent1]
  | none => []

/-- `ancestor` is `id` itself or reachable from it through the parents. -/
def ClauseStore.Reaches (store : ClauseStore) (id ancestor : ClauseId) : Prop :=
  Reach store.parents id ancestor

def ClauseStore.Records (store : ClauseStore) (step : ProofStep) : Prop :=
  ∃ c, store.find step.clauseId = some c ∧ step.rule = c.rule ∧ step.parent1 = c.parent1 ∧
    step.parent2 = c.parent2

/-- Every parent id is the sentinel or the id of a stored clause. -/
def ClauseStore.ParentsInRange (store : ClauseStore) : Prop :=
  ∀ id c, store.find id = some c → ∀ parent, parent = c.parent1 ∨ parent = c.parent2 →
    parent = kInvalidId ∨ ∃ d, store.find parent = some d

theorem mem_parents {store : ClauseStore} {id parent : ClauseId} :
    parent ∈ store.parents id ↔ ∃ c, store.find id = some c ∧ parent ≠ kInvalidId ∧
      (parent = c.parent1 ∨ parent = c.parent2) := by
  unfold ClauseStore.parents
  cases found : store.find id with
  | none => simp
  | some c =>
      simp only [realIds, List.mem_filter, List.mem_cons, List.not_mem_nil, or_false, bne_iff_ne,
        Option.some.injEq, exists_eq_left']
      exact ⟨fun h => ⟨h.2, h.1.symm⟩, fun h => ⟨h.2.symm, h.1⟩⟩

theorem parents_length (store : ClauseStore) (id : ClauseId) : (store.parents id).length ≤ 2 := by
  unfold ClauseStore.parents
  split
  · exact List.length_filter_le _ _
  · exact Nat.zero_le _

theorem extractLoop_explored {store : ClauseStore} {fuel : Nat} {worklist visited : List ClauseId}
    {steps out : List ProofStep} (tracked : steps.map (·.clauseId) = visited.reverse)
    (recorded : ∀ step ∈ steps, store.Records step)
    (run : extractLoop store fuel worklist visited steps = .ok out) :
    (∀ step ∈ out, store.Records step) ∧
      Explored store.parents (realIds worklist) visited (out.map (·.clauseId)).reverse := by
  induction fuel generalizing worklist visited steps with
  | zero => cases run
  | succ fuel ih =>
      cases worklist with
      | nil =>
          rcases Except.ok.inj run with rfl
          refine ⟨recorded, ?_⟩
          rw [tracked, List.reverse_reverse]
          exact .nil visited
      | cons cid worklist =>
          rw [extractLoop] at run
          split at run
          · next sentinel =>
              subst sentinel
              have skip : realIds (kInvalidId :: worklist) = realIds worklist := rfl
              rw [skip]
              exact ih tracked recorded run
          · next real =>
              have top : realIds (cid :: worklist) = cid :: realIds worklist :=
                List.filter_cons_of_pos (bne_iff_ne.mpr real)
              rw [top]
              split at run
              · next seen =>
                  rcases ih tracked recorded run with ⟨records, explored⟩
                  exact ⟨records, .skip seen explored⟩
              · next unseen =>
                  rcases bind_ok_iff.mp run with ⟨c, read, run⟩
                  have found := ClauseStore.getClause_ok.mp read
                  let step : ProofStep := ⟨cid, c.rule, c.parent1, c.parent2⟩
                  have known : (steps ++ [step]).map (·.clauseId) = (cid :: visited).reverse := by
                    simp [tracked, step]
                  have inner := ih known
                    (fun step member => (List.mem_append.mp member).elim (recorded step) fun h => by
                      rw [List.mem_singleton.mp h]
                      exact ⟨c, found, rfl, rfl, rfl⟩) run
                  rcases inner with ⟨records, explored⟩
                  have split : realIds (c.parent2 :: c.parent1 :: worklist) =
                      store.parents cid ++ realIds worklist := by
                    simp only [ClauseStore.parents, found, realIds, ← List.filter_append]
                    rfl
                  rw [split] at explored
                  rcases explored.append with ⟨mid, first, second⟩
                  exact ⟨records, .visit unseen first second⟩

theorem extractProof_explored {store : ClauseStore} {fuel : Nat} {root : ClauseId}
    {proof : List ProofStep} (real : root ≠ kInvalidId)
    (run : extractProof fuel store root = .ok proof) :
    (∀ step ∈ proof, store.Records step) ∧
      Explored store.parents [root] [] (proof.map (·.clauseId)) := by
  rcases bind_ok_iff.mp run with ⟨steps, loop, run⟩
  rcases pure_ok_iff.mp run with rfl
  rcases extractLoop_explored (by rfl) (by simp) loop with ⟨records, explored⟩
  have top : realIds [root] = [root] := List.filter_cons_of_pos (bne_iff_ne.mpr real)
  rw [top, ← List.map_reverse] at explored
  exact ⟨fun step member => records step (List.mem_reverse.mp member), explored⟩

/-- The search ends: a turn visits a new stored id or shortens the stack. -/
theorem extractLoop_returns {store : ClauseStore} (inRange : store.ParentsInRange) :
    ∀ (worklist visited : List ClauseId) (steps : List ProofStep), visited.Nodup →
      (∀ id ∈ visited, ∃ c, store.find id = some c) →
      (∀ id ∈ worklist, id = kInvalidId ∨ ∃ c, store.find id = some c) →
      ∃ out, Returns (fun fuel => extractLoop store fuel worklist visited steps) out
  | [], visited, steps, _, _, _ =>
      ⟨steps, .succ (.congr (fun _ => by rw [extractLoop]) (.const steps))⟩
  | cid :: worklist, visited, steps, nodup, seen, pending => by
      have rest : ∀ id ∈ worklist, id = kInvalidId ∨ ∃ c, store.find id = some c :=
        fun id member => pending id (List.mem_cons_of_mem cid member)
      by_cases sentinel : cid = kInvalidId
      · rcases extractLoop_returns inRange worklist visited steps nodup seen rest with
          ⟨out, done⟩
        exact ⟨out, .succ (done.congr fun _ => by rw [extractLoop, if_pos sentinel])⟩
      by_cases member : cid ∈ visited
      · rcases extractLoop_returns inRange worklist visited steps nodup seen rest with
          ⟨out, done⟩
        exact ⟨out, .succ (done.congr fun _ => by
          rw [extractLoop, if_neg sentinel, if_pos member])⟩
      rcases (pending cid List.mem_cons_self).resolve_left sentinel with ⟨c, found⟩
      have parents := inRange cid c found
      have nodup' : (cid :: visited).Nodup := List.nodup_cons.mpr ⟨member, nodup⟩
      have seen' : ∀ id ∈ cid :: visited, ∃ c, store.find id = some c := fun id inside =>
        (List.mem_cons.mp inside).elim (fun h => h ▸ ⟨c, found⟩) (seen id)
      have fewer : visited.length + 1 ≤ store.size := by
        have listed : cid :: visited ⊆ (List.range store.size).map some := by
          intro id inside
          rcases seen' id inside with ⟨d, known⟩
          rcases ClauseStore.find_iff.mp known with ⟨k, rfl, entry⟩
          exact List.mem_map.mpr
            ⟨k, List.mem_range.mpr (List.getElem?_eq_some_iff.mp entry).1, rfl⟩
        simpa using (nodup'.subperm listed).length_le
      rcases extractLoop_returns inRange (c.parent2 :: c.parent1 :: worklist) (cid :: visited)
        (steps ++ [⟨cid, c.rule, c.parent1, c.parent2⟩]) nodup' seen' (fun id inside => by
          simp only [List.mem_cons] at inside
          rcases inside with rfl | rfl | tail
          · exact parents _ (Or.inr rfl)
          · exact parents _ (Or.inl rfl)
          · exact rest id tail) with ⟨out, done⟩
      refine ⟨out, .succ (done.congr fun _ => ?_)⟩
      rw [extractLoop, if_neg sentinel, if_neg member, ClauseStore.getClause_ok.mpr found]
      rfl
termination_by worklist visited => (store.size - visited.length, worklist.length)
decreasing_by
  all_goals
    simp only [Prod.lex_def, List.length_cons, true_and]
    omega

theorem extractProof_returns {store : ClauseStore} (inRange : store.ParentsInRange)
    {root : ClauseId} (stored : ∃ c, store.find root = some c) :
    ∃ proof, Returns (fun fuel => extractProof fuel store root) proof := by
  rcases extractLoop_returns inRange [root] [] [] List.nodup_nil (by simp)
    (fun id member => Or.inr (by rwa [List.mem_singleton.mp member])) with ⟨steps, done⟩
  exact ⟨steps.reverse, done.bind (.const _)⟩

theorem stored_ne_invalid {store : ClauseStore} {id : ClauseId} {c : Clause}
    (found : store.find id = some c) : id ≠ kInvalidId := by
  rintro rfl
  cases found

end Extraction

end AtpEngine
