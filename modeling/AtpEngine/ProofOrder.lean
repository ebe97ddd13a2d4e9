import AtpEngine.MainProgram
import AtpEngine.ProofExtraction
import AtpEngine.Provenance

/-!
The order of an extracted proof. The search lists a clause before the parents it
reaches first, so the list is topological exactly when, below the root, the first
parent of a clause is an ancestor of the second or shares no ancestor with it.
-/
namespace AtpEngine

open Fuelled DepthFirst

/-- Every parent of a step is derived at a strictly earlier position. -/
def TopologicalOrder (proof : List ProofStep) : Prop :=
  ∀ (i : Nat) step, proof[i]? = some step →
    ∀ parent, parent = step.parent1 ∨ parent = step.parent2 → parent ≠ kInvalidId →
      ∃ j < i, ∃ earlier, proof[j]? = some earlier ∧ earlier.clauseId = parent

/-- The first parent is an ancestor of the second, or they have no common one;
every clause counts as an ancestor of itself. -/
def ClauseStore.ParentsApart (store : ClauseStore) (id : ClauseId) : Prop :=
  ∀ c, store.find id = some c → c.parent1 ≠ kInvalidId → c.parent2 ≠ kInvalidId →
    store.Reaches c.parent2 c.parent1 ∨
      ∀ ancestor, ¬ (store.Reaches c.parent2 ancestor ∧ store.Reaches c.parent1 ancestor)

theorem parentsApart_iff {store : ClauseStore} {id : ClauseId} :
    store.ParentsApart id ↔ (store.parents id).Pairwise (Apart store.parents) := by
  unfold ClauseStore.ParentsApart
  cases found : store.find id with
  | none => simp [ClauseStore.parents, found]
  | some c =>
      have parents : store.parents id = realIds [c.parent2, c.parent1] := by
        simp [ClauseStore.parents, found]
      rw [parents]
      by_cases first : c.parent1 = kInvalidId
      · have none_first : ∀ d, some c = some d → d.parent1 ≠ kInvalidId → False := by
          intro d same real
          rw [← Option.some.inj same] at real
          exact real first
        refine ⟨fun _ => ?_, fun _ d same real _ => (none_first d same real).elim⟩
        by_cases second : c.parent2 = kInvalidId <;> simp [realIds, first, second]
      · by_cases second : c.parent2 = kInvalidId
        · refine ⟨fun _ => ?_, fun _ d same _ real => ?_⟩
          · simp [realIds, first, second]
          · rw [← Option.some.inj same] at real
            exact absurd second real
        · have both : realIds [c.parent2, c.parent1] = [c.parent2, c.parent1] := by
            simp [realIds, first, second]
          rw [both, List.pairwise_pair]
          constructor
          · exact fun apart => apart c rfl first second
          · intro apart d same _ _
            rw [← Option.some.inj same]
            exact apart

theorem topologicalOrder_iff {store : ClauseStore} {proof : List ProofStep}
    (records : ∀ step ∈ proof, store.Records step) (nodup : (proof.map (·.clauseId)).Nodup)
    (closed : ∀ id ∈ proof.map (·.clauseId), ∀ parent ∈ store.parents id,
      parent ∈ proof.map (·.clauseId)) :
    TopologicalOrder proof ↔ Ordered store.parents (proof.map (·.clauseId)) := by
  constructor
  · rintro order id older ⟨newer, split⟩ parent edge
    rcases List.map_eq_append_iff.mp split.symm with ⟨front, back, rfl, isFront, isBack⟩
    rcases List.map_eq_cons_iff.mp isBack with ⟨step, rest, rfl, rfl, isOlder⟩
    have at_step : (front ++ step :: rest)[front.length]? = some step := by simp
    rcases records step (by simp) with ⟨c, found, _, first, second⟩
    rcases mem_parents.mp edge with ⟨c', found', real, is⟩
    rcases Option.some.inj (found.symm.trans found') with rfl
    rw [← first, ← second] at is
    rcases order _ step at_step parent is real with ⟨j, before, earlier, at_j, rfl⟩
    have inFront : earlier.clauseId ∈ newer := by
      rw [List.getElem?_append_left before] at at_j
      rw [← isFront]
      exact List.mem_map.mpr ⟨earlier, List.mem_of_getElem? at_j, rfl⟩
    rw [← split] at nodup
    exact fun inBack => (List.nodup_append.mp nodup).2.2 _ inFront _ inBack rfl
  · intro ordered i step at_i parent is real
    rcases List.getElem?_eq_some_iff.mp at_i with ⟨hi, rfl⟩
    rcases records _ (List.getElem_mem hi) with ⟨c, found, _, first, second⟩
    have edge : parent ∈ store.parents proof[i].clauseId :=
      mem_parents.mpr ⟨c, found, real, by rw [← first, ← second]; exact is⟩
    have split : proof.take i ++ proof[i] :: proof.drop (i + 1) = proof := by
      rw [List.getElem_cons_drop, List.take_append_drop]
    have ids := congrArg (List.map (·.clauseId)) split
    rw [List.map_append, List.map_cons] at ids
    have outside := ordered _ _ ⟨_, ids⟩ parent edge
    have listed := closed _ (List.mem_map.mpr ⟨_, List.getElem_mem hi, rfl⟩) parent edge
    rw [← ids] at listed
    rcases List.mem_append.mp listed with early | late
    · rcases List.mem_map.mp early with ⟨earlier, member, rfl⟩
      rcases List.getElem?_of_mem member with ⟨j, at_j⟩
      rw [List.getElem?_take] at at_j
      split at at_j
      · next before => exact ⟨j, before, earlier, at_j, rfl⟩
      · cases at_j
    · exact absurd late outside

theorem parents_acyclic {store : ClauseStore}
    (older : ∀ (k : Nat) c, store.clauses[k]? = some c → c.LinkedBelow k) :
    Acyclic store.parents := by
  have edge : ∀ {u v : ClauseId}, v ∈ store.parents u →
      ∃ j k : Nat, u = some k ∧ v = some j ∧ j < k := by
    intro u v child
    rcases mem_parents.mp child with ⟨c, found, real, is⟩
    rcases ClauseStore.find_iff.mp found with ⟨k, rfl, entry⟩
    rcases (older k c entry v is).resolve_left real with ⟨j, below, rfl⟩
    exact ⟨j, k, rfl, rfl, below⟩
  have path : ∀ {u v : ClauseId}, Reach store.parents u v → ∀ k, u = some k →
      ∃ j, v = some j ∧ j ≤ k := by
    intro u v path
    induction path with
    | refl => exact fun k same => ⟨k, same, Nat.le_refl k⟩
    | tail _ step ih =>
        intro k same
        rcases ih k same with ⟨j, rfl, le⟩
        rcases edge step with ⟨i, j', same', rfl, lt⟩
        rcases Option.some.inj same' with rfl
        exact ⟨i, rfl, by omega⟩
  intro u v child back
  rcases edge child with ⟨j, k, rfl, rfl, lt⟩
  rcases path back j rfl with ⟨i, same, le⟩
  rcases Option.some.inj same with rfl
  omega

theorem extractProof_order {store : ClauseStore}
    (older : ∀ (k : Nat) c, store.clauses[k]? = some c → c.LinkedBelow k) {fuel : Nat}
    {root : ClauseId} (real : root ≠ kInvalidId) {proof : List ProofStep}
    (run : extractProof fuel store root = .ok proof) :
    TopologicalOrder proof ↔ ∀ id, store.Reaches root id → store.ParentsApart id := by
  rcases extractProof_explored real run with ⟨records, explored⟩
  rcases explored.root with ⟨members, nodup, _⟩
  rw [topologicalOrder_iff records nodup fun id member parent edge =>
    (members parent).mpr (((members id).mp member).tail edge)]
  rw [explored.ordered_iff (parents_acyclic older) (parents_length store)]
  exact forall₂_congr fun id _ => parentsApart_iff.symm

section Runs

variable {initial : List Clause} {p : Prover}

theorem StoreInv.older (inv : StoreInv initial p) (inputs : ∀ c ∈ initial, c.IsInput) (k : Nat)
    (c : Clause) (entry : p.store.clauses[k]? = some c) : c.LinkedBelow k := by
  rcases inv.linked k c entry with ⟨c0, member, same⟩ | linked
  · rw [same]
    rintro parent (rfl | rfl)
    · exact Or.inl (inputs c0 member).parent1
    · exact Or.inl (inputs c0 member).parent2
  · exact linked

theorem StoreInv.parentsInRange (inv : StoreInv initial p) (inputs : ∀ c ∈ initial, c.IsInput) :
    p.store.ParentsInRange := by
  intro id d found parent is
  rcases inv.found found with ⟨k, below, rfl, _, entry⟩
  refine (inv.older inputs k d entry parent is).imp_right ?_
  rintro ⟨j, lt, rfl⟩
  exact ⟨_, List.getElem?_eq_getElem (Nat.lt_trans lt below)⟩

end Runs

/-- The proof of any successful run is in topological order exactly when the
parents of every clause of the derivation are apart. -/
theorem proof_order (runtime : Runtime) (config : ProverConfig) (first : Env)
    {initial : List Clause} (inputs : ∀ c ∈ initial, c.IsInput) {fuel : Nat} {p p' : Prover}
    (added : Prover.addClauses runtime config initial { env := first } = .ok p)
    (run : Prover.prove runtime config fuel p = .ok (.kTheorem, p')) :
    ∃ root proof, p'.getEmptyClauseId = some root ∧
      Returns (fun fuel => extractProof fuel p'.store root) proof ∧
      (TopologicalOrder proof ↔ ∀ id, p'.store.Reaches root id →
        p'.store.ParentsApart id) := by
  rcases prove_returns run with ⟨last, log, returns⟩
  rcases returns.storeInv (StoreInv.init added).1 with ⟨inv, empty⟩
  rcases empty rfl with ⟨root, c, isRoot, found, _⟩
  rcases extractProof_returns (inv.parentsInRange inputs) ⟨c, found⟩ with ⟨proof, done⟩
  rcases done.exists with ⟨fuel', extract⟩
  exact ⟨root, proof, isRoot, done,
    extractProof_order (inv.older inputs) (stored_ne_invalid found) extract⟩

/-- p(a) or p(b), and no p(X). The unit clause is used twice. -/
def sharedUnitInput : Text := "cnf(a,axiom,p(a)|p(b)). cnf(b,axiom,~p(X)).".toList

theorem proof_order_sample : ∃ (p' : Prover) (root : ClauseId) (proof : List ProofStep),
    p'.getEmptyClauseId = some root ∧
      Returns (fun fuel => extractProof fuel p'.store root) proof ∧
      (TopologicalOrder proof ↔ ∀ id, p'.store.Reaches root id →
        p'.store.ParentsApart id) := by
  have answer : (Prod.fst <$> proveInput .plain {} 50 sharedUnitInput) = .ok .kTheorem := by
    decide +kernel
  rcases map_ok_iff.mp answer with ⟨⟨_, p'⟩, run, rfl⟩
  rcases proveInput_ok.mp run with ⟨clauses, env, p, read, added, proved⟩
  exact ⟨p', proof_order .plain {} env (readInput_ready read).1.inputs added proved⟩

/-- The unit clause comes after the resolvent that names it as a parent. -/
theorem proof_order_fails : ¬ ∀ (runtime : Runtime) (config : ProverConfig) (first : Env)
    (initial : List Clause), (∀ c ∈ initial, c.IsInput) → ∀ (fuel : Nat) (p p' : Prover),
    Prover.addClauses runtime config initial { env := first } = .ok p →
    Prover.prove runtime config fuel p = .ok (.kTheorem, p') →
    ∀ (root : ClauseId) (steps : Nat) (proof : List ProofStep),
      p'.getEmptyClauseId = some root →
      extractProof steps p'.store root = .ok proof → TopologicalOrder proof := by
  intro claim
  have answer : (do
      let (result, p') ← proveInput .plain {} 50 sharedUnitInput
      let proof ← extractProof 50 p'.store (some 6)
      pure (result, p'.getEmptyClauseId, proof)) = Except.ok (ε := Fault)
        (ProverResult.kTheorem, some (some 6), [⟨some 0, .kInput, none, none⟩,
          ⟨some 2, .kResolution, some 1, some 0⟩, ⟨some 1, .kInput, none, none⟩,
          ⟨some 6, .kResolution, some 2, some 1⟩]) := by
    decide +kernel
  simp only [bind_ok_iff, Prod.exists] at answer
  rcases answer with ⟨result, p', run, proof, extract, last⟩
  simp only [pure_ok_iff, Prod.mk.injEq] at last
  rcases last with ⟨rfl, isRoot, rfl⟩
  rcases proveInput_ok.mp run with ⟨clauses, env, p, read, added, proved⟩
  have order := claim .plain {} env clauses (readInput_ready read).1.inputs 50 p p' added
    proved (some 6) 50 _ isRoot extract
  rcases order 1 _ rfl (some 1) (Or.inl rfl) (by decide) with ⟨j, before, earlier, at_j, same⟩
  rcases Nat.lt_one_iff.mp before with rfl
  rcases Option.some.inj at_j with rfl
  cases same

end AtpEngine
