import AtpEngine.MainProgram
import AtpEngine.Provenance

/-!
Closure of the processed clauses. At every head of the loop each stored clause
is a tautology, waits, or is subsumed by a processed clause, and the inferences
between processed clauses have all been made. A clause that justified a deletion
may be deleted itself later; subsumption is transitive, so its subsumer takes
over.
-/
namespace AtpEngine

open Fuelled

/-- The three cases in which a stored clause may be left alone. -/
def Prover.Accounted (p : Prover) (c : Clause) : Prop :=
  isTautology c = true ∨ c ∈ p.unprocessed ∨
    ∃ pid ∈ p.processed, ∃ pc, p.store.find pid = some pc ∧ subsumes pc c = true

def ClauseStore.Keeps (store : ClauseStore) (r : Clause) : Prop :=
  ∃ c ∈ store.clauses, c = { r with id := c.id, depth := c.depth }

/-- The call `inf` was made, and every clause it returned is a tautology or was
stored and is accounted for. -/
structure Prover.Settled (p : Prover) (log : List (Inference × Option Clause))
    (inf : Inference) : Prop where
  made : ∃ out, (inf, out) ∈ log
  kept : ∀ r, (inf, some r) ∈ log → isTautology r = false →
    ∃ c ∈ p.store.clauses, c = { r with id := c.id, depth := c.depth } ∧ p.Accounted c

/-- No clause is lost, and the processed clauses are closed under inference. -/
structure Prover.Closed (p : Prover) (log : List (Inference × Option Clause)) : Prop where
  accounted : ∀ c ∈ p.store.clauses, p.Accounted c
  resolved : ∀ i ∈ p.processed, ∀ j ∈ p.processed, i ≠ j → ∀ ci cj,
    p.store.find i = some ci →
    p.store.find j = some cj → ∀ a b lit1 lit2, ci.literals[a]? = some lit1 →
    cj.literals[b]? = some lit2 → lit1.isPositive ≠ lit2.isPositive →
    p.Settled log (.resolve ci a cj b)
  factored : ∀ i ∈ p.processed, ∀ c, p.store.find i = some c → ∀ a b, a < b →
    b < c.size → p.Settled log (.factor c a b)
  nonempty : ∀ i ∈ p.processed, ∃ c, p.store.find i = some c ∧ c.literals ≠ []

/-- The inductive form of `Closed`: what was returned is stored whether or not
its premises are still processed. -/
structure ClosedInv (log : List (Inference × Option Clause)) (p : Prover) : Prop where
  accounted : ∀ c ∈ p.store.clauses, p.Accounted c
  returned : ∀ inf r, (inf, some r) ∈ log → isTautology r = false → p.store.Keeps r
  resolved : ∀ i ∈ p.processed, ∀ j ∈ p.processed, i ≠ j → ∀ ci cj,
    p.store.find i = some ci →
    p.store.find j = some cj → ∀ a b, (a, b) ∈ complementaryPairs ci cj →
    ∃ out, (.resolve ci a cj b, out) ∈ log
  factored : ∀ i ∈ p.processed, ∀ c, p.store.find i = some c → ∀ a b,
    (a, b) ∈ orderedPairs c → ∃ out, (.factor c a b, out) ∈ log
  nonempty : ∀ i ∈ p.processed, ∃ c, p.store.find i = some c ∧ c.literals ≠ []

theorem ClosedInv.closed {log : List (Inference × Option Clause)} {p : Prover}
    (inv : ClosedInv log p) : p.Closed log := by
  have settled : ∀ {inf : Inference}, (∃ out, (inf, out) ∈ log) → p.Settled log inf := by
    refine fun made => ⟨made, fun r logged notTautology => ?_⟩
    rcases inv.returned _ r logged notTautology with ⟨c, stored, same⟩
    exact ⟨c, stored, same, inv.accounted c stored⟩
  refine ⟨inv.accounted, ?_, ?_, inv.nonempty⟩
  · intro i hi j hj apart ci cj atI atJ a b lit1 lit2 at_a at_b differ
    exact settled (inv.resolved i hi j hj apart ci cj atI atJ a b
      (mem_complementaryPairs.mpr ⟨lit1, lit2, at_a, at_b, differ⟩))
  · intro i hi c atI a b before inside
    exact settled (inv.factored i hi c atI a b (mem_orderedPairs.mpr ⟨before, inside⟩))

/-- The inferences between processed clauses have been made, those among `old`
clauses perhaps not. -/
structure Prover.Compared (p : Prover) (old : List ClauseId)
    (log : List (Inference × Option Clause)) : Prop where
  resolved : ∀ i ∈ p.processed, ∀ j ∈ p.processed, i ≠ j → i ∉ old ∨ j ∉ old → ∀ ci cj,
    p.store.find i = some ci → p.store.find j = some cj → ∀ a b,
    (a, b) ∈ complementaryPairs ci cj → ∃ out, (.resolve ci a cj b, out) ∈ log
  factored : ∀ i ∈ p.processed, i ∉ old → ∀ c, p.store.find i = some c → ∀ a b,
    (a, b) ∈ orderedPairs c → ∃ out, (.factor c a b, out) ∈ log
  nonempty : ∀ i ∈ p.processed, ∃ c, p.store.find i = some c ∧ c.literals ≠ []

/-- From `p` to `p'` no clause is lost: what was accounted for stays so, and what
was stored or returned by the calls since is accounted for. -/
structure Prover.Accounts (p p' : Prover) (calls : List (Inference × Option Clause)) : Prop where
  kept : ∀ c, p.Accounted c → p'.Accounted c
  grows : p.store.clauses <+: p'.store.clauses
  stored : ∀ c ∈ p'.store.clauses, c ∈ p.store.clauses ∨ p'.Accounted c
  returned : ∀ inf r, (inf, some r) ∈ calls → isTautology r = false →
    ∃ c ∈ p'.store.clauses, c = { r with id := c.id, depth := c.depth } ∧ p'.Accounted c

section Steps

variable {runtime : Runtime} {config : ProverConfig} {fuel : Nat}

theorem Prover.Accounted.mono {p p' : Prover} {c : Clause} (accounted : p.Accounted c)
    (queue : p.unprocessed ⊆ p'.unprocessed) (processed : p'.processed = p.processed)
    (grows : p.store.clauses <+: p'.store.clauses) : p'.Accounted c := by
  rcases accounted with tautology | waiting | ⟨pid, member, pc, found, hit⟩
  · exact Or.inl tautology
  · exact Or.inr (Or.inl (queue waiting))
  · exact Or.inr
      (Or.inr ⟨pid, processed ▸ member, pc, ClauseStore.find_prefix grows found, hit⟩)

theorem Prover.Accounts.refl (p : Prover) : p.Accounts p [] :=
  ⟨fun _ h => h, List.prefix_rfl, fun _ => Or.inl, by simp⟩

theorem Prover.Accounts.trans {p q r : Prover} {first second : List (Inference × Option Clause)}
    (before : p.Accounts q first) (after : q.Accounts r second) :
    p.Accounts r (first ++ second) := by
  refine ⟨fun c h => after.kept c (before.kept c h), before.grows.trans after.grows, ?_, ?_⟩
  · intro c member
    rcases after.stored c member with old | accounted
    · exact (before.stored c old).imp_right (after.kept c)
    · exact Or.inr accounted
  · intro inf r logged notTautology
    rcases List.mem_append.mp logged with old | new
    · rcases before.returned inf r old notTautology with ⟨c, stored, same, accounted⟩
      exact ⟨c, after.grows.subset stored, same, after.kept c accounted⟩
    · exact after.returned inf r new notTautology

theorem Absorbed.accounted {nc : Clause} {p p' : Prover}
    (absorbed : Absorbed runtime config nc p none p') :
    (∀ c, p.Accounted c → p'.Accounted c) ∧
      (∀ c ∈ p'.store.clauses, c ∈ p.store.clauses ∨ p'.Accounted c) ∧
      (isTautology nc = false →
        ∃ c ∈ p'.store.clauses, c = { nc with id := c.id, depth := c.depth } ∧
          p'.Accounted c) := by
  generalize none : (none : Option ClauseId) = derived at absorbed
  cases absorbed with
  | empty _ => cases none
  | tautology _ isTaut =>
      refine ⟨fun _ h => h, fun _ => Or.inl, fun h => ?_⟩
      rw [isTaut] at h
      cases h
  | @subsumed depth pid pc _ _ _ member found hit =>
      have last := p.store.addClause_new { nc with depth }
      have new : Prover.Accounted { p with store := (p.store.addClause { nc with depth }).2 }
          { nc with depth, id := some p.store.size } :=
        Or.inr (Or.inr ⟨pid, member, pc, found, hit⟩)
      refine ⟨fun c h => h.mono (List.Subset.refl _) rfl (List.prefix_append _ _),
        fun c stored => ?_, fun _ => ⟨_, List.mem_of_getElem? last, rfl, new⟩⟩
      rcases List.getElem?_of_mem stored with ⟨k, at_k⟩
      rcases ClauseStore.addClause_cases at_k with old | ⟨_, rfl⟩
      · exact Or.inl (List.mem_of_getElem? old)
      · exact Or.inr new
  | @waiting depth _ _ _ _ =>
      have last := p.store.addClause_new { nc with depth }
      have pushed := runtime.queue.push_perm config.comparator p.unprocessed
        { nc with depth, id := some p.store.size }
      have queue : p.unprocessed ⊆ runtime.queue.push config.comparator p.unprocessed
          { nc with depth, id := some p.store.size } :=
        fun c member => pushed.mem_iff.mpr (List.mem_cons_of_mem _ member)
      have new : Prover.Accounted
          { p with store := (p.store.addClause { nc with depth }).2
                   unprocessed := runtime.queue.push config.comparator p.unprocessed
                     { nc with depth, id := some p.store.size } }
          { nc with depth, id := some p.store.size } :=
        Or.inr (Or.inl (pushed.mem_iff.mpr List.mem_cons_self))
      refine ⟨fun c h => h.mono queue rfl (List.prefix_append _ _), fun c stored => ?_,
        fun _ => ⟨_, List.mem_of_getElem? last, rfl, new⟩⟩
      rcases List.getElem?_of_mem stored with ⟨k, at_k⟩
      rcases ClauseStore.addClause_cases at_k with old | ⟨_, rfl⟩
      · exact Or.inl (List.mem_of_getElem? old)
      · exact Or.inr new

theorem processNewClauses_accounted {news : List Clause} {p last : Prover}
    (run : Prover.processNewClauses runtime config news p = .ok (none, last)) :
    (∀ c, p.Accounted c → last.Accounted c) ∧
      (∀ c ∈ last.store.clauses, c ∈ p.store.clauses ∨ last.Accounted c) ∧
      ∀ nc ∈ news, isTautology nc = false →
        ∃ c ∈ last.store.clauses, c = { nc with id := c.id, depth := c.depth } ∧
          last.Accounted c := by
  induction news generalizing p with
  | nil =>
      rcases Prod.mk.inj (Except.ok.inj run) with ⟨_, rfl⟩
      exact ⟨fun _ h => h, fun _ => Or.inl, by simp⟩
  | cons nc rest ih =>
      rcases processNewClauses_cons run with ⟨id, p', _, same⟩ | ⟨p', absorbed, run⟩
      · cases same
      · rcases absorbed.accounted with ⟨keep, stored, first⟩
        rcases ih run with ⟨keep', stored', later⟩
        rcases processNewClauses_frame run with ⟨_, _, grows⟩
        refine ⟨fun c h => keep' c (keep c h), fun c member => ?_,
          fun c member notTautology => ?_⟩
        · rcases stored' c member with old | accounted
          · exact (stored c old).imp_right (keep' c)
          · exact Or.inr accounted
        · rcases List.mem_cons.mp member with rfl | inside
          · rcases first notTautology with ⟨d, new, same, accounted⟩
            exact ⟨d, grows.subset new, same, keep' d accounted⟩
          · exact later c inside notTautology

/-- Dropping `given` from the queue is harmless where it is accounted for otherwise. -/
theorem Prover.Accounted.skip {p : Prover} {c given : Clause} {unprocessed : List Clause}
    (accounted : p.Accounted c) (perm : p.unprocessed.Perm (given :: unprocessed))
    (excuse : isTautology given = true ∨
      ∃ pid ∈ p.processed, ∃ pc, p.store.find pid = some pc ∧ subsumes pc given = true) :
    Prover.Accounted { p with unprocessed } c := by
  rcases accounted with tautology | waiting | subsumed
  · exact Or.inl tautology
  · rcases List.mem_cons.mp (perm.mem_iff.mp waiting) with rfl | still
    · exact excuse.imp_right Or.inr
    · exact Or.inr (Or.inl still)
  · exact Or.inr (Or.inr subsumed)

/-- After backward subsumption `given` stands in for itself and for the clauses
it removed. -/
theorem Generates.accounted {p : Prover} {given : Clause} {kept : List ClauseId} {pcs : List Clause}
    {unprocessed : List Clause} {env' : Env}
    (generates : Generates { p with unprocessed } given kept pcs)
    (perm : p.unprocessed.Perm (given :: unprocessed)) (held : p.store.find given.id = some given)
    {c : Clause} (accounted : p.Accounted c) : Prover.Accounted
      { p with env := env', unprocessed, processed := kept ++ [given.id] } c := by
  have by_given : ∀ {d : Clause}, subsumes given d = true → Prover.Accounted
      { p with env := env', unprocessed, processed := kept ++ [given.id] } d := fun hit =>
    Or.inr (Or.inr ⟨given.id, by simp, given, held, hit⟩)
  rcases accounted with tautology | waiting | ⟨pid, member, pc, found, hit⟩
  · exact Or.inl tautology
  · rcases List.mem_cons.mp (perm.mem_iff.mp waiting) with rfl | still
    · exact by_given (subsumes_refl c)
    · exact Or.inr (Or.inl still)
  · rcases generates.answered pid member with stays | ⟨pc', found', gone⟩
    · exact Or.inr (Or.inr ⟨pid, List.mem_append_left _ stays, pc, found, hit⟩)
    · rcases Option.some.inj (found.symm.trans found') with rfl
      exact by_given (subsumes_trans gone hit)

theorem Iterated.accounts {p p' : Prover} {given : Clause} {unprocessed : List Clause}
    {calls : List (Inference × Option Clause)} (perm : p.unprocessed.Perm (given :: unprocessed))
    (given_held : p.store.find given.id = some given)
    (iterated : Iterated runtime config fuel given { p with unprocessed } (none, p') calls) :
    p.Accounts p' calls := by
  rcases iterated.continues with
    ⟨rfl, rfl, excuse⟩ | ⟨kept, pcs, outs, env', generates, _, process, rfl⟩
  · exact ⟨fun c h => h.skip perm excuse, List.prefix_rfl, fun _ => Or.inl, by simp⟩
  · rcases processNewClauses_accounted process with ⟨keep, stored, returned⟩
    rcases processNewClauses_frame process with ⟨_, _, grows⟩
    refine ⟨fun c h => keep c (generates.accounted perm given_held h), grows, stored, ?_⟩
    intro inf r logged notTautology
    exact returned r (List.reduceOption_mem_iff.mpr (List.of_mem_zip logged).2) notTautology

/-- The inferences of the turn are those that `given` adds to the kept clauses. -/
theorem Prover.Compared.generated {old : List ClauseId} {log : List (Inference × Option Clause)}
    {p p' : Prover} {given : Clause} {kept : List ClauseId} {pcs : List Clause}
    {outs : List (Option Clause)} (compared : p.Compared old log) (literals : given.literals ≠ [])
    (sub : kept.Sublist p.processed) (held : p.store.Holds kept pcs)
    (given_held : p.store.find given.id = some given)
    (lengths : (inferences given pcs).length = outs.length)
    (processed : p'.processed = kept ++ [given.id]) (grows : p.store.clauses <+: p'.store.clauses) :
    p'.Compared old (log ++ (inferences given pcs).zip outs) := by
  -- an id that was stored before still names the same clause
  have known : ∀ i ∈ kept, ∀ c, p'.store.find i = some c → p.store.find i = some c ∧
      c ∈ pcs := by
    intro i member c found
    rcases List.getElem_of_mem member with ⟨n, hn, rfl⟩
    have short : n < pcs.length := held.length_eq ▸ hn
    have entry := held.get hn short
    have later : p'.store.find kept[n] = some pcs[n] := ClauseStore.find_prefix grows entry
    rcases Option.some.inj (found.symm.trans later) with rfl
    exact ⟨entry, List.getElem_mem _⟩
  have isGiven : ∀ c, p'.store.find given.id = some c → c = given := fun c found =>
    Option.some.inj (found.symm.trans (ClauseStore.find_prefix grows given_held))
  have made : ∀ inf, inf ∈ inferences given pcs →
      ∃ out, (inf, out) ∈ log ++ (inferences given pcs).zip outs := by
    intro inf member
    rcases mem_zip_of_mem_left lengths member with ⟨out, _, logged⟩
    exact ⟨out, List.mem_append_right _ logged⟩
  have members : ∀ {i : ClauseId}, i ∈ p'.processed → i ∈ kept ∨ i = given.id := by
    intro i member
    rw [processed] at member
    simpa using member
  refine ⟨?_, ?_, ?_⟩
  · intro i hi j hj apart new ci cj atI atJ a b pair
    rcases members hi with keptI | rfl <;> rcases members hj with keptJ | rfl
    · rcases compared.resolved i (sub.subset keptI) j (sub.subset keptJ) apart new ci cj
        (known i keptI ci atI).1 (known j keptJ cj atJ).1 a b pair with ⟨out, logged⟩
      exact ⟨out, List.mem_append_left _ logged⟩
    · rcases isGiven cj atJ with rfl
      exact made _ (mem_inferences.mpr (Or.inl ⟨ci, (known i keptI ci atI).2,
        mem_inferencesWith.mpr (Or.inr ⟨a, b, pair, rfl⟩)⟩))
    · rcases isGiven ci atI with rfl
      exact made _ (mem_inferences.mpr (Or.inl ⟨cj, (known j keptJ cj atJ).2,
        mem_inferencesWith.mpr (Or.inl ⟨a, b, pair, rfl⟩)⟩))
    · exact absurd rfl apart
  · intro i hi new c atI a b pair
    rcases members hi with keptI | rfl
    · rcases compared.factored i (sub.subset keptI) new c (known i keptI c atI).1 a b pair with
        ⟨out, logged⟩
      exact ⟨out, List.mem_append_left _ logged⟩
    · rcases isGiven c atI with rfl
      exact made _ (mem_inferences.mpr (Or.inr ⟨a, b, pair, rfl⟩))
  · intro i hi
    rcases members hi with keptI | rfl
    · rcases compared.nonempty i (sub.subset keptI) with ⟨c, found, nonempty⟩
      exact ⟨c, ClauseStore.find_prefix grows found, nonempty⟩
    · exact ⟨given, ClauseStore.find_prefix grows given_held, literals⟩

theorem Prover.Compared.iterated {old : List ClauseId}
    {log calls : List (Inference × Option Clause)} {p p' : Prover} {given : Clause}
    (compared : p.Compared old log) (given_held : p.store.find given.id = some given)
    (iterated : Iterated runtime config fuel given p (none, p') calls) :
    p'.Compared old (log ++ calls) := by
  rcases iterated.continues with
    ⟨rfl, rfl, _⟩ | ⟨kept, pcs, outs, env', generates, run, process, rfl⟩
  · rwa [List.append_nil]
  · rcases processNewClauses_frame process with ⟨_, processed, grows⟩
    exact compared.generated generates.literals generates.sub generates.held given_held
      (mapAccum_length run).symm processed grows

variable {initial : List Clause} {start p : Prover} {iterations : Nat}
  {log : List (Inference × Option Clause)}

theorem LoopHead.accounts (structured : StoreInv initial start)
    (head : LoopHead runtime config fuel start iterations log p) : start.Accounts p log := by
  induction head with
  | start => exact .refl start
  | turn before popped _ _ iterated ih =>
      have perm := runtime.queue.pop_perm _ _ _ _ popped
      have given_held := ((before.storeInv structured).pop popped).2
      exact ih.trans (iterated.accounts perm given_held)

theorem LoopHead.compared {old : List ClauseId} (structured : StoreInv initial start)
    (init : start.Compared old []) (head : LoopHead runtime config fuel start iterations log p) :
    p.Compared old log := by
  induction head with
  | start => exact init
  | @turn _ _ _ q _ _ unprocessed before popped _ _ iterated ih =>
      have given_held := ((before.storeInv structured).pop popped).2
      have taken : Prover.Compared { q with unprocessed } old _ :=
        ⟨ih.resolved, ih.factored, ih.nonempty⟩
      exact taken.iterated given_held iterated

theorem LoopHead.closedInv (structured : StoreInv initial start)
    (all : ∀ c ∈ start.store.clauses, start.Accounted c) (none : start.processed = [])
    (head : LoopHead runtime config fuel start iterations log p) : ClosedInv log p := by
  have accounts := head.accounts structured
  have compared : p.Compared [] log := head.compared structured (by constructor <;> simp [none])
  refine ⟨fun c member => ?_, fun inf r logged notTautology => ?_, fun i hi j hj apart =>
    compared.resolved i hi j hj apart (by simp), fun i hi => compared.factored i hi (by simp),
    compared.nonempty⟩
  · rcases accounts.stored c member with old | accounted
    · exact accounts.kept c (all c old)
    · exact accounted
  · rcases accounts.returned inf r logged notTautology with ⟨c, stored, same, _⟩
    exact ⟨c, stored, same⟩

end Steps

/-- At every head of the loop of a first call of `prove`, and where it returns
`kSaturation` or `kTimeout`, no clause is lost and saturation is closed. -/
theorem saturation_closed (runtime : Runtime) (config : ProverConfig) (first : Env)
    (initial : List Clause) {p : Prover}
    (added : Prover.addClauses runtime config initial { env := first } = .ok p) (fuel : Nat) :
    (∀ iterations log p', LoopHead runtime config fuel p iterations log p' → p'.Closed log) ∧
    ∀ result p', Prover.prove runtime config fuel p = .ok (result, p') →
      result = .kSaturation ∨ result = .kTimeout →
      ∃ iterations log, LoopHead runtime config fuel p iterations log p' ∧ p'.Closed log := by
  rcases StoreInv.init added with ⟨structured, _, processed, _, queue⟩
  have all : ∀ c ∈ p.store.clauses, p.Accounted c :=
    fun c stored => Or.inr (Or.inl (queue.mem_iff.mpr stored))
  have heads : ∀ iterations log p', LoopHead runtime config fuel p iterations log p' →
      p'.Closed log := fun _ _ _ head => (head.closedInv structured all processed).closed
  refine ⟨heads, fun result p' run unfinished => ?_⟩
  rcases prove_returns run with ⟨last, log, returns⟩
  cases returns with
  | saturation head _ => exact ⟨_, _, head, heads _ _ _ head⟩
  | timeout head _ _ => exact ⟨_, _, head, heads _ _ _ head⟩
  | result _ _ _ iterated =>
      rcases iterated.theorem_of_some with rfl
      rcases unfinished with h | h <;> cases h

def satisfiableInput : Text := "cnf(a,axiom,p(X)|q(X)). cnf(b,axiom,~p(a)|p(b)).".toList

theorem satisfiable_saturates : ∃ (clauses : List Clause) (env : Env) (p p' : Prover),
    readInput satisfiableInput = .ok (clauses, env) ∧ env.Fresh ∧
    Prover.addClauses .plain {} clauses { env } = .ok p ∧
    Prover.prove .plain {} 50 p = .ok (.kSaturation, p') := by
  have answer : Prod.fst <$> proveInput .plain {} 50 satisfiableInput = .ok .kSaturation := by
    decide +kernel
  have names : (fun out => out.2.bank.symbols.infos.all fun info => info.name.head? != some '_') <$>
      readInput satisfiableInput = .ok true := by decide +kernel
  rcases map_ok_iff.mp answer with ⟨⟨_, p'⟩, run, rfl⟩
  rcases proveInput_ok.mp run with ⟨clauses, env, p, read, added, proved⟩
  rcases map_ok_iff.mp names with ⟨_, read', noUnderscore⟩
  rcases Except.ok.inj (read.symm.trans read') with rfl
  exact ⟨clauses, env, p, p', read,
    Env.fresh_of_noUnderscore (readInput_ready read).1.wf.table noUnderscore, added, proved⟩

theorem saturation_closed_sample : ∃ (p p' : Prover) (iterations : Nat)
    (log : List (Inference × Option Clause)), LoopHead .plain {} 50 p iterations log p' ∧
    p'.Closed log := by
  rcases satisfiable_saturates with ⟨clauses, env, p, p', _, _, added, proved⟩
  exact ⟨p, p', (saturation_closed .plain {} env clauses added 50).2 _ p' proved (Or.inl rfl)⟩

end AtpEngine
