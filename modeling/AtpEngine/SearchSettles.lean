import AtpEngine.CallHistories
import AtpEngine.Exhaustion
import AtpEngine.LevelOrder

/-!
Searches that settle the question. A clause derived in a turn is deeper than the
given clause of the turn, so the queue runs empty before its clauses pass a
depth, whatever the comparator: with limits that are high enough, `prove` gives
the right verdict or the 16-bit depth field has reached its last value.
-/
namespace AtpEngine

open Fuelled ClauseLogic

universe u

section Settling

variable {runtime : Runtime} {config : ProverConfig}

theorem Loops.gaveUp {iterations last : Nat} {p p' : Prover}
    (loops : Loops runtime config iterations p (.kTimeout, last, p')) :
    (p' = p ∧ p.hitResourceLimit config iterations = true) ∨ ∃ given rest p1,
      runtime.queue.pop config.comparator p.unprocessed = some (given, rest) ∧
      Returns (fun fuel => Prover.iteration runtime config fuel given
        { p with unprocessed := rest })
        (none, p1) ∧ Loops runtime config (iterations + 1) p1 (.kTimeout, last, p') := by
  cases loops with
  | timeout _ limit => exact Or.inl ⟨rfl, limit⟩
  | result _ _ body =>
      rcases body.exists with ⟨fuel, run⟩
      rcases iteration_cases run with ⟨calls, iterated⟩
      cases iterated.theorem_of_some
  | turn popped _ body later => exact Or.inr ⟨_, _, _, popped, body, later⟩

theorem Loops.keeps (P : Prover → Prop) {m c iterations last : Nat} {p p' : Prover}
    (step : ∀ p given rest p', P p →
      runtime.queue.pop config.comparator p.unprocessed = some (given, rest) →
      Returns (fun fuel => Prover.iteration runtime config fuel given
      { p with unprocessed := rest }) (none, p') → P p') (init : P p)
    (loops : Loops runtime (config.withLimits m c) iterations p (.kTimeout, last, p')) :
    P p' := by
  generalize isOut : (ProverResult.kTimeout, last, p') = out at loops
  induction loops with
  | saturation _ => cases isOut
  | timeout _ _ =>
      cases isOut
      exact init
  | result popped within body =>
      cases isOut
      rcases body.exists with ⟨fuel, run⟩
      rcases iteration_cases run with ⟨calls, iterated⟩
      cases iterated.theorem_of_some
  | turn popped _ body _ ih =>
      exact ih
        (step _ _ _ _ init popped (body.congr fun fuel => (iteration_withLimits m c fuel _ _).symm))
        isOut

/-- Where a measure of the prover decreases from turn to turn until the search
stops, only low limits make it give up earlier. -/
theorem Loops.settles {M : Type} {R : M → M → Prop} (wf : WellFounded R)
    (measure : Prover → M) (P stop : Prover → Prop)
    (step : ∀ p given rest p', P p →
      runtime.queue.pop config.comparator p.unprocessed = some (given, rest) →
      Returns (fun fuel => Prover.iteration runtime config fuel given
      { p with unprocessed := rest }) (none, p') → P p' ∧ (stop p → stop p') ∧
      (stop p' ∨ R (measure p') (measure p))) (p : Prover) (iterations : Nat) (init : P p) :
    ∃ bound, ∀ m c, bound ≤ m → bound ≤ c → ∀ last p',
      Loops runtime (config.withLimits m c) iterations p (.kTimeout, last, p') → stop p' := by
  induction isMeasure : measure p using wf.induction generalizing p iterations with
  | _ x ih =>
    subst isMeasure
    -- above this bound the loop does not give up at its first head
    have goes : ∀ {m c last q}, iterations + 1 + (p.store.size + 1) ≤ m →
        iterations + 1 + (p.store.size + 1) ≤ c →
        Loops runtime (config.withLimits m c) iterations p (.kTimeout, last, q) →
          ∃ given rest p1,
          runtime.queue.pop config.comparator p.unprocessed = some (given, rest) ∧
          Returns (fun fuel => Prover.iteration runtime config fuel given
            { p with unprocessed := rest })
            (none, p1) ∧ Loops runtime (config.withLimits m c) (iterations + 1) p1
            (.kTimeout, last, q) := by
      intro m c last q turns room loops
      rcases loops.gaveUp with ⟨_, limit⟩ | ⟨given, rest, p1, popped, body, later⟩
      · rcases hitResourceLimit_iff.mp limit with low | low <;> omega
      · exact ⟨given, rest, p1, popped, body.congr fun fuel =>
          (iteration_withLimits m c fuel _ _).symm, later⟩
    by_cases goesOn : ∃ given rest p', runtime.queue.pop config.comparator p.unprocessed =
        some (given, rest) ∧ Returns (fun fuel => Prover.iteration runtime config fuel given
          { p with unprocessed := rest }) (none, p')
    · rcases goesOn with ⟨given, rest, p', popped, body⟩
      have next : ∀ {given' rest' p1}, runtime.queue.pop config.comparator p.unprocessed =
          some (given', rest') → Returns (fun fuel => Prover.iteration runtime config fuel given'
            { p with unprocessed := rest' }) (none, p1) → p1 = p' := by
        intro given' rest' p1 popped' body'
        rcases Prod.mk.inj (Option.some.inj (popped.symm.trans popped')) with ⟨rfl, rfl⟩
        exact (Prod.mk.inj (body'.unique body)).2
      rcases step p given rest p' init popped body with ⟨init', _, stopped | smaller⟩
      · refine ⟨iterations + 1 + (p.store.size + 1), fun m c turns room last q loops => ?_⟩
        rcases goes turns room loops with ⟨given', rest', p1, popped', body', later⟩
        rcases next popped' body' with rfl
        exact (later.keeps (fun p => P p ∧ stop p) (fun p given rest p' holds popped body =>
          have after := step p given rest p' holds.1 popped body
          ⟨after.1, after.2.1 holds.2⟩) ⟨init', stopped⟩).2
      · rcases ih _ smaller p' (iterations + 1) init' rfl with ⟨bound, settled⟩
        refine ⟨max bound (iterations + 1 + (p.store.size + 1)),
          fun m c turns room last q loops => ?_⟩
        rcases goes (by omega) (by omega) loops with ⟨given', rest', p1, popped', body', later⟩
        rcases next popped' body' with rfl
        exact settled m c (by omega) (by omega) last q later
    · refine ⟨iterations + 1 + (p.store.size + 1), fun m c turns room last q loops => ?_⟩
      rcases goes turns room loops with ⟨given, rest, p1, popped, body, _⟩
      exact absurd ⟨given, rest, p1, popped, body⟩ goesOn

end Settling

section Depths

variable {runtime : Runtime} {config : ProverConfig} {fuel : Nat} {initial : List Clause}
  {p p' : Prover}

theorem StoreInv.parentsDeep (inv : StoreInv initial p) {given : Clause} {kept : List ClauseId}
    {pcs : List Clause} {outs : List (Option Clause)} {env' : Env}
    (given_held : p.store.find given.id = some given) (held : p.store.Holds kept pcs)
    (calls : mapAccum (Inference.perform runtime.order config.uconfig fuel) (inferences given pcs)
      p.env = .ok (outs, env')) :
    ∀ r ∈ outs.reduceOption, ∃ level, given.depth ≤ level ∧
      p.store.ParentsAt level r := by
  intro r member
  rcases result_visited calls (List.reduceOption_mem_iff.mp member) with
    ⟨inf, inside, _, _, _, run⟩
  rcases perform_conclusion run with ⟨lits, rfl⟩
  have known : ∀ pc ∈ pcs, p.store.find pc.id = some pc := by
    intro pc listed
    rcases forall₂_mem_right held listed with ⟨pid, _, found⟩
    rcases inv.found found with ⟨k, _, isId, own, _⟩
    rwa [own, ← isId]
  rcases mem_inferences.mp inside with ⟨pc, listed, call⟩ | ⟨i, j, _, rfl⟩
  · rcases mem_inferencesWith.mp call with ⟨i, j, _, rfl⟩ | ⟨i, j, _, rfl⟩
    · exact ⟨_, Nat.le_max_left _ pc.depth, given, given_held,
        Or.inr ⟨pc, known pc listed, rfl⟩⟩
    · exact ⟨_, Nat.le_max_right pc.depth _, pc, known pc listed,
        Or.inr ⟨given, given_held, rfl⟩⟩
  · exact ⟨_, Nat.le_refl _, given, given_held, Or.inl ⟨rfl, rfl⟩⟩

theorem ClauseStore.ParentsAt.shallow {store : ClauseStore} {level : Nat} {c : Clause}
    (parents : store.ParentsAt level c) (shallow : store.Shallow) : level < 65535 := by
  have below : ∀ {id d}, store.find id = some d → d.depth < 65535 := by
    intro id d found
    rcases ClauseStore.find_iff.mp found with ⟨k, _, entry⟩
    exact shallow d (List.mem_of_getElem? entry)
  rcases parents with ⟨c1, found1, ⟨_, rfl⟩ | ⟨c2, found2, rfl⟩⟩
  · exact below found1
  · exact max_lt (below found1) (below found2)

theorem processNewClauses_deeper {level : Nat} {news : List Clause}
    {after : Option ClauseId × Prover}
    (run : Prover.processNewClauses runtime config news p = .ok after)
    (shallow : after.2.store.Shallow)
    (parents : ∀ nc ∈ news, ∃ deep, level ≤ deep ∧ p.store.ParentsAt deep nc) :
    ∃ added, after.2.unprocessed.Perm (added ++ p.unprocessed) ∧ ∀ c ∈ added,
      level < c.depth := by
  induction news generalizing p with
  | nil =>
      rcases Except.ok.inj run with rfl
      exact ⟨[], .refl _, by simp⟩
  | cons nc rest ih =>
      rcases processNewClauses_cons run with ⟨id, p1, absorbed, rfl⟩ | ⟨p1, absorbed, run⟩
      · cases absorbed with
        | empty _ => exact ⟨[], .refl _, by simp⟩
      · have grows := absorbed.frame.2.2
        have early : p1.store.Shallow := shallow.mono (processNewClauses_frame run).2.2
        have others : ∀ nc ∈ rest, ∃ deep, level ≤ deep ∧ p1.store.ParentsAt deep nc :=
          fun nc member =>
          (parents nc (List.mem_cons_of_mem _ member)).imp fun _ h => ⟨h.1, h.2.mono grows⟩
        rcases ih run others with ⟨added, perm, deeper⟩
        cases absorbed with
        | tautology _ _ => exact ⟨added, perm, deeper⟩
        | subsumed _ _ _ _ _ _ => exact ⟨added, perm, deeper⟩
        | @waiting depth _ _ computed _ =>
            rcases parents nc List.mem_cons_self with ⟨deep, above, parentsAt⟩
            have isDepth := Except.ok.inj
              (computed.symm.trans (parentsAt.computeDepth (parentsAt.shallow (early.mono grows))))
            have pushed := runtime.queue.push_perm config.comparator p.unprocessed
              { nc with depth, id := some p.store.size }
            refine ⟨added ++ [{ nc with depth, id := some p.store.size }], ?_,
              fun c member => ?_⟩
            · rw [List.append_assoc]
              exact perm.trans (pushed.append_left added)
            · rcases List.mem_append.mp member with old | new
              · exact deeper c old
              · rw [List.mem_singleton.mp new]
                change level < depth
                omega

/-- The depths that waiting clauses are below the last value of the field. -/
def Prover.heights (p : Prover) : Multiset Nat :=
  (p.unprocessed.map fun c => 65535 - c.depth : List Nat)

/-- A turn after which all depths are exact lowers the waiting clauses. -/
theorem Iterated.heights_lt {given : Clause} {unprocessed : List Clause}
    {calls : List (Inference × Option Clause)} (structured : StoreInv initial p)
    (popped : runtime.queue.pop config.comparator p.unprocessed = some (given, unprocessed))
    (iterated : Iterated runtime config fuel given { p with unprocessed } (none, p') calls)
    (shallow : p'.store.Shallow) : Multiset.IsDershowitzMannaLT p'.heights p.heights := by
  have taken := runtime.queue.pop_perm _ _ _ _ popped
  rcases structured.pop popped with ⟨popStore, held⟩
  rcases iterated.continues with
    ⟨rfl, _, _⟩ | ⟨kept, pcs, outs, env', generates, run, process, _⟩
  · have put : unprocessed.Perm ([] ++ unprocessed) := .refl _
    exact Exhaustion.taken_lt _ taken put (by simp)
  · have parents := popStore.parentsDeep held generates.held run
    rcases processNewClauses_deeper process shallow parents with
      ⟨added, put, deeper⟩
    have top : given.depth < 65535 := by
      rcases ClauseStore.find_iff.mp held with ⟨k, _, entry⟩
      exact shallow given
        ((processNewClauses_frame process).2.2.subset (List.mem_of_getElem? entry))
    refine Exhaustion.taken_lt _ taken put fun c member => ?_
    have := deeper c member
    omega

theorem search_settles (runtime : Runtime) (config : ProverConfig)
    (structured : StoreInv initial p) : ∃ bound, ∀ m c, bound ≤ m → bound ≤ c → ∀ p',
      Returns (fun fuel => Prover.prove runtime (config.withLimits m c) fuel p) (.kTimeout, p') →
      ¬ p'.store.Shallow := by
  have step : ∀ p given rest p', StoreInv initial p →
      runtime.queue.pop config.comparator p.unprocessed = some (given, rest) →
      Returns (fun fuel => Prover.iteration runtime config fuel given
        { p with unprocessed := rest })
        (none, p') → StoreInv initial p' ∧ (¬ p.store.Shallow → ¬ p'.store.Shallow) ∧
      (¬ p'.store.Shallow ∨ Multiset.IsDershowitzMannaLT p'.heights p.heights) := by
    intro p given rest p' inv popped body
    rcases body.exists with ⟨fuel, run⟩
    rcases iteration_cases run with ⟨calls, iterated⟩
    rcases inv.pop popped with ⟨popStore, held⟩
    rcases popStore.iterated held iterated with ⟨inv', grows, _⟩
    refine ⟨inv', fun deep shallow => deep (shallow.mono grows), ?_⟩
    by_cases shallow : p'.store.Shallow
    · exact Or.inr (iterated.heights_lt inv popped shallow)
    · exact Or.inl shallow
  rcases Loops.settles Multiset.wellFounded_isDershowitzMannaLT Prover.heights (StoreInv initial)
    (fun p => ¬ p.store.Shallow) step p 0 structured with ⟨bound, settled⟩
  refine ⟨bound, fun m c turns room p' done => ?_⟩
  rcases prove_iff_loops.mp done with ⟨last, loops⟩
  exact settled m c turns room last p' loops

end Depths

/-- With limits above some bound, a search with the occurs check on answers, and
its verdict is right, unless the depth field of a stored clause has reached its
last value. -/
theorem search_decides (runtime : Runtime) (config : ProverConfig)
    (enabled : config.enableOccursCheck = true) (first : Env) (wf : first.bank.WellFormed)
    (small : first.bank.ArityBounded) (fresh : first.Fresh) (initial : List Clause)
    (valid : ∀ c ∈ initial, c.ValidIn first.bank) {p : Prover}
    (added : Prover.addClauses runtime config initial { env := first } = .ok p) :
    ∃ bound, ∀ m c, bound ≤ m → bound ≤ c → ∃ result p',
        Returns (fun fuel => Prover.prove runtime
        { config with maxIterations := m, maxClauses := c } fuel p) (result, p') ∧
      (result = .kTheorem ∧ ¬ Satisfiable.{u} (first.bank.readAll {c | c ∈ initial}) ∨
        result = .kSaturation ∧ Satisfiable.{0} (first.bank.readAll {c | c ∈ initial}) ∨
        result = .kTimeout ∧ ∃ c ∈ p'.store.clauses, 65535 ≤ c.depth) := by
  rcases StoreInv.init added with ⟨structured, _⟩
  rcases search_settles runtime config structured with ⟨bound, settled⟩
  refine ⟨bound, fun m c turns room => ?_⟩
  have added' : Prover.addClauses runtime (config.withLimits m c) initial { env := first } =
      .ok p := by
    rw [addClauses_withLimits, added]
  have enabled' : (config.withLimits m c).enableOccursCheck = true := enabled
  rcases fresh_search_returns enabled' wf valid fresh added' with ⟨result, p', done⟩
  refine ⟨result, p', done, ?_⟩
  rcases done.exists with ⟨fuel, run⟩
  have history : History runtime (config.withLimits m c) first initial [result] p' :=
    .proved (.added .fresh valid added') run
  rcases history.inv wf with ⟨budget, log, inv⟩
  rw [← inv.run.readAll wf valid]
  cases result with
  | kTheorem =>
      exact Or.inl ⟨rfl, inv.unsatisfiable wf small enabled' (List.mem_singleton_self _)⟩
  | kSaturation =>
      exact Or.inr (Or.inl ⟨rfl, inv.satisfiable wf fresh (by simp) (saturation_done run)⟩)
  | kTimeout =>
      have deep := settled m c turns room p' done
      simp only [ClauseStore.Shallow, not_forall, not_lt] at deep
      rcases deep with ⟨d, stored, above⟩
      exact Or.inr (Or.inr ⟨rfl, d, stored, above⟩)

theorem search_decides_sample : ∃ (clauses : List Clause) (env : Env) (p p' : Prover)
    (result : ProverResult) (limit : Nat), readInput refutableInput = .ok (clauses, env) ∧
    Returns (fun fuel => Prover.prove .plain
      { enableOccursCheck := true, maxIterations := limit, maxClauses := limit } fuel p)
      (result, p') ∧
    (result = .kTheorem ∧ ¬ Satisfiable.{0} (env.bank.readAll {c | c ∈ clauses}) ∨
      result = .kSaturation ∧ Satisfiable.{0} (env.bank.readAll {c | c ∈ clauses}) ∨
      result = .kTimeout ∧ ∃ c ∈ p'.store.clauses, 65535 ≤ c.depth) := by
  have names : (fun out => out.2.bank.symbols.infos.all fun info => info.name.head? != some '_') <$>
      readInput refutableInput = .ok true := by decide +kernel
  rcases map_ok_iff.mp names with ⟨⟨clauses, env⟩, read, noUnderscore⟩
  rcases readInput_ready read with ⟨ready, small, _⟩
  rcases addClauses_spec .plain { enableOccursCheck := true } clauses { env } with ⟨p, added, _⟩
  rcases search_decides.{0} .plain { enableOccursCheck := true } rfl env ready.wf
    (small fun _ renders => renders.bounded (by decide +kernel))
    (Env.fresh_of_noUnderscore ready.wf.table noUnderscore) clauses ready.valid added with
    ⟨bound, decides⟩
  rcases decides bound bound (Nat.le_refl _) (Nat.le_refl _) with ⟨result, p', done, verdict⟩
  exact ⟨clauses, env, p, p', result, bound, read, done, verdict⟩

end AtpEngine
