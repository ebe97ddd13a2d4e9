import AtpEngine.VerdictSoundness

/-!
Searches that are cut off and called again. A larger budget never changes an
answer, and the limits of the configuration only decide how soon a call of
`prove` gives up: it leaves the prover at a head of its loop, from where the next
call goes on as a longer first call would have.
-/
namespace AtpEngine

open Fuelled

section Budgets

variable {bank : TermBank}

theorem collectVariables_persists (fuel term : Nat) (seen : List Nat) :
    Persists .outOfFuel (collectVariables bank fuel term seen)
      (collectVariables bank (fuel + 1) term seen) := by
  induction fuel generalizing term seen with
  | zero => exact .error _ _
  | succ fuel ih =>
      rw [collectVariables, collectVariables]
      refine (Persists.refl _).bind fun isVar => ?_
      cases isVar with
      | true => exact .refl _
      | false =>
          exact (Persists.refl _).bind fun t => .foldlM (fun seen arg => ih arg seen) t.args seen

theorem applySubstitution_persists (subst : Substitution) (fuel term : Nat) (bank : TermBank) :
    Persists .outOfFuel (applySubstitution subst fuel term bank)
      (applySubstitution subst (fuel + 1) term bank) := by
  induction fuel generalizing term bank with
  | zero => exact .error _ _
  | succ fuel ih =>
      rw [applySubstitution, applySubstitution]
      refine (resolve_persists fuel term).bind fun last => (Persists.refl _).bind fun isVar => ?_
      cases isVar with
      | true => exact .refl _
      | false =>
          exact (Persists.refl _).bind fun t => (Persists.mapAccum ih t.args bank).bind fun _ =>
            .refl _

theorem applyLiterals_persists (subst : Substitution) (fuel : Nat) (lits : List Literal)
    (bank : TermBank) :
    Persists .outOfFuel (applyLiterals subst fuel lits bank)
      (applyLiterals subst (fuel + 1) lits bank) := by
  refine Persists.mapAccum (fun lit bank => ?_) lits bank
  exact (applySubstitution_persists subst fuel lit.atom bank).bind fun _ => .refl _

theorem renameVariables_persists (order : VariableOrder) (fuel : Nat) (c : Clause) (env : Env) :
    Persists .outOfFuel (renameVariables order fuel c env)
      (renameVariables order (fuel + 1) c env) := by
  have collect : Persists .outOfFuel
      (c.literals.foldlM (fun seen lit => collectVariables env.bank fuel lit.atom seen) [])
      (c.literals.foldlM (fun seen lit => collectVariables env.bank (fuel + 1) lit.atom seen) []) :=
    .foldlM (fun seen (lit : Literal) => collectVariables_persists fuel lit.atom seen) _ _
  refine collect.bind fun varSet => ?_
  split
  · exact .refl _
  · exact (Persists.refl _).bind fun renamed =>
      (applyLiterals_persists renamed.1 fuel c.literals renamed.2.bank).bind fun _ => .refl _

theorem perform_persists (order : VariableOrder) (uconfig : UnificationConfig) (fuel : Nat)
    (inf : Inference) (env : Env) :
    Persists .outOfFuel (inf.perform order uconfig fuel env)
      (inf.perform order uconfig (fuel + 1) env) := by
  cases inf with
  | resolve c1 i c2 j =>
      refine (Persists.refl _).bind fun lit1 => (Persists.refl _).bind fun lit2 => ?_
      split
      · exact .refl _
      · refine (renameVariables_persists order fuel c2 env).bind fun renamed =>
          (Persists.refl _).bind fun lit2r => (unify_persists _ _ fuel _ _ _).bind fun answer => ?_
        rcases answer with ⟨_ | _, subst⟩
        · exact .refl _
        · exact (applyLiterals_persists subst fuel _ _).bind fun left =>
            (applyLiterals_persists subst fuel _ left.2).bind fun _ => .refl _
  | factor c i j =>
      refine (Persists.refl _).bind fun litI => (Persists.refl _).bind fun litJ => ?_
      split
      · exact .refl _
      · refine (unify_persists _ _ fuel _ _ _).bind fun answer => ?_
        rcases answer with ⟨_ | _, subst⟩
        · exact .refl _
        · exact (applyLiterals_persists subst fuel _ _).bind fun _ => .refl _

variable (runtime : Runtime) (config : ProverConfig)

theorem generateNewClauses_persists (fuel : Nat) (p : Prover) (given : Clause) :
    Persists .outOfFuel (p.generateNewClauses runtime config fuel given)
      (p.generateNewClauses runtime config (fuel + 1) given) := by
  have resolvents : ∀ c1 c2 env,
      Persists .outOfFuel (allResolvents runtime.order config.uconfig fuel c1 c2 env)
      (allResolvents runtime.order config.uconfig (fuel + 1) c1 c2 env) := fun c1 c2 env =>
    (Persists.mapAccum (fun (pair : Nat × Nat) env =>
      perform_persists runtime.order config.uconfig fuel
      (.resolve c1 pair.1 c2 pair.2) env) _ env).bind fun _ => .refl _
  have factors : ∀ env, Persists .outOfFuel (factor config.uconfig fuel given env)
      (factor config.uconfig (fuel + 1) given env) := fun env =>
    (Persists.mapAccum (fun (pair : Nat × Nat) env =>
      perform_persists runtime.order config.uconfig fuel
      (.factor given pair.1 pair.2) env) _ env).bind fun _ => .refl _
  refine (Persists.mapAccum (fun pid env => ?_) p.processed p.env).bind fun generated =>
    (factors generated.2).bind fun _ => .refl _
  exact (Persists.refl _).bind fun pc => (resolvents given pc env).bind fun first =>
    (resolvents pc given first.2).bind fun _ => .refl _

theorem iteration_persists (fuel : Nat) (given : Clause) (p : Prover) :
    Persists .outOfFuel (Prover.iteration runtime config fuel given p)
      (Prover.iteration runtime config (fuel + 1) given p) := by
  rw [Prover.iteration, Prover.iteration]
  split
  · exact .refl _
  · refine (Persists.refl _).bind fun skip => ?_
    split
    · exact .refl _
    · exact (Persists.refl _).bind fun q =>
        (generateNewClauses_persists runtime config fuel q given).bind fun _ => .refl _

theorem proveLoop_persists (fuel turns more iterations : Nat) (p : Prover) :
    Persists .outOfFuel (Prover.proveLoop runtime config fuel turns iterations p)
      (Prover.proveLoop runtime config (fuel + 1) (turns + more) iterations p) := by
  induction turns generalizing iterations p with
  | zero => exact .error _ _
  | succ turns ih =>
      rw [Nat.succ_add, Prover.proveLoop, Prover.proveLoop]
      cases runtime.queue.pop config.comparator p.unprocessed with
      | none => exact .refl _
      | some taken =>
          dsimp only
          split
          · exact .refl _
          · refine (iteration_persists runtime config fuel taken.1 _).bind fun after => ?_
            rcases after with ⟨_ | result, next⟩
            · exact ih (iterations + 1) next
            · exact .refl _

variable {runtime config}

theorem prove_persists (fuel : Nat) (p : Prover) :
    Persists .outOfFuel (Prover.prove runtime config fuel p)
    (Prover.prove runtime config (fuel + 1) p) :=
  (proveLoop_persists runtime config fuel fuel 1 0 p).bind fun _ => .refl _

theorem prove_returns_of {fuel : Nat} {p : Prover} {out : ProverResult × Prover}
    (run : Prover.prove runtime config fuel p = .ok out) :
    Returns (fun fuel => Prover.prove runtime config fuel p) out :=
  Returns.of_persists (fun fuel => prove_persists fuel p) run

theorem LoopHead.more {fuel large n : Nat} {log : List (Inference × Option Clause)}
    {start p : Prover} (head : LoopHead runtime config fuel start n log p) (le : fuel ≤ large) :
    ∃ log', LoopHead runtime config large start n log' p := by
  induction head with
  | start => exact ⟨_, .start⟩
  | turn _ popped within run _ ih =>
      rcases ih with ⟨log, head⟩
      have run' :=
        (Persists.le (fun fuel => iteration_persists runtime config fuel _ _) le).answer run
      rcases iteration_cases run' with ⟨calls, iterated⟩
      exact ⟨_, .turn head popped within run' iterated⟩

end Budgets

section Loops

variable (runtime : Runtime) (config : ProverConfig)

/-- The loop of `prove` from a state on, without a budget: its result, the number
of selections made and the state it leaves. -/
inductive Loops : Nat → Prover → ProverResult × Nat × Prover → Prop where
  | saturation {iterations : Nat} {p : Prover} :
      runtime.queue.pop config.comparator p.unprocessed = none →
      Loops iterations p (.kSaturation, iterations, p)
  | timeout {iterations : Nat} {p : Prover} {given : Clause} {unprocessed : List Clause} :
      runtime.queue.pop config.comparator p.unprocessed = some (given, unprocessed) →
      p.hitResourceLimit config iterations = true → Loops iterations p (.kTimeout, iterations, p)
  | result {iterations : Nat} {p p' : Prover} {given : Clause} {unprocessed : List Clause}
      {result : ProverResult} :
      runtime.queue.pop config.comparator p.unprocessed = some (given, unprocessed) →
      p.hitResourceLimit config iterations = false →
      Returns (fun fuel => Prover.iteration runtime config fuel given { p with unprocessed })
        (some result, p') → Loops iterations p (result, iterations + 1, p')
  | turn {iterations : Nat} {p p' : Prover} {given : Clause} {unprocessed : List Clause}
      {out : ProverResult × Nat × Prover} :
      runtime.queue.pop config.comparator p.unprocessed = some (given, unprocessed) →
      p.hitResourceLimit config iterations = false →
      Returns (fun fuel => Prover.iteration runtime config fuel given { p with unprocessed })
        (none, p') → Loops (iterations + 1) p' out → Loops iterations p out

variable {runtime config}

theorem Loops.of_run {fuel turns iterations : Nat} {p : Prover}
    {out : ProverResult × Nat × Prover}
    (run : Prover.proveLoop runtime config fuel turns iterations p = .ok out) :
    Loops runtime config iterations p out := by
  induction turns generalizing iterations p with
  | zero => cases run
  | succ turns ih =>
      have returns : ∀ {given : Clause} {unprocessed : List Clause}
          {out : Option ProverResult × Prover},
          Prover.iteration runtime config fuel given { p with unprocessed } = .ok out →
          Returns (fun fuel => Prover.iteration runtime config fuel given { p with unprocessed })
            out :=
        fun body => .of_persists (fun fuel => iteration_persists runtime config fuel _ _) body
      cases proveLoop_cases run with
      | saturation popped => exact .saturation popped
      | timeout popped limit => exact .timeout popped limit
      | result popped within body => exact .result popped within (returns body)
      | turn popped within body run => exact .turn popped within (returns body) (ih run)

theorem Loops.returns {iterations : Nat} {p : Prover} {out : ProverResult × Nat × Prover}
    (loops : Loops runtime config iterations p out) :
    Returns (fun fuel => Prover.proveLoop runtime config fuel fuel iterations p) out := by
  induction loops with
  | saturation popped =>
      refine .succ (.congr (fun fuel => ?_) (.const _))
      simp only [Prover.proveLoop, popped]
  | timeout popped limit =>
      refine .succ (.congr (fun fuel => ?_) (.const _))
      simp only [Prover.proveLoop, popped, limit, if_true]
  | @result iterations p p' given unprocessed result popped within body =>
      refine .succ (((Filter.tendsto_add_atTop_nat 1).eventually body).mono fun fuel answer => ?_)
      simp only [Prover.proveLoop, popped, within, answer, bind_ok, Bool.false_eq_true, if_false]
      rfl
  | @turn iterations p p' given unprocessed out popped within body _ ih =>
      refine .succ ((((Filter.tendsto_add_atTop_nat 1).eventually body).and ih).mono
        fun fuel both => ?_)
      simp only [Prover.proveLoop, popped, within, both.1, bind_ok, Bool.false_eq_true, if_false]
      exact (proveLoop_persists runtime config fuel fuel 0 _ _).answer both.2

theorem prove_iff_loops {p p' : Prover} {result : ProverResult} :
    Returns (fun fuel => Prover.prove runtime config fuel p) (result, p') ↔
      ∃ last, Loops runtime config 0 p (result, last, p') := by
  constructor
  · intro done
    rcases done.exists with ⟨fuel, run⟩
    rcases bind_ok_iff.mp run with ⟨⟨_, last, _⟩, loop, run⟩
    rcases Prod.mk.inj (pure_ok_iff.mp run) with ⟨rfl, rfl⟩
    exact ⟨last, .of_run loop⟩
  · rintro ⟨last, loops⟩
    exact loops.returns.bind (.const _)

theorem Loops.unique {iterations : Nat} {p : Prover} {out out' : ProverResult × Nat × Prover}
    (left : Loops runtime config iterations p out)
    (right : Loops runtime config iterations p out') :
    out = out' := left.returns.unique right.returns

end Loops

section Limits

variable {runtime : Runtime} {config : ProverConfig} {iterations last : Nat} {p p' : Prover}
  {result : ProverResult}

def ProverConfig.withLimits (config : ProverConfig) (maxIterations maxClauses : Nat) :
    ProverConfig :=
  { config with maxIterations, maxClauses }

theorem hitResourceLimit_iff {m c : Nat} :
    p.hitResourceLimit (config.withLimits m c) iterations = true ↔ m ≤ iterations ∨
    c ≤ p.store.size := by
  simp [Prover.hitResourceLimit, ProverConfig.withLimits]

theorem hitResourceLimit_within {m c : Nat} :
    p.hitResourceLimit (config.withLimits m c) iterations = false ↔ iterations < m ∧
    p.store.size < c := by
  simp [Prover.hitResourceLimit, ProverConfig.withLimits]

theorem processNewClauses_withLimits (m c : Nat) (news : List Clause) (p : Prover) :
    Prover.processNewClauses runtime (config.withLimits m c) news p =
      Prover.processNewClauses runtime config news p := by
  induction news generalizing p with
  | nil => rfl
  | cons nc rest ih =>
      rw [Prover.processNewClauses, Prover.processNewClauses]
      simp only [ih]
      rfl

theorem addClauses_withLimits (m c : Nat) (clauses : List Clause) (p : Prover) :
    Prover.addClauses runtime (config.withLimits m c) clauses p =
      Prover.addClauses runtime config clauses p := by
  induction clauses generalizing p with
  | nil => rfl
  | cons clause rest ih =>
      rw [Prover.addClauses, Prover.addClauses]
      simp only [ih]
      rfl

theorem iteration_withLimits (m c fuel : Nat) (given : Clause) (p : Prover) :
    Prover.iteration runtime (config.withLimits m c) fuel given p =
      Prover.iteration runtime config fuel given p := by
  simp only [Prover.iteration, processNewClauses_withLimits]
  rfl

theorem iteration_limits {m c : Nat} (m' c' : Nat) {given : Clause}
    {out : Option ProverResult × Prover}
    (body : Returns (fun fuel => Prover.iteration runtime (config.withLimits m c) fuel given p)
      out) :
    Returns (fun fuel => Prover.iteration runtime (config.withLimits m' c') fuel given p) out :=
  body.congr fun fuel => by rw [iteration_withLimits, iteration_withLimits]

theorem Loops.raised {m m' c c' : Nat} (more : m ≤ m') (larger : c ≤ c')
    (loops : Loops runtime (config.withLimits m c) iterations p (result, last, p'))
    (verdict : result ≠ .kTimeout) :
    Loops runtime (config.withLimits m' c') iterations p (result, last, p') := by
  have still : ∀ {iterations : Nat} {p : Prover},
      p.hitResourceLimit (config.withLimits m c) iterations = false →
      p.hitResourceLimit (config.withLimits m' c') iterations = false := fun within => by
    rcases hitResourceLimit_within.mp within with ⟨turns, room⟩
    exact hitResourceLimit_within.mpr ⟨by omega, by omega⟩
  generalize isOut : (result, last, p') = out at loops
  induction loops with
  | saturation popped => exact .saturation popped
  | timeout _ _ => exact absurd (Prod.mk.inj isOut).1 verdict
  | result popped within body => exact .result popped (still within) (iteration_limits _ _ body)
  | turn popped within body _ ih =>
      exact .turn popped (still within) (iteration_limits _ _ body) (ih isOut)

/-- A lower limit on the selections changes nothing or cuts the loop at one of
its heads. -/
theorem Loops.cut {m m' c : Nat} {out : ProverResult × Nat × Prover} (fewer : m ≤ m')
    (loops : Loops runtime (config.withLimits m' c) iterations p out) :
    (Loops runtime (config.withLimits m c) iterations p out ∧ out.1 ≠ .kTimeout) ∨
      ∃ last p1, Loops runtime (config.withLimits m c) iterations p (.kTimeout, last, p1) ∧
        Loops runtime (config.withLimits m' c) last p1 out := by
  induction loops with
  | saturation popped => exact Or.inl ⟨.saturation popped, by simp⟩
  | timeout popped limit =>
      refine Or.inr ⟨_, _, .timeout popped (hitResourceLimit_iff.mpr ?_), .timeout popped limit⟩
      exact (hitResourceLimit_iff.mp limit).imp_left (Nat.le_trans fewer)
  | @result iterations p _ _ _ _ popped within body =>
      cases limit : p.hitResourceLimit (config.withLimits m c) iterations with
      | true => exact Or.inr ⟨_, _, .timeout popped limit, .result popped within body⟩
      | false =>
          rcases body.exists with ⟨fuel, run⟩
          rcases iteration_cases run with ⟨calls, iterated⟩
          refine Or.inl ⟨.result popped limit (iteration_limits _ _ body), ?_⟩
          rw [iterated.theorem_of_some]
          simp
  | @turn iterations p _ _ _ _ popped within body later ih =>
      cases limit : p.hitResourceLimit (config.withLimits m c) iterations with
      | true => exact Or.inr ⟨_, _, .timeout popped limit, .turn popped within body later⟩
      | false =>
          have body' := iteration_limits m c body
          rcases ih with ⟨whole, verdict⟩ | ⟨last, p1, gaveUp, rest⟩
          · exact Or.inl ⟨.turn popped limit body' whole, verdict⟩
          · exact Or.inr ⟨last, p1, .turn popped limit body' gaveUp, rest⟩

theorem Loops.resumes {m m' c : Nat} (fewer : m ≤ m') (within : iterations ≤ m)
    (loops : Loops runtime (config.withLimits m c) iterations p (.kTimeout, last, p')) :
    (last = m ∨ c ≤ p'.store.size) ∧
      (∃ taken, runtime.queue.pop config.comparator p'.unprocessed = some taken) ∧
      ∀ out, Loops runtime (config.withLimits m' c) last p' out →
        Loops runtime (config.withLimits m' c) iterations p out := by
  generalize isOut : (ProverResult.kTimeout, last, p') = out at loops
  induction loops with
  | saturation _ => cases isOut
  | timeout popped limit =>
      cases isOut
      refine ⟨?_, ⟨_, popped⟩, fun _ => id⟩
      exact (hitResourceLimit_iff.mp limit).imp_left fun more => Nat.le_antisymm within more
  | result popped _ body =>
      -- only the head of the loop answers `kTimeout`
      rcases Prod.mk.inj isOut with ⟨rfl, _⟩
      rcases body.exists with ⟨fuel, run⟩
      rcases iteration_cases run with ⟨calls, iterated⟩
      cases iterated.theorem_of_some
  | turn popped room body _ ih =>
      have room' := hitResourceLimit_within.mp room
      rcases ih room'.1 isOut with ⟨ends, waits, later⟩
      refine ⟨ends, waits, fun out loops => .turn popped ?_ (iteration_limits _ _ body)
        (later out loops)⟩
      exact hitResourceLimit_within.mpr ⟨by omega, room'.2⟩

theorem Loops.shift {m c k i : Nat} (ahead : i = k + iterations) :
    Loops runtime (config.withLimits (k + m) c) i p (result, k + last, p') ↔
      Loops runtime (config.withLimits m c) iterations p (result, last, p') := by
  have same : ∀ {i iterations : Nat} {p : Prover} {hit : Bool}, i = k + iterations →
      (p.hitResourceLimit (config.withLimits (k + m) c) i = hit ↔
        p.hitResourceLimit (config.withLimits m c) iterations = hit) := by
    rintro i iterations p hit rfl
    simp [Prover.hitResourceLimit, ProverConfig.withLimits]
  constructor
  · intro loops
    generalize isOut : (result, k + last, p') = out at loops
    induction loops generalizing iterations with
    | saturation popped =>
        simp only [Prod.mk.injEq] at isOut
        rcases isOut with ⟨rfl, isLast, rfl⟩
        rw [show last = iterations by omega]
        exact .saturation popped
    | timeout popped limit =>
        simp only [Prod.mk.injEq] at isOut
        rcases isOut with ⟨rfl, isLast, rfl⟩
        rw [show last = iterations by omega]
        exact .timeout popped ((same ahead).mp limit)
    | result popped within body =>
        simp only [Prod.mk.injEq] at isOut
        rcases isOut with ⟨rfl, isLast, rfl⟩
        rw [show last = iterations + 1 by omega]
        exact .result popped ((same ahead).mp within) (iteration_limits _ _ body)
    | turn popped within body _ ih =>
        exact .turn popped ((same ahead).mp within) (iteration_limits _ _ body)
          (ih (by omega) isOut)
  · intro loops
    generalize isOut : (result, last, p') = out at loops
    induction loops generalizing i with
    | saturation popped =>
        cases isOut
        subst ahead
        exact .saturation popped
    | timeout popped limit =>
        cases isOut
        subst ahead
        exact .timeout popped ((same rfl).mpr limit)
    | result popped within body =>
        cases isOut
        subst ahead
        exact .result popped ((same rfl).mpr within) (iteration_limits _ _ body)
    | turn popped within body _ ih =>
        exact .turn popped ((same ahead).mpr within) (iteration_limits _ _ body)
          (ih (by omega) isOut)

theorem Loops.last_ge {out : ProverResult × Nat × Prover}
    (loops : Loops runtime config iterations p out) :
    iterations ≤ out.2.1 := by
  induction loops with
  | saturation _ => exact Nat.le_refl _
  | timeout _ _ => exact Nat.le_refl _
  | result _ _ _ => exact Nat.le_succ _
  | turn _ _ _ _ ih => exact Nat.le_of_succ_le ih

theorem Loops.full {m c : Nat} {taken : Clause × List Clause} {out : ProverResult × Nat × Prover}
    (popped : runtime.queue.pop config.comparator p.unprocessed = some taken)
    (full : c ≤ p.store.size) :
    Loops runtime (config.withLimits m c) iterations p out ↔
    out = (.kTimeout, iterations, p) := by
  have timeout : Loops runtime (config.withLimits m c) iterations p (.kTimeout, iterations, p) :=
    .timeout popped (hitResourceLimit_iff.mpr (Or.inr full))
  exact ⟨fun loops => loops.unique timeout, fun same => same ▸ timeout⟩

/-- A call that gave up is continued by the next one as by a longer call. -/
theorem Loops.continued {m n c : Nat} {p1 : Prover}
    (gaveUp : Loops runtime (config.withLimits m c) 0 p (.kTimeout, last, p1)) :
    (∃ last', Loops runtime (config.withLimits (m + n) c) last p1 (result, last', p')) ↔
      ∃ last', Loops runtime (config.withLimits n c) 0 p1 (result, last', p') := by
  rcases gaveUp.resumes (Nat.le_add_right m n) (Nat.zero_le m) with
    ⟨rfl | full, ⟨taken, popped⟩, _⟩
  · constructor
    · rintro ⟨last', loops⟩
      rcases Nat.exists_eq_add_of_le loops.last_ge with ⟨more, rfl⟩
      exact ⟨more, (Loops.shift rfl).mp loops⟩
    · rintro ⟨more, loops⟩
      exact ⟨last + more, (Loops.shift rfl).mpr loops⟩
  · simp only [Loops.full popped full, Prod.mk.injEq]
    constructor <;> rintro ⟨_, rfl, _, rfl⟩ <;> exact ⟨_, rfl, rfl, rfl⟩

theorem prove_twice {m n c : Nat} : Returns (fun fuel =>
      Prover.prove runtime (config.withLimits (m + n) c) fuel p) (result, p') ↔
    (result ≠ .kTimeout ∧
      Returns (fun fuel => Prover.prove runtime (config.withLimits m c) fuel p) (result, p')) ∨
    ∃ p1, Returns (fun fuel => Prover.prove runtime (config.withLimits m c) fuel p)
      (.kTimeout, p1) ∧
      Returns (fun fuel => Prover.prove runtime (config.withLimits n c) fuel p1) (result, p') := by
  have fewer := Nat.le_add_right m n
  simp only [prove_iff_loops]
  constructor
  · rintro ⟨last, loops⟩
    rcases loops.cut fewer with ⟨whole, verdict⟩ | ⟨last', p1, gaveUp, rest⟩
    · exact Or.inl ⟨verdict, last, whole⟩
    · exact Or.inr ⟨p1, ⟨last', gaveUp⟩, gaveUp.continued.mp ⟨last, rest⟩⟩
  · rintro (⟨verdict, last, loops⟩ | ⟨p1, ⟨last, gaveUp⟩, next⟩)
    · exact ⟨last, loops.raised fewer (Nat.le_refl c) verdict⟩
    · rcases gaveUp.continued.mpr next with ⟨last', rest⟩
      exact ⟨last', (gaveUp.resumes fewer (Nat.zero_le m)).2.2 _ rest⟩

/-- Call `prove` and, while it gives up, call it again up to `again` times. -/
def proveAgain (runtime : Runtime) (config : ProverConfig) (fuel : Nat) :
    Nat → Prover → Except Fault (ProverResult × Prover)
  | 0, p => Prover.prove runtime config fuel p
  | again + 1, p => do
      let answer ← Prover.prove runtime config fuel p
      if answer.1 = .kTimeout then proveAgain runtime config fuel again answer.2 else pure answer

theorem proveAgain_succ {again : Nat} : Returns (fun fuel =>
      proveAgain runtime config fuel (again + 1) p) (result, p') ↔
    (result ≠ .kTimeout ∧ Returns (fun fuel => Prover.prove runtime config fuel p)
      (result, p')) ∨
    ∃ p1, Returns (fun fuel => Prover.prove runtime config fuel p) (.kTimeout, p1) ∧
      Returns (fun fuel => proveAgain runtime config fuel again p1) (result, p') := by
  constructor
  · intro done
    rcases done.exists with ⟨fuel, run⟩
    rcases bind_ok_iff.mp run with ⟨⟨first, p1⟩, call, _⟩
    have one := prove_returns_of call
    -- with enough budget the first call answers the same
    have rest :
        Returns (fun fuel => if first = .kTimeout then proveAgain runtime config fuel again p1
        else pure (first, p1)) (result, p') := (done.and one).mono fun fuel both => by
      have whole : proveAgain runtime config fuel (again + 1) p = .ok (result, p') := both.1
      have answered : Prover.prove runtime config fuel p = .ok (first, p1) := both.2
      rw [proveAgain, answered, bind_ok] at whole
      exact whole
    by_cases gaveUp : first = .kTimeout
    · simp only [gaveUp, if_true] at rest
      exact Or.inr ⟨p1, gaveUp ▸ one, rest⟩
    · simp only [gaveUp, if_false] at rest
      cases (Returns.const (ε := Fault) (first, p1)).unique rest
      exact Or.inl ⟨gaveUp, one⟩
  · have unfolded : ∀ fuel, proveAgain runtime config fuel (again + 1) p =
        (Prover.prove runtime config fuel p >>= fun out => if out.1 = .kTimeout then
          proveAgain runtime config fuel again out.2 else pure out) := fun _ => rfl
    rintro (⟨verdict, one⟩ | ⟨p1, one, next⟩)
    · refine .congr unfolded (one.bind ?_)
      simp only [verdict, if_false]
      exact .const _
    · exact .congr unfolded (one.bind next)

/-- A search interrupted by its limit and called again, any number of times, is one
search with the limits added up: it answers the same and leaves the same prover. -/
theorem interrupted_search (runtime : Runtime) (config : ProverConfig) (again : Nat) (p : Prover)
    (out : ProverResult × Prover) :
    Returns (fun fuel => proveAgain runtime config fuel again p) out ↔
      Returns (fun fuel => Prover.prove runtime
        { config with maxIterations := (again + 1) * config.maxIterations } fuel p) out := by
  rcases out with ⟨result, p'⟩
  have own : config = config.withLimits config.maxIterations config.maxClauses := rfl
  have sum : ∀ k, ({ config with maxIterations := k * config.maxIterations } : ProverConfig) =
      config.withLimits (k * config.maxIterations) config.maxClauses := fun _ => rfl
  induction again generalizing p with
  | zero =>
      rw [sum, Nat.zero_add, Nat.one_mul, ← own]
      exact Iff.rfl
  | succ again ih =>
      rw [proveAgain_succ, sum, show (again + 1 + 1) * config.maxIterations =
        config.maxIterations + (again + 1) * config.maxIterations by ring, prove_twice, ← own]
      simp only [ih, sum]

/-- The limits only ever turn a verdict into `kTimeout`: a verdict stays the same
under higher limits, and two searches that differ in their limits and both find a
verdict agree on it and on the prover they leave. -/
theorem limits_keep_verdict (runtime : Runtime) (config : ProverConfig) (p : Prover)
    (m m' c c' : Nat) (result result' : ProverResult) (q q' : Prover)
    (done : Returns (fun fuel =>
      Prover.prove runtime { config with maxIterations := m, maxClauses := c } fuel p) (result, q))
    (verdict : result ≠ .kTimeout) :
    (m ≤ m' → c ≤ c' → Returns (fun fuel => Prover.prove runtime
      { config with maxIterations := m', maxClauses := c' } fuel p) (result, q)) ∧
    (Returns (fun fuel => Prover.prove runtime
      { config with maxIterations := m', maxClauses := c' } fuel p) (result', q') →
      result' ≠ .kTimeout → (result', q') = (result, q)) := by
  have same : ∀ m c, ({ config with maxIterations := m, maxClauses := c } : ProverConfig) =
      config.withLimits m c := fun _ _ => rfl
  simp only [same, prove_iff_loops] at done ⊢
  rcases done with ⟨last, loops⟩
  refine ⟨fun more larger => ⟨last, loops.raised more larger verdict⟩, ?_⟩
  rintro ⟨last', loops'⟩ verdict'
  -- both are answers of the search under the larger of each limit
  have both := loops.raised (Nat.le_max_left m m') (Nat.le_max_left c c') verdict
  have both' := loops'.raised (Nat.le_max_right m m') (Nat.le_max_right c c') verdict'
  cases both.unique both'
  rfl

def groundInput : Text := "cnf(a,axiom,p(a)). cnf(b,axiom,~p(a)).".toList

theorem limits_keep_verdict_sample : ∃ p q : Prover, Returns (fun fuel => Prover.prove .plain
    { maxIterations := 1000, maxClauses := 1000 } fuel p) (.kTheorem, q) := by
  have answer : Prod.fst <$> proveInput .plain { maxIterations := 10, maxClauses := 10 }
      50 groundInput = .ok .kTheorem := by decide +kernel
  rcases map_ok_iff.mp answer with ⟨⟨_, q⟩, run, rfl⟩
  rcases proveInput_ok.mp run with ⟨_, _, p, _, _, proved⟩
  exact ⟨p, q,
    (limits_keep_verdict .plain {} p 10 1000 10 1000 _ .kTheorem q q (prove_returns_of proved)
    (by decide)).1 (by omega) (by omega)⟩

end Limits

end AtpEngine
