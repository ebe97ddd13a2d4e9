import AtpEngine.ClausePrinting
import AtpEngine.CommandLine
import AtpEngine.PrintedProof

/-!
Reading a printed proof back. A call of the inference layer gives its clause the
values of a resolvent or a factor in every algebra that solves the bindings the
call may make. So the steps shown by a printed refutation are a derivation, which
starts from clauses of the input and ends with the empty clause; and the text has
no other reading.
-/
namespace AtpEngine

open Fuelled ClauseLogic Triangular TermTree

universe u

section Calls

variable {D : Type u} {func : Nat → List D → D} {order : VariableOrder}
  {uconfig : UnificationConfig} {env env' : Env}

/-- For all values of the variables that are left, some values make the two atoms equal
and the kept literals what the returned ones are. -/
theorem Inferred.instances {bank bank' : TermBank} {atom1 atom2 : Nat} {rest lits : List Literal}
    (wf : bank.WellFormed) (small : bank.ArityBounded) (inside1 : atom1 < bank.size)
    (inside2 : atom2 < bank.size) (solver : Solver uconfig func)
    (inferred : Inferred uconfig bank atom1 atom2 rest (some lits) bank') (assign : Nat → D) :
    ∃ assign', eval func assign' (bank.tree atom1) = eval func assign' (bank.tree atom2) ∧
      values func assign (bank'.read lits) = values func assign' (bank.read rest) := by
  cases inferred with
  | @succeeds fuel subst _ _ run valid applied =>
      have solved : ∃ assign', Solves func assign' (subst.trees bank) ∧
          ∀ x, subst.trees bank x = none → assign' x = assign x := by
        rcases solver with enabled | cycles
        · exact acyclic_solvable
            (unify_acyclic wf (empty_validIn bank) (empty_wellFounded bank) inside1
            inside2 (Or.inl enabled) run) assign
        · exact cycles _ assign (Substitution.bound_finite subst bank)
      rcases solved with ⟨assign', solves, agree⟩
      refine ⟨assign', unify_sound wf small (empty_validIn bank) run solves, ?_⟩
      rw [applied.applied.values_eq func solves]
      exact values_congr func fun x occurs => (agree x (applied.applied.var_free occurs)).symm

theorem resolve_resolvent {c1 c2 r : Clause} {i j : Nat} (wf : env.bank.WellFormed)
    (small : env.bank.ArityBounded) (valid1 : c1.ValidIn env.bank) (solver : Solver uconfig func)
    (outcome : ResolveOutcome order uconfig c1 i c2 j env (some r) env') :
    ResolventIn func (env.bank.read c1.literals) (env.bank.read c2.literals)
      (env'.bank.read r.literals) := by
  generalize same : some r = out at outcome
  cases outcome with
  | samePolarity _ _ _ => cases same
  | @opposite lit1 lit2 c2r mid atom2 _ lits bank' at_i at_j differ _ renamed at_j' inferred =>
      rcases Option.map_eq_some_iff.mp same.symm with ⟨found, rfl, rfl⟩
      rcases renamed.copy with ⟨σ, copy⟩
      have wfMid := renamed.grows.bank.wf wf
      have known := valid1 _ (List.mem_of_getElem? at_i)
      have opposite : lit2.isPositive = !lit1.isPositive := by
        cases positive : lit1.isPositive <;> cases positive' : lit2.isPositive <;> simp_all
      refine ⟨i, j, env.bank.tree lit1.atom, env.bank.tree lit2.atom, lit1.isPositive,
        by rw [TermBank.read_getElem?, at_i]; rfl, by
        rw [TermBank.read_getElem?, at_j, ← opposite]; rfl, fun assign => ?_⟩
      rcases inferred.instances wfMid (renamed.grows.bank.small small)
        (Nat.lt_of_lt_of_le known renamed.grows.bank.grows.size_le)
        (renamed.valid _ (List.mem_of_getElem? at_j')) solver assign with
        ⟨assign', equal, result⟩
      -- the second premise has the values that its renamed copy has
      have right : values func (solution func σ assign') (env.bank.read c2.literals) =
          values func assign' (mid.bank.read c2r.literals) :=
        copy.map_eq fun _ _ => solution_applied
      have atomRight : eval func (solution func σ assign') (env.bank.tree lit2.atom) =
          eval func assign' (mid.bank.tree atom2) := by
        have := congrArg (·[j]?) right
        simpa [values, TermBank.read, at_j, at_j'] using this
      refine ⟨assign', solution func σ assign', ?_, ?_⟩
      · rw [atomRight, ← equal, TermBank.tree_extends wf wfMid renamed.grows.bank.grows known]
      · rw [Inference.conclusion_literals, result, TermBank.read_append, values_append,
          TermBank.read_eraseIdx, TermBank.read_eraseIdx, values_eraseIdx, values_eraseIdx,
          values_eraseIdx, values_eraseIdx, right,
          TermBank.read_extends wf wfMid renamed.grows.bank.grows valid1]

theorem factorPair_factor {c r : Clause} {i j : Nat} (before : i < j) (wf : env.bank.WellFormed)
    (small : env.bank.ArityBounded) (valid : c.ValidIn env.bank) (solver : Solver uconfig func)
    (outcome : FactorOutcome uconfig c i j env (some r) env') :
    FactorIn func (env.bank.read c.literals) (env'.bank.read r.literals) := by
  generalize same : some r = out at outcome
  cases outcome with
  | opposite _ _ _ => cases same
  | @samePolarity litI litJ lits bank' at_i at_j agree inferred =>
      rcases Option.map_eq_some_iff.mp same.symm with ⟨found, rfl, rfl⟩
      refine ⟨i, j, env.bank.tree litI.atom, env.bank.tree litJ.atom, litI.isPositive, by omega,
        by rw [TermBank.read_getElem?, at_i]; rfl, by rw [TermBank.read_getElem?, at_j, agree]; rfl,
        fun assign => ?_⟩
      rcases inferred.instances wf small (valid _ (List.mem_of_getElem? at_i))
        (valid _ (List.mem_of_getElem? at_j)) solver assign with ⟨assign', equal, result⟩
      exact ⟨assign', equal,
        by rw [Inference.conclusion_literals, result, TermBank.read_eraseIdx]⟩

variable {runtime : Runtime} {config : ProverConfig} {fuel : Nat} {first last : Env}
  {store : ClauseStore} {k : Nat} {r : Clause}

/-- How a clause was inferred from older stored clauses, in one algebra. -/
inductive Step (func : Nat → List D → D) (last : Env) (store : ClauseStore) (k : Nat)
    (r : Clause) : Prop where
  | resolution {i j : Nat} {c1 c2 : Clause} : r.rule = .kResolution → r.parent1 = some i →
      r.parent2 = some j → i < k → j < k → store.clauses[i]? = some c1 →
      store.clauses[j]? = some c2 →
      ResolventIn func (last.bank.read c1.literals) (last.bank.read c2.literals)
        (last.bank.read r.literals) → Step func last store k r
  | factoring {i : Nat} {c : Clause} : r.rule = .kFactoring → r.parent1 = some i →
      r.parent2 = kInvalidId → i < k → store.clauses[i]? = some c →
      FactorIn func (last.bank.read c.literals) (last.bank.read r.literals) →
      Step func last store k r

theorem Called.step {inf : Inference} (wf : first.bank.WellFormed) (small : first.bank.ArityBounded)
    (solver : Solver config.uconfig func)
    (call : Called runtime config fuel first last store k inf (some r)) :
    Step func last store k r := by
  rcases call.reads wf with ⟨env, env', before, wfEnv, valid, run, premise, reads⟩
  rcases call with ⟨inRange, stored, _, _, _⟩
  have smallEnv := before.bank.small small
  rcases (perform_performed wfEnv valid run).built r rfl with ⟨lits, same, _⟩
  have result := reads r rfl
  cases inf with
  | resolve c1 i c2 j =>
      have member1 : c1 ∈ (Inference.resolve c1 i c2 j).premises := by simp [Inference.premises]
      have member2 : c2 ∈ (Inference.resolve c1 i c2 j).premises := by simp [Inference.premises]
      rcases stored c1 member1 with ⟨a, belowA, idA, atA, _⟩
      rcases stored c2 member2 with ⟨b, belowB, idB, atB, _⟩
      refine .resolution (by rw [same]; rfl) (by rw [same]; exact idA)
        (by rw [same]; exact idB) belowA belowB atA atB ?_
      rw [premise c1 member1, premise c2 member2, result]
      exact resolve_resolvent wfEnv smallEnv (valid c1 member1) solver
        (resolve_outcome wfEnv (valid c1 member1) (valid c2 member2) run)
  | factor c i j =>
      have member : c ∈ (Inference.factor c i j).premises := by simp [Inference.premises]
      rcases stored c member with ⟨a, belowA, idA, atA, _⟩
      refine .factoring (by rw [same]; rfl) (by rw [same]; exact idA)
        (by rw [same]; rfl) belowA atA ?_
      rw [premise c member, result]
      exact factorPair_factor inRange.1 wfEnv smallEnv (valid c member) solver
        (factorPair_outcome wfEnv (valid c member) run)

theorem Step.of_stored {c : Clause} (same : c = { r with id := c.id, depth := c.depth })
    (step : Step func last store k r) : Step func last store k c := by
  cases step with
  | resolution rule parent1 parent2 below below' at_i at_j resolvent =>
      exact .resolution (by rw [same]; exact rule) (by rw [same]; exact parent1)
        (by rw [same]; exact parent2) below below' at_i at_j (by rw [same]; exact resolvent)
  | factoring rule parent1 parent2 below at_i factor =>
      exact .factoring (by rw [same]; exact rule) (by rw [same]; exact parent1)
        (by rw [same]; exact parent2) below at_i (by rw [same]; exact factor)

theorem RunInv.step {initial : List Clause} {p : Prover} (wf : first.bank.WellFormed)
    (small : first.bank.ArityBounded) (solver : Solver config.uconfig func)
    (inputs : ∀ c ∈ initial, c.IsInput) (inv : RunInv runtime config fuel initial first p)
    {k : Nat} {c : Clause} (stored : p.store.clauses[k]? = some c) :
    (c.IsInput ∧ ∃ c0 ∈ initial, c.literals = c0.literals) ∨
      Step func p.env p.store k c := by
  cases inv.origin k c stored with
  | @initial c0 member same =>
      rcases inputs c0 member with ⟨rule, parent1, parent2⟩
      exact Or.inl
        ⟨⟨by rw [same]; exact rule, by rw [same]; exact parent1, by rw [same]; exact parent2⟩,
        c0, member, by rw [same]⟩
  | derived call same => exact Or.inr ((call.step wf small solver).of_stored same)

end Calls

section Lines

structure Lists (store : ClauseStore) (proof : List ProofStep) : Prop where
  records : ∀ step ∈ proof, store.Records step
  nodup : (proof.map (·.clauseId)).Nodup
  listed : ∀ step ∈ proof, ∀ parent, parent = step.parent1 ∨ parent = step.parent2 →
    parent ≠ kInvalidId → parent ∈ proof.map (·.clauseId)

def position (proof : List ProofStep) (id : ClauseId) : Nat := (proof.map (·.clauseId)).idxOf id

def reasonOf (proof : List ProofStep) (step : ProofStep) : Reason :=
  match step.rule with
  | .kResolution => .resolution (position proof step.parent1) (position proof step.parent2)
  | .kFactoring => .factoring (position proof step.parent1)
  | _ => .given

def Prover.clauseOf (p : Prover) (id : ClauseId) : Literals Nat Nat :=
  match p.store.find id with
  | some c => p.env.bank.read c.literals
  | none => []

def Prover.printedStep (p : Prover) (proof : List ProofStep) (step : ProofStep) : PrintedStep :=
  let lits := p.clauseOf step.clauseId
  ⟨reasonOf proof step, lits.map (literalSyntax p.env.bank.nameOf (clauseLabel lits))⟩

variable {p : Prover} {proof : List ProofStep} {step : ProofStep}

theorem position_getElem? {id : ClauseId} (listed : id ∈ proof.map (·.clauseId)) :
    ∃ other, proof[position proof id]? = some other ∧ other.clauseId = id := by
  have inside := List.idxOf_lt_length_of_mem listed
  have found : (proof.map (·.clauseId))[position proof id]? = some id := by
    rw [position, List.getElem?_eq_getElem inside, List.getElem_idxOf]
  rw [List.getElem?_map, Option.map_eq_some_iff] at found
  exact found

theorem position_eq (nodup : (proof.map (·.clauseId)).Nodup) {j : Nat} {other : ProofStep}
    (at_j : proof[j]? = some other) : position proof other.clauseId = j := by
  have found : (proof.map (·.clauseId))[j]? = some other.clauseId := by
    rw [List.getElem?_map, at_j]; rfl
  rcases List.getElem?_eq_some_iff.mp found with ⟨inside, here⟩
  rw [position, ← here, nodup.idxOf_getElem]

/-- The parents of a step are those its rule needs. -/
inductive ProofStep.Shaped (step : ProofStep) : Prop where
  | given : step.rule = .kInput → step.parent1 = kInvalidId → step.parent2 = kInvalidId →
      Shaped step
  | resolution {i j : Nat} : step.rule = .kResolution → step.parent1 = some i →
      step.parent2 = some j → Shaped step
  | factoring {i : Nat} : step.rule = .kFactoring → step.parent1 = some i →
      step.parent2 = kInvalidId → Shaped step

theorem ProofStep.Shaped.rule (shaped : step.Shaped) : (reasonOf proof step).rule = step.rule := by
  cases shaped with
  | given rule _ _ => rw [reasonOf, rule]; rfl
  | resolution rule _ _ => rw [reasonOf, rule]; rfl
  | factoring rule _ _ => rw [reasonOf, rule]; rfl

theorem ParentRefs.refs {refs : Text} (lists : Lists p.store proof) (shaped : step.Shaped)
    (printed : ParentRefs proof step refs) : refs = (reasonOf proof step).refs := by
  have real : ∀ {j : Nat} {other : ProofStep}, proof[j]? = some other →
      other.clauseId ≠ kInvalidId :=
    fun at_j => (lists.records _ (List.mem_of_getElem? at_j)).elim fun _ h => stored_ne_invalid h.1
  cases shaped with
  | given rule parent1 parent2 =>
      rw [reasonOf, rule]
      cases printed with
      | none _ => rfl
      | one _ at_j same => exact absurd (same.trans parent1) (real at_j)
      | two at_j same _ _ => exact absurd (same.trans parent1) (real at_j)
  | resolution rule parent1 parent2 =>
      rw [reasonOf, rule]
      cases printed with
      | none none => rw [none] at parent1; cases parent1
      | one none _ _ => rw [none] at parent2; cases parent2
      | two at_j same at_k same' =>
          dsimp only
          rw [← same, ← same', position_eq lists.nodup at_j, position_eq lists.nodup at_k,
            Reason.refs]
  | factoring rule parent1 parent2 =>
      rw [reasonOf, rule]
      cases printed with
      | none none => rw [none] at parent1; cases parent1
      | one _ at_j same =>
          dsimp only
          rw [← same, position_eq lists.nodup at_j, Reason.refs]
      | two _ _ at_k same => exact absurd (same.trans parent2) (real at_k)

theorem FormattedLine.text {i : Nat} {line : Text} (wf : p.env.bank.WellFormed)
    (lists : Lists p.store proof) (shaped : step.Shaped)
    (formatted : FormattedLine p.store p.env.bank proof i step line) :
    line = (p.printedStep proof step).text (i + 1) := by
  rcases formatted.shape with ⟨c, clause, refs, found, printed, references, rfl⟩
  rcases printed.exists with ⟨fuel, run⟩
  rw [PrintedStep.text, Prover.printedStep, references.refs lists shaped,
    clauseToString_text wf run, literalsText_rendered, shaped.rule, Prover.clauseOf, found]

theorem proofText_lines {lines : List Text} (lengths : lines.length = proof.length)
    (each : ∀ (i : Nat) step line, proof[i]? = some step → lines[i]? = some line →
      line = (p.printedStep proof step).text (i + 1)) :
    proofText (proof.map (p.printedStep proof)) = lines.flatMap fun line => line ++ ['\n'] := by
  have same : lines = ((proof.map (p.printedStep proof)).zipIdx 1).map fun n => n.1.text n.2 := by
    refine List.ext_getElem? fun i => ?_
    rw [List.getElem?_map, List.getElem?_zipIdx, List.getElem?_map]
    cases at_i : proof[i]? with
    | none => simpa [lengths] using at_i
    | some step =>
        have inside : i < lines.length := lengths ▸ (List.getElem?_eq_some_iff.mp at_i).1
        have found := List.getElem?_eq_getElem inside
        rw [found, each i step _ at_i found, Nat.add_comm]
        rfl
  rw [same, List.flatMap_map]
  rfl

end Lines

section Inputs

variable {bank : TermBank}

def TermBank.varName (bank : TermBank) (x : Nat) : Text :=
  match bank.terms[x]? with
  | some t => bank.nameOf t.symbolId
  | none => []

theorem TermBank.varName_injOn (wf : bank.WellFormed) (shared : bank.HashConsed) :
    Set.InjOn bank.varName {x | bank.isVar x = true} := by
  have entry : ∀ {x : Nat}, bank.isVar x = true → ∃ symbol,
      bank.terms[x]? = some ⟨symbol, []⟩ := by
    intro x isVar
    have at_x := List.getElem?_eq_getElem (TermBank.isVar_lt isVar)
    have none := wf.var_args at_x (by rw [← TermBank.isVar_term at_x]; exact isVar)
    exact ⟨_, by rw [at_x, ← none]⟩
  intro x isVar y isVar' same
  rcases entry isVar with ⟨symbol, at_x⟩
  rcases entry isVar' with ⟨symbol', at_y⟩
  rw [varName, varName, at_x, at_y] at same
  have symbols := TermBank.nameOf_inj wf.table (wf.symbol_valid at_x) (wf.symbol_valid at_y) same
  subst symbols
  exact Option.some.inj ((shared x _ at_x).symm.trans (shared y _ at_y))

theorem Denotes.tree (wf : bank.WellFormed) {t : SyntaxTerm} {id : Nat}
    (denotes : Denotes bank t id) :
    t.tree = (bank.tree id).relabel bank.nameOf bank.varName := by
  induction t using SyntaxTerm.induct generalizing id with
  | var name =>
      rcases denotes with
        @⟨_, _, symbol, ids, entry, ⟨info, at_symbol, named, kind, _⟩, _, _⟩
      have isVar : bank.isVar id = true := by
        rw [TermBank.isVar_term entry, SymbolTable.isVar, at_symbol]
        simp [kind, SyntaxTerm.kind]
      rw [TermBank.tree_var isVar, TermTree.relabel, eval_var, TermBank.varName, entry]
      simp only [TermBank.nameOf, at_symbol, named, SyntaxTerm.tree, SyntaxTerm.name]
  | const name =>
      rcases denotes with
        @⟨_, _, symbol, ids, entry, ⟨info, at_symbol, named, kind, _⟩, widths, _⟩
      have isVar : bank.isVar id = false := by
        rw [TermBank.isVar_term entry, SymbolTable.isVar, at_symbol]
        simp [kind, SyntaxTerm.kind]
      rw [TermBank.tree_node wf entry isVar, List.length_eq_zero_iff.mp widths.symm,
        TermTree.relabel, eval_node]
      simp only [TermBank.nameOf, at_symbol, named, SyntaxTerm.tree, SyntaxTerm.name, List.map_nil]
  | app name args ih =>
      rcases denotes with
        @⟨_, _, symbol, ids, entry, ⟨info, at_symbol, named, kind, _⟩, widths, children⟩
      have isVar : bank.isVar id = false := by
        rw [TermBank.isVar_term entry, SymbolTable.isVar, at_symbol]
        simp [kind, SyntaxTerm.kind]
      have each :
          List.Forall₂ (fun arg a => arg.tree = (bank.tree a).relabel bank.nameOf bank.varName)
          args ids :=
        List.forall₂_iff_zip.mpr ⟨widths, fun {arg a} member =>
          ih arg (List.of_mem_zip member).1 (children (arg, a) member)⟩
      have trees : args.map SyntaxTerm.tree =
          ids.map fun a => (bank.tree a).relabel bank.nameOf bank.varName := by
        rw [← List.forall₂_eq_eq_eq, List.forall₂_map_left_iff, List.forall₂_map_right_iff]
        exact each
      rw [TermBank.tree_node wf entry isVar, TermTree.relabel, eval_node, List.map_map,
        SyntaxTerm.tree, trees]
      simp only [TermBank.nameOf, at_symbol, named, SyntaxTerm.name]
      rfl

theorem clauseTrees_reads (wf : bank.WellFormed) {ls : List SyntaxLiteral} {lits : List Literal}
    (reads : List.Forall₂ (SyntaxLiteral.Reads bank) ls lits) :
    clauseTrees ls = ClauseLogic.relabel bank.nameOf bank.varName (bank.read lits) := by
  rw [clauseTrees, TermBank.read, ClauseLogic.relabel, List.map_map, ← List.forall₂_eq_eq_eq,
    List.forall₂_map_left_iff, List.forall₂_map_right_iff]
  exact reads.imp fun l lit read => Prod.ext (read.atom.tree wf) read.polarity.symm

end Inputs

section Certificates

variable {runtime : Runtime} {config : ProverConfig} {fuel : Nat} {initial : List Clause}
  {first : Env} {p : Prover} {proof : List ProofStep} {step : ProofStep} {D : Type u}

/-- What stands behind the line of a step: its clause `c` is stored under `k`, and the
lines it refers to show the older clauses it was inferred from. -/
inductive Shown (func : Nat → List D → D) (initial : List Clause) (p : Prover)
    (proof : List ProofStep) (step : ProofStep) (k : Nat) (c : Clause) : Prop where
  | given {c0 : Clause} : reasonOf proof step = .given → c0 ∈ initial →
      c.literals = c0.literals → Shown func initial p proof step k c
  | resolution {i j : Nat} {c1 c2 : Clause} :
      reasonOf proof step = .resolution (position proof (some i)) (position proof (some j)) →
      some i ∈ proof.map (·.clauseId) → some j ∈ proof.map (·.clauseId) →
      i < k → j < k → p.store.clauses[i]? = some c1 → p.store.clauses[j]? = some c2 →
      ResolventIn func (p.env.bank.read c1.literals) (p.env.bank.read c2.literals)
        (p.env.bank.read c.literals) → Shown func initial p proof step k c
  | factoring {i : Nat} {c1 : Clause} : reasonOf proof step =
      .factoring (position proof (some i)) →
      some i ∈ proof.map (·.clauseId) → i < k → p.store.clauses[i]? = some c1 →
      FactorIn func (p.env.bank.read c1.literals) (p.env.bank.read c.literals) →
      Shown func initial p proof step k c

theorem Lists.shown {func : Nat → List D → D} (lists : Lists p.store proof)
    (wf : first.bank.WellFormed) (small : first.bank.ArityBounded)
    (inputs : ∀ c ∈ initial, c.IsInput) (inv : RunInv runtime config fuel initial first p)
    (solver : Solver config.uconfig func) (member : step ∈ proof) :
    step.Shaped ∧ ∃ k c, step.clauseId = some k ∧
      p.store.clauses[k]? = some c ∧ p.clauseOf step.clauseId = p.env.bank.read c.literals ∧
      Shown func initial p proof step k c := by
  rcases lists.records step member with ⟨c, found, rule, parent1, parent2⟩
  rcases ClauseStore.find_iff.mp found with ⟨k, isK, stored⟩
  have clause : p.clauseOf step.clauseId = p.env.bank.read c.literals := by
    rw [Prover.clauseOf, found]
  have listed : ∀ {i : Nat}, some i = step.parent1 ∨ some i = step.parent2 →
      some i ∈ proof.map (·.clauseId) :=
    fun is => lists.listed step member _ is (by simp [kInvalidId])
  rcases inv.step wf small solver inputs stored with ⟨input, c0, inside, same⟩ | inferred
  · exact ⟨.given (rule.trans input.rule) (parent1.trans input.parent1)
      (parent2.trans input.parent2),
      k, c, isK, stored, clause, .given (by rw [reasonOf, rule, input.rule]) inside same⟩
  · cases inferred with
    | resolution isRule left right below below' at_i at_j resolvent =>
        have isLeft := parent1.trans left
        have isRight := parent2.trans right
        exact ⟨.resolution (rule.trans isRule) isLeft isRight, k, c, isK, stored, clause,
          .resolution (by rw [reasonOf, rule, isRule, isLeft, isRight])
            (listed (Or.inl isLeft.symm))
            (listed (Or.inr isRight.symm)) below below' at_i at_j resolvent⟩
    | factoring isRule only none below at_i factor =>
        have isOnly := parent1.trans only
        exact ⟨.factoring (rule.trans isRule) isOnly (parent2.trans none), k, c, isK,
          stored, clause,
          .factoring (by rw [reasonOf, rule, isRule, isOnly]) (listed (Or.inl isOnly.symm))
            below at_i factor⟩

theorem Prover.printedStep_clause (proof : List ProofStep) {c : Clause}
    (clause : p.clauseOf step.clauseId = p.env.bank.read c.literals) :
    clauseTrees (p.printedStep proof step).clause = ClauseLogic.relabel p.env.bank.nameOf
      (clauseLabel (p.env.bank.read c.literals)) (p.env.bank.read c.literals) := by
  simp only [Prover.printedStep, clause, clauseTrees_rendered]

theorem line_position {k : Nat} {c : Clause} (stored : p.store.clauses[k]? = some c)
    (listed : some k ∈ proof.map (·.clauseId)) : ∃ line,
      ((proof.map (p.printedStep proof)).map PrintedStep.line)[position proof (some k)]? =
        some line ∧
      line.clause =
        ClauseLogic.relabel p.env.bank.nameOf (clauseLabel (p.env.bank.read c.literals))
          (p.env.bank.read c.literals) := by
  rcases position_getElem? listed with ⟨other, at_k, same⟩
  have found : p.store.find (some k) = some c := ClauseStore.find_iff.mpr ⟨k, rfl, stored⟩
  refine ⟨_, by rw [List.getElem?_map, List.getElem?_map, at_k]; rfl, ?_⟩
  exact Prover.printedStep_clause proof (by rw [same, Prover.clauseOf, found])

theorem Shown.justified {func : Text → List D → D} {k : Nat} {c : Clause}
    (shown : Shown (fun symbol => func (p.env.bank.nameOf symbol)) initial p proof step k c)
    (clause : p.clauseOf step.clauseId = p.env.bank.read c.literals) :
    (p.printedStep proof step).line.Justified func
      ((proof.map (p.printedStep proof)).map PrintedStep.line) := by
  have own := Prover.printedStep_clause proof clause
  have reason : (p.printedStep proof step).line.reason = reasonOf proof step := rfl
  cases shown with
  | given isGiven _ _ =>
      rw [Line.Justified, reason, isGiven]
      trivial
  | resolution names listed listed' _ _ at_i at_j resolvent =>
      rcases line_position at_i listed with ⟨l, at_l, left⟩
      rcases line_position at_j listed' with ⟨m, at_m, right⟩
      rw [Line.Justified, reason, names]
      refine ⟨l, m, at_l, at_m, ?_⟩
      rw [left, right, PrintedStep.line, own]
      exact resolvent.relabel (clauseLabel_injOn _) (clauseLabel_injOn _)
  | factoring names listed _ at_i factor =>
      rcases line_position at_i listed with ⟨l, at_l, premise⟩
      rw [Line.Justified, reason, names]
      refine ⟨l, at_l, ?_⟩
      rw [premise, PrintedStep.line, own]
      exact factor.relabel (clauseLabel_injOn _)

def idAt (proof : List ProofStep) (n : Nat) : Nat := ((proof[n]?).bind (·.clauseId)).getD 0

theorem Shown.older {func : Nat → List D → D} {k n : Nat} {c : Clause}
    (shown : Shown func initial p proof step k c) (isK : step.clauseId = some k)
    (at_n : proof[n]? = some step) :
    ∀ premise ∈ (reasonOf proof step).premises, idAt proof premise < idAt proof n := by
  have older : ∀ {i : Nat}, some i ∈ proof.map (·.clauseId) → i < k →
      idAt proof (position proof (some i)) < idAt proof n := by
    intro i listed below
    rcases position_getElem? listed with ⟨other, at_i, same⟩
    simpa [idAt, at_i, same, at_n, isK] using below
  intro premise named
  cases shown with
  | given isGiven _ _ =>
      rw [isGiven] at named
      cases named
  | resolution names listed listed' below below' _ _ _ =>
      rw [names] at named
      rcases List.mem_cons.mp named with rfl | named
      · exact older listed below
      · rw [List.mem_singleton.mp named]
        exact older listed' below'
  | factoring names listed below _ _ =>
      rw [names] at named
      rw [List.mem_singleton.mp named]
      exact older listed below

/-- The lines of a whole derivation are a derivation over every algebra that solves
the bindings of its calls. -/
theorem Lists.derivation {func : Text → List D → D} (lists : Lists p.store proof)
    (wf : first.bank.WellFormed) (small : first.bank.ArityBounded)
    (inputs : ∀ c ∈ initial, c.IsInput) (inv : RunInv runtime config fuel initial first p)
    (solver : config.enableOccursCheck = true ∨ SolvesCycles Nat func) :
    Derivation func ((proof.map (p.printedStep proof)).map PrintedStep.line) := by
  have solver' : Solver config.uconfig fun symbol => func (p.env.bank.nameOf symbol) :=
    solver.imp id fun cycles => cycles.relabel _
  refine ⟨fun line member => ?_, idAt proof, fun n line at_n => ?_⟩
  · rcases List.mem_map.mp member with ⟨_, inside, rfl⟩
    rcases List.mem_map.mp inside with ⟨step, listed, rfl⟩
    rcases lists.shown wf small inputs inv solver' listed with ⟨_, k, c, _, _, clause, shown⟩
    exact shown.justified clause
  · rw [List.getElem?_map, List.getElem?_map] at at_n
    rcases Option.map_eq_some_iff.mp at_n with ⟨_, printed, rfl⟩
    rcases Option.map_eq_some_iff.mp printed with ⟨step, here, rfl⟩
    rcases lists.shown wf small inputs inv solver' (List.mem_of_getElem? here) with
      ⟨_, k, c, isK, _, _, shown⟩
    exact shown.older isK here

theorem Lists.reads {func : Nat → List D → D} (lists : Lists p.store proof)
    (wf : first.bank.WellFormed) (small : first.bank.ArityBounded)
    (inputs : ∀ c ∈ initial, c.IsInput) (inv : RunInv runtime config fuel initial first p)
    (solver : Solver config.uconfig func) (words : p.env.bank.WordNames) {lines : List Text}
    (lengths : lines.length = proof.length)
    (each : ∀ (i : Nat) step line, proof[i]? = some step → lines[i]? = some line →
      FormattedLine p.store p.env.bank proof i step line) :
    ReadsProof (lines.flatMap fun line => line ++ ['\n']) (proof.map (p.printedStep proof)) := by
  have wfLast := inv.grows.bank.wf wf
  refine ⟨fun shownStep member => ?_, proofText_lines lengths fun i step line at_i at_i' => ?_⟩
  · rcases List.mem_map.mp member with ⟨step, listed, rfl⟩
    rcases lists.shown wf small inputs inv solver listed with ⟨_, k, c, _, stored, clause, _⟩
    intro l inside
    rcases List.mem_map.mp inside with ⟨lit, place, rfl⟩
    rw [clause] at place
    rcases List.mem_map.mp place with ⟨literal, here, rfl⟩
    refine treeSyntax_proper ((tree_nodes wfLast (inv.valid k c stored literal here)).mono
      fun f known => words f known.1 known.2) fun x _ => prettyVarName_word _
  · have shaped := (lists.shown wf small inputs inv solver (List.mem_of_getElem? at_i)).1
    exact (each i step line at_i at_i').text wfLast lists shaped

theorem Lists.inputs_shown {input : Text} {clauses : List Clause} {env : Env}
    {func : Nat → List D → D} (read : readInput input = .ok (clauses, env))
    (few : FewArguments input) (inv : RunInv runtime config fuel clauses env p)
    (solver : Solver config.uconfig func) (lists : Lists p.store proof)
    {formulas : List SyntaxFormula} (renders : Renders formulas input) :
    ∀ shown ∈ proof.map (p.printedStep proof), shown.reason = .given →
      ∃ f ∈ formulas, Variant (clauseTrees f.literals) (clauseTrees shown.clause) := by
  rcases readInput_ready read with ⟨ready, small, _⟩
  have wf := inv.grows.bank.wf ready.wf
  have shared := inv.grows.bank.shared ready.shared
  rcases bind_ok_iff.mp read with ⟨⟨problem, bank⟩, parsed, same⟩
  rcases Prod.mk.inj (pure_ok_iff.mp same) with ⟨rfl, rfl⟩
  have readsAs := ((parse_exact input few).2.2 problem bank formulas parsed renders).1
  intro shown member isGiven
  rcases List.mem_map.mp member with ⟨step, listed, rfl⟩
  rcases lists.shown ready.wf (small few) ready.inputs inv solver listed with
    ⟨_, k, c, _, stored, clause, behind⟩
  replace isGiven : reasonOf proof step = .given := isGiven
  cases behind with
  | given _ inside literals =>
      rcases mem_prepareForProving inside with ⟨_, af, entry, c1, member1, literals1⟩
      rcases forall₂_mem_right readsAs entry with ⟨f, known, reads⟩
      rcases reads.clause with ⟨lits, isClause, each⟩
      rw [isClause, List.mem_singleton] at member1
      have own : c.literals = lits := by rw [literals, literals1, member1]
      have reads' : List.Forall₂ (SyntaxLiteral.Reads p.env.bank) f.literals lits :=
        each.imp fun _ _ h => ⟨h.polarity, h.atom.mono inv.grows.bank.grows⟩
      refine ⟨f, known, ?_⟩
      rw [clauseTrees_reads wf reads', Prover.printedStep_clause proof clause, own]
      refine relabel_variant ((TermBank.varName_injOn wf shared).mono fun x occurs => ?_)
        (clauseLabel_injOn _)
      exact varOf_lt wf (own ▸ inv.valid k c stored) occurs
  | resolution names _ _ _ _ _ _ _ => rw [names] at isGiven; cases isGiven
  | factoring names _ _ _ _ => rw [names] at isGiven; cases isGiven

end Certificates

theorem Prover.PrintsProof.readback {runtime : Runtime} {config : ProverConfig} {input : Text}
    (few : FewArguments input) {fuel : Nat} {p : Prover}
    (run : proveInput runtime config fuel input = .ok (.kTheorem, p)) {text : Text}
    (printed : p.PrintsProof text) : ∃ steps formulas, ReadsProof text steps ∧
      Renders formulas input ∧
      (∀ step ∈ steps, step.reason = .given →
        ∃ f ∈ formulas, Variant (clauseTrees f.literals) (clauseTrees step.clause)) ∧
      (∃ step ∈ steps, step.clause = []) ∧
      ∀ (D : Type u) (func : Text → List D → D),
        config.enableOccursCheck = true ∨ SolvesCycles Nat func →
        Derivation func (steps.map PrintedStep.line) := by
  rcases proveInput_ok.mp run with ⟨clauses, env, start, read, added, proved⟩
  rcases readInput_ready read with ⟨ready, small, formulas, renders, _⟩
  rcases prove_runInv ready.wf ready.valid added proved with ⟨_, inv, _⟩
  rcases printed with ⟨root, c, proof, lines, _, found, literals, extracts,
    ⟨earlier, step, isLast, isRoot⟩, members, rfl, lengths, each⟩
  rcases extracts.exists with ⟨budget, extract⟩
  rcases extractProof_explored (stored_ne_invalid found) extract with ⟨records, explored⟩
  have lists : Lists p.store proof :=
    ⟨records, explored.root.2.1, parents_listed records members⟩
  have solver : Solver config.uconfig (InfiniteTree.node (F := Nat)) :=
    Or.inr InfiniteTree.node_solvesCycles
  have reads := lists.reads ready.wf (small few) ready.inputs inv solver
    (readInput_wordNames read inv.grows) lengths each
  have empty : ∃ shown ∈ proof.map (p.printedStep proof), shown.clause = [] := by
    refine ⟨_, List.mem_map.mpr ⟨step, by rw [isLast]; simp, rfl⟩, ?_⟩
    simp only [Prover.printedStep, Prover.clauseOf, isRoot, found, literals]
    rfl
  exact ⟨_, formulas, reads, renders, lists.inputs_shown read few inv solver renders, empty,
    fun D func solves => lists.derivation ready.wf (small few) ready.inputs inv solves⟩

/-- A printed refutation has one reading, and what it reads is a derivation of the
empty clause from clauses of the input: over all algebras when the occurs check is
on, and over those that solve cyclic bindings, as infinite trees do, when it is off. -/
theorem proof_readback (runtime : Runtime) (config : ProverConfig) {input : Text}
    (few : FewArguments input) {fuel : Nat} {p : Prover}
    (run : proveInput runtime config fuel input = .ok (.kTheorem, p)) :
    ∃ root proof text steps formulas, p.getEmptyClauseId = some root ∧
      Returns (fun fuel => extractProof fuel p.store root) proof ∧
      Returns (fun fuel => formatProof fuel proof p.store p.env.bank) text ∧
      ReadsProof text steps ∧ (∀ other, ReadsProof text other → other = steps) ∧
      Renders formulas input ∧
      (∀ step ∈ steps, step.reason = .given →
        ∃ f ∈ formulas, Variant (clauseTrees f.literals) (clauseTrees step.clause)) ∧
      (∃ step ∈ steps, step.clause = []) ∧
      (∀ (D : Type u) (func : Text → List D → D),
        config.enableOccursCheck = true ∨ SolvesCycles Nat func →
        Derivation func (steps.map PrintedStep.line)) ∧
      (config.enableOccursCheck = true →
        ¬ Satisfiable.{u} (givenClauses (steps.map PrintedStep.line))) := by
  rcases proveInput_returns.mp (proveInput_returns_of run) with
    ⟨clauses, env, start, read, added, proved⟩
  rcases refutation_printed read added proved with
    ⟨root, proof, text, isRoot, extracts, prints, printed⟩
  rcases printed.readback few run with
    ⟨steps, formulas, reads, renders, given, empty, derivation⟩
  refine ⟨root, proof, text, steps, formulas, isRoot, extracts, prints, reads,
    fun other again => again.unique reads, renders, given, empty, derivation, ?_⟩
  rintro enabled ⟨D, _, ⟨func, truth⟩, models⟩
  rcases empty with ⟨shown, member, none⟩
  refine (derivation D func (Or.inl enabled)).refutes
    ⟨_, List.mem_map.mpr ⟨shown, member, rfl⟩, ?_⟩ truth models
  rw [PrintedStep.line, none]
  rfl

theorem proof_readback_sample : ∃ (p : Prover) (root : ClauseId) (proof : List ProofStep)
    (text : Text) (steps : List PrintedStep), p.getEmptyClauseId = some root ∧
    Returns (fun fuel => extractProof fuel p.store root) proof ∧
    Returns (fun fuel => formatProof fuel proof p.store p.env.bank) text ∧
    ReadsProof text steps ∧ (∀ other, ReadsProof text other → other = steps) ∧
    ¬ Satisfiable.{0} (givenClauses (steps.map PrintedStep.line)) := by
  have answer : (Prod.fst <$> proveInput .plain { enableOccursCheck := true } 50 refutableInput) =
      .ok .kTheorem := by decide +kernel
  rcases map_ok_iff.mp answer with ⟨⟨_, p⟩, run, rfl⟩
  rcases proof_readback.{0} .plain _ (fun _ renders => renders.bounded (by decide +kernel)) run with
    ⟨root, proof, text, steps, _, isRoot, extracts, prints, reads, unique, _, _, _, _, refutes⟩
  exact ⟨p, root, proof, text, steps, isRoot, extracts, prints, reads, unique, refutes rfl⟩

end AtpEngine
