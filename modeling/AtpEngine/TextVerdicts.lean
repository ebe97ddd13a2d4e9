import AtpEngine.ProofReadback
import AtpEngine.Reducts
import AtpEngine.TermPrinting

/-!
The verdicts of a search, told of the text it has read. The clauses of an entry are
clauses over names; what is true of them is true of the terms in the bank. So
the verdict on one text is evidence for all others that say the same or more.
-/
namespace AtpEngine

open Fuelled ClauseLogic TermTree Triangular

def textClauses (formulas : List SyntaxFormula) : Set (Literals Text Text) :=
  {clause | ∃ f ∈ formulas, clause = clauseTrees f.literals}

section Reading

variable {input : Text} {formulas : List SyntaxFormula} {clauses : List Clause}
  {env : Env} {D : Type}

theorem textClauses_eq (read : readInput input = .ok (clauses, env))
    (renders : Renders formulas input) :
    textClauses formulas =
      ClauseLogic.relabel env.bank.nameOf env.bank.varName '' env.bank.readAll
        {c | c ∈ clauses} := by
  rcases readInput_ready read with ⟨ready, _⟩
  rcases bind_ok_iff.mp read with ⟨⟨problem, bank⟩, parsed, same⟩
  rcases Prod.mk.inj (pure_ok_iff.mp same) with ⟨rfl, rfl⟩
  have sound := parseTptpString_sound input
  rw [parsed] at sound
  rcases sound with ⟨formulas', renders', p, rfl, built, readsAs⟩
  rcases renders.unique renders' with rfl
  ext clause
  constructor
  · rintro ⟨f, member, rfl⟩
    rcases forall₂_mem_left readsAs member with ⟨af, entry, reads⟩
    rcases reads.clause with ⟨lits, isClause, each⟩
    refine ⟨_, ⟨{ literals := lits }, ?_, rfl⟩, (clauseTrees_reads built.wf each).symm⟩
    refine List.mem_flatMap.mpr ⟨af, List.mem_filter.mpr ⟨entry, reads.isCnf⟩, ?_⟩
    rw [isClause]
    exact List.mem_singleton.mpr rfl
  · rintro ⟨_, ⟨c, member, rfl⟩, rfl⟩
    rcases mem_prepareForProving member with ⟨_, af, entry, c0, inside, literals⟩
    rcases forall₂_mem_right readsAs entry with ⟨f, known, reads⟩
    rcases reads.clause with ⟨lits, isClause, each⟩
    rw [isClause, List.mem_singleton] at inside
    refine ⟨f, known, ?_⟩
    rw [clauseTrees_reads built.wf each, literals, inside]

theorem models_of_text (read : readInput input = .ok (clauses, env))
    (renders : Renders formulas input) {I : Interpretation Text D}
    (models : ∀ clause ∈ textClauses formulas, I.Models clause) :
    ∀ lits ∈ env.bank.readAll {c | c ∈ clauses}, (I.reduct env.bank.nameOf).Models lits := by
  rcases readInput_ready read with ⟨ready, _⟩
  rw [textClauses_eq read renders] at models
  rintro _ ⟨c, member, rfl⟩
  refine (I.models_relabel ((TermBank.varName_injOn ready.wf ready.shared).mono fun x occurs =>
    ?_)).mp (models _ ⟨_, ⟨c, member, rfl⟩, rfl⟩)
  exact varOf_lt ready.wf (ready.valid c member) occurs

/-- The id of a name, for the names that the table knows. -/
def TermBank.idOf (bank : TermBank) (name : Text) : Nat :=
  (bank.symbols.nameToId.lookup name).getD 0

theorem models_text (read : readInput input = .ok (clauses, env)) (renders : Renders formulas input)
    {I : Interpretation Nat D}
    (models : ∀ lits ∈ env.bank.readAll {c | c ∈ clauses}, I.Models lits) :
    ∀ clause ∈ textClauses formulas, (I.reduct env.bank.idOf).Models clause := by
  rcases readInput_ready read with ⟨ready, _⟩
  rw [textClauses_eq read renders]
  rintro _ ⟨_, ⟨c, member, rfl⟩, rfl⟩
  have valid := ready.valid c member
  refine ((I.reduct env.bank.idOf).models_relabel
    ((TermBank.varName_injOn ready.wf ready.shared).mono fun x occurs =>
      varOf_lt ready.wf valid occurs)).mpr ?_
  refine Interpretation.models_congr (P := fun symbol => symbol < env.bank.symbols.size)
    (fun symbol inside => ?_) (fun lit at_lit => ?_) (models _ ⟨c, member, rfl⟩)
  · have entry : env.bank.symbols.infos[symbol]? = some env.bank.symbols.infos[symbol] :=
      List.getElem?_eq_getElem inside
    simp only [Interpretation.reduct, TermBank.idOf, TermBank.nameOf, entry,
      ready.wf.table.complete symbol _ entry, Option.getD_some]
  · rcases List.mem_map.mp at_lit with ⟨l, inside, rfl⟩
    exact (tree_nodes ready.wf (valid l inside)).mono fun _ known => known.1

end Reading

section Verdicts

variable {runtime runtime' : Runtime} {config config' : ProverConfig} {fuel fuel' : Nat}
  {input input' : Text}
  {formulas formulas' : List SyntaxFormula} {result : ProverResult} {p p' : Prover}

theorem proveInput_history (run : proveInput runtime config fuel input = .ok (result, p)) :
    ∃ clauses env budget log, readInput input = .ok (clauses, env) ∧
      HistoryInv runtime config env budget log clauses [result] p ∧
      p.env.bank.readAll {c | c ∈ clauses} = env.bank.readAll {c | c ∈ clauses} ∧
      (result = .kSaturation → p.unprocessed = []) := by
  rcases proveInput_ok.mp run with ⟨clauses, env, start, read, added, proves⟩
  rcases readInput_ready read with ⟨ready, _⟩
  have history : History runtime config env clauses [result] p :=
    .proved (.added .fresh ready.valid added) proves
  rcases history.inv ready.wf with ⟨budget, log, inv⟩
  refine ⟨clauses, env, budget, log, read, inv, inv.run.readAll ready.wf ready.valid, ?_⟩
  rintro rfl
  exact saturation_done proves

def Unreserved (formulas : List SyntaxFormula) : Prop :=
  ∀ f ∈ formulas, ∀ u ∈ f.uses, ∀ k, u.name ≠ freshName k

theorem unreserved_fresh {clauses : List Clause} {env : Env}
    (read : readInput input = .ok (clauses, env)) (renders : Renders formulas input)
    (unreserved : Unreserved formulas) : env.Fresh := by
  rcases readInput_ready read with ⟨ready, _, formulas', renders', named⟩
  rcases renders.unique renders' with rfl
  intro k _
  cases found : env.bank.symbols.nameToId.lookup (freshName k) with
  | none => rfl
  | some id =>
      rcases ready.wf.table.sound _ _ found with ⟨info, entry, isFresh⟩
      rcases named info (List.mem_of_getElem? entry) with ⟨u, use, name, _⟩
      rcases List.mem_flatMap.mp use with ⟨f, member, inside⟩
      exact absurd (name.trans isFresh) (unreserved f member u inside k)

theorem text_refuted (few : FewArguments input) (renders : Renders formulas input)
    (run : proveInput runtime config fuel input = .ok (.kTheorem, p)) {D : Type} [Nonempty D]
    {I : Interpretation Text D}
    (checked : config.enableOccursCheck = true ∨ SolvesCycles Nat I.func) :
    ¬ ∀ clause ∈ textClauses formulas, I.Models clause := by
  intro models
  rcases proveInput_history run with ⟨clauses, env, budget, log, read, inv, same, _⟩
  rcases readInput_ready read with ⟨ready, small, _⟩
  have holds := models_of_text read renders models
  rw [← same] at holds
  rcases checked with enabled | cycles
  · exact inv.unsatisfiable ready.wf (small few) enabled (by simp) ⟨D, inferInstance, _, holds⟩
  · exact inv.no_model_cycles (cycles.relabel env.bank.nameOf) ready.wf (small few)
      (by simp) _ holds

/-- A saturated text has a model, one that solves cyclic bindings when the occurs
check is off. -/
theorem text_saturated (renders : Renders formulas input) (unreserved : Unreserved formulas)
    (run : proveInput runtime config fuel input = .ok (.kSaturation, p)) :
    ∃ (D : Type) (_ : Nonempty D) (I : Interpretation Text D),
      (config.enableOccursCheck = false → SolvesCycles Nat I.func) ∧
        ∀ clause ∈ textClauses formulas, I.Models clause := by
  rcases proveInput_history run with ⟨clauses, env, budget, log, read, inv, same, done⟩
  rcases readInput_ready read with ⟨ready, _⟩
  have fresh := unreserved_fresh read renders unreserved
  by_cases off : config.enableOccursCheck = false
  · rcases inv.modelled (.unchecked off InfiniteTree.node_free) ready.wf fresh (by simp)
      (done rfl) with ⟨truth, models⟩
    rw [same] at models
    exact ⟨InfiniteTree Nat, inferInstance, _, fun _ => InfiniteTree.node_solvesCycles.relabel _,
      models_text read renders models⟩
  · rcases inv.satisfiable ready.wf fresh (by simp) (done rfl) with ⟨D, nonempty, I, models⟩
    rw [same] at models
    exact ⟨D, nonempty, _, fun isOff => absurd isOff off, models_text read renders models⟩

/-- Verdicts on two texts do not contradict each other. When every clause of one says
less than some clause of the other, its refutation excludes a saturated search for
the other, whatever the two searches were configured to do. -/
theorem verdicts_consistent (renders : Renders formulas input) (renders' : Renders formulas' input')
    (few : FewArguments input') (unreserved : Unreserved formulas) {g : Text → Text}
    (weakens : Weakens g (textClauses formulas) (textClauses formulas'))
    (checks : config'.enableOccursCheck = true ∨ config.enableOccursCheck = false)
    (refuted : proveInput runtime' config' fuel' input' = .ok (.kTheorem, p'))
    (run : proveInput runtime config fuel input = .ok (result, p)) : result ≠ .kSaturation := by
  rintro rfl
  rcases text_saturated renders unreserved run with ⟨D, _, I, solves, models⟩
  have sound : config'.enableOccursCheck = true ∨ SolvesCycles Nat (I.reduct g).func :=
    checks.imp_right fun off => (solves off).relabel g
  exact text_refuted few renders' refuted sound (weakens.models models)

def unaryAtom (positive : Bool) (name : Text) (arg : SyntaxTerm) : SyntaxLiteral :=
  ⟨positive, .app name [arg]⟩

def weakFormulas : List SyntaxFormula :=
  [⟨['x'], "axiom".toList, unaryAtom true ['p'] (.const ['a']), []⟩,
    ⟨['y'], "axiom".toList, unaryAtom false ['p'] (.const ['a']), []⟩]

/-- ~q(Y) and q(d), which say more when p stands for q and a for d. -/
def strongFormulas : List SyntaxFormula :=
  [⟨['x'], "axiom".toList, unaryAtom false ['q'] (.var ['Y']), []⟩,
    ⟨['y'], "axiom".toList, unaryAtom true ['q'] (.const ['d']), []⟩]

theorem unaryAtom_proper {name : Text} {arg : SyntaxTerm}
    (start : name.head?.any isWordStart = true) (chars : name.all isWordChar = true)
    (lower : name.head?.any Char.isUpper = false) (proper : arg.Proper) (positive : Bool) :
    (unaryAtom positive name arg).atom.Proper :=
  .app (isWord_of start chars) lower (by simpa using proper)

theorem weakFormulas_proper : ∀ f ∈ weakFormulas, f.Proper := by
  intro f member
  have constant : (SyntaxTerm.const ['a']).Proper :=
    .const (isWord_of (by decide) (by decide)) (by decide)
  have atom := @unaryAtom_proper ['p'] _ (by decide) (by decide) (by decide) constant
  simp only [weakFormulas, List.mem_cons, List.not_mem_nil, or_false] at member
  rcases member with rfl | rfl
  · exact ⟨isWord_of (by decide) (by decide), isWord_of (by decide) (by decide),
      by simpa [SyntaxFormula.literals] using atom true⟩
  · exact ⟨isWord_of (by decide) (by decide), isWord_of (by decide) (by decide),
      by simpa [SyntaxFormula.literals] using atom false⟩

theorem strongFormulas_proper : ∀ f ∈ strongFormulas, f.Proper := by
  intro f member
  have isVar : (SyntaxTerm.var ['Y']).Proper := .var (isWord_of (by decide) (by decide)) (by decide)
  have constant : (SyntaxTerm.const ['d']).Proper :=
    .const (isWord_of (by decide) (by decide)) (by decide)
  simp only [strongFormulas, List.mem_cons, List.not_mem_nil, or_false] at member
  rcases member with rfl | rfl
  · exact ⟨isWord_of (by decide) (by decide), isWord_of (by decide) (by decide), by
      simpa [SyntaxFormula.literals] using unaryAtom_proper (by decide) (by decide)
        (by decide) isVar false⟩
  · exact ⟨isWord_of (by decide) (by decide), isWord_of (by decide) (by decide), by
      simpa [SyntaxFormula.literals] using unaryAtom_proper (by decide) (by decide) (by decide)
        constant true⟩

theorem strongFormulas_unreserved : Unreserved strongFormulas := by
  intro f member u use k same
  have head : u.name.head? ≠ some '_' := by
    simp only [strongFormulas, List.mem_cons, List.not_mem_nil, or_false] at member
    rcases member with rfl | rfl
    · simp [SyntaxFormula.uses, SyntaxFormula.literals, unaryAtom, uses_app, uses_var] at use
      rcases use with rfl | rfl <;> decide
    · simp [SyntaxFormula.uses, SyntaxFormula.literals, unaryAtom, uses_app, uses_const] at use
      rcases use with rfl | rfl <;> decide
  rw [same] at head
  exact head rfl

theorem weakFormulas_weakens : Weakens (fun name => if name = ['p'] then ['q'] else ['d'])
    (textClauses strongFormulas) (textClauses weakFormulas) := by
  rintro _ ⟨f, member, rfl⟩
  have first : clauseTrees strongFormulas[0].literals ∈ textClauses strongFormulas :=
    ⟨_, List.getElem_mem _, rfl⟩
  have second : clauseTrees strongFormulas[1].literals ∈ textClauses strongFormulas :=
    ⟨_, List.getElem_mem _, rfl⟩
  simp only [weakFormulas, List.mem_cons, List.not_mem_nil, or_false] at member
  rcases member with rfl | rfl
  · refine ⟨_, second, .var, ?_⟩
    simp [strongFormulas, SyntaxFormula.literals, clauseTrees, unaryAtom, SyntaxTerm.tree,
      ClauseLogic.relabel, TermTree.relabel]
  · refine ⟨_, first, fun _ => .node ['d'] [], ?_⟩
    simp [strongFormulas, SyntaxFormula.literals, clauseTrees, unaryAtom, SyntaxTerm.tree,
      ClauseLogic.relabel, TermTree.relabel, ClauseLogic.inst]

def weakText : Text := "cnf(x,axiom,p(a)).\ncnf(y,axiom,~p(a)).\n".toList

def strongText : Text := "cnf(x,axiom,~q(Y)).\ncnf(y,axiom,q(d)).\n".toList

theorem unaryAtom_text (positive : Bool) (name : Text) (arg : SyntaxTerm) :
    (unaryAtom positive name arg).tptpText =
      (if positive then [] else ['~']) ++ name ++ ['('] ++ arg.text ++ [')'] := by
  have atom : (SyntaxTerm.app name [arg]).text = name ++ ['('] ++ arg.text ++ [')'] := by
    rw [text_app, List.map_singleton]
    simp [List.intercalate]
  cases positive <;> simp [SyntaxLiteral.tptpText, unaryAtom, atom]

theorem weakText_eq : problemText weakFormulas = weakText := by
  simp only [problemText, weakFormulas, SyntaxFormula.literals, List.flatMap_cons, List.flatMap_nil,
    List.map_cons, List.map_nil, unaryAtom_text, SyntaxTerm.text]
  decide +kernel

theorem strongText_eq : problemText strongFormulas = strongText := by
  simp only [problemText, strongFormulas, SyntaxFormula.literals, List.flatMap_cons,
    List.flatMap_nil, List.map_cons, List.map_nil, unaryAtom_text, SyntaxTerm.text]
  decide +kernel

theorem verdicts_consistent_sample :
    (∃ p, proveInput .plain { enableOccursCheck := true } 50 weakText = .ok (.kTheorem, p)) ∧
    ∀ (runtime : Runtime) (config : ProverConfig) (fuel : Nat) (result :
      ProverResult) (p : Prover),
      proveInput runtime config fuel strongText = .ok (result, p) → result ≠ .kSaturation := by
  have answer : (Prod.fst <$> proveInput .plain { enableOccursCheck := true } 50 weakText) =
      .ok .kTheorem := by decide +kernel
  rcases map_ok_iff.mp answer with ⟨⟨_, p⟩, refuted, rfl⟩
  exact ⟨⟨p, refuted⟩, fun runtime config fuel result q run => verdicts_consistent
    (strongText_eq ▸ problemText_renders strongFormulas_proper)
    (weakText_eq ▸ problemText_renders weakFormulas_proper)
    (fun _ renders => renders.bounded (by decide +kernel)) strongFormulas_unreserved
    weakFormulas_weakens (Or.inl rfl) refuted run⟩

end Verdicts

end AtpEngine
