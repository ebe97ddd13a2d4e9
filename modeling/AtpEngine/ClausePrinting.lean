import AtpEngine.HashConsing
import AtpEngine.PrettyTerms
import AtpEngine.ProofFormat
import AtpEngine.RunBounds
import AtpEngine.Variants

/-!
What clauseToString prints. Its name map numbers the variables of a clause in the
order of their first occurrences, which no renaming changes, and the printed names
are told from the symbols of an input. So clauses print alike exactly when they
are variants, literal by literal.
-/
namespace AtpEngine

open Fuelled ClauseLogic TermTree

section Numbering

def addNew (seen : List Nat) (x : Nat) : List Nat := if x ∈ seen then seen else seen ++ [x]

/-- The elements in the order in which they occur first, behind those seen before. -/
def firstOccurrences (seen xs : List Nat) : List Nat := xs.foldl addNew seen

variable {seen xs : List Nat} {x : Nat}

theorem mem_addNew {y : Nat} : y ∈ addNew seen x ↔ y ∈ seen ∨ y = x := by
  unfold addNew
  split
  · next member =>
      refine ⟨Or.inl, ?_⟩
      rintro (old | rfl)
      · exact old
      · exact member
  · simp

theorem mem_firstOccurrences : x ∈ firstOccurrences seen xs ↔ x ∈ seen ∨ x ∈ xs := by
  induction xs generalizing seen with
  | nil => simp [firstOccurrences]
  | cons y rest ih => rw [firstOccurrences, List.foldl_cons, ← firstOccurrences, ih, mem_addNew,
      List.mem_cons, or_assoc]

theorem firstOccurrences_extends (seen xs : List Nat) : seen <+: firstOccurrences seen xs := by
  induction xs generalizing seen with
  | nil => exact List.prefix_rfl
  | cons y rest ih =>
      refine List.IsPrefix.trans ?_ (ih (addNew seen y))
      unfold addNew
      split
      · exact List.prefix_rfl
      · exact List.prefix_append seen [y]

theorem firstOccurrences_append (seen xs ys : List Nat) :
    firstOccurrences seen (xs ++ ys) = firstOccurrences (firstOccurrences seen xs) ys :=
  List.foldl_append

theorem firstOccurrences_map {ρ : Nat → Nat}
    (apart : Set.InjOn ρ {x | x ∈ seen ∨ x ∈ xs}) :
    firstOccurrences (seen.map ρ) (xs.map ρ) = (firstOccurrences seen xs).map ρ := by
  induction xs generalizing seen with
  | nil => rfl
  | cons y rest ih =>
      have step : addNew (seen.map ρ) (ρ y) = (addNew seen y).map ρ := by
        have known : ρ y ∈ seen.map ρ ↔ y ∈ seen := by
          refine ⟨fun member => ?_, fun member => List.mem_map.mpr ⟨y, member, rfl⟩⟩
          rcases List.mem_map.mp member with ⟨z, inside, same⟩
          rwa [← apart (Or.inl inside) (Or.inr List.mem_cons_self) same]
        unfold addNew
        simp only [known]
        split <;> simp
      have later : Set.InjOn ρ {x | x ∈ addNew seen y ∨ x ∈ rest} := by
        refine apart.mono fun z member => ?_
        rcases member with old | new
        · rcases mem_addNew.mp old with old | rfl
          · exact Or.inl old
          · exact Or.inr List.mem_cons_self
        · exact Or.inr (List.mem_cons_of_mem y new)
      have tail := ih later
      rwa [← step] at tail

theorem idxOf_map {ρ : Nat → Nat} {l : List Nat} (apart : Set.InjOn ρ {x | x ∈ l})
    (inside : x ∈ l) :
    (l.map ρ).idxOf (ρ x) = l.idxOf x := by
  induction l with
  | nil => cases inside
  | cons y rest ih =>
      rw [List.map_cons, List.idxOf_cons, List.idxOf_cons]
      by_cases same : y = x
      · simp [same]
      · have differ : ρ y ≠ ρ x := fun equal => same (apart List.mem_cons_self inside equal)
        have later := (List.mem_cons.mp inside).resolve_left (Ne.symm same)
        rw [beq_eq_false_iff_ne.mpr same, beq_eq_false_iff_ne.mpr differ,
          ih (apart.mono fun z member => List.mem_cons_of_mem y member) later]

end Numbering

section Labels

def varLabel (vars : List Nat) (x : Nat) : Text := prettyVarName (vars.idxOf x)

theorem baseLetter_inj : ∀ i < 6, ∀ j < 6, baseLetter i = baseLetter j → i = j := by decide

theorem prettyVarName_inj {i j : Nat} (same : prettyVarName i = prettyVarName j) : i = j := by
  have split : ∀ n, ∃ suffix, prettyVarName n = baseLetter (n % 6) :: suffix ∧
      (suffix = [] ∧ n / 6 = 0 ∨ suffix = digits (n / 6) ∧ n / 6 ≠ 0) := by
    intro n
    by_cases small : n / 6 = 0
    · exact ⟨[], by simp [prettyVarName, small], Or.inl ⟨rfl, small⟩⟩
    · exact ⟨digits (n / 6), by simp [prettyVarName, small], Or.inr ⟨rfl, small⟩⟩
  have nonempty : ∀ n, digits n ≠ [] := fun n => Nat.toDigits_ne_nil
  rcases split i with ⟨s, nameI, caseI⟩
  rcases split j with ⟨t, nameJ, caseJ⟩
  rw [nameI, nameJ] at same
  rcases List.cons.inj same with ⟨letters, rfl⟩
  have bases := baseLetter_inj _ (Nat.mod_lt i (by omega)) _ (Nat.mod_lt j (by omega)) letters
  have suffixes : i / 6 = j / 6 := by
    rcases caseI with ⟨none, zero⟩ | ⟨some, _⟩ <;> rcases caseJ with
      ⟨none', zero'⟩ | ⟨some', _⟩
    · rw [zero, zero']
    · exact absurd (some'.symm.trans none) (nonempty _)
    · exact absurd (some.symm.trans none') (nonempty _)
    · exact digits_inj (some.symm.trans some')
  omega

theorem isDigit_wordChar {c : Char} (digit : c.isDigit = true) : isWordChar c = true := by
  simp [isWordChar, Char.isAlphanum, digit]

theorem prettyVarName_word (i : Nat) : IsVariableWord (prettyVarName i) := by
  have letter : isWordStart (baseLetter (i % 6)) = true ∧
      (baseLetter (i % 6)).isUpper = true := by
    unfold baseLetter
    split <;> decide
  have start : isWordChar (baseLetter (i % 6)) = true := by
    unfold baseLetter
    split <;> decide
  rw [prettyVarName]
  split
  · refine ⟨⟨⟨_, [], rfl, letter.1⟩, fun c member => ?_⟩, letter.2⟩
    rw [List.mem_singleton.mp member]
    exact start
  · refine ⟨⟨⟨_, _, rfl, letter.1⟩, fun c member => ?_⟩, letter.2⟩
    rcases List.mem_cons.mp member with rfl | later
    · exact start
    · exact isDigit_wordChar (Nat.isDigit_of_mem_toDigits (by omega) (by omega) later)

theorem varLabel_injOn (vars : List Nat) : Set.InjOn (varLabel vars) {x | x ∈ vars} := by
  intro x hx y hy same
  exact (List.idxOf_inj hx).mp (prettyVarName_inj same)

end Labels

section Printing

variable {bank : TermBank}

def Numbered (varMap : VarMap) (seen : List Nat) : Prop :=
  varMap.length = seen.length ∧
    ∀ x, varMap.lookup x = if x ∈ seen then some (varLabel seen x) else none

theorem Numbered.add {varMap : VarMap} {seen : List Nat} (numbered : Numbered varMap seen) {x : Nat}
    (new : x ∉ seen) : Numbered ((x, prettyVarName varMap.length) :: varMap) (addNew seen x) := by
  rw [addNew, if_neg new]
  refine ⟨by simp [numbered.1], fun y => ?_⟩
  by_cases same : y = x
  · subst same
    simp [varLabel, List.idxOf_append_of_notMem new, numbered.1]
  · rw [List.lookup_cons, beq_eq_false_iff_ne.mpr same, numbered.2 y]
    by_cases old : y ∈ seen
    · simp [old, varLabel, List.idxOf_append_of_mem old]
    · simp [old, same]

theorem varLabel_extends {seen final : List Nat} (grows : seen <+: final) {x : Nat}
    (inside : x ∈ seen) :
    varLabel final x = varLabel seen x := by
  rcases grows with ⟨rest, rfl⟩
  rw [varLabel, List.idxOf_append_of_mem inside, varLabel]

/-- A printer that numbers the variables of an item, and whose text shows their
numbers in any longer list. -/
def Prints {α : Type} (vars : α → List Nat) (text : List Nat → α → Text)
    (print : α → VarMap → Except Fault (Text × VarMap)) (a : α) : Prop :=
  ∀ varMap seen out varMap', Numbered varMap seen → print a varMap = .ok (out, varMap') →
    Numbered varMap' (firstOccurrences seen (vars a)) ∧
    ∀ final, firstOccurrences seen (vars a) <+: final → out = text final a

theorem mapAccum_prints {α : Type} {vars : α → List Nat} {text : List Nat → α → Text}
    {print : α → VarMap → Except Fault (Text × VarMap)} {items : List α}
    (each : ∀ a ∈ items, Prints vars text print a) {varMap varMap' : VarMap} {seen : List Nat}
    {outs : List Text} (numbered : Numbered varMap seen)
    (run : mapAccum print items varMap = .ok (outs, varMap')) :
    Numbered varMap' (firstOccurrences seen (items.flatMap vars)) ∧
      ∀ final, firstOccurrences seen (items.flatMap vars) <+: final →
        outs = items.map (text final) := by
  induction items generalizing varMap seen outs with
  | nil =>
      rcases Prod.mk.inj (Except.ok.inj run) with ⟨rfl, rfl⟩
      exact ⟨numbered, fun _ _ => rfl⟩
  | cons a rest ih =>
      rcases mapAccum_cons_ok.mp run with ⟨out, mid, later, first, tail, rfl⟩
      rcases each a List.mem_cons_self varMap seen out mid numbered first with
        ⟨numbered', shown⟩
      rcases ih (fun b member => each b (List.mem_cons_of_mem a member)) numbered' tail with
        ⟨numbered'', shown'⟩
      rw [List.flatMap_cons, firstOccurrences_append]
      refine ⟨numbered'', fun final grows => ?_⟩
      have before := (firstOccurrences_extends _ (rest.flatMap vars)).trans grows
      rw [shown final before, shown' final grows, List.map_cons]

theorem getName_nameOf {symbol : Nat} {name : Text}
    (read : bank.symbols.getName symbol = .ok name) : name = bank.nameOf symbol := by
  cases entry : bank.symbols.infos[symbol]? with
  | none => simp [SymbolTable.getName, SymbolTable.getInfo, entry, bind, Except.bind] at read
  | some info =>
      simp only [SymbolTable.getName, SymbolTable.getInfo, entry, bind_ok] at read
      rw [TermBank.nameOf, entry]
      exact (pure_ok_iff.mp read).symm

theorem termToPretty_prints (wf : bank.WellFormed) (fuel id : Nat) :
    Prints (fun id => leaves (bank.tree id))
      (fun final id => treeText bank.nameOf (varLabel final) (bank.tree id))
      (termToPretty bank fuel) id := by
  induction fuel generalizing id with
  | zero => exact fun _ _ _ _ _ run => by cases run
  | succ fuel ih =>
      intro varMap seen out varMap' numbered run
      rw [termToPretty, bind_ok_iff] at run
      rcases run with ⟨kind, read, run⟩
      rcases TermBank.isVariable_ok read with ⟨inside, isVar⟩
      dsimp only
      cases kind with
      | true =>
          simp only [if_true] at run
          rw [TermBank.tree_var isVar]
          simp only [leaves, treeText, eval_var, firstOccurrences, List.foldl_cons, List.foldl_nil]
          by_cases old : id ∈ seen
          · rw [numbered.2 id, if_pos old] at run
            rcases Prod.mk.inj (Except.ok.inj run) with ⟨rfl, rfl⟩
            rw [addNew, if_pos old]
            exact ⟨numbered, fun final grows => (varLabel_extends grows old).symm⟩
          · rw [numbered.2 id, if_neg old] at run
            rcases Prod.mk.inj (Except.ok.inj run) with ⟨rfl, rfl⟩
            refine ⟨numbered.add old, fun final grows => ?_⟩
            rw [varLabel_extends grows (mem_addNew.mpr (Or.inr rfl)), varLabel, addNew, if_neg old,
              List.idxOf_append_of_notMem old, numbered.1]
            simp
      | false =>
          simp only [Bool.false_eq_true, if_false, bind_ok_iff] at run
          rcases run with ⟨t, got, name, named, run⟩
          rcases getName_nameOf named with rfl
          rw [TermBank.tree_node wf (TermBank.getTerm_ok.mp got) isVar]
          by_cases constant : t.args.isEmpty = true
          · rw [if_pos constant] at run
            rcases Prod.mk.inj (Except.ok.inj run) with ⟨rfl, rfl⟩
            rw [List.isEmpty_iff] at constant
            simp only [constant, List.map_nil, leaves, treeText, eval_node, nodeText]
            exact ⟨numbered, fun _ _ => rfl⟩
          · simp only [if_neg constant, bind_ok_iff, Prod.exists] at run
            rcases run with ⟨args, last, loop, run⟩
            rcases Prod.mk.inj (Except.ok.inj run) with ⟨rfl, rfl⟩
            rcases mapAccum_prints (fun a _ => ih a) numbered loop with ⟨numbered', shown⟩
            have vars : leaves (.node t.symbolId (t.args.map bank.tree)) =
                t.args.flatMap fun id => leaves (bank.tree id) := by
              rw [leaves, eval_node, List.map_map, List.flatMap_def]
              rfl
            rw [vars]
            refine ⟨numbered', fun final grows => ?_⟩
            rw [shown final grows]
            have more :
                (t.args.map fun id => treeText bank.nameOf (varLabel final)
                  (bank.tree id)).isEmpty =
                false := by rwa [List.isEmpty_map, ← Bool.not_eq_true]
            simp only [treeText, eval_node, List.map_map, Function.comp_def] at more ⊢
            rw [nodeText, more]
            rfl

theorem literalToString_prints (wf : bank.WellFormed) (fuel : Nat) (lit : Literal) :
    Prints (fun lit => leaves (bank.tree lit.atom))
      (fun final lit => literalText bank.nameOf (varLabel final)
        (bank.tree lit.atom, lit.isPositive))
      (literalToString bank fuel) lit := by
  intro varMap seen out varMap' numbered run
  rw [literalToString, bind_ok_iff] at run
  rcases run with ⟨⟨atom, last⟩, printed, run⟩
  rcases Prod.mk.inj (pure_ok_iff.mp run) with ⟨rfl, rfl⟩
  rcases termToPretty_prints wf fuel lit.atom varMap seen atom last numbered printed with
    ⟨numbered', shown⟩
  refine ⟨numbered', fun final grows => ?_⟩
  rw [shown final grows]
  rfl

def literalVars (lits : Literals Nat Nat) : List Nat := lits.flatMap fun lit => leaves lit.1

theorem mem_literalVars {lits : Literals Nat Nat} {x : Nat} :
    x ∈ literalVars lits ↔ VarOf x lits := by
  simp only [literalVars, List.mem_flatMap, mem_leaves]
  exact Iff.rfl

def clauseLabel (lits : Literals Nat Nat) : Nat → Text :=
  varLabel (firstOccurrences [] (literalVars lits))

theorem clauseLabel_injOn (lits : Literals Nat Nat) :
    Set.InjOn (clauseLabel lits) {x | VarOf x lits} :=
  (varLabel_injOn _).mono fun _ occurs =>
    mem_firstOccurrences.mpr (Or.inr (mem_literalVars.mpr occurs))

theorem clauseToString_text (wf : bank.WellFormed) {fuel : Nat} {c : Clause} {text : Text}
    (run : clauseToString fuel c bank = .ok text) :
    text = literalsText bank.nameOf (clauseLabel (bank.read c.literals))
      (bank.read c.literals) := by
  rw [clauseToString] at run
  rw [literalsText, TermBank.read, List.isEmpty_map]
  split at run
  · next empty => rw [if_pos (by exact empty), Except.ok.inj run]
  · next nonempty =>
      rw [if_neg (by exact nonempty)]
      rcases bind_ok_iff.mp run with ⟨⟨lits, last⟩, loop, run⟩
      have start : Numbered [] [] := ⟨rfl, fun x => rfl⟩
      rcases mapAccum_prints (fun lit _ => literalToString_prints wf fuel lit) start loop with
        ⟨_, shown⟩
      have vars : literalVars (c.literals.map fun lit => (bank.tree lit.atom, lit.isPositive)) =
          c.literals.flatMap fun lit => leaves (bank.tree lit.atom) := by
        rw [literalVars, List.flatMap_map]
      rw [← pure_ok_iff.mp run, clauseLabel, vars, List.map_map, shown _ List.prefix_rfl]
      rfl

theorem clauseLabel_rename {ρ : Nat → Nat} {lits : Literals Nat Nat}
    (apart : Set.InjOn ρ {x | VarOf x lits}) {x : Nat} (occurs : VarOf x lits) :
    clauseLabel (inst (fun x => .var (ρ x)) lits) (ρ x) = clauseLabel lits x := by
  have vars : literalVars (inst (fun x => .var (ρ x)) lits) = (literalVars lits).map ρ := by
    rw [literalVars, inst, List.flatMap_map, literalVars, List.map_flatMap]
    exact List.flatMap_congr fun lit _ => leaves_rename ρ lit.1
  have kept : Set.InjOn ρ {x | x ∈ ([] : List Nat) ∨ x ∈ literalVars lits} :=
    apart.mono fun y member => mem_literalVars.mp (member.resolve_left List.not_mem_nil)
  have listed : Set.InjOn ρ {x | x ∈ firstOccurrences [] (literalVars lits)} :=
    kept.mono fun y member => mem_firstOccurrences.mp member
  have order := firstOccurrences_map kept
  rw [List.map_nil] at order
  rw [clauseLabel, vars, order, varLabel, idxOf_map listed, clauseLabel, varLabel]
  exact mem_firstOccurrences.mpr (Or.inr (mem_literalVars.mpr occurs))

end Printing

section Names

variable {bank : TermBank}

/-- The symbols are named by words, which do not look like variables unless they are. -/
def TermBank.WordNames (bank : TermBank) : Prop :=
  ∀ symbol < bank.symbols.size, bank.symbols.isVar symbol = false →
    IsSymbolWord (bank.nameOf symbol)

theorem tree_nodes (wf : bank.WellFormed) {id : Nat} (valid : id < bank.size) :
    (bank.tree id).Nodes fun symbol => symbol < bank.symbols.size ∧
      bank.symbols.isVar symbol = false := by
  induction id using Nat.strong_induction_on with
  | _ id ih =>
    rcases TermBank.tree_cases wf valid with ⟨_, tree⟩ | ⟨t, entry, isVar, below, tree⟩
    · rw [tree]
      exact .var id
    · rw [tree]
      refine .node ⟨wf.symbol_valid entry, by rwa [← TermBank.isVar_term entry]⟩
        fun child member => ?_
      rcases List.mem_map.mp member with ⟨a, inside, rfl⟩
      exact ih a (below a inside) (Nat.lt_trans (below a inside) valid)

theorem freshName_word (k : Nat) : IsSymbolWord (freshName k) := by
  refine ⟨⟨⟨_, _, rfl, by decide⟩, fun c member => ?_⟩, by simp [freshName]⟩
  rcases List.mem_cons.mp member with rfl | later
  · decide
  rcases List.mem_cons.mp later with rfl | later
  · decide
  · exact isDigit_wordChar (Nat.isDigit_of_mem_toDigits (by omega) (by omega) later)

theorem readInput_wordNames {input : Text} {clauses : List Clause} {env env' : Env}
    (read : readInput input = .ok (clauses, env)) (grows : env.Grows env') :
    env'.bank.WordNames := by
  have wf := (readInput_ready read).1.wf
  intro symbol inside isVar
  have entry : env'.bank.symbols.infos[symbol]? = some env'.bank.symbols.infos[symbol] :=
    List.getElem?_eq_getElem inside
  rw [TermBank.nameOf, entry]
  dsimp only
  rcases grows.entry wf entry with old | ⟨k, fresh⟩
  · have names := readInput_names read (List.mem_of_getElem? old)
    refine ⟨names.1, ?_⟩
    have other : env'.bank.symbols.infos[symbol].kind ≠ .kVariable := by
      intro isVariable
      simp [SymbolTable.isVar, entry, isVariable] at isVar
    simpa [← Bool.not_eq_true] using mt names.2.mp other
  · rw [fresh]
    exact freshName_word k

end Names

section Faithful

theorem clauseText_exact {bank : TermBank} (wf : bank.WellFormed) (words : bank.WordNames)
    {c1 c2 : Clause} (valid1 : c1.ValidIn bank) (valid2 : c2.ValidIn bank) :
    literalsText bank.nameOf (clauseLabel (bank.read c1.literals)) (bank.read c1.literals) =
      literalsText bank.nameOf (clauseLabel (bank.read c2.literals)) (bank.read c2.literals) ↔
    Variant (bank.read c1.literals) (bank.read c2.literals) := by
  constructor
  · intro same
    have nodes : ∀ {c : Clause}, c.ValidIn bank → ∀ lit ∈ bank.read c.literals,
        lit.1.Nodes fun symbol => symbol < bank.symbols.size ∧
          bank.symbols.isVar symbol = false := by
      intro c valid lit member
      rcases List.mem_map.mp member with ⟨l, inside, rfl⟩
      exact tree_nodes wf (valid l inside)
    refine variant_of_labels (clauseLabel_injOn _) (clauseLabel_injOn _)
      (literalsText_inj (fun f g known known' => TermBank.nameOf_inj wf.table known.1 known'.1)
        (fun f known => words f known.1 known.2) (nodes valid1) (nodes valid2)
        (fun x _ => prettyVarName_word _) (fun x _ => prettyVarName_word _) same)
  · rintro ⟨ρ, apart, renamed⟩
    rw [renamed]
    have kept : Set.InjOn ρ {x | VarOf x (bank.read c1.literals)} :=
      fun x hx y hy same => apart x y hx hy same
    exact (literalsText_rename fun x occurs => clauseLabel_rename kept occurs).symm

/-- Two clauses over the bank of a run print alike if and only if a bijection of
their variables turns the literals of the one into those of the other. -/
theorem clauseToString_exact (runtime : Runtime) (config : ProverConfig) {input : Text}
    {clauses : List Clause} {first : Env} (read : readInput input = .ok (clauses, first))
    {p : Prover} (added : Prover.addClauses runtime config clauses { env := first } = .ok p)
    {fuel : Nat} {news : List Clause} {q : Prover} (passed : Passed runtime config fuel p news q)
    {c1 c2 : Clause} (valid1 : c1.ValidIn q.env.bank) (valid2 : c2.ValidIn q.env.bank) :
    ∃ text1 text2,
      Returns (fun fuel => clauseToString fuel c1 q.env.bank) text1 ∧
      Returns (fun fuel => clauseToString fuel c2 q.env.bank) text2 ∧
      (text1 = text2 ↔ ∃ ρ : Nat → Nat,
        Set.BijOn ρ {x | VarOf x (q.env.bank.read c1.literals)}
        {x | VarOf x (q.env.bank.read c2.literals)} ∧
        q.env.bank.read c2.literals = inst (fun x => .var (ρ x))
          (q.env.bank.read c1.literals)) := by
  have ready := (readInput_ready read).1
  have inv := passed.invariant ready.wf (StoreInv.init added).1 (RunInv.init ready.valid added)
  have grows := inv.run.grows
  have wf := grows.bank.wf ready.wf
  rcases clauseToString_returns wf valid1 with ⟨text1, print1, _⟩
  rcases clauseToString_returns wf valid2 with ⟨text2, print2, _⟩
  refine ⟨text1, text2, print1, print2, ?_⟩
  rcases print1.exists with ⟨n1, run1⟩
  rcases print2.exists with ⟨n2, run2⟩
  rw [clauseToString_text wf run1, clauseToString_text wf run2,
    clauseText_exact wf (readInput_wordNames read grows) valid1 valid2]
  exact variant_iff_bijection

def pairInput : Text := "cnf(a,axiom,p(X)|~q(X,Y)). cnf(b,axiom,p(Y)|~q(Y,X)).".toList

theorem clauseToString_exact_pair : ∃ (c1 c2 : Clause) (first : Env) (p : Prover),
    readInput pairInput = .ok ([c1, c2], first) ∧
    Prover.addClauses .plain {} [c1, c2] { env := first } = .ok p ∧ ∃ text1 text2,
      Returns (fun fuel => clauseToString fuel c1 p.env.bank) text1 ∧
      Returns (fun fuel => clauseToString fuel c2 p.env.bank) text2 ∧
      (text1 = text2 ↔ ∃ ρ : Nat → Nat,
        Set.BijOn ρ {x | VarOf x (p.env.bank.read c1.literals)}
        {x | VarOf x (p.env.bank.read c2.literals)} ∧
        p.env.bank.read c2.literals = inst (fun x => .var (ρ x))
          (p.env.bank.read c1.literals)) := by
  have accepted : (fun out => out.1.length) <$> readInput pairInput = .ok 2 := by decide +kernel
  rcases map_ok_iff.mp accepted with ⟨⟨clauses, first⟩, read, two⟩
  rcases List.length_eq_two.mp two with ⟨c1, c2, rfl⟩
  rcases addClauses_spec .plain {} [c1, c2] { env := first } with ⟨p, added, env, _⟩
  have valid : ∀ c ∈ [c1, c2], c.ValidIn p.env.bank := by
    rw [env]
    exact (readInput_ready read).1.valid
  have passed : Passed .plain {} 0 p [] p := .reached (.head .start)
  exact ⟨c1, c2, first, p, read, added, clauseToString_exact .plain {} read added passed
    (valid c1 (by simp)) (valid c2 (by simp))⟩

end Faithful

end AtpEngine
