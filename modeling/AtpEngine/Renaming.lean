import AtpEngine.ClauseStore
import AtpEngine.Unification

/-!
Variable renaming of infer/resolution.cc. Fresh variables are named `_R<k>` from
a counter that lives as long as the process, and are interned in the table of
the user's symbols: `Env.Fresh` says that no name from the counter on is taken.
The unordered map of variables is enumerated in an order that is a parameter.
The counter is a `Nat`; it counts interned symbols, whose ids are 32 bits wide.
-/
namespace AtpEngine

open Fuelled ClauseLogic

/-- The term bank and the static `var_counter` of `resolve`. -/
structure Env where
  bank : TermBank := {}
  varCounter : Nat := 0
  deriving DecidableEq, Repr

/-- How each call enumerates its unordered map: some permutation of the keys. -/
structure VariableOrder where
  enumerate : Env → List Nat → List Nat
  perm : ∀ env vars, (enumerate env vars).Perm vars

def VariableOrder.insertion : VariableOrder where
  enumerate := fun _ vars => vars
  perm := fun _ _ => .refl _

def collectVariables (bank : TermBank) : Nat → Nat → List Nat → Except Fault (List Nat)
  | 0, _, _ => .error .outOfFuel
  | fuel + 1, term, seen => do
      if ← bank.isVariable term then pure (seen.insert term)
      else
        let t ← bank.getTerm term
        t.args.foldlM (fun seen arg => collectVariables bank fuel arg seen) seen

def freshName (n : Nat) : Text := '_' :: 'R' :: digits n

/-- One turn of the renaming loop: intern the next name and make its variable. -/
def freshVariable (env : Env) : Except Fault (Nat × Env) := do
  let (freshSym, symbols) ← env.bank.symbols.intern (freshName env.varCounter) .kVariable
  let (freshVar, bank) := { env.bank with symbols }.makeVar freshSym
  pure (freshVar, { bank, varCounter := env.varCounter + 1 })

def bindFresh : List Nat → Substitution → Env → Except Fault (Substitution × Env)
  | [], renameSubst, env => .ok (renameSubst, env)
  | oldVar :: rest, renameSubst, env => do
      let (freshVar, env) ← freshVariable env
      bindFresh rest (renameSubst.bind oldVar freshVar).2 env

def applyLiterals (subst : Substitution) (fuel : Nat) :
    List Literal → TermBank → Except Fault (List Literal × TermBank) :=
  mapAccum fun lit bank => do
    let (newAtom, bank) ← applySubstitution subst fuel lit.atom bank
    pure (⟨newAtom, lit.isPositive⟩, bank)

def renameVariables (order : VariableOrder) (fuel : Nat) (c : Clause) (env : Env) :
    Except Fault (Clause × Env) := do
  let varSet ← c.literals.foldlM (fun seen lit => collectVariables env.bank fuel lit.atom seen) []
  if varSet.isEmpty then pure (c, env)
  else
    let (renameSubst, env) ← bindFresh (order.enumerate env varSet) {} env
    let (literals, bank) ← applyLiterals renameSubst fuel c.literals env.bank
    pure ({ c with literals }, { env with bank })

open TermTree Triangular

/-- The fresh names still to come are not interned yet. -/
def Env.Fresh (env : Env) : Prop :=
  ∀ k, env.varCounter ≤ k → env.bank.symbols.nameToId.lookup (freshName k) = none

def Env.NamesFree (env : Env) (n : Nat) : Prop :=
  ∀ k, env.varCounter ≤ k → k < env.varCounter + n →
    env.bank.symbols.nameToId.lookup (freshName k) = none

theorem Env.Fresh.namesFree {env : Env} (fresh : env.Fresh) (n : Nat) : env.NamesFree n :=
  fun k later _ => fresh k later

theorem freshName_inj {m n : Nat} (same : freshName m = freshName n) : m = n := by
  have decimal : digits m = digits n := by simpa [freshName] using same
  exact digits_inj decimal

/-- What every operation of the inference layer keeps: new names are fresh names
that the counter has passed. -/
structure Env.Grows (env env' : Env) : Prop where
  bank : env.bank.Grows env'.bank
  counter : env.varCounter ≤ env'.varCounter
  names : ∀ name, env.bank.symbols.nameToId.lookup name = none →
    env'.bank.symbols.nameToId.lookup name = none ∨
      ∃ k, env.varCounter ≤ k ∧ k < env'.varCounter ∧ name = freshName k

theorem Env.Grows.refl (env : Env) : env.Grows env :=
  ⟨.refl _, Nat.le_refl _, fun _ h => Or.inl h⟩

theorem Env.Grows.trans {a b c : Env} (first : a.Grows b) (second : b.Grows c) : a.Grows c := by
  refine ⟨first.bank.trans second.bank, Nat.le_trans first.counter second.counter, ?_⟩
  intro name absent
  rcases first.names name absent with absent | ⟨k, above, below, same⟩
  · rcases second.names name absent with absent | ⟨k, above, below, same⟩
    · exact Or.inl absent
    · exact Or.inr ⟨k, Nat.le_trans first.counter above, below, same⟩
  · exact Or.inr ⟨k, above, Nat.lt_of_lt_of_le below second.counter, same⟩

theorem Env.Grows.freshName_free {env env' : Env} (grows : env.Grows env') {k : Nat}
    (ahead : env'.varCounter ≤ k)
    (absent : env.bank.symbols.nameToId.lookup (freshName k) = none) :
    env'.bank.symbols.nameToId.lookup (freshName k) = none := by
  rcases grows.names _ absent with absent | ⟨j, _, below, same⟩
  · exact absent
  · rcases freshName_inj same with rfl
    omega

theorem Env.Grows.fresh {env env' : Env} (grows : env.Grows env') (fresh : env.Fresh) :
    env'.Fresh :=
  fun k later => grows.freshName_free later (fresh k (Nat.le_trans grows.counter later))

theorem Env.grows_of_symbols {env : Env} {bank : TermBank} (grows : env.bank.Grows bank)
    (symbols : bank.symbols = env.bank.symbols) : env.Grows { env with bank } :=
  ⟨grows, Nat.le_refl _, fun name absent => Or.inl (by rw [symbols]; exact absent)⟩

/-- An entry of the grown table is an old one or that of a fresh name. -/
theorem Env.Grows.entry {env env' : Env} (grows : env.Grows env') (wf : env.bank.WellFormed)
    {symbol : Nat} {info : SymbolInfo} (entry : env'.bank.symbols.infos[symbol]? = some info) :
    env.bank.symbols.infos[symbol]? = some info ∨ ∃ k, info.name = freshName k := by
  have table := (grows.bank.wf wf).table
  have known := table.complete symbol info entry
  cases old : env.bank.symbols.nameToId.lookup info.name with
  | none =>
      rcases grows.names _ old with absent | ⟨k, _, _, fresh⟩
      · rw [known] at absent
        cases absent
      · exact Or.inr ⟨k, fresh⟩
  | some id =>
      rcases wf.table.sound _ _ old with ⟨info', at_id, name⟩
      have at_id' := prefix_getElem? grows.bank.grows.infos at_id
      have own := table.complete id info' at_id'
      rw [name, known] at own
      rcases Option.some.inj own with rfl
      rcases Option.some.inj (entry.symm.trans at_id') with rfl
      exact Or.inl at_id

theorem Env.fresh_of_below {env : Env} (table : env.bank.symbols.WellFormed)
    (below : ∀ info ∈ env.bank.symbols.infos, ∀ k, info.name = freshName k →
      k < env.varCounter) : env.Fresh := by
  intro k ahead
  cases found : env.bank.symbols.nameToId.lookup (freshName k) with
  | none => rfl
  | some id =>
      rcases table.sound _ _ found with ⟨info, entry, name⟩
      exact absurd ahead (Nat.not_le.mpr (below info (List.mem_of_getElem? entry) k name))

theorem Env.fresh_of_names {env : Env} (table : env.bank.symbols.WellFormed)
    (apart : ∀ info ∈ env.bank.symbols.infos, ∀ k, info.name ≠ freshName k) :
    env.Fresh :=
  Env.fresh_of_below table fun info member k same => absurd same (apart info member k)

/-- No fresh name is taken when no symbol starts with an underscore. -/
theorem Env.fresh_of_noUnderscore {env : Env} (table : env.bank.symbols.WellFormed)
    (plain : env.bank.symbols.infos.all (fun info => info.name.head? != some '_') = true) :
    env.Fresh :=
  Env.fresh_of_names table fun info member k same => by
    have other := List.all_eq_true.mp plain info member
    simp [same, freshName] at other

section Variables

theorem collects_foldlM {ε α : Type} {collect : List Nat → α → Except ε (List Nat)}
    {Has : Nat → α → Prop} {l : List α}
    (each : ∀ a ∈ l, ∀ seen out, collect seen a = .ok out →
      (∀ x, x ∈ out ↔ x ∈ seen ∨ Has x a) ∧ (seen.Nodup → out.Nodup))
    {seen out : List Nat} (run : l.foldlM collect seen = .ok out) :
    (∀ x, x ∈ out ↔ x ∈ seen ∨ ∃ a ∈ l, Has x a) ∧ (seen.Nodup → out.Nodup) := by
  induction l generalizing seen with
  | nil =>
      rcases pure_ok_iff.mp run with rfl
      simp
  | cons a rest ih =>
      rw [List.foldlM_cons, bind_ok_iff] at run
      rcases run with ⟨mid, first, run⟩
      rcases each a List.mem_cons_self seen mid first with ⟨memFirst, nodupFirst⟩
      rcases ih (fun b member => each b (List.mem_cons_of_mem a member)) run with
        ⟨memRest, nodupRest⟩
      refine ⟨fun x => ?_, nodupRest ∘ nodupFirst⟩
      rw [memRest, memFirst]
      simp [or_assoc]

theorem collectVariables_spec {bank : TermBank} (wf : bank.WellFormed) {fuel term : Nat}
    {seen out : List Nat} (run : collectVariables bank fuel term seen = .ok out) :
    (∀ x, x ∈ out ↔ x ∈ seen ∨ Occurs x (bank.tree term)) ∧
    (seen.Nodup → out.Nodup) := by
  induction fuel generalizing term seen out with
  | zero => cases run
  | succ fuel ih =>
      rw [collectVariables, bind_ok_iff] at run
      rcases run with ⟨kind, read, run⟩
      rcases TermBank.isVariable_ok read with ⟨_, isVar⟩
      cases kind with
      | true =>
          rcases pure_ok_iff.mp run with rfl
          rw [TermBank.tree_var isVar]
          exact ⟨fun x => by simp [or_comm], fun nodup => nodup.insert⟩
      | false =>
          simp only [Bool.false_eq_true, if_false, bind_ok_iff] at run
          rcases run with ⟨t, got, run⟩
          rw [TermBank.tree_node wf (TermBank.getTerm_ok.mp got) isVar]
          rcases collects_foldlM (fun a _ seen out call => ih call) run with ⟨members, nodup⟩
          exact ⟨fun x => by rw [members]; simp, nodup⟩

theorem varSet_spec {bank : TermBank} (wf : bank.WellFormed) {fuel : Nat} {lits : List Literal}
    {varSet : List Nat} (run : lits.foldlM
      (fun seen lit => collectVariables bank fuel lit.atom seen) [] = .ok varSet) :
    (∀ x, x ∈ varSet ↔ VarOf x (bank.read lits)) ∧ varSet.Nodup := by
  rcases collects_foldlM (fun lit _ seen out call => collectVariables_spec wf call) run with
    ⟨members, nodup⟩
  refine ⟨fun x => ?_, nodup List.nodup_nil⟩
  rw [members]
  simp [VarOf, TermBank.read]

end Variables

section Fresh

/-- The next variable: when its name is free it is the next id of the pool. -/
theorem freshVariable_spec {env env' : Env} {y : Nat} (wf : env.bank.WellFormed)
    (run : freshVariable env = .ok (y, env')) :
    env.Grows env' ∧ env'.bank.isVar y = true ∧ ∀ n, env.NamesFree (n + 1) →
      y = env.bank.size ∧ env'.bank.size = env.bank.size + 1 ∧ env'.NamesFree n := by
  rw [freshVariable, bind_ok_iff] at run
  rcases run with ⟨⟨freshSym, symbols⟩, interned, run⟩
  have grown := TermBank.intern_grows interned
  have wf' := grown.wf wf
  rcases SymbolTable.intern_info interned with ⟨info, entry, kind, _⟩
  have known : freshSym < symbols.size := (List.getElem?_eq_some_iff.mp entry).1
  have isVar : symbols.isVar freshSym = true := by simp [SymbolTable.isVar, entry, kind]
  have growsLast := grown.trans (TermBank.makeTerm_grows
    (fun wf => TermBank.makeTerm_wellFormed wf freshSym [] known (by simp) fun _ => rfl)
    fun _ => Nat.zero_le _)
  have term := TermBank.makeTerm_term wf'.toIndexSound freshSym []
  have symbols' := TermBank.makeTerm_symbols { env.bank with symbols } freshSym []
  have cases' := TermBank.makeTerm_cases { env.bank with symbols } freshSym []
  cases made : ({ env.bank with symbols } : TermBank).makeTerm freshSym [] with
  | mk id bank' =>
      simp only [TermBank.makeVar, made] at run growsLast term symbols' cases'
      rcases Prod.mk.inj (pure_ok_iff.mp run) with ⟨rfl, rfl⟩
      -- the call adds no name but its own
      have grows : env.Grows { bank := bank', varCounter := env.varCounter + 1 } := by
        refine ⟨growsLast, Nat.le_succ _, fun name absent => ?_⟩
        simp only [symbols']
        rcases SymbolTable.intern_cases interned with ⟨_, _, _, _, _, rfl⟩ | ⟨_, rfl, rfl⟩
        · exact Or.inl absent
        · by_cases own : name = freshName env.varCounter
          · exact Or.inr ⟨env.varCounter, Nat.le_refl _, Nat.lt_succ_self _, own⟩
          · exact Or.inl (by simp only [List.lookup_cons, beq_eq_false_iff_ne.mpr own, absent])
      refine ⟨grows, ?_, fun n free => ?_⟩
      · rw [TermBank.isVar_term term, symbols', isVar]
      · have newSym : freshSym = env.bank.symbols.size := by
          rcases SymbolTable.intern_cases interned with ⟨_, found, _⟩ | ⟨_, last, _⟩
          · rw [free _ (Nat.le_refl _) (by omega)] at found
            cases found
          · exact last
        have rest : ({ bank := bank', varCounter := env.varCounter + 1 } : Env).NamesFree n :=
          fun k later below => by
            simp only at later below
            exact grows.freshName_free later (free k (by omega) (by omega))
        rcases cases' with ⟨id', found, _⟩ | ⟨_, appended⟩
        · have := wf.symbol_valid (wf.keys_sound found)
          simp only at this
          omega
        · rcases Prod.mk.inj appended with ⟨rfl, rfl⟩
          exact ⟨rfl, by simp [TermBank.size], rest⟩

/-- What the renaming loop leaves: every listed variable is bound to a variable,
with enough free names to the next ids of the pool in order. -/
structure FreshBindings (vars : List Nat) (subst : Substitution) (env : Env)
    (subst' : Substitution) (env' : Env) : Prop where
  grows : env.Grows env'
  valid : subst'.ValidIn env'.bank
  other : ∀ v, v ∉ vars → subst'.find v = subst.find v
  bound : ∀ v ∈ vars, ∃ y, subst'.find v = some y ∧ env'.bank.isVar y = true
  exact : env.NamesFree vars.length → ∀ (i : Nat) v, vars[i]? = some v →
    subst'.find v = some (env.bank.size + i)

section Bindings

variable {vars : List Nat} {subst : Substitution} {env env' : Env} {v x : Nat}

theorem FreshBindings.listed (bindings : FreshBindings vars {} env subst env')
    (found : subst.find v = some x) : v ∈ vars := by
  by_contra outside
  rw [bindings.other v outside] at found
  cases found

theorem FreshBindings.placed (bindings : FreshBindings vars {} env subst env')
    (names : env.NamesFree vars.length) (found : subst.find v = some x) :
    ∃ i : Nat, vars[i]? = some v ∧ x = env.bank.size + i := by
  rcases List.getElem?_of_mem (bindings.listed found) with ⟨i, at_i⟩
  exact ⟨i, at_i, Option.some.inj (found.symm.trans (bindings.exact names i v at_i))⟩

theorem FreshBindings.isVar (bindings : FreshBindings vars {} env subst env')
    (found : subst.find v = some x) : env'.bank.isVar x = true := by
  rcases bindings.bound v (bindings.listed found) with ⟨y, found', isVar⟩
  rwa [Option.some.inj (found.symm.trans found')]

theorem FreshBindings.new (bindings : FreshBindings vars {} env subst env')
    (names : env.NamesFree vars.length) (found : subst.find v = some x) : env.bank.size ≤ x := by
  rcases bindings.placed names found with ⟨i, _, rfl⟩
  exact Nat.le_add_right _ i

theorem FreshBindings.inj (bindings : FreshBindings vars {} env subst env')
    (names : env.NamesFree vars.length) {v' : Nat} (found : subst.find v = some x)
    (found' : subst.find v' = some x) : v = v' := by
  rcases bindings.placed names found with ⟨i, at_i, rfl⟩
  rcases bindings.placed names found' with ⟨j, at_j, same⟩
  rw [Nat.add_left_cancel same, at_j] at at_i
  exact (Option.some.inj at_i).symm

end Bindings

theorem bindFresh_spec {vars : List Nat} {subst subst' : Substitution} {env env' : Env}
    (wf : env.bank.WellFormed) (valid : subst.ValidIn env.bank) (nodup : vars.Nodup)
    (areVars : ∀ v ∈ vars, env.bank.isVar v = true) (free : ∀ v ∈ vars, subst.find v = none)
    (run : bindFresh vars subst env = .ok (subst', env')) :
    FreshBindings vars subst env subst' env' := by
  induction vars generalizing subst env with
  | nil =>
      rcases Prod.mk.inj (Except.ok.inj run) with ⟨rfl, rfl⟩
      exact ⟨.refl _, valid, fun _ _ => rfl, by simp, by simp⟩
  | cons v rest ih =>
      rw [bindFresh, bind_ok_iff] at run
      rcases run with ⟨⟨y, mid⟩, first, run⟩
      rcases freshVariable_spec wf first with ⟨grown, isVar, next⟩
      rcases List.nodup_cons.mp nodup with ⟨apart, nodupRest⟩
      have extend := grown.bank.grows
      have freeV := free v List.mem_cons_self
      have stillVar : ∀ w ∈ v :: rest, mid.bank.isVar w = true := fun w member => by
        rw [extend.isVar_eq wf (TermBank.isVar_lt (areVars w member)), areVars w member]
      have validMid := Substitution.bind_validIn (valid.mono wf extend) freeV
        (stillVar v List.mem_cons_self) (TermBank.isVar_lt isVar)
      have midFind := Substitution.find_bind freeV y
      have tail := ih (grown.bank.wf wf) validMid nodupRest
        (fun w member => stillVar w (List.mem_cons_of_mem v member))
        (fun w member => by
          have differ : w ≠ v := by rintro rfl; exact apart member
          rw [midFind, if_neg differ]
          exact free w (List.mem_cons_of_mem v member)) run
      have head : subst'.find v = some y := by rw [tail.other v apart, midFind, if_pos rfl]
      refine ⟨grown.trans tail.grows, tail.valid, ?_, ?_, ?_⟩
      · intro w absent
        rcases not_or.mp (fun h => absent (List.mem_cons.mpr h)) with ⟨differ, later⟩
        rw [tail.other w later, midFind, if_neg differ]
      · intro w member
        rcases List.mem_cons.mp member with rfl | later
        · refine ⟨y, head, ?_⟩
          rw [tail.grows.bank.grows.isVar_eq (grown.bank.wf wf) (TermBank.isVar_lt isVar), isVar]
        · exact tail.bound w later
      · intro names i w at_i
        rcases next rest.length names with ⟨rfl, size, names⟩
        cases i with
        | zero =>
            rcases Option.some.inj at_i with rfl
            exact head
        | succ i =>
            have := tail.exact names i w at_i
            rwa [size, Nat.add_right_comm, Nat.add_assoc] at this

end Fresh

section Literals

/-- Literals with every atom fully resolved, in a pool that only grew. -/
structure LiteralsAppliedTo (subst : Substitution) (bank : TermBank) (lits lits' : List Literal)
    (bank' : TermBank) : Prop where
  grows : bank.Grows bank'
  symbols : bank'.symbols = bank.symbols
  valid : ∀ lit ∈ lits', lit.atom < bank'.size
  applied : AppliedClause (subst.trees bank) (bank.read lits) (bank'.read lits')

theorem applyLiterals_spec {subst : Substitution} {fuel : Nat} {lits lits' : List Literal}
    {bank bank' : TermBank} (wf : bank.WellFormed) (valid : subst.ValidIn bank)
    (inside : ∀ lit ∈ lits, lit.atom < bank.size)
    (run : applyLiterals subst fuel lits bank = .ok (lits', bank')) :
    LiteralsAppliedTo subst bank lits lits' bank' := by
  have loop := mapAccum_rule
    (fun b => b.WellFormed ∧ bank.Grows b ∧ b.symbols = bank.symbols)
    (fun b b' => b.WellFormed → b.Grows b')
    (fun b lit new => b.WellFormed ∧ new.atom < b.size ∧ new.isPositive = lit.isPositive ∧
      Applied (subst.trees bank) (bank.tree lit.atom) (b.tree new.atom))
    (fun b _ => .refl b) (fun first second wf => (first wf).trans (second ((first wf).wf wf)))
    (fun grows done => by
      rcases done with ⟨bWf, new, polarity, applied⟩
      have grown := grows bWf
      refine ⟨grown.wf bWf, Nat.lt_of_lt_of_le new grown.grows.size_le, polarity, ?_⟩
      rwa [TermBank.tree_extends bWf (grown.wf bWf) grown.grows new])
    (fun lit member b new b' start call => by
      rcases start with ⟨bWf, grown, symbols⟩
      rcases bind_ok_iff.mp call with ⟨⟨atom, after⟩, applied, call⟩
      rcases Prod.mk.inj (pure_ok_iff.mp call) with ⟨rfl, rfl⟩
      have step := applySubstitution_spec bWf (valid.mono wf grown.grows) applied
      have tree := step.tree
      rw [Substitution.trees_extends valid wf bWf grown.grows,
        TermBank.tree_extends wf bWf grown.grows (inside lit member)] at tree
      exact ⟨⟨step.grows.wf bWf, grown.trans step.grows, step.symbols.trans symbols⟩,
        fun _ => step.grows, step.grows.wf bWf, step.valid, rfl, tree⟩)
    ⟨wf, .refl bank, rfl⟩ run
  rcases loop with ⟨⟨_, grown, symbols⟩, _, each⟩
  refine ⟨grown, symbols, fun lit' member => ?_, ?_⟩
  · rcases List.getElem_of_mem member with ⟨i, hi, rfl⟩
    exact (List.Forall₂.get each (each.length_eq ▸ hi) hi).2.1
  · rw [AppliedClause, TermBank.read, TermBank.read, List.forall₂_map_left_iff,
      List.forall₂_map_right_iff]
    exact each.imp fun lit lit' h => h.2.2

end Literals

section Clauses

/-- The renamed copy of a clause. Without `Fresh` it is still a copy under some
bindings of variables; with it the new variables are apart from all old ids. -/
structure Renamed (env : Env) (c c' : Clause) (env' : Env) : Prop where
  grows : env.Grows env'
  header : c' = { c with literals := c'.literals }
  valid : c'.ValidIn env'.bank
  copy : ∃ σ, AppliedClause σ (env.bank.read c.literals) (env'.bank.read c'.literals)
  apart : env.Fresh → ∃ ρ : Nat → Nat,
    (∀ x y, VarOf x (env.bank.read c.literals) → VarOf y (env.bank.read c.literals) →
      ρ x = ρ y → x = y) ∧
    (∀ x, VarOf x (env.bank.read c.literals) → env.bank.size ≤ ρ x) ∧
    env'.bank.read c'.literals = inst (fun x => .var (ρ x)) (env.bank.read c.literals)

theorem varOf_lt {bank : TermBank} (wf : bank.WellFormed) {lits : List Literal}
    (valid : ∀ lit ∈ lits, lit.atom < bank.size) {x : Nat} (occurs : VarOf x (bank.read lits)) :
    bank.isVar x = true := by
  rcases occurs with ⟨_, member, occurs⟩
  rcases List.mem_map.mp member with ⟨lit, inside, rfl⟩
  exact (TermBank.occurs_tree wf (valid lit inside) occurs).1

/-- A clause without variables is its own copy. Of any other each variable is bound to
a fresh one, and the literals are applied. -/
theorem renameVariables_cases {order : VariableOrder} {fuel : Nat} {c c' : Clause} {env env' : Env}
    (wf : env.bank.WellFormed) (run : renameVariables order fuel c env = .ok (c', env')) :
    (c' = c ∧ env' = env ∧ ∀ x, ¬ VarOf x (env.bank.read c.literals)) ∨
    ∃ vars subst mid lits bank, vars.Nodup ∧
      (∀ x, x ∈ vars ↔ VarOf x (env.bank.read c.literals)) ∧ vars ≠ [] ∧
      bindFresh vars {} env = .ok (subst, mid) ∧
      applyLiterals subst fuel c.literals mid.bank = .ok (lits, bank) ∧
      c' = { c with literals := lits } ∧ env' = { mid with bank } := by
  rw [renameVariables, bind_ok_iff] at run
  rcases run with ⟨varSet, collected, run⟩
  rcases varSet_spec wf collected with ⟨members, nodup⟩
  have perm := order.perm env varSet
  cases empty : varSet.isEmpty with
  | true =>
      rw [empty] at run
      rcases Prod.mk.inj (pure_ok_iff.mp run) with ⟨rfl, rfl⟩
      rw [List.isEmpty_iff.mp empty] at members
      exact Or.inl ⟨rfl, rfl, fun x occurs => List.not_mem_nil ((members x).mpr occurs)⟩
  | false =>
      rw [empty] at run
      simp only [Bool.false_eq_true, if_false, bind_ok_iff, Prod.exists] at run
      rcases run with ⟨subst, mid, bound, lits, bank, applied, run⟩
      rcases Prod.mk.inj (pure_ok_iff.mp run) with ⟨rfl, rfl⟩
      have nonempty : order.enumerate env varSet ≠ [] := fun none => by
        rw [none] at perm
        rw [List.nil_perm.mp perm] at empty
        cases empty
      exact Or.inr ⟨_, subst, mid, lits, bank, perm.nodup_iff.mpr nodup,
        fun x => perm.mem_iff.trans (members x), nonempty, bound, applied, rfl, rfl⟩

theorem renameVariables_spec {order : VariableOrder} {fuel : Nat} {c c' : Clause} {env env' : Env}
    (wf : env.bank.WellFormed) (valid : c.ValidIn env.bank)
    (run : renameVariables order fuel c env = .ok (c', env')) : Renamed env c c' env' := by
  rcases renameVariables_cases wf run with ⟨rfl, rfl, ground⟩ |
    ⟨vars, subst, mid, literals, bank, nodup, listed, _, bound, applied, rfl, rfl⟩
  · refine ⟨.refl env', rfl, valid, ⟨_, .free⟩, fun _ => ⟨id, ?_, ?_, ?_⟩⟩
    · exact fun x y occurs _ _ => absurd occurs (ground x)
    · exact fun x occurs => absurd occurs (ground x)
    · exact (inst_var _).symm
  · have areVars : ∀ x, x ∈ vars → env.bank.isVar x = true :=
      fun x member => varOf_lt wf valid ((listed x).mp member)
    have bindings := bindFresh_spec wf (empty_validIn env.bank) nodup areVars (fun _ _ => rfl)
      bound
    have wfMid := bindings.grows.bank.wf wf
    have lits := applyLiterals_spec wfMid bindings.valid
      (fun lit member => valid.mono bindings.grows.bank.grows lit member) applied
    have copy := lits.applied
    rw [TermBank.read_extends wf wfMid bindings.grows.bank.grows valid] at copy
    have grown : mid.Grows { mid with bank } := Env.grows_of_symbols lits.grows lits.symbols
    refine ⟨bindings.grows.trans grown, rfl, lits.valid, ⟨_, copy⟩, fun fresh => ?_⟩
    -- with fresh names free, the bindings are a renaming onto variables above the old bank
    have names := fresh.namesFree vars.length
    have bound : ∀ x, VarOf x (env.bank.read c.literals) → ∃ y, subst.find x = some y := by
      intro x occurs
      rcases bindings.bound x ((listed x).mpr occurs) with ⟨y, found, _⟩
      exact ⟨y, found⟩
    refine ⟨fun x => (subst.find x).getD x, ?_, ?_, copy.rename ?_ ?_⟩
    · intro x y hx hy same
      rcases bound x hx with ⟨x', foundX⟩
      rcases bound y hy with ⟨y', foundY⟩
      simp only [foundX, foundY, Option.getD_some] at same
      exact bindings.inj names foundX (same ▸ foundY)
    · intro x occurs
      rcases bound x occurs with ⟨y, found⟩
      simpa [found] using bindings.new names found
    · intro x free
      simp [Substitution.trees_none.mp free]
    · intro x t boundTo
      cases found : subst.find x with
      | none => rw [Substitution.trees_none.mpr found] at boundTo; cases boundTo
      | some y =>
          rw [Substitution.trees_some found] at boundTo
          rcases Option.some.inj boundTo with rfl
          refine ⟨by simp [TermBank.tree_var (bindings.isVar found)], ?_⟩
          rw [Option.getD_some, Substitution.trees_none, bindings.other]
          · rfl
          · intro member
            have old := TermBank.isVar_lt (areVars _ member)
            exact absurd old (Nat.not_lt_of_le (bindings.new names found))

end Clauses

end AtpEngine
