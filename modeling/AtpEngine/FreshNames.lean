import AtpEngine.SearchReturns

/-!
Exceptions of a search. The only one is thrown by `intern`, when a fresh name
`_R<k>` is already a symbol of another kind. The parser takes `_R<k>` for a
constant or a function, so a search throws exactly when it renames a clause
while the counter is about to reach such a symbol of the input.
-/
namespace AtpEngine

open Fuelled

section Interning

/-- The renaming loop calls `intern` in state `env'` when it renames the clause
in state `env`. -/
inductive InternedAt (order : VariableOrder) (c : Clause) (env : Env) : Env → Prop where
  | intro {fuel i : Nat} {varSet : List Nat} {subst : Substitution} {env' : Env} :
      c.literals.foldlM (fun seen lit => collectVariables env.bank fuel lit.atom seen) [] =
        .ok varSet →
      i < varSet.length → bindFresh ((order.enumerate env varSet).take i) {} env =
      .ok (subst, env') → InternedAt order c env env'

/-- The next call of `intern` succeeds with a variable symbol of no term so far. -/
def Env.InternsFresh (env : Env) : Prop :=
  ∃ sym symbols, env.bank.symbols.intern (freshName env.varCounter) .kVariable =
    .ok (sym, symbols) ∧ symbols.isVar sym = true ∧ ∀ t ∈ env.bank.terms, t.symbolId ≠ sym

theorem bindFresh_grows {vars : List Nat} {subst subst' : Substitution} {env env' : Env}
    (wf : env.bank.WellFormed) (run : bindFresh vars subst env = .ok (subst', env')) :
    env.Grows env' ∧ env'.varCounter = env.varCounter + vars.length ∧
      ∀ m, env.NamesFree (vars.length + m) → env'.NamesFree m := by
  induction vars generalizing subst env with
  | nil =>
      rcases Prod.mk.inj (Except.ok.inj run) with ⟨rfl, rfl⟩
      exact ⟨.refl _, rfl, fun m names => by simpa using names⟩
  | cons v rest ih =>
      rw [bindFresh, bind_ok_iff] at run
      rcases run with ⟨⟨y, mid⟩, first, run⟩
      rcases freshVariable_spec wf first with ⟨grown, _, next⟩
      have counter : mid.varCounter = env.varCounter + 1 := by
        simp only [freshVariable, bind_ok_iff, Prod.exists] at first
        rcases first with ⟨sym, symbols, _, made⟩
        rcases Prod.mk.inj (pure_ok_iff.mp made) with ⟨_, rfl⟩
        rfl
      rcases ih (grown.bank.wf wf) run with ⟨later, last, names⟩
      refine ⟨grown.trans later, by rw [last, counter, List.length_cons]; omega,
        fun m free => ?_⟩
      refine names m (next (rest.length + m) ?_).2.2
      rwa [List.length_cons, Nat.add_right_comm] at free

theorem Env.NamesFree.interns {env : Env} (wf : env.bank.WellFormed) {n : Nat}
    (names : env.NamesFree (n + 1)) : env.InternsFresh := by
  have absent := names env.varCounter (Nat.le_refl _) (by omega)
  refine ⟨env.bank.symbols.infos.length, _, by rw [SymbolTable.intern, absent], ?_,
    fun t member => ?_⟩
  · simp [SymbolTable.isVar]
  · rcases List.getElem?_of_mem member with ⟨id, entry⟩
    exact Nat.ne_of_lt (wf.symbol_valid entry)

theorem Env.InternsFresh.absent {env : Env} (wf : env.bank.WellFormed) (interns : env.InternsFresh)
    {info : SymbolInfo} (member : info ∈ env.bank.symbols.infos)
    (kind : info.kind ≠ .kVariable) : info.name ≠ freshName env.varCounter := by
  intro name
  rcases interns with ⟨sym, symbols, run, _⟩
  rcases List.getElem?_of_mem member with ⟨id, entry⟩
  have found := wf.table.complete id info entry
  rw [name] at found
  rcases SymbolTable.intern_cases run with ⟨info', known, entry', isVariable, _⟩ |
    ⟨unknown, _⟩
  · rcases Option.some.inj (found.symm.trans known) with rfl
    rcases Option.some.inj (entry.symm.trans entry') with rfl
    exact kind isVariable
  · rw [unknown] at found
    cases found

theorem Env.InternsFresh.freshVariable_ok {env : Env} (interns : env.InternsFresh) :
    ∃ y env', freshVariable env = .ok (y, env') := by
  rcases interns with ⟨sym, symbols, run, _⟩
  exact ⟨_, _, by rw [freshVariable, run]; rfl⟩

theorem bindFresh_concat {vars : List Nat} {subst subst' : Substitution} {env env' last : Env}
    {v y : Nat} (run : bindFresh vars subst env = .ok (subst', env'))
    (next : freshVariable env' = .ok (y, last)) :
    bindFresh (vars ++ [v]) subst env = .ok ((subst'.bind v y).2, last) := by
  induction vars generalizing subst env with
  | nil =>
      rcases Prod.mk.inj (Except.ok.inj run) with ⟨rfl, rfl⟩
      rw [List.nil_append, bindFresh, next]
      rfl
  | cons w rest ih =>
      rw [bindFresh, bind_ok_iff] at run
      rcases run with ⟨⟨z, mid⟩, first, run⟩
      rw [List.cons_append, bindFresh, first, bind_ok]
      exact ih run

theorem interned_each {order : VariableOrder} {c : Clause} {env : Env} {fuel : Nat}
    {varSet : List Nat} (collected : c.literals.foldlM
      (fun seen lit => collectVariables env.bank fuel lit.atom seen) [] = .ok varSet)
    (interns : ∀ env', InternedAt order c env env' → env'.InternsFresh) {i : Nat}
    (inside : i < varSet.length) :
    ∃ subst env', bindFresh ((order.enumerate env varSet).take i) {} env = .ok (subst, env') := by
  induction i with
  | zero => exact ⟨{}, env, rfl⟩
  | succ i ih =>
      have earlier : i < varSet.length := Nat.lt_of_succ_lt inside
      rcases ih earlier with ⟨subst, env', run⟩
      rcases (interns env' (.intro collected earlier run)).freshVariable_ok with ⟨y, last, next⟩
      have width : i < (order.enumerate env varSet).length := by
        rwa [(order.perm env varSet).length_eq]
      rw [List.take_succ_eq_append_getElem width]
      exact ⟨_, _, bindFresh_concat run next⟩

end Interning

section Searching

/-- The counter's next names, one for each variable of the clause, name no
symbol of the input. -/
def Env.AvoidsInput (env first : Env) (c : Clause) : Prop :=
  ∀ fuel varSet,
    c.literals.foldlM (fun seen lit => collectVariables env.bank fuel lit.atom seen) [] =
      .ok varSet →
    ∀ k, env.varCounter ≤ k → k < env.varCounter + varSet.length →
    ∀ info ∈ first.bank.symbols.infos, info.name ≠ freshName k

theorem Env.AvoidsInput.canRename {env first : Env} {c : Clause} (avoids : env.AvoidsInput first c)
    (table : first.bank.symbols.WellFormed) (grows : first.Grows env) : env.CanRename c := by
  intro fuel varSet collected k above below
  refine grows.freshName_free above ?_
  cases found : first.bank.symbols.nameToId.lookup (freshName k) with
  | none => rfl
  | some id =>
      rcases table.sound _ _ found with ⟨info, entry, name⟩
      exact absurd name
        (avoids fuel varSet collected k above below info (List.mem_of_getElem? entry))

/-- A search on a parsed input raises no exception, and each of its renamings
interns new variables, exactly when no renaming reaches a name of the input. -/
theorem search_never_throws (runtime : Runtime) (config : ProverConfig)
    (enabled : config.enableOccursCheck = true) {input : Text} {clauses : List Clause} {first : Env}
    (read : readInput input = .ok (clauses, first)) :
    ∃ p, Prover.addClauses runtime config clauses { env := first } = .ok p ∧
      (((∃ result p', Returns (fun fuel => Prover.prove runtime config fuel p) (result, p')) ∧
        ∀ c1 i c2 j env env', CallMade runtime config p (.resolve c1 i c2 j) env →
          InternedAt runtime.order c2 env env' → env'.InternsFresh) ↔
      ∀ c1 i c2 j env, CallMade runtime config p (.resolve c1 i c2 j) env →
        env.AvoidsInput first c2) := by
  rcases addClauses_spec runtime config clauses { env := first } with ⟨p, added, _⟩
  rcases readInput_ready read with ⟨ready, _⟩
  rcases StoreInv.init added with ⟨structured, _⟩
  have reached : ∀ {inf env}, CallMade runtime config p inf env → first.Grows env ∧
      env.bank.WellFormed :=
    fun call => by
      rcases call.ready ready.wf structured fun _ => RunInv.init ready.valid added with
        ⟨grows, wf, _⟩
      exact ⟨grows, wf⟩
  refine ⟨p, added, ?_, ?_⟩
  · rintro ⟨_, interns⟩ c1 i c2 j env call fuel varSet collected k above below info member name
    -- the turn of the loop at which the counter is `k`
    rcases reached call with ⟨grows, wf⟩
    have inside : k - env.varCounter < varSet.length := by omega
    have each := fun env' => interns c1 i c2 j env env' call
    rcases interned_each collected each inside with ⟨subst, env', run⟩
    rcases bindFresh_grows wf run with ⟨later, counter, _⟩
    have at_k : env'.varCounter = k := by
      rw [counter, List.length_take, (runtime.order.perm env varSet).length_eq]
      omega
    have known : info ∈ env'.bank.symbols.infos :=
      (grows.trans later).bank.grows.infos.subset member
    have kind := readInput_freshName read member name
    exact (each env' (.intro collected inside run)).absent (later.bank.wf wf) known kind
      (at_k ▸ name)
  · intro avoids
    have canRename : ∀ {c1 i c2 j env}, CallMade runtime config p (.resolve c1 i c2 j) env →
        env.CanRename c2 := fun call =>
      (avoids _ _ _ _ _ call).canRename ready.wf.table (reached call).1
    have names : ∀ inf env, CallMade runtime config p inf env → inf.NamesFree env := by
      intro inf env call
      cases inf with
      | resolve c1 i c2 j => exact canRename call
      | factor c i j => trivial
    rcases (search_returns runtime config first ready.wf clauses ready.valid added names
      (Or.inl enabled)).2 with ⟨result, _, p', _, _, done⟩
    refine ⟨⟨result, p', done⟩, fun c1 i c2 j env env' call at_turn => ?_⟩
    rcases reached call with ⟨_, wf⟩
    cases at_turn with
    | @intro fuel k varSet subst _ collected inside run =>
        rcases bindFresh_grows wf run with ⟨later, _, names⟩
        have width : ((runtime.order.enumerate env varSet).take k).length = k := by
          rw [List.length_take, (runtime.order.perm env varSet).length_eq]
          omega
        have free := canRename call fuel varSet collected
        rw [width] at names
        refine Env.NamesFree.interns (later.bank.wf wf) (names (varSet.length - k - 1 + 1) ?_)
        rwa [show k + (varSet.length - k - 1 + 1) = varSet.length by omega]

def apartInput : Text := "cnf(a,axiom,p(X)). cnf(b,axiom,~p(a)).".toList

theorem search_never_throws_sample : ∃ (clauses : List Clause) (first : Env) (p : Prover),
    readInput apartInput = .ok (clauses, first) ∧
    Prover.addClauses .plain { enableOccursCheck := true } clauses { env := first } = .ok p ∧
    (∃ result p', Returns (fun fuel => Prover.prove .plain { enableOccursCheck := true } fuel p)
      (result, p')) ∧
    ∀ c1 i c2 j env env',
      CallMade .plain { enableOccursCheck := true } p (.resolve c1 i c2 j) env →
      InternedAt .insertion c2 env env' → env'.InternsFresh := by
  have names : (fun out => out.2.bank.symbols.infos.all fun info => info.name.head? != some '_') <$>
      readInput apartInput = .ok true := by decide +kernel
  rcases map_ok_iff.mp names with ⟨⟨clauses, first⟩, read, noUnderscore⟩
  rcases search_never_throws .plain { enableOccursCheck := true } rfl read with
    ⟨p, added, exact⟩
  refine ⟨clauses, first, p, read, added, exact.mpr ?_⟩
  intro c1 i c2 j env _ fuel varSet _ k _ _ info member name
  have other := List.all_eq_true.mp noUnderscore info member
  simp [name, freshName] at other

end Searching

section Clash

def clashInput : Text := "cnf(a,axiom,p(X)). cnf(b,axiom,~p(_R0)).".toList

def clashBank : TermBank where
  symbols := {
    infos := [⟨['X'], .kVariable, 0, 0⟩, ⟨['p'], .kFunction, 1, 0⟩,
      ⟨['_', 'R', '0'], .kConstant, 0, 0⟩]
    nameToId := [(['_', 'R', '0'], 2), (['p'], 1), (['X'], 0)] }
  terms := [⟨0, []⟩, ⟨1, [0]⟩, ⟨2, []⟩, ⟨1, [2]⟩]
  termToId := [(⟨1, [2]⟩, 3), (⟨2, []⟩, 2), (⟨1, [0]⟩, 1), (⟨0, []⟩, 0)]

theorem clash_read : readInput clashInput =
    .ok ([{ literals := [⟨1, true⟩] }, { literals := [⟨3, false⟩] }],
      { bank := clashBank }) := by
  decide +kernel

theorem clash_rename {c : Clause} (literals : c.literals = [⟨1, true⟩]) (fuel : Nat)
    (c' : Clause) (env' : Env) :
    renameVariables .insertion fuel c ⟨clashBank, 0⟩ ≠ .ok (c', env') := by
  intro run
  have wf := (readInput_ready clash_read).1.wf
  have throws : ∀ out, freshVariable ⟨clashBank, 0⟩ ≠ .ok out := by
    intro out fresh
    have error : freshVariable ⟨clashBank, 0⟩ = .error (.runtimeError
        "Symbol kind or arity mismatch for: _R0".toList) := by decide +kernel
    rw [error] at fresh
    cases fresh
  rcases renameVariables_cases wf run with ⟨_, _, ground⟩ |
    ⟨vars, _, _, _, _, _, _, nonempty, bound, _⟩
  · exact ground 0 ⟨(clashBank.tree 1, true), by rw [literals]; exact List.mem_cons_self,
      .node List.mem_cons_self .var⟩
  · cases vars with
    | nil => exact nonempty rfl
    | cons x rest =>
        rw [bindFresh, bind_ok_iff] at bound
        rcases bound with ⟨out, fresh, _⟩
        exact throws out fresh

/-- The search throws when it resolves the two clauses. -/
theorem search_throws : ∃ (clauses : List Clause) (first : Env) (p : Prover),
    readInput clashInput = .ok (clauses, first) ∧
    Prover.addClauses .plain { enableOccursCheck := true } clauses { env := first } = .ok p ∧
    Prover.prove .plain { enableOccursCheck := true } 50 p =
      .error (.runtimeError "Symbol kind or arity mismatch for: _R0".toList) ∧
    ∀ fuel out, Prover.prove .plain { enableOccursCheck := true } fuel p ≠ .ok out := by
  let c0 : Clause := { literals := [⟨1, true⟩], id := some 0 }
  let c1 : Clause := { literals := [⟨3, false⟩], id := some 1 }
  refine ⟨_, _, ⟨⟨clashBank, 0⟩, ⟨[c0, c1]⟩, [c0, c1], [], none⟩, clash_read, rfl,
    by decide +kernel, fun fuel out run => ?_⟩
  rcases bind_ok_iff.mp run with ⟨after, loop, _⟩
  rcases fuel with _ | _ | fuel
  · cases loop
  · cases loop
  · -- the first turn has nothing to infer
    have second : Prover.proveLoop .plain { enableOccursCheck := true } (fuel + 2) (fuel + 1) 1
        ⟨⟨clashBank, 0⟩, ⟨[c0, c1]⟩, [c1], [some 0], none⟩ = .ok after := loop
    rcases bind_ok_iff.mp second with ⟨turn, body, _⟩
    rcases iteration_cases body with ⟨calls, iterated⟩
    cases iterated with
    | empty literals => cases literals
    | tautology _ found => cases found
    | @subsumed pid pc _ _ member found hit =>
        rcases List.mem_singleton.mp member with rfl
        rcases Option.some.inj found with rfl
        cases hit
    | @generated kept pcs _ _ _ generates run _ =>
        -- the processed clause stays, so the second turn resolves both clauses
        have stays : some 0 ∈ kept :=
          (generates.answered (some 0) List.mem_cons_self).resolve_right (by
          rintro ⟨pc, found, hit⟩
          rcases Option.some.inj found with rfl
          cases hit)
        have held := generates.held
        rcases List.sublist_cons_iff.mp generates.sub with none | ⟨rest, rfl, tail⟩
        · rcases List.sublist_nil.mp none with rfl
          cases stays
        rcases List.sublist_nil.mp tail with rfl
        rcases held with _ | ⟨found, more⟩
        rcases Option.some.inj found with rfl
        cases more
        rcases mapAccum_cons_ok.mp run with ⟨made, env', _, call, _⟩
        rcases bind_ok_iff.mp call with ⟨lit1, read1, call⟩
        rcases Except.ok.inj read1 with rfl
        rcases bind_ok_iff.mp call with ⟨lit2, read2, call⟩
        rcases Except.ok.inj read2 with rfl
        rcases bind_ok_iff.mp call with ⟨⟨c2r, mid⟩, rename, _⟩
        exact clash_rename (c := c0) rfl _ c2r mid rename

end Clash

end AtpEngine
