import AtpEngine.Unification
import Mathlib.Logic.Relation

/-!
The bind calls that unify makes, in their order, with the occurs check on or off
and also in calls that fail or never return. A call binds a free variable to the
end of another chain, so bindings are never changed and chains of variables end.
-/
namespace AtpEngine

open Fuelled Substitution

structure BindCall where
  subst : Substitution
  var : Nat
  term : Nat
  deriving DecidableEq, Repr

def BindCall.after (call : BindCall) : Substitution := (call.subst.bind call.var call.term).2

/-- Nothing is logged by code that fails before its first `bind`. -/
def loggedOr (log : Except Fault (List BindCall)) : List BindCall := log.toOption.getD []

def variableBinds (bank : TermBank) (config : UnificationConfig) (fuel : Nat) (subst : Substitution)
    (x term : Nat) : Except Fault (List BindCall) := do
  let (bound, _) ← bindVariable bank config fuel subst x term
  pure (if bound then [⟨subst, x, term⟩] else [])

/-- The bind calls of the argument loop: those of a pair, and those of the next
pairs when it unifies. -/
def argBinds (binds : Nat → Nat → Substitution → List BindCall)
    (unifyPair : Nat → Nat → Substitution → Except Fault (Bool × Substitution)) :
    List (Nat × Nat) → Substitution → List BindCall
  | [], _ => []
  | (a1, a2) :: rest, subst => binds a1 a2 subst ++ loggedOr do
      let (unified, subst) ← unifyPair a1 a2 subst
      pure (if unified then argBinds binds unifyPair rest subst else [])

/-- The bind calls that `unify` makes until it returns or its budget runs out. -/
def unifyBinds (bank : TermBank) (config : UnificationConfig) :
    Nat → Nat → Nat → Substitution → List BindCall
  | 0, _, _, _ => []
  | fuel + 1, t1, t2, subst => loggedOr do
      let t1 ← subst.resolve bank fuel t1
      let t2 ← subst.resolve bank fuel t2
      if t1 = t2 then pure []
      else if ← bank.isVariable t1 then variableBinds bank config fuel subst t1 t2
      else if ← bank.isVariable t2 then variableBinds bank config fuel subst t2 t1
      else
        let term1 ← bank.getTerm t1
        let term2 ← bank.getTerm t2
        if term1.symbolId ≠ term2.symbolId ∨ term1.arity ≠ term2.arity then pure []
        else pure (argBinds (unifyBinds bank config fuel) (unify bank config fuel)
          (argPairs term1 term2) subst)

structure Request where
  config : UnificationConfig
  t1 : Nat
  t2 : Nat
  deriving DecidableEq, Repr

def unifyAll (bank : TermBank) (fuel : Nat) :
    List Request → Substitution → Except Fault Substitution
  | [], subst => .ok subst
  | call :: rest, subst => do
      let (_, subst) ← unify bank call.config fuel call.t1 call.t2 subst
      unifyAll bank fuel rest subst

def requestBinds (bank : TermBank) (fuel : Nat) : List Request → Substitution → List BindCall
  | [], _ => []
  | call :: rest, subst =>
      unifyBinds bank call.config fuel call.t1 call.t2 subst ++ loggedOr do
        let (_, subst) ← unify bank call.config fuel call.t1 call.t2 subst
        pure (requestBinds bank fuel rest subst)

def points (subst : Substitution) (calls : List BindCall) : List Substitution :=
  subst :: calls.map BindCall.after

/-- A binding of a free variable to a term that is no bound variable. -/
structure BindCall.Inserts (bank : TermBank) (call : BindCall) : Prop where
  isVar : bank.isVar call.var = true
  free : call.subst.find call.var = none
  other : call.term ≠ call.var
  inside : call.term < bank.size
  last : bank.isVar call.term = true → call.subst.find call.term = none

/-- Inserting calls, each on the substitution that the one before has left. -/
inductive Linked (bank : TermBank) : Substitution → List BindCall → Substitution → Prop where
  | nil (subst : Substitution) : Linked bank subst [] subst
  | cons {call : BindCall} {rest : List BindCall} {last : Substitution} :
      call.Inserts bank → Linked bank call.after rest last →
      Linked bank call.subst (call :: rest) last

variable {bank : TermBank} {config : UnificationConfig} {subst : Substitution}

section Linking

theorem Linked.append {mid last : Substitution} {before after : List BindCall}
    (first : Linked bank subst before mid) (second : Linked bank mid after last) :
    Linked bank subst (before ++ after) last := by
  induction first with
  | nil _ => exact second
  | cons inserts _ ih => exact .cons inserts (ih second)

/-- A log is complete when its calls lead to what the logged code returns. -/
def Logs (bank : TermBank) (subst : Substitution) (calls : List BindCall)
    (returned : Except Fault Substitution) : Prop :=
  ∃ last, Linked bank subst calls last ∧ ∀ out, returned = .ok out → out = last

theorem Logs.failed (bank : TermBank) (subst : Substitution) (fault : Fault) :
    Logs bank subst [] (.error fault) :=
  ⟨subst, .nil subst, fun _ returned => by cases returned⟩

theorem Logs.unchanged (bank : TermBank) (subst : Substitution) : Logs bank subst [] (.ok subst) :=
  ⟨subst, .nil subst, fun _ returned => (Except.ok.inj returned).symm⟩

theorem Logs.silent {α : Type} {code : Except Fault α} {log : α → Except Fault (List BindCall)}
    {next : α → Except Fault (Bool × Substitution)}
    (rest : ∀ a, code = .ok a → Logs bank subst (loggedOr (log a)) (Prod.snd <$> next a)) :
    Logs bank subst (loggedOr (code >>= log)) (Prod.snd <$> (code >>= next)) := by
  cases run : code with
  | error fault => exact .failed bank subst fault
  | ok a => exact rest a run

theorem Logs.bind {α : Type} {code : Except Fault (α × Substitution)} {calls : List BindCall}
    {log : α × Substitution → List BindCall}
    {next : α × Substitution → Except Fault Substitution}
    (first : Logs bank subst calls (Prod.snd <$> code))
    (rest : ∀ out, code = .ok out → Logs bank out.2 (log out) (next out)) :
    Logs bank subst (calls ++ loggedOr (code >>= fun out => pure (log out))) (code >>= next) := by
  rcases first with ⟨mid, linked, returns⟩
  cases run : code with
  | error fault =>
      refine ⟨mid, ?_, fun _ returned => by cases returned⟩
      simpa [loggedOr, Except.toOption] using linked
  | ok out =>
      rcases returns out.2 (by rw [run]; rfl) with rfl
      rcases rest out run with ⟨last, later, exact⟩
      exact ⟨last, linked.append later, exact⟩

theorem variableBinds_logs {fuel x term : Nat}
    (inserts : BindCall.Inserts bank ⟨subst, x, term⟩) :
    Logs bank subst (loggedOr (variableBinds bank config fuel subst x term))
      (Prod.snd <$> bindVariable bank config fuel subst x term) := by
  have bound : Logs bank subst [⟨subst, x, term⟩] (.ok (subst.bind x term).2) :=
    ⟨_, .cons inserts (.nil _), fun _ returned => (Except.ok.inj returned).symm⟩
  rw [variableBinds, bindVariable]
  cases config.enableOccursCheck with
  | false => exact bound
  | true =>
      cases subst.occursIn bank fuel x term with
      | error fault => exact .failed bank subst fault
      | ok occurs =>
          cases occurs with
          | true => exact .unchanged bank subst
          | false => exact bound

theorem argBinds_logs {binds : Nat → Nat → Substitution → List BindCall}
    {unifyPair : Nat → Nat → Substitution → Except Fault (Bool × Substitution)}
    (each : ∀ a b subst, Logs bank subst (binds a b subst) (Prod.snd <$> unifyPair a b subst))
    (pairs : List (Nat × Nat)) :
    Logs bank subst (argBinds binds unifyPair pairs subst)
      (Prod.snd <$> unifyArgs unifyPair pairs subst) := by
  induction pairs generalizing subst with
  | nil => exact .unchanged bank subst
  | cons pair rest ih =>
      rcases pair with ⟨a, b⟩
      rw [argBinds, unifyArgs, map_bind]
      refine (each a b subst).bind fun out _ => ?_
      rcases out with ⟨unified, mid⟩
      cases unified with
      | true => exact ih
      | false => exact .unchanged bank mid

theorem unify_logs (bank : TermBank) (config : UnificationConfig) (fuel t1 t2 : Nat)
    (subst : Substitution) : Logs bank subst (unifyBinds bank config fuel t1 t2 subst)
      (Prod.snd <$> unify bank config fuel t1 t2 subst) := by
  induction fuel generalizing t1 t2 subst with
  | zero => exact .failed bank subst _
  | succ fuel ih =>
      rw [unifyBinds, unify]
      refine .silent fun r1 walked1 => .silent fun r2 walked2 => ?_
      have walk1 := resolve_walk walked1
      have walk2 := resolve_walk walked2
      by_cases same : r1 = r2
      · rw [if_pos same, if_pos same]
        exact .unchanged bank subst
      rw [if_neg same, if_neg same]
      refine .silent fun kind1 read1 => ?_
      cases kind1 with
      | true =>
          have isVar := (TermBank.isVariable_ok read1).2
          exact variableBinds_logs
            ⟨isVar, walk1.free isVar, Ne.symm same, walk2.valid, walk2.free⟩
      | false =>
          refine .silent fun kind2 read2 => ?_
          cases kind2 with
          | true =>
              have isVar := (TermBank.isVariable_ok read2).2
              exact variableBinds_logs ⟨isVar, walk2.free isVar, same, walk1.valid, walk1.free⟩
          | false =>
              refine .silent fun term1 _ => .silent fun term2 _ => ?_
              split
              · exact .unchanged bank subst
              · exact argBinds_logs ih _

theorem requests_log (bank : TermBank) (fuel : Nat) (requests : List Request)
    (subst : Substitution) :
    Logs bank subst (requestBinds bank fuel requests subst)
      (unifyAll bank fuel requests subst) := by
  induction requests generalizing subst with
  | nil => exact .unchanged bank subst
  | cons call rest ih =>
      rw [requestBinds, unifyAll]
      exact (unify_logs bank call.config fuel call.t1 call.t2 subst).bind fun out _ => ih out.2

end Linking

section Chains

def Substitution.Keeps (subst subst' : Substitution) : Prop :=
  ∀ x t, subst.find x = some t → subst'.find x = some t

def VarStep (bank : TermBank) (subst : Substitution) (x y : Nat) : Prop :=
  subst.find x = some y ∧ bank.isVar x = true ∧ bank.isVar y = true

theorem BindCall.Inserts.keeps {call : BindCall} (inserts : call.Inserts bank) :
    call.subst.Keeps call.after := by
  intro x t found
  rw [BindCall.after, find_bind inserts.free]
  split
  · next same => rw [same, inserts.free] at found; cases found
  · exact found

theorem BindCall.Inserts.binds {call : BindCall} (inserts : call.Inserts bank) :
    (call.subst.bind call.var call.term).1 = true ∧
    call.after.find call.var = some call.term := by
  refine ⟨by rw [Substitution.bind, inserts.free], ?_⟩
  rw [BindCall.after, find_bind inserts.free, if_pos rfl]

/-- A chain that ended at the variable now goes on to the term, and all others stay. -/
theorem BindCall.Inserts.walk {call : BindCall} (inserts : call.Inserts bank) {id last : Nat}
    (walk : Walk call.subst bank id last) : ∃ last', Walk call.after bank id last' := by
  induction walk with
  | @stop id inside free =>
      by_cases same : id = call.var
      · refine ⟨call.term, .step (same ▸ inserts.isVar) (same ▸ inserts.binds.2) ?_⟩
        refine .stop inserts.inside fun isVar => ?_
        rw [BindCall.after, find_bind inserts.free, if_neg inserts.other]
        exact inserts.last isVar
      · refine ⟨id, .stop inside fun isVar => ?_⟩
        rw [BindCall.after, find_bind inserts.free, if_neg same]
        exact free isVar
  | step isVar found _ ih =>
      rcases ih with ⟨last', later⟩
      exact ⟨last', .step isVar (inserts.keeps _ _ found) later⟩

theorem walk_acyclic {x last : Nat} (walk : Walk subst bank x last) :
    ¬ Relation.TransGen (VarStep bank subst) x x := by
  induction walk with
  | stop _ free =>
      intro cycle
      rcases Relation.TransGen.head'_iff.mp cycle with ⟨y, ⟨found, isVar, _⟩, _⟩
      rw [free isVar] at found
      cases found
  | step _ found _ ih =>
      intro cycle
      rcases Relation.TransGen.head'_iff.mp cycle with ⟨y, first, rest⟩
      rcases Option.some.inj (found.symm.trans first.1) with rfl
      exact ih (Relation.TransGen.tail' rest first)

theorem walk_returns
    (symbols : ∀ (id : Nat) (t : Term), bank.terms[id]? = some t →
      t.symbolId < bank.symbols.size) {id last : Nat} (walk : Walk subst bank id last) :
    Returns (fun fuel => subst.resolve bank fuel id) last := by
  have known : ∀ id < bank.size, bank.isVariable id = .ok (bank.isVar id) := by
    intro id inside
    have entry : bank.terms[id]? = some bank.terms[id] := List.getElem?_eq_getElem inside
    rw [TermBank.isVariable, TermBank.getTerm_ok.mpr entry, bind_ok,
      SymbolTable.isVariable_eq (symbols id _ entry), TermBank.isVar_term entry]
  induction walk with
  | @stop id inside free =>
      refine .succ (.congr (fun fuel => ?_) (.const id))
      rw [Substitution.resolve, known id inside, bind_ok]
      split
      · next isVar => rw [free isVar]; rfl
      · rfl
  | @step id next last isVar found _ ih =>
      refine .succ (.congr (fun fuel => ?_) ih)
      rw [Substitution.resolve, known id (TermBank.isVar_lt isVar), bind_ok, isVar,
        if_pos rfl, found]

theorem Linked.keeps {last : Substitution} {calls : List BindCall}
    (linked : Linked bank subst calls last) :
    (points subst calls).Pairwise Substitution.Keeps := by
  induction linked with
  | nil _ => exact List.pairwise_singleton _ _
  | @cons call rest last inserts linked ih =>
      refine List.Pairwise.cons (fun s member => ?_) ih
      rcases List.mem_cons.mp member with rfl | later
      · exact inserts.keeps
      · intro x t found
        exact List.rel_of_pairwise_cons ih later x t (inserts.keeps x t found)

theorem Linked.walks {last : Substitution} {calls : List BindCall}
    (linked : Linked bank subst calls last)
    (start : ∀ id < bank.size, ∃ last, Walk subst bank id last) :
    ∀ s ∈ points subst calls, ∀ id < bank.size, ∃ last, Walk s bank id last := by
  induction linked with
  | nil _ => simpa [points] using start
  | @cons call rest last inserts linked ih =>
      intro s member
      rcases List.mem_cons.mp member with rfl | later
      · exact start
      · refine ih (fun id inside => ?_) s later
        rcases start id inside with ⟨last, walk⟩
        exact inserts.walk walk

theorem Linked.consecutive {last : Substitution} {calls : List BindCall}
    (linked : Linked bank subst calls last) :
    (∀ (i : Nat) call, calls[i]? = some call → (points subst calls)[i]? = some call.subst) ∧
      (points subst calls).getLast? = some last := by
  induction linked with
  | nil _ => simp [points]
  | @cons call rest last inserts linked ih =>
      refine ⟨fun i found at_i => ?_, ?_⟩
      · cases i with
        | zero => rw [Option.some.inj at_i]; rfl
        | succ i => exact ih.1 i found at_i
      · rw [← ih.2]
        exact List.getLast?_cons_cons

theorem Linked.inserts {last : Substitution} {calls : List BindCall}
    (linked : Linked bank subst calls last) : ∀ call ∈ calls, call.Inserts bank := by
  induction linked with
  | nil _ => simp
  | cons inserts _ ih => exact List.forall_mem_cons.mpr ⟨inserts, ih⟩

end Chains

/-- Through any calls of `unify` on one substitution: every `bind` inserts, later
points keep the bindings of earlier ones, and at every point chains of variables
end, so that `resolve` returns. -/
theorem bindings_monotone
    (symbols : ∀ (id : Nat) (t : Term), bank.terms[id]? = some t →
      t.symbolId < bank.symbols.size) (requests : List Request) (fuel : Nat) :
    let calls := requestBinds bank fuel requests {}
    (∀ (i : Nat) call, calls[i]? = some call → (points {} calls)[i]? = some call.subst) ∧
    (∀ out, unifyAll bank fuel requests {} = .ok out →
      (points {} calls).getLast? = some out) ∧
    (∀ call ∈ calls, call.subst.find call.var = none ∧
      (call.subst.bind call.var call.term).1 = true ∧
      call.after.find call.var = some call.term) ∧
    (points {} calls).Pairwise Substitution.Keeps ∧
    ∀ s ∈ points {} calls, (∀ x, ¬ Relation.TransGen (VarStep bank s) x x) ∧
      ∀ id < bank.size, ∃ last, Returns (fun fuel => s.resolve bank fuel id) last := by
  rcases requests_log bank fuel requests {} with ⟨last, linked, returned⟩
  have start : ∀ id < bank.size, ∃ last, Walk {} bank id last := fun id inside =>
    ⟨id, .stop inside fun _ => rfl⟩
  refine ⟨linked.consecutive.1, fun out run => ?_, fun call member => ?_, linked.keeps,
    fun s member => ⟨fun x cycle => ?_, fun id inside => ?_⟩⟩
  · rw [returned out run]
    exact linked.consecutive.2
  · have inserts := linked.inserts call member
    exact ⟨inserts.free, inserts.binds⟩
  · rcases Relation.TransGen.head'_iff.mp cycle with ⟨_, ⟨_, isVar, _⟩, _⟩
    rcases linked.walks start s member x (TermBank.isVar_lt isVar) with ⟨_, walk⟩
    exact walk_acyclic walk cycle
  · rcases linked.walks start s member id inside with ⟨last, walk⟩
    exact ⟨last, walk_returns symbols walk⟩

/-- X, f(X), Y and f(Y). -/
def crossedBank : TermBank where
  symbols := {
    infos :=
      [⟨['X'], .kVariable, 0, 0⟩, ⟨['f'], .kFunction, 1, 0⟩, ⟨['Y'], .kVariable, 0, 0⟩]
    nameToId := [(['Y'], 2), (['f'], 1), (['X'], 0)] }
  terms := [⟨0, []⟩, ⟨1, [0]⟩, ⟨2, []⟩, ⟨1, [2]⟩]
  termToId := [(⟨1, [2]⟩, 3), (⟨2, []⟩, 2), (⟨1, [0]⟩, 1), (⟨0, []⟩, 0)]

/-- X = f(Y) and Y = f(X) bind both variables, and X = Y goes on forever. -/
def crossedRequests : List Request :=
  [⟨⟨false⟩, 0, 3⟩, ⟨⟨false⟩, 2, 1⟩, ⟨⟨false⟩, 0, 2⟩]

theorem bindings_monotone_sample :
    (requestBinds crossedBank 20 crossedRequests {}).map (fun call => (call.var, call.term)) =
      [(0, 3), (2, 1)] ∧
    (unifyAll crossedBank 20 crossedRequests {}) = .error .outOfFuel ∧
    ∀ s ∈ points {} (requestBinds crossedBank 20 crossedRequests {}),
      ∀ id < 4, ∃ last, Returns (fun fuel => s.resolve crossedBank fuel id) last := by
  have symbols : ∀ (id : Nat) (t : Term), crossedBank.terms[id]? = some t →
      t.symbolId < crossedBank.symbols.size := by
    have all : ∀ t ∈ crossedBank.terms, t.symbolId < crossedBank.symbols.size := by decide
    exact fun id t entry => all t (List.mem_of_getElem? entry)
  rcases bindings_monotone symbols crossedRequests 20 with ⟨_, _, _, _, ends⟩
  exact ⟨by decide +kernel, by decide +kernel, fun s member => (ends s member).2⟩

end AtpEngine
