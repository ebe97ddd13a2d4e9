import AtpEngine.Substitution

/-!
Unification and substitution application of infer/unification.cc. `unify_rule`
states once what a returning call can have done; soundness and completeness are
each an instance of it.
-/
namespace AtpEngine

open Fuelled Triangular

structure UnificationConfig where
  enableOccursCheck : Bool := false
  deriving DecidableEq, Repr

/-- `enable_occurs_check_ && occursIn(...)` guards the binding of a variable. -/
def bindVariable (bank : TermBank) (config : UnificationConfig) (fuel : Nat) (subst : Substitution)
    (x term : Nat) : Except Fault (Bool × Substitution) :=
  if config.enableOccursCheck then do
    let occurs ← subst.occursIn bank fuel x term
    if occurs then pure (false, subst) else pure (true, (subst.bind x term).2)
  else pure (true, (subst.bind x term).2)

/-- The argument loop, left at the first pair that does not unify. -/
def unifyArgs (unifyPair : Nat → Nat → Substitution → Except Fault (Bool × Substitution)) :
    List (Nat × Nat) → Substitution → Except Fault (Bool × Substitution)
  | [], subst => .ok (true, subst)
  | (a1, a2) :: rest, subst => do
      let (unified, subst) ← unifyPair a1 a2 subst
      if unified then unifyArgs unifyPair rest subst else pure (false, subst)

/-- The indices `i < term1.arity()` of both argument arrays. -/
def argPairs (term1 term2 : Term) : List (Nat × Nat) :=
  (term1.args.take term1.arity).zip (term2.args.take term1.arity)

def unify (bank : TermBank) (config : UnificationConfig) :
    Nat → Nat → Nat → Substitution → Except Fault (Bool × Substitution)
  | 0, _, _, _ => .error .outOfFuel
  | fuel + 1, t1, t2, subst => do
      let t1 ← subst.resolve bank fuel t1
      let t2 ← subst.resolve bank fuel t2
      if t1 = t2 then pure (true, subst)
      else if ← bank.isVariable t1 then bindVariable bank config fuel subst t1 t2
      else if ← bank.isVariable t2 then bindVariable bank config fuel subst t2 t1
      else
        let term1 ← bank.getTerm t1
        let term2 ← bank.getTerm t2
        if term1.symbolId ≠ term2.symbolId ∨
          term1.arity ≠ term2.arity then pure (false, subst)
        else unifyArgs (unify bank config fuel) (argPairs term1 term2) subst

def applySubstitution (subst : Substitution) :
    Nat → Nat → TermBank → Except Fault (Nat × TermBank)
  | 0, _, _ => .error .outOfFuel
  | fuel + 1, term, bank => do
      let term ← subst.resolve bank fuel term
      if ← bank.isVariable term then pure (term, bank)
      else
        let t ← bank.getTerm term
        let (newArgs, bank) ← mapAccum (applySubstitution subst fuel) t.args bank
        pure (bank.makeTerm t.symbolId newArgs)

open TermTree Substitution

section Rule

variable {bank : TermBank} {config : UnificationConfig}

theorem bindVariable_cases (wf : bank.WellFormed) {fuel x term : Nat} {subst subst' : Substitution}
    {unified : Bool} (isVar : bank.isVar x = true) (free : subst.find x = none)
    (run : bindVariable bank config fuel subst x term = .ok (unified, subst')) :
    (unified = true ∧ subst' = (subst.bind x term).2 ∧ (config.enableOccursCheck = true →
      ¬ OccursUnder (subst.trees bank) x (bank.tree term))) ∨
    (unified = false ∧ subst' = subst ∧ config.enableOccursCheck = true ∧
      OccursUnder (subst.trees bank) x (bank.tree term)) := by
  cases enabled : config.enableOccursCheck with
  | false =>
      simp only [bindVariable, enabled, Bool.false_eq_true, if_false] at run
      rcases Prod.mk.inj (pure_ok_iff.mp run) with ⟨rfl, rfl⟩
      exact Or.inl ⟨rfl, rfl, fun h => by cases h⟩
  | true =>
      simp only [bindVariable, enabled, if_true, bind_ok_iff] at run
      rcases run with ⟨occurs, checked, run⟩
      have exact := occursIn_iff wf isVar free checked
      cases occurs with
      | false =>
          rcases Prod.mk.inj (pure_ok_iff.mp run) with ⟨rfl, rfl⟩
          exact Or.inl ⟨rfl, rfl, fun _ inside => by cases exact.mpr inside⟩
      | true =>
          rcases Prod.mk.inj (pure_ok_iff.mp run) with ⟨rfl, rfl⟩
          exact Or.inr ⟨rfl, rfl, rfl, exact.mp rfl⟩

/-- The facts every returning call establishes, whatever its answer. -/
structure UnifyKeeps (bank : TermBank) (subst subst' : Substitution) : Prop where
  valid : subst'.ValidIn bank
  grows : Extends (subst.trees bank) (subst'.trees bank)

theorem UnifyKeeps.refl {subst : Substitution} (valid : subst.ValidIn bank) :
    UnifyKeeps bank subst subst := ⟨valid, fun _ _ h => h⟩

theorem UnifyKeeps.trans {a b c : Substitution} (first : UnifyKeeps bank a b)
    (second : UnifyKeeps bank b c) : UnifyKeeps bank a c :=
  ⟨second.valid, fun x t h => second.grows x t (first.grows x t h)⟩

/-- A returning call of `unify` is built from these cases. `P` is about calls,
`Q` about the argument loop; in each case the substitution at hand is valid. -/
structure UnifyRule (bank : TermBank) (config : UnificationConfig)
    (P : Nat → Nat → Substitution → Bool → Substitution → Prop)
    (Q : List (Nat × Nat) → Substitution → Bool → Substitution → Prop) : Prop where
  same : ∀ {t1 t2 r subst}, subst.ValidIn bank → Walk subst bank t1 r →
    Walk subst bank t2 r → P t1 t2 subst true subst
  bind : ∀ {t1 t2 x r subst}, subst.ValidIn bank →
    (Walk subst bank t1 x ∧ Walk subst bank t2 r ∨ Walk subst bank t1 r ∧
      Walk subst bank t2 x) →
    x ≠ r → bank.isVar x = true → subst.find x = none → (config.enableOccursCheck = true →
      ¬ OccursUnder (subst.trees bank) x (bank.tree r)) →
    P t1 t2 subst true (subst.bind x r).2
  occurs : ∀ {t1 t2 x r subst}, subst.ValidIn bank →
    (Walk subst bank t1 x ∧ Walk subst bank t2 r ∨ Walk subst bank t1 r ∧
      Walk subst bank t2 x) →
    x ≠ r → bank.isVar x = true → subst.find x = none → config.enableOccursCheck = true →
    OccursUnder (subst.trees bank) x (bank.tree r) → P t1 t2 subst false subst
  clash : ∀ {t1 t2 r1 r2 term1 term2 subst}, subst.ValidIn bank → Walk subst bank t1 r1 →
    Walk subst bank t2 r2 → bank.isVar r1 = false → bank.isVar r2 = false →
    bank.terms[r1]? = some term1 → bank.terms[r2]? = some term2 →
    (term1.symbolId ≠ term2.symbolId ∨ term1.arity ≠ term2.arity) →
    P t1 t2 subst false subst
  args : ∀ {t1 t2 r1 r2 term1 term2 subst unified subst'}, subst.ValidIn bank →
    Walk subst bank t1 r1 → Walk subst bank t2 r2 → bank.isVar r1 = false →
    bank.isVar r2 = false → bank.terms[r1]? = some term1 → bank.terms[r2]? = some term2 →
    term1.symbolId = term2.symbolId → term1.arity = term2.arity →
    UnifyKeeps bank subst subst' →
    Q (argPairs term1 term2) subst unified subst' → P t1 t2 subst unified subst'
  nil : ∀ {subst}, subst.ValidIn bank → Q [] subst true subst
  fail : ∀ {a b rest subst subst'}, UnifyKeeps bank subst subst' → P a b subst false subst' →
    Q ((a, b) :: rest) subst false subst'
  cons : ∀ {a b rest subst mid subst' unified}, UnifyKeeps bank subst mid →
    UnifyKeeps bank mid subst' → P a b subst true mid → Q rest mid unified subst' →
    Q ((a, b) :: rest) subst unified subst'

variable {P : Nat → Nat → Substitution → Bool → Substitution → Prop}
  {Q : List (Nat × Nat) → Substitution → Bool → Substitution → Prop}

theorem unifyArgs_rule (rule : UnifyRule bank config P Q)
    {unifyPair : Nat → Nat → Substitution → Except Fault (Bool × Substitution)}
    (each : ∀ {t1 t2 subst unified subst'}, subst.ValidIn bank →
      unifyPair t1 t2 subst = .ok (unified, subst') →
      UnifyKeeps bank subst subst' ∧ P t1 t2 subst unified subst')
    {pairs : List (Nat × Nat)} {subst subst' : Substitution} {unified : Bool}
    (valid : subst.ValidIn bank) (run : unifyArgs unifyPair pairs subst = .ok (unified, subst')) :
    UnifyKeeps bank subst subst' ∧ Q pairs subst unified subst' := by
  induction pairs generalizing subst with
  | nil =>
      rcases Prod.mk.inj (Except.ok.inj run) with ⟨rfl, rfl⟩
      exact ⟨.refl valid, rule.nil valid⟩
  | cons pair rest ih =>
      rcases pair with ⟨a, b⟩
      rw [unifyArgs, bind_ok_iff] at run
      rcases run with ⟨⟨first, mid⟩, call, run⟩
      rcases each valid call with ⟨keeps, holds⟩
      cases first with
      | false =>
          rcases Prod.mk.inj (pure_ok_iff.mp run) with ⟨rfl, rfl⟩
          exact ⟨keeps, rule.fail keeps holds⟩
      | true =>
          rcases ih keeps.valid run with ⟨tailKeeps, tail⟩
          exact ⟨keeps.trans tailKeeps, rule.cons keeps tailKeeps holds tail⟩

theorem unify_rule (wf : bank.WellFormed) (rule : UnifyRule bank config P Q) {fuel t1 t2 : Nat}
    {subst subst' : Substitution} {unified : Bool} (valid : subst.ValidIn bank)
    (run : unify bank config fuel t1 t2 subst = .ok (unified, subst')) :
    UnifyKeeps bank subst subst' ∧ P t1 t2 subst unified subst' := by
  induction fuel generalizing t1 t2 subst unified subst' with
  | zero => cases run
  | succ fuel ih =>
      rw [unify, bind_ok_iff] at run
      rcases run with ⟨r1, walked1, run⟩
      rw [bind_ok_iff] at run
      rcases run with ⟨r2, walked2, run⟩
      have walk1 := resolve_walk walked1
      have walk2 := resolve_walk walked2
      -- one binding step, whichever side the variable is on
      have binding : ∀ {x r}, (Walk subst bank t1 x ∧ Walk subst bank t2 r ∨
          Walk subst bank t1 r ∧ Walk subst bank t2 x) → x ≠ r → bank.isVar x = true →
          bindVariable bank config fuel subst x r = .ok (unified, subst') →
          UnifyKeeps bank subst subst' ∧ P t1 t2 subst unified subst' := by
        intro x r walks differ isVar call
        have free : subst.find x = none := by
          rcases walks with ⟨walk, _⟩ | ⟨_, walk⟩ <;> exact walk.free isVar
        have inside : r < bank.size := by
          rcases walks with ⟨_, walk⟩ | ⟨walk, _⟩ <;> exact walk.valid
        rcases bindVariable_cases wf isVar free call with
          ⟨rfl, rfl, passed⟩ | ⟨rfl, rfl, on, hit⟩
        · exact ⟨⟨bind_validIn valid free isVar inside, bind_extends free r⟩,
            rule.bind valid walks differ isVar free passed⟩
        · exact ⟨.refl valid, rule.occurs valid walks differ isVar free on hit⟩
      by_cases same : r1 = r2
      · rw [if_pos same] at run
        subst same
        rcases Prod.mk.inj (pure_ok_iff.mp run) with ⟨rfl, rfl⟩
        exact ⟨.refl valid, rule.same valid walk1 walk2⟩
      rw [if_neg same, bind_ok_iff] at run
      rcases run with ⟨kind1, read1, run⟩
      rcases TermBank.isVariable_ok read1 with ⟨_, var1⟩
      cases kind1 with
      | true => exact binding (Or.inl ⟨walk1, walk2⟩) same var1 run
      | false =>
          simp only [Bool.false_eq_true, if_false, bind_ok_iff] at run
          rcases run with ⟨kind2, read2, run⟩
          rcases TermBank.isVariable_ok read2 with ⟨_, var2⟩
          cases kind2 with
          | true => exact binding (Or.inr ⟨walk1, walk2⟩) (Ne.symm same) var2 run
          | false =>
              simp only [Bool.false_eq_true, if_false, bind_ok_iff] at run
              rcases run with ⟨term1, got1, term2, got2, run⟩
              have entry1 := TermBank.getTerm_ok.mp got1
              have entry2 := TermBank.getTerm_ok.mp got2
              split at run
              · next differ =>
                  rcases Prod.mk.inj (pure_ok_iff.mp run) with ⟨rfl, rfl⟩
                  exact ⟨.refl valid,
                    rule.clash valid walk1 walk2 var1 var2 entry1 entry2 differ⟩
              · next agree =>
                  push Not at agree
                  rcases unifyArgs_rule rule (fun v call => ih v call) valid run with
                    ⟨keeps, tail⟩
                  exact ⟨keeps,
                    rule.args valid walk1 walk2 var1 var2 entry1 entry2 agree.1 agree.2
                    keeps tail⟩

end Rule

section Keeping

variable {bank : TermBank} {config : UnificationConfig}

theorem unifyRule_trivial (bank : TermBank) (config : UnificationConfig) :
    UnifyRule bank config (fun _ _ _ _ _ => True) (fun _ _ _ _ => True) := by
  constructor <;> intros <;> trivial

theorem unify_keeps (wf : bank.WellFormed) {fuel t1 t2 : Nat} {subst subst' : Substitution}
    {unified : Bool} (valid : subst.ValidIn bank)
    (run : unify bank config fuel t1 t2 subst = .ok (unified, subst')) :
    UnifyKeeps bank subst subst' :=
  (unify_rule wf (unifyRule_trivial bank config) valid run).1

theorem unifyArgs_keeps (wf : bank.WellFormed) {fuel : Nat} {pairs : List (Nat × Nat)}
    {subst subst' : Substitution} {unified : Bool} (valid : subst.ValidIn bank)
    (run : unifyArgs (unify bank config fuel) pairs subst = .ok (unified, subst')) :
    UnifyKeeps bank subst subst' :=
  (unifyArgs_rule (unifyRule_trivial bank config)
    (fun valid call => ⟨unify_keeps wf valid call, trivial⟩) valid run).1

/-- In a hash-consed pool equal trees are equal ids, so old bindings stay. -/
theorem UnifyKeeps.find (wf : bank.WellFormed) (shared : bank.HashConsed)
    {subst subst' : Substitution} (valid : subst.ValidIn bank)
    (keeps : UnifyKeeps bank subst subst') {x t : Nat} (found : subst.find x = some t) :
    subst'.find x = some t := by
  have kept := keeps.grows x _ (trees_some found)
  rcases Option.map_eq_some_iff.mp kept with ⟨t', found', same⟩
  have inside := (valid x t found).2
  have inside' := (keeps.valid x t' found').2
  rw [found', TermBank.tree_inj wf shared inside' inside same]

end Keeping

section Correctness

variable {bank : TermBank} {config : UnificationConfig}

theorem argPairs_eq {term1 term2 : Term} (small1 : term1.args.length ≤ 65535)
    (small2 : term2.args.length ≤ 65535) (arity : term1.arity = term2.arity) :
    term1.args.length = term2.args.length ∧
      argPairs term1 term2 = term1.args.zip term2.args := by
  have full1 : term1.arity = term1.args.length := Nat.mod_eq_of_lt (by omega)
  have full2 : term2.arity = term2.args.length := Nat.mod_eq_of_lt (by omega)
  have widths : term1.args.length = term2.args.length := by omega
  refine ⟨widths, ?_⟩
  rw [argPairs, full1, List.take_length, widths, List.take_length]

theorem zip_take_eq_of_map {α γ : Type*} {f : α → γ} {l1 l2 : List α}
    (same : l1.map f = l2.map f) {n : Nat} {p : α × α}
    (member : p ∈ (l1.take n).zip (l2.take n)) : f p.1 = f p.2 := by
  induction l1 generalizing l2 n with
  | nil => simp at member
  | cons a rest ih => cases l2 with
    | nil => cases same
    | cons b tail =>
        rw [List.map_cons, List.map_cons] at same
        rcases List.cons.inj same with ⟨first, later⟩
        cases n with
        | zero => simp at member
        | succ n =>
            simp only [List.take_succ_cons, List.zip_cons_cons, List.mem_cons] at member
            rcases member with rfl | member
            · exact first
            · exact ih later member

/-- The bindings of a successful call make both terms equal in every algebra. -/
theorem unify_sound (wf : bank.WellFormed) (small : bank.ArityBounded) {fuel t1 t2 : Nat}
    {subst subst' : Substitution} (valid : subst.ValidIn bank)
    (run : unify bank config fuel t1 t2 subst = .ok (true, subst')) {D : Type*}
    {func : Nat → List D → D} {assign : Nat → D}
    (solves : Solves func assign (subst'.trees bank)) :
    eval func assign (bank.tree t1) = eval func assign (bank.tree t2) := by
  have rule : UnifyRule bank config
      (fun t1 t2 _ unified subst' => unified = true → Solves func assign (subst'.trees bank) →
        eval func assign (bank.tree t1) = eval func assign (bank.tree t2))
      (fun pairs _ unified subst' => unified = true → Solves func assign (subst'.trees bank) →
        ∀ p ∈ pairs, eval func assign (bank.tree p.1) = eval func assign (bank.tree p.2)) := by
    constructor
    case same => exact fun _ walk1 walk2 _ solves =>
      (walk1.solves solves).trans (walk2.solves solves).symm
    case bind =>
      intro t1 t2 x r subst _ walks _ isVar free _ _ solves
      have old := (bind_extends free r).solves solves
      have bound : eval func assign (bank.tree x) = eval func assign (bank.tree r) := by
        rw [TermBank.tree_var isVar, eval_var]
        exact solves x _ (by rw [trees_bind free, Function.update_self])
      rcases walks with ⟨walk1, walk2⟩ | ⟨walk1, walk2⟩
      · rw [walk1.solves old, walk2.solves old, bound]
      · rw [walk1.solves old, walk2.solves old, bound]
    case occurs => exact fun _ _ _ _ _ _ _ h => by cases h
    case clash => exact fun _ _ _ _ _ _ _ _ h => by cases h
    case args =>
      intro t1 t2 r1 r2 term1 term2 subst unified subst' _ walk1 walk2 var1 var2 entry1 entry2
        symbols arity keeps inner ok solves
      have old := keeps.grows.solves solves
      have full := argPairs_eq (small _ _ entry1) (small _ _ entry2) arity
      have children := inner ok solves
      rw [full.2] at children
      rw [walk1.solves old, walk2.solves old, TermBank.tree_node wf entry1 var1,
        TermBank.tree_node wf entry2 var2, eval_node, eval_node, symbols, List.map_map,
        List.map_map]
      exact congrArg _ (map_eq_of_zip full.1 children)
    case nil => exact fun _ _ _ _ member => by cases member
    case fail => exact fun _ _ h => by cases h
    case cons =>
      intro a b rest subst mid subst' unified _ tail first later ok solves p member
      rcases List.mem_cons.mp member with rfl | inside
      · exact first rfl (tail.grows.solves solves)
      · exact later ok solves p inside
  exact (unify_rule wf rule valid run).2 rfl solves

/-- The unifier misses no solution in the algebra: equal nodes have equal parts, and
what the occurs check rejects has no solution. -/
structure CompleteIn {D : Type*} (config : UnificationConfig) (func : Nat → List D → D) :
    Prop where
  free : Free func
  parts : config.enableOccursCheck = true → PartsDiffer Nat func

theorem node_completeIn (config : UnificationConfig) {W : Type} :
    CompleteIn config (node (F := Nat) (V := W)) :=
  ⟨free_node, fun _ => node_partsDiffer⟩

theorem CompleteIn.unchecked (off : config.enableOccursCheck = false) {D : Type*}
    {func : Nat → List D → D} (free : Free func) : CompleteIn config func :=
  ⟨free, fun on => absurd (off.symm.trans on) Bool.false_ne_true⟩

/-- Where the unifier misses nothing, a returning call succeeds on terms that some
assignment makes equal, and the assignment respects the new bindings too. -/
theorem unify_complete {D : Type*} {func : Nat → List D → D} (wf : bank.WellFormed)
    (complete : CompleteIn config func) {fuel t1 t2 : Nat} {subst subst' : Substitution}
    {unified : Bool} (valid : subst.ValidIn bank)
    (run : unify bank config fuel t1 t2 subst = .ok (unified, subst')) {assign : Nat → D}
    (solves : Solves func assign (subst.trees bank))
    (equal : eval func assign (bank.tree t1) = eval func assign (bank.tree t2)) :
    unified = true ∧ Solves func assign (subst'.trees bank) := by
  have rule : UnifyRule bank config
      (fun t1 t2 subst unified subst' => Solves func assign (subst.trees bank) →
        eval func assign (bank.tree t1) = eval func assign (bank.tree t2) →
        unified = true ∧ Solves func assign (subst'.trees bank))
      (fun pairs subst unified subst' => Solves func assign (subst.trees bank) →
        (∀ p ∈ pairs, eval func assign (bank.tree p.1) = eval func assign (bank.tree p.2)) →
        unified = true ∧ Solves func assign (subst'.trees bank)) := by
    -- the representatives reached by the walks have equal values as well
    have ends : ∀ {t1 t2 r1 r2 : Nat} {subst : Substitution},
        Solves func assign (subst.trees bank) →
        eval func assign (bank.tree t1) = eval func assign (bank.tree t2) →
        (Walk subst bank t1 r1 ∧ Walk subst bank t2 r2 ∨
          Walk subst bank t1 r2 ∧ Walk subst bank t2 r1) →
        eval func assign (bank.tree r1) = eval func assign (bank.tree r2) := by
      intro t1 t2 r1 r2 subst solves equal walks
      rcases walks with ⟨walk1, walk2⟩ | ⟨walk1, walk2⟩
      · exact (walk1.solves solves).symm.trans (equal.trans (walk2.solves solves))
      · exact (walk2.solves solves).symm.trans (equal.symm.trans (walk1.solves solves))
    -- equal values of two nodes have equal heads and equal arguments
    have nodes : ∀ {t1 t2 r1 r2 : Nat} {term1 term2 : Term} {subst : Substitution},
        Walk subst bank t1 r1 → Walk subst bank t2 r2 → bank.isVar r1 = false →
        bank.isVar r2 = false → bank.terms[r1]? = some term1 → bank.terms[r2]? = some term2 →
        Solves func assign (subst.trees bank) →
        eval func assign (bank.tree t1) = eval func assign (bank.tree t2) →
        term1.symbolId = term2.symbolId ∧ term1.args.map (eval func assign ∘ bank.tree) =
          term2.args.map (eval func assign ∘ bank.tree) := by
      intro t1 t2 r1 r2 term1 term2 subst walk1 walk2 var1 var2 entry1 entry2 solves equal
      have value := ends solves equal (Or.inl ⟨walk1, walk2⟩)
      rw [TermBank.tree_node wf entry1 var1, TermBank.tree_node wf entry2 var2, eval_node,
        eval_node, List.map_map, List.map_map] at value
      exact complete.free _ _ _ _ value
    constructor
    case same => exact fun _ _ _ solves _ => ⟨rfl, solves⟩
    case bind =>
      intro t1 t2 x r subst _ walks _ isVar free _ solves equal
      refine ⟨rfl, fun y t bound => ?_⟩
      have value := ends solves equal walks
      rw [TermBank.tree_var isVar] at value
      rw [trees_bind free] at bound
      by_cases atX : y = x
      · subst atX
        rw [Function.update_self] at bound
        rw [← Option.some.inj bound]
        simpa using value
      · rw [Function.update_of_ne atX] at bound
        exact solves y t bound
    -- a variable cannot take the value of a larger tree that contains it
    case occurs =>
      intro t1 t2 x r subst _ walks differ isVar free on inside solves equal
      have value := ends solves equal walks
      rw [TermBank.tree_var isVar] at value
      have reachR : r < bank.size ∧ (bank.isVar r = true → subst.find r = none) := by
        rcases walks with ⟨_, walk⟩ | ⟨walk, _⟩ <;> exact ⟨walk.valid, walk.free⟩
      rcases TermBank.tree_cases wf reachR.1 with ⟨varR, atom⟩ | ⟨t, _, _, _, node⟩
      · rw [atom] at inside
        exact absurd ((occursUnder_free (reachR.2 varR)).mp inside) differ
      · rw [node] at inside value
        rw [eval_var] at value
        exact absurd value (complete.parts on _ _ _ _ _ solves inside)
    case clash =>
      intro t1 t2 r1 r2 term1 term2 subst _ walk1 walk2 var1 var2 entry1 entry2 differ solves equal
      have value := nodes walk1 walk2 var1 var2 entry1 entry2 solves equal
      have widths : term1.args.length = term2.args.length := by
        simpa using congrArg List.length value.2
      rcases differ with symbols | arity
      · exact absurd value.1 symbols
      · exact absurd (congrArg toUInt16 widths) arity
    case args =>
      intro t1 t2 r1 r2 term1 term2 subst unified subst' _ walk1 walk2 var1 var2 entry1 entry2
        _ _ _ inner solves equal
      have value := nodes walk1 walk2 var1 var2 entry1 entry2 solves equal
      exact inner solves fun p member => zip_take_eq_of_map value.2 member
    case nil => exact fun _ solves _ => ⟨rfl, solves⟩
    case fail =>
      intro a b rest subst subst' _ first solves equal
      exact absurd (first solves (equal (a, b) List.mem_cons_self)).1 Bool.false_ne_true
    case cons =>
      intro a b rest subst mid subst' unified _ _ first later solves equal
      have mid := (first solves (equal (a, b) List.mem_cons_self)).2
      exact later mid fun p member => equal p (List.mem_cons_of_mem _ member)
  exact (unify_rule wf rule valid run).2 solves equal

theorem empty_validIn (bank : TermBank) : ({} : Substitution).ValidIn bank :=
  fun _ _ found => by cases found

theorem empty_wellFounded (bank : TermBank) :
    WellFounded (Feeds (({} : Substitution).trees bank)) :=
  ⟨fun x => .intro x fun _ ⟨_, bound, _⟩ => by cases bound⟩

end Correctness

section Application

/-- A returning application yields the id of the fully resolved tree and only
adds terms to the pool. -/
structure AppliedTo (subst : Substitution) (bank : TermBank) (term term' : Nat)
    (bank' : TermBank) : Prop where
  grows : bank.Grows bank'
  symbols : bank'.symbols = bank.symbols
  valid : term' < bank'.size
  tree : Applied (subst.trees bank) (bank.tree term) (bank'.tree term')

theorem applySubstitution_spec {subst : Substitution} {fuel term term' : Nat}
    {bank bank' : TermBank} (wf : bank.WellFormed) (valid : subst.ValidIn bank)
    (run : applySubstitution subst fuel term bank = .ok (term', bank')) :
    AppliedTo subst bank term term' bank' := by
  induction fuel generalizing term term' bank bank' with
  | zero => cases run
  | succ fuel ih =>
      rw [applySubstitution, bind_ok_iff] at run
      rcases run with ⟨last, walked, run⟩
      have walk := resolve_walk walked
      rw [bind_ok_iff] at run
      rcases run with ⟨kind, read, run⟩
      rcases TermBank.isVariable_ok read with ⟨inside, isVar⟩
      cases kind with
      | true =>
          rcases Prod.mk.inj (pure_ok_iff.mp run) with ⟨rfl, rfl⟩
          refine ⟨.refl bank, rfl, inside, walk.applied ?_⟩
          rw [TermBank.tree_var isVar]
          exact .free (trees_none.mpr (walk.free isVar))
      | false =>
          simp only [Bool.false_eq_true, if_false, bind_ok_iff, Prod.exists] at run
          rcases run with ⟨t, got, newArgs, mid, loop, run⟩
          have entry := TermBank.getTerm_ok.mp got
          have below := wf.args_lt entry
          -- the argument loop keeps the pool in order and resolves each argument
          have args := mapAccum_rule
            (fun b => b.WellFormed ∧ bank.Grows b ∧ b.symbols = bank.symbols)
            (fun b b' => b.Grows b')
            (fun b arg new => b.WellFormed ∧ new < b.size ∧
              Applied (subst.trees bank) (bank.tree arg) (b.tree new))
            TermBank.Grows.refl TermBank.Grows.trans
            (fun grows done =>
              ⟨grows.wf done.1, Nat.lt_of_lt_of_le done.2.1 grows.grows.size_le, by
              rw [TermBank.tree_extends done.1 (grows.wf done.1) grows.grows done.2.1]
              exact done.2.2⟩)
            (fun arg member b new b' start call => by
              rcases start with ⟨bWf, grown, symbols⟩
              have step := ih bWf (valid.mono wf grown.grows) call
              have old : arg < bank.size := Nat.lt_trans (below arg member) inside
              have tree := step.tree
              rw [trees_extends valid wf bWf grown.grows,
                TermBank.tree_extends wf bWf grown.grows old] at tree
              exact ⟨⟨step.grows.wf bWf, grown.trans step.grows, step.symbols.trans symbols⟩,
                step.grows, step.grows.wf bWf, step.valid, tree⟩)
            ⟨wf, .refl bank, rfl⟩ loop
          rcases args with ⟨⟨midWf, grown, symbols⟩, _, resolved⟩
          have widths := resolved.length_eq
          -- the loop interns no symbol, so the head is still no variable
          have kinds : mid.symbols.isVar t.symbolId = false := by
            rw [symbols, ← TermBank.isVar_term entry, isVar]
          have newValid : ∀ a ∈ newArgs, a < mid.size := by
            intro a member
            rcases List.getElem_of_mem member with ⟨i, hi, rfl⟩
            exact (List.Forall₂.get resolved (by omega) hi).2.1
          have made := TermBank.makeTerm_wellFormed midWf t.symbolId newArgs
            (by rw [symbols]; exact wf.symbol_valid entry) newValid
            (fun h => by rw [kinds] at h; cases h)
          have growsLast : bank.Grows (mid.makeTerm t.symbolId newArgs).2 :=
            ⟨grown.grows.trans (TermBank.makeTerm_extends _ _ _), fun _ => made,
              fun shared => TermBank.makeTerm_hashConsed (grown.shared shared) _ _,
              fun small => TermBank.makeTerm_arityBounded (grown.small small) _ _
                (widths ▸ small _ _ entry)⟩
          have entry' := TermBank.makeTerm_term midWf.toIndexSound t.symbolId newArgs
          have extends' := TermBank.makeTerm_extends mid t.symbolId newArgs
          have symbols' := (TermBank.makeTerm_symbols mid t.symbolId newArgs).trans symbols
          have out : mid.makeTerm t.symbolId newArgs = (term', bank') := pure_ok_iff.mp run
          rw [out] at made growsLast entry' extends' symbols'
          have notVar : bank'.isVar term' = false := by
            rw [TermBank.isVar_term entry', symbols', ← symbols, kinds]
          refine ⟨growsLast, symbols', (List.getElem?_eq_some_iff.mp entry').1, walk.applied ?_⟩
          rw [TermBank.tree_node wf entry isVar, TermBank.tree_node made entry' notVar]
          apply Applied.node_forall₂
          rw [List.forall₂_map_left_iff, List.forall₂_map_right_iff]
          refine resolved.imp fun arg new done => ?_
          rw [TermBank.tree_extends midWf made extends' done.2.1]
          exact done.2.2

end Application

end AtpEngine
