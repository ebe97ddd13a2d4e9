import AtpEngine.SearchSettles
import Mathlib.Data.Fintype.Powerset
import Mathlib.Order.CompletePartialOrder
import Mathlib.Order.UpperLower.Closure

/-!
Search on ground clauses, those without variables. No name is made for them and no
binding, and a new clause has literals of its premises only: finitely many, in
clauses of any length. Inclusion of literal sets together with the length test is
then a well-quasi-order, so a search whose limits are high enough decides the
question, for every comparator and with or without the occurs check.
-/
namespace AtpEngine

open Fuelled ClauseLogic TermTree Triangular

universe u

section Ground

variable {F V : Type}

def GroundLits (lits : Literals F V) : Prop := ∀ x, ¬ VarOf x lits

theorem GroundLits.sublist {lits rest : Literals F V} (ground : GroundLits lits)
    (inside : ∀ lit ∈ rest, lit ∈ lits) : GroundLits rest := by
  rintro x ⟨lit, member, occurs⟩
  exact ground x ⟨lit, inside lit member, occurs⟩

theorem applied_ground {σ : Bindings F V} {lits lits' : Literals F V} (ground : GroundLits lits)
    (applied : AppliedClause σ lits lits') : lits' = lits := by
  induction applied with
  | nil => rfl
  | @cons lit lit' lits lits' first _ ih =>
      have closed : ∀ x, Occurs x lit.1 → σ x = none := fun x occurs =>
        absurd ⟨lit, List.mem_cons_self, occurs⟩ (ground x)
      have same := applied_unique first.2 (applied_self _ closed)
      rw [Prod.ext same first.1, ih (ground.sublist fun _ => List.mem_cons_of_mem _)]

end Ground

section Unifying

variable {bank : TermBank} {config : UnificationConfig}

theorem TermBank.closed_isVar {id : Nat} (closed : ∀ x, ¬ Occurs x (bank.tree id)) :
    bank.isVar id = false := by
  cases isVar : bank.isVar id with
  | false => rfl
  | true =>
      have leaf := TermBank.tree_var isVar
      exact absurd (leaf ▸ occurs_var.mpr rfl) (closed id)

theorem Substitution.Walk.closed {subst : Substitution} {id last : Nat}
    (walk : Walk subst bank id last) (closed : ∀ x, ¬ Occurs x (bank.tree id)) : last = id := by
  cases walk with
  | stop _ _ => rfl
  | step isVar _ _ =>
      rw [TermBank.closed_isVar closed] at isVar
      cases isVar

/-- Only variables are bound, so between ground terms no cycle closes. -/
theorem ClosesCycle.not_closed (wf : bank.WellFormed) {t1 t2 : Nat} {subst : Substitution}
    (closed1 : ∀ x, ¬ Occurs x (bank.tree t1)) (closed2 : ∀ x, ¬ Occurs x (bank.tree t2)) :
    ¬ ClosesCycle bank config t1 t2 subst := by
  intro cycle
  induction cycle with
  | bind walks _ isVar _ =>
      rcases walks with ⟨walk, _⟩ | ⟨_, walk⟩
      · rcases walk.closed closed1 with rfl
        rw [TermBank.closed_isVar closed1] at isVar
        cases isVar
      · rcases walk.closed closed2 with rfl
        rw [TermBank.closed_isVar closed2] at isVar
        cases isVar
  | @args _ _ _ _ a b _ _ _ before after _ _ walk1 walk2 var1 var2 entry1 entry2 _ _ split _ _ ih =>
      rcases walk1.closed closed1 with rfl
      rcases walk2.closed closed2 with rfl
      have paired : (a, b) ∈ argPairs _ _ :=
        split ▸ List.mem_append_right before List.mem_cons_self
      rcases List.of_mem_zip paired with ⟨left, right⟩
      rw [TermBank.tree_node wf entry1 var1] at closed1
      rw [TermBank.tree_node wf entry2 var2] at closed2
      exact ih
        (fun x occurs => closed1 x (occurs_node.mpr
          ⟨_, List.mem_map.mpr ⟨a, List.mem_of_mem_take left, rfl⟩, occurs⟩))
        (fun x occurs => closed2 x (occurs_node.mpr
          ⟨_, List.mem_map.mpr ⟨b, List.mem_of_mem_take right, rfl⟩, occurs⟩))

end Unifying

section Inferences

variable {order : VariableOrder} {uconfig : UnificationConfig} {fuel : Nat} {env env' : Env}
  {inf : Inference}

theorem GroundLits.atom {bank : TermBank} {lits : List Literal}
    (ground : GroundLits (bank.read lits)) {i : Nat} {lit : Literal} (at_i : lits[i]? = some lit)
    (x : Nat) : ¬ Occurs x (bank.tree lit.atom) := fun occurs =>
  ground x ⟨(bank.tree lit.atom, lit.isPositive),
    List.mem_map.mpr ⟨lit, List.mem_of_getElem? at_i, rfl⟩, occurs⟩

theorem renameVariables_ground {c c' : Clause} (wf : env.bank.WellFormed)
    (ground : GroundLits (env.bank.read c.literals))
    (run : renameVariables order fuel c env = .ok (c', env')) : c' = c ∧ env' = env := by
  rcases renameVariables_cases wf run with ⟨same, same', _⟩ |
    ⟨vars, _, _, _, _, _, listed, nonempty, _⟩
  · exact ⟨same, same'⟩
  · rcases List.exists_mem_of_ne_nil vars nonempty with ⟨x, member⟩
    exact absurd ((listed x).mp member) (ground x)

theorem Inferred.ground {bank bank' : TermBank} {atom1 atom2 : Nat} {rest lits : List Literal}
    (ground : GroundLits (bank.read rest))
    (inferred : Inferred uconfig bank atom1 atom2 rest (some lits) bank') :
    bank'.read lits = bank.read rest := by
  cases inferred with
  | succeeds _ _ applied => exact applied_ground ground applied.applied

/-- The literals of a clause inferred from ground clauses are literals of its premises. -/
theorem perform_ground {r : Clause} (wf : env.bank.WellFormed) (valid : inf.ValidIn env.bank)
    (ground : ∀ prem ∈ inf.premises, GroundLits (env.bank.read prem.literals))
    (run : inf.perform order uconfig fuel env = .ok (some r, env')) :
    ∀ lit ∈ env'.bank.read r.literals,
      ∃ prem ∈ inf.premises, lit ∈ env.bank.read prem.literals := by
  cases inf with
  | resolve c1 i c2 j =>
      have ground1 := ground c1 (by simp [Inference.premises])
      have ground2 := ground c2 (by simp [Inference.premises])
      have outcome := resolve_outcome wf (valid c1 (by simp [Inference.premises]))
        (valid c2 (by simp [Inference.premises])) run
      generalize isSome : some r = out at outcome
      cases outcome with
      | samePolarity _ _ _ => cases isSome
      | @opposite _ _ c2r mid _ _ _ _ _ _ _ rename _ _ inferred =>
          rcases Option.map_eq_some_iff.mp isSome.symm with ⟨lits, rfl, rfl⟩
          rcases renameVariables_ground wf ground2 rename with ⟨sameClause, sameEnv⟩
          subst c2r mid
          have kept : ∀ lit ∈ env.bank.read (c1.literals.eraseIdx i ++ c2.literals.eraseIdx j),
              lit ∈ env.bank.read c1.literals ∨ lit ∈ env.bank.read c2.literals := by
            rw [TermBank.read_append, TermBank.read_eraseIdx, TermBank.read_eraseIdx]
            intro lit member
            exact (List.mem_append.mp member).imp (fun left => List.eraseIdx_subset left)
              fun right => List.eraseIdx_subset right
          have rest : GroundLits
              (env.bank.read (c1.literals.eraseIdx i ++ c2.literals.eraseIdx j)) := by
            rintro x ⟨lit, member, occurs⟩
            rcases kept lit member with left | right
            · exact ground1 x ⟨lit, left, occurs⟩
            · exact ground2 x ⟨lit, right, occurs⟩
          rw [Inference.conclusion_literals, inferred.ground rest]
          intro lit member
          rcases kept lit member with left | right
          · exact ⟨c1, by simp [Inference.premises], left⟩
          · exact ⟨c2, by simp [Inference.premises], right⟩
  | factor c i j =>
      have groundC := ground c (by simp [Inference.premises])
      have outcome := factorPair_outcome wf (valid c (by simp [Inference.premises])) run
      generalize isSome : some r = out at outcome
      cases outcome with
      | opposite _ _ _ => cases isSome
      | samePolarity _ _ _ inferred =>
          rcases Option.map_eq_some_iff.mp isSome.symm with ⟨lits, rfl, rfl⟩
          have kept : ∀ lit ∈ env.bank.read (c.literals.eraseIdx j),
              lit ∈ env.bank.read c.literals := by
            rw [TermBank.read_eraseIdx]
            exact fun lit member => List.eraseIdx_subset member
          rw [Inference.conclusion_literals, inferred.ground (groundC.sublist kept)]
          exact fun lit member => ⟨c, by simp [Inference.premises], kept lit member⟩

/-- In a hash-consed pool these are the same ids. -/
theorem perform_ground_literals {r : Clause} (wf : env.bank.WellFormed)
    (shared : env.bank.HashConsed) (valid : inf.ValidIn env.bank)
    (ground : ∀ prem ∈ inf.premises, GroundLits (env.bank.read prem.literals))
    (run : inf.perform order uconfig fuel env = .ok (some r, env')) :
    ∀ lit ∈ r.literals, ∃ prem ∈ inf.premises, lit ∈ prem.literals := by
  intro lit member
  have performed := perform_performed wf valid run
  have grows := performed.grows.bank
  rcases performed.built r rfl with ⟨_, _, built⟩
  rcases perform_ground wf valid ground run _ (List.mem_map.mpr ⟨lit, member, rfl⟩) with
    ⟨prem, isPremise, inside⟩
  rcases List.mem_map.mp inside with ⟨old, isOld, same⟩
  rcases Prod.mk.inj same with ⟨trees, polarity⟩
  have below := valid prem isPremise old isOld
  rw [← TermBank.tree_extends wf (grows.wf wf) grows.grows below] at trees
  have atoms := TermBank.tree_inj (grows.wf wf) (grows.shared shared)
    (Nat.lt_of_lt_of_le below grows.grows.size_le) (built lit member) trees
  have parts : ∀ l m : Literal, l.atom = m.atom → l.isPositive = m.isPositive → l = m := by
    rintro ⟨⟩ ⟨⟩ rfl rfl
    rfl
  exact ⟨prem, isPremise, parts _ _ atoms polarity ▸ isOld⟩

theorem Inference.namesFree_of_ground (wf : env.bank.WellFormed)
    (ground : ∀ prem ∈ inf.premises, GroundLits (env.bank.read prem.literals)) :
    inf.NamesFree env := by
  cases inf with
  | factor c i j => trivial
  | resolve c1 i c2 j =>
      intro fuel vars collected k later below
      have none : vars = [] := List.eq_nil_iff_forall_not_mem.mpr fun x member =>
        ground c2 (by simp [Inference.premises]) x (((varSet_spec wf collected).1 x).mp member)
      rw [none, List.length_nil] at below
      omega

theorem Inference.ClosesCycle.not_ground (wf : env.bank.WellFormed)
    (ground : ∀ prem ∈ inf.premises, GroundLits (env.bank.read prem.literals)) :
    ¬ inf.ClosesCycle order uconfig env := by
  intro cycle
  cases cycle with
  | @resolve c1 c2 _ _ _ _ _ _ _ _ _ at_i _ _ rename at_j' inner =>
      have ground2 := ground c2 (by simp [Inference.premises])
      rcases renameVariables_ground wf ground2 rename with ⟨rfl, rfl⟩
      exact inner.not_closed wf ((ground c1 (by simp [Inference.premises])).atom at_i)
        (ground2.atom at_j')
  | @factor c _ _ _ _ _ at_i at_j _ inner =>
      have groundC := ground c (by simp [Inference.premises])
      exact inner.not_closed wf (groundC.atom at_i) (groundC.atom at_j)

end Inferences

section Calls

variable {runtime : Runtime} {config : ProverConfig} {initial : List Clause} {first env : Env}
  {start : Prover} {inf : Inference}

theorem CallMade.ground (wf : first.bank.WellFormed)
    (valid : ∀ c ∈ initial, c.ValidIn first.bank)
    (ground : ∀ c ∈ initial, GroundLits (first.bank.read c.literals))
    (structured : StoreInv initial start)
    (init : ∀ fuel, RunInv runtime config fuel initial first start)
    (call : CallMade runtime config start inf env) :
    ∀ prem ∈ inf.premises, GroundLits (env.bank.read prem.literals) := by
  rcases call.stored wf structured init with ⟨fuel, p, inv, grown, _, stored⟩
  have wfP := inv.grows.bank.wf wf
  intro prem isPrem
  rcases stored prem isPrem with ⟨k, entry⟩
  rw [TermBank.read_extends wfP (grown.bank.wf wfP) grown.bank.grows (inv.valid k prem entry)]
  refine inv.rule wf (fun c0 member => ?_) (fun _ wfE validE _ premises run => ?_) k entry
  · rw [TermBank.read_extends wf wfP inv.grows.bank.grows (valid c0 member)]
    exact ground c0 member
  · rintro x ⟨lit, member, occurs⟩
    rcases perform_ground wfE validE premises run lit member with ⟨old, isOld, inside⟩
    exact premises old isOld x ⟨lit, inside, occurs⟩

end Calls

section Turns

variable {runtime : Runtime} {config : ProverConfig} {fuel : Nat} {initial : List Clause}
  {p p' : Prover}

def LiteralsOf (initial : List Clause) (c : Clause) : Prop :=
  ∀ lit ∈ c.literals, ∃ c0 ∈ initial, lit ∈ c0.literals

/-- What holds at every head of the loop of a search on ground clauses. -/
structure GroundInv (initial : List Clause) (p : Prover) : Prop where
  structured : StoreInv initial p
  wf : p.env.bank.WellFormed
  shared : p.env.bank.HashConsed
  valid : ∀ c ∈ initial, c.ValidIn p.env.bank
  ground : ∀ c ∈ initial, GroundLits (p.env.bank.read c.literals)
  literals : ∀ c ∈ p.store.clauses, LiteralsOf initial c

theorem LiteralsOf.valid {bank : TermBank} {c : Clause} (known : LiteralsOf initial c)
    (valid : ∀ c0 ∈ initial, c0.ValidIn bank) : c.ValidIn bank := by
  intro lit member
  rcases known lit member with ⟨c0, isInitial, inside⟩
  exact valid c0 isInitial lit inside

theorem LiteralsOf.ground {bank : TermBank} {c : Clause} (known : LiteralsOf initial c)
    (ground : ∀ c0 ∈ initial, GroundLits (bank.read c0.literals)) :
    GroundLits (bank.read c.literals) := by
  rintro x ⟨_, member, occurs⟩
  rcases List.mem_map.mp member with ⟨lit, isLit, rfl⟩
  rcases known lit isLit with ⟨c0, isInitial, inside⟩
  exact ground c0 isInitial x ⟨_, List.mem_map.mpr ⟨lit, inside, rfl⟩, occurs⟩

theorem GroundInv.generation (inv : GroundInv initial p) {given : Clause} {kept : List ClauseId}
    {pcs : List Clause} {outs : List (Option Clause)} {env' : Env}
    (given_held : p.store.find given.id = some given) (held : p.store.Holds kept pcs)
    (calls : mapAccum (Inference.perform runtime.order config.uconfig fuel) (inferences given pcs)
      p.env = .ok (outs, env')) :
    p.env.bank.Grows env'.bank ∧ ∀ r ∈ outs.reduceOption, LiteralsOf initial r := by
  have stored : ∀ inf ∈ inferences given pcs, ∀ prem ∈ inf.premises,
      prem ∈ p.store.clauses := by
    intro inf member prem isPremise
    rcases inv.structured.premises given_held held member prem isPremise with ⟨k, _, _, entry⟩
    exact List.mem_of_getElem? entry
  rcases mapAccum_rule (fun env : Env => p.env.bank.Grows env.bank) (fun _ _ => True)
    (fun _ (_ : Inference) out => ∀ r, out = some r → LiteralsOf initial r)
    (fun _ => trivial) (fun _ _ => trivial) (fun _ made => made)
    (fun inf member env out env' grown run => by
      have wf := grown.wf inv.wf
      have premises : ∀ prem ∈ inf.premises, LiteralsOf initial prem := fun prem isPremise =>
        inv.literals prem (stored inf member prem isPremise)
      have valid : inf.ValidIn env.bank := fun prem isPremise =>
        ((premises prem isPremise).valid inv.valid).mono grown.grows
      have ground : ∀ prem ∈ inf.premises, GroundLits (env.bank.read prem.literals) := by
        intro prem isPremise
        rw [TermBank.read_extends inv.wf wf grown.grows ((premises prem isPremise).valid inv.valid)]
        exact (premises prem isPremise).ground inv.ground
      refine ⟨grown.trans (perform_performed wf valid run).grows.bank, trivial,
        fun r isSome => ?_⟩
      subst isSome
      intro lit inside
      rcases perform_ground_literals wf (grown.shared inv.shared) valid ground run lit inside with
        ⟨prem, isPremise, old⟩
      exact premises prem isPremise lit old)
    (.refl _) calls with ⟨grown, _, each⟩
  refine ⟨grown, fun r member => ?_⟩
  rcases forall₂_mem_right each (List.reduceOption_mem_iff.mp member) with ⟨inf, _, made⟩
  exact made r rfl

theorem Absorbed.mem_store {nc c : Clause} {d : Option ClauseId}
    (absorbed : Absorbed runtime config nc p d p') (stored : c ∈ p'.store.clauses) :
    c ∈ p.store.clauses ∨ c.literals = nc.literals := by
  have new : ∀ {depth : Nat}, c ∈ (p.store.addClause { nc with depth }).2.clauses →
      c ∈ p.store.clauses ∨ c.literals = nc.literals := fun stored => by
    rcases List.mem_append.mp stored with old | last
    · exact Or.inl old
    · exact Or.inr (by rw [List.mem_singleton.mp last])
  cases absorbed with
  | tautology _ _ => exact Or.inl stored
  | empty _ => exact new stored
  | subsumed _ _ _ _ _ _ => exact new stored
  | waiting _ _ _ _ => exact new stored

theorem GroundInv.turned (inv : GroundInv initial p) {given : Clause} {unprocessed : List Clause}
    {calls : List (Inference × Option Clause)}
    (popped : runtime.queue.pop config.comparator p.unprocessed = some (given, unprocessed))
    (iterated : Iterated runtime config fuel given { p with unprocessed } (none, p') calls) :
    GroundInv initial p' := by
  rcases inv.structured.pop popped with ⟨popStore, held⟩
  have structured := (popStore.iterated held iterated).1
  have taken : GroundInv initial { p with unprocessed } :=
    ⟨popStore, inv.wf, inv.shared, inv.valid, inv.ground, inv.literals⟩
  rcases iterated.continues with
    ⟨rfl, _, _⟩ | ⟨kept, pcs, outs, env', generates, run, process, _⟩
  · exact taken
  · rcases taken.generation held generates.held run with ⟨grown, made⟩
    have env : p'.env = env' := (processNewClauses_frame process).1
    have literals : ∀ c ∈ p'.store.clauses, LiteralsOf initial c := by
      refine (processNewClauses_rule
        (fun q => ∀ c ∈ q.store.clauses, LiteralsOf initial c) (fun _ _ => True)
        (fun nc member q d q' before absorbed => ⟨fun c stored => ?_, trivial, fun _ h => h⟩)
        ?_ process).1
      · rcases absorbed.mem_store stored with old | same
        · exact before c old
        · rw [LiteralsOf, same]
          exact made nc member
      · exact inv.literals
    subst env
    refine ⟨structured, grown.wf inv.wf, grown.shared inv.shared,
      fun c member => (inv.valid c member).mono grown.grows, fun c member => ?_, literals⟩
    rw [TermBank.read_extends inv.wf (grown.wf inv.wf) grown.grows (inv.valid c member)]
    exact inv.ground c member

end Turns

section Measure

variable {runtime : Runtime} {config : ProverConfig} {fuel : Nat} {initial : List Clause}
  {p p' : Prover}

abbrev InitialLiteral (initial : List Clause) :=
  { lit : Literal // ∃ c0 ∈ initial, lit ∈ c0.literals }

theorem initialLiteral_finite (initial : List Clause) : Finite (InitialLiteral initial) := by
  refine ((initial.flatMap (·.literals)).finite_toSet.subset fun lit known => ?_).to_subtype
  rcases known with ⟨c0, member, inside⟩
  exact List.mem_flatMap.mpr ⟨c0, member, inside⟩

/-- What subsumption compares: the literals of a clause, and its length. -/
def Clause.rank (initial : List Clause) (c : Clause) : Set (InitialLiteral initial) × Nat :=
  ({lit | lit.1 ∈ c.literals}, c.size)

theorem subsumes_iff_rank {general specific : Clause} (known : LiteralsOf initial general) :
    subsumes general specific = true ↔ general.rank initial ≤ specific.rank initial := by
  rw [subsumes_iff, and_comm]
  refine and_congr_left fun _ => ⟨fun sub lit member => sub member, fun sub lit member => ?_⟩
  exact sub (show (⟨lit, known lit member⟩ : InitialLiteral initial) ∈ _ from member)

def Prover.covers (initial : List Clause) (p : Prover) :
    UpperSet (Set (InitialLiteral initial) × Nat) :=
  upperClosure {rank | ∃ pid ∈ p.processed, ∃ c, p.store.find pid = some c ∧
    rank = c.rank initial}

theorem Prover.mem_covers {rank : Set (InitialLiteral initial) × Nat} :
    rank ∈ p.covers initial ↔
    ∃ pid ∈ p.processed, ∃ c, p.store.find pid = some c ∧ c.rank initial ≤ rank := by
  rw [Prover.covers, mem_upperClosure]
  constructor
  · rintro ⟨_, ⟨pid, member, c, found, rfl⟩, above⟩
    exact ⟨pid, member, c, found, above⟩
  · rintro ⟨pid, member, c, found, above⟩
    exact ⟨_, ⟨pid, member, c, found, rfl⟩, above⟩

/-- A turn shortens the queue, or more ranks are covered after it. -/
theorem GroundInv.decreases (inv : GroundInv initial p) {given : Clause} {unprocessed : List Clause}
    {calls : List (Inference × Option Clause)}
    (popped : runtime.queue.pop config.comparator p.unprocessed = some (given, unprocessed))
    (iterated : Iterated runtime config fuel given { p with unprocessed } (none, p') calls) :
    Prod.Lex (· < ·) (· < ·) (p'.covers initial, p'.unprocessed.length)
      (p.covers initial, p.unprocessed.length) := by
  rcases inv.structured.pop popped with ⟨popStore, held⟩
  have literals : ∀ {id c}, p.store.find id = some c → LiteralsOf initial c := by
    intro id c found
    rcases ClauseStore.find_iff.mp found with ⟨k, _, entry⟩
    exact inv.literals c (List.mem_of_getElem? entry)
  rcases iterated.continues with
    ⟨rfl, _, _⟩ | ⟨kept, pcs, outs, env', generates, run, process, _⟩
  · have shorter := (runtime.queue.pop_perm _ _ _ _ popped).length_eq
    rw [List.length_cons] at shorter
    exact Prod.Lex.right _ (by simp only; omega)
  · rcases processNewClauses_frame process with ⟨_, processed, grows⟩
    have find : ∀ {id c}, p.store.find id = some c → p'.store.find id = some c :=
      fun found => ClauseStore.find_prefix grows found
    have isNew : given.rank initial ∈ p'.covers initial := Prover.mem_covers.mpr
      ⟨given.id, by rw [processed]; simp, given, find held, le_refl _⟩
    have isOld : given.rank initial ∉ p.covers initial := by
      intro covered
      rcases Prover.mem_covers.mp covered with ⟨pid, member, c, found, below⟩
      rcases generates.unsubsumed pid member with ⟨c', found', miss⟩
      rcases Option.some.inj (found.symm.trans found') with rfl
      rw [(subsumes_iff_rank (literals found)).mpr below] at miss
      cases miss
    refine Prod.Lex.left _ _
      (lt_of_le_not_ge (fun rank covered => ?_) fun back => isOld (back isNew))
    rcases Prover.mem_covers.mp covered with ⟨pid, member, c, found, below⟩
    rcases generates.answered pid member with stays | ⟨c', found', hit⟩
    · exact Prover.mem_covers.mpr ⟨pid, by rw [processed]; exact List.mem_append_left _ stays,
        c, find found, below⟩
    · rcases Option.some.inj (found.symm.trans found') with rfl
      exact (p'.covers initial).upper (((subsumes_iff_rank (literals held)).mp hit).trans below)
        isNew

theorem ground_settles (runtime : Runtime) (config : ProverConfig) (inv : GroundInv initial p) :
    ∃ bound, ∀ m c, bound ≤ m → bound ≤ c → ∀ p',
      ¬ Returns (fun fuel => Prover.prove runtime (config.withLimits m c) fuel p)
        (.kTimeout, p') := by
  have finite := initialLiteral_finite initial
  have quasi : WellQuasiOrderedLE (Set (InitialLiteral initial)) := Finite.to_wellQuasiOrderedLE
  have step : ∀ p given rest p', GroundInv initial p →
      runtime.queue.pop config.comparator p.unprocessed = some (given, rest) →
      Returns (fun fuel => Prover.iteration runtime config fuel given
        { p with unprocessed := rest })
        (none, p') → GroundInv initial p' ∧ (False → False) ∧ (False ∨
      Prod.Lex (· < ·) (· < ·) (p'.covers initial, p'.unprocessed.length)
        (p.covers initial, p.unprocessed.length)) := by
    intro p given rest p' inv popped body
    rcases body.exists with ⟨fuel, run⟩
    rcases iteration_cases run with ⟨calls, iterated⟩
    exact ⟨inv.turned popped iterated, id, Or.inr (inv.decreases popped iterated)⟩
  rcases Loops.settles (Exhaustion.upperSet_wellFounded.prod_lex wellFounded_lt)
    (fun p => (p.covers initial, p.unprocessed.length)) (GroundInv initial)
    (fun _ => False) step p 0 inv with ⟨bound, settled⟩
  refine ⟨bound, fun m c turns room p' done => ?_⟩
  rcases prove_iff_loops.mp done with ⟨last, loops⟩
  exact settled m c turns room last p' loops

end Measure

section Verdicts

variable {runtime : Runtime} {config : ProverConfig} {fuel : Nat} {first : Env}
  {initial : List Clause} {p p' : Prover}

theorem GroundInv.init (wf : first.bank.WellFormed) (shared : first.bank.HashConsed)
    (valid : ∀ c ∈ initial, c.ValidIn first.bank)
    (ground : ∀ c ∈ initial, GroundLits (first.bank.read c.literals))
    (added : Prover.addClauses runtime config initial { env := first } = .ok p) :
    GroundInv initial p := by
  rcases StoreInv.init added with ⟨structured, rfl, _, store, _⟩
  refine ⟨structured, wf, shared, valid, ground, fun c stored lit member => ?_⟩
  rcases mem_storedFrom (store ▸ stored) with ⟨c0, isInitial, same⟩
  rw [same] at member
  exact ⟨c0, isInitial, member⟩

theorem ground_returns (wf : first.bank.WellFormed)
    (valid : ∀ c ∈ initial, c.ValidIn first.bank)
    (ground : ∀ c ∈ initial, GroundLits (first.bank.read c.literals))
    (added : Prover.addClauses runtime config initial { env := first } = .ok p) :
    ∃ result p', Returns (fun fuel => Prover.prove runtime config fuel p) (result, p') := by
  rcases StoreInv.init added with ⟨structured, _⟩
  have start : ∀ fuel, RunInv runtime config fuel initial first p :=
    fun _ => RunInv.init valid added
  refine prove_ends structured fun inf env call => ?_
  have wfEnv := (call.ready wf structured start).2.1
  have premises := call.ground wf valid ground structured start
  exact call.returns wf valid added (Inference.namesFree_of_ground wfEnv premises)
    (Or.inr (Inference.ClosesCycle.not_ground wfEnv premises))

theorem ground_verdict (wf : first.bank.WellFormed)
    (valid : ∀ c ∈ initial, c.ValidIn first.bank)
    (ground : ∀ c ∈ initial, GroundLits (first.bank.read c.literals))
    (added : Prover.addClauses runtime config initial { env := first } = .ok p)
    {result : ProverResult} (run : Prover.prove runtime config fuel p = .ok (result, p')) :
    (result = .kTheorem → first.bank.ArityBounded →
        ¬ Satisfiable.{u} (first.bank.readAll {c | c ∈ initial})) ∧
      (result = .kSaturation → first.Fresh →
        Satisfiable.{0} (first.bank.readAll {c | c ∈ initial})) := by
  rcases StoreInv.init added with ⟨structured, _⟩
  have start : ∀ fuel, RunInv runtime config fuel initial first p :=
    fun _ => RunInv.init valid added
  constructor
  · rintro rfl small
    exact acyclic_search_refutes wf small valid added (fun inf e call =>
      Inference.ClosesCycle.not_ground (call.ready wf structured start).2.1
        (call.ground wf valid ground structured start)) run
  · rintro rfl fresh
    have history : History runtime config first initial [.kSaturation] p' :=
      .proved (.added .fresh valid added) run
    rcases history.inv wf with ⟨budget, log, inv⟩
    have satisfiable := inv.satisfiable wf fresh (by simp) (saturation_done run)
    rwa [inv.run.readAll wf valid] at satisfiable

end Verdicts

/-- `prove` decides ground problems: a verdict is right under any limits, and with
limits above some bound there is one, for every comparator and with or without the
occurs check. Other clauses of the pool may have variables. -/
theorem ground_search_decides (runtime : Runtime) (config : ProverConfig) (first : Env)
    (wf : first.bank.WellFormed) (shared : first.bank.HashConsed) (initial : List Clause)
    (valid : ∀ c ∈ initial, c.ValidIn first.bank)
    (ground : ∀ c ∈ initial, GroundLits (first.bank.read c.literals)) {p : Prover}
    (added : Prover.addClauses runtime config initial { env := first } = .ok p) :
    (∀ m c, ∃ result p', Returns (fun fuel => Prover.prove runtime
        { config with maxIterations := m, maxClauses := c } fuel p) (result, p') ∧
      (result = .kTheorem → first.bank.ArityBounded →
        ¬ Satisfiable.{u} (first.bank.readAll {c | c ∈ initial})) ∧
      (result = .kSaturation → first.Fresh →
        Satisfiable.{0} (first.bank.readAll {c | c ∈ initial}))) ∧
    ∃ bound, ∀ m c, bound ≤ m → bound ≤ c →
        ∀ p', ¬ Returns (fun fuel => Prover.prove runtime
        { config with maxIterations := m, maxClauses := c } fuel p) (.kTimeout, p') := by
  refine ⟨fun m c => ?_, ground_settles runtime config (.init wf shared valid ground added)⟩
  have added' : Prover.addClauses runtime (config.withLimits m c) initial { env := first } =
      .ok p := by
    rw [addClauses_withLimits, added]
  rcases ground_returns wf valid ground added' with ⟨result, p', done⟩
  rcases done.exists with ⟨fuel, run⟩
  exact ⟨result, p', done, ground_verdict wf valid ground added' run⟩

def partlyGroundInput : Text := "cnf(v,axiom,q(X)). cnf(a,axiom,p(a)). cnf(b,axiom,~p(a)).".toList

theorem ground_search_decides_sample : ∃ (clauses : List Clause) (env : Env) (p : Prover)
    (bound : Nat), readInput partlyGroundInput = .ok (clauses, env) ∧
    ∀ limit, bound ≤ limit → ∃ result p', Returns (fun fuel => Prover.prove .plain
      { maxIterations := limit, maxClauses := limit } fuel p) (result, p') ∧
      result ≠ .kTimeout ∧
      (result = .kTheorem → ¬ Satisfiable.{0} (env.bank.readAll {c | c ∈ clauses.tail})) := by
  -- collectVariables finds none in the last two clauses
  have facts : (fun out => out.1.tail.map fun c => c.literals.foldlM
      (fun seen lit => collectVariables out.2.bank 5 lit.atom seen) []) <$>
      readInput partlyGroundInput = .ok [.ok [], .ok []] := by decide +kernel
  rcases map_ok_iff.mp facts with ⟨⟨clauses, env⟩, read, none⟩
  rcases readInput_ready read with ⟨ready, small, _⟩
  have valid : ∀ c ∈ clauses.tail, c.ValidIn env.bank := fun c member =>
    ready.valid c (List.mem_of_mem_tail member)
  have ground : ∀ c ∈ clauses.tail, GroundLits (env.bank.read c.literals) := by
    intro c member x occurs
    have collected := List.mem_map_of_mem (f := fun c : Clause => c.literals.foldlM
      (fun seen lit => collectVariables env.bank 5 lit.atom seen) []) member
    rw [none] at collected
    have empty : c.literals.foldlM
        (fun seen lit => collectVariables env.bank 5 lit.atom seen) [] = .ok [] := by
      simpa using collected
    exact List.not_mem_nil (((varSet_spec ready.wf empty).1 x).mpr occurs)
  rcases addClauses_spec .plain {} clauses.tail { env } with ⟨p, added, _⟩
  rcases ground_search_decides.{0} .plain {} env ready.wf ready.shared clauses.tail valid ground
    added with ⟨returns, bound, settles⟩
  refine ⟨clauses, env, p, bound, read, fun limit above => ?_⟩
  rcases returns limit limit with ⟨result, p', done, refutes, _⟩
  refine ⟨result, p', done, ?_, fun isTheorem => refutes isTheorem
    (small fun _ renders => renders.bounded (by decide +kernel))⟩
  rintro rfl
  exact settles limit limit above above p' done

end AtpEngine
