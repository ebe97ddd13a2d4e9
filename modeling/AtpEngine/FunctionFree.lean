import AtpEngine.InferenceReturns
import AtpEngine.Provenance

/-!
Clauses without function symbols: the arguments of their atoms are variables and
constants. Unifying such atoms binds variables to variables and constants, so with
the occurs check off no cycle of bindings closes, and what is inferred has no
function symbols either.
-/
namespace AtpEngine

open Fuelled ClauseLogic TermTree Triangular Substitution

namespace TermTree

variable {F V W : Type}

inductive Simple : TermTree F V → Prop where
  | var (x : V) : Simple (.var x)
  | const (f : F) : Simple (.node f [])

inductive Flat : TermTree F V → Prop where
  | node (f : F) {args : List (TermTree F V)} : (∀ a ∈ args, Simple a) → Flat (.node f args)

theorem Simple.rename {t : TermTree F V} (simple : t.Simple) (ρ : V → W) :
    (TermTree.rename ρ t).Simple := by
  cases simple with
  | var x => simpa using Simple.var (F := F) (ρ x)
  | const f => simpa using Simple.const (V := W) f

theorem Flat.rename {t : TermTree F V} (flat : t.Flat) (ρ : V → W) :
    (TermTree.rename ρ t).Flat := by
  cases flat with
  | node f args =>
      rw [TermTree.rename, TermTree.subst, eval_node]
      refine .node f fun a member => ?_
      rcases List.mem_map.mp member with ⟨b, inside, rfl⟩
      exact (args b inside).rename ρ

end TermTree

section Bindings

variable {F V : Type} {σ : Bindings F V}

def SimpleBindings (σ : Bindings F V) : Prop := ∀ x t, σ x = some t → t.Simple

theorem TermTree.Simple.applied {t τ : TermTree F V} (simple : t.Simple)
    (bound : SimpleBindings σ) (applied : Applied σ t τ) : τ.Simple := by
  induction applied with
  | bound known _ ih => exact ih (bound _ _ known)
  | free _ => exact .var _
  | @node f cs ds width _ _ =>
      cases simple with
      | const _ =>
          rcases List.length_eq_zero_iff.mp width.symm with rfl
          exact .const f

theorem TermTree.Flat.applied {t τ : TermTree F V} (flat : t.Flat) (bound : SimpleBindings σ)
    (applied : Applied σ t τ) : τ.Flat := by
  cases flat with
  | @node f cs each =>
      cases applied with
      | @node _ _ ds width inner =>
          refine .node f fun d member => ?_
          rcases mem_zip_of_mem_right width member with ⟨c, child, pair⟩
          exact (each c child).applied bound (inner c d pair)

end Bindings

section Unifying

variable {bank : TermBank} {config : UnificationConfig} {subst : Substitution}

/-- Two arguments or two atoms, as `unify` is called on them. -/
def FlatPair (bank : TermBank) (t1 t2 : Nat) : Prop :=
  (bank.tree t1).Simple ∧ (bank.tree t2).Simple ∨ (bank.tree t1).Flat ∧ (bank.tree t2).Flat

theorem Substitution.Walk.simple {id last : Nat} (walk : Walk subst bank id last)
    (bound : SimpleBindings (subst.trees bank)) (simple : (bank.tree id).Simple) :
    (bank.tree last).Simple := by
  induction walk with
  | stop _ _ => exact simple
  | step _ found _ ih => exact ih (bound _ _ (trees_some found))

theorem Substitution.Walk.flat {id last : Nat} (walk : Walk subst bank id last)
    (flat : (bank.tree id).Flat) :
    last = id := by
  cases walk with
  | stop _ _ => rfl
  | step isVar _ _ =>
      rw [TermBank.tree_var isVar] at flat
      cases flat

theorem TermTree.Flat.not_var {id : Nat} (flat : (bank.tree id).Flat) : bank.isVar id = false := by
  cases isVar : bank.isVar id with
  | false => rfl
  | true =>
      rw [TermBank.tree_var isVar] at flat
      cases flat

theorem FlatPair.ends {t1 t2 x r : Nat} (pair : FlatPair bank t1 t2)
    (bound : SimpleBindings (subst.trees bank))
    (walks : Walk subst bank t1 x ∧ Walk subst bank t2 r ∨
      Walk subst bank t1 r ∧ Walk subst bank t2 x)
    (isVar : bank.isVar x = true) : (bank.tree r).Simple := by
  rcases pair with ⟨simple1, simple2⟩ | ⟨flat1, flat2⟩
  · rcases walks with ⟨_, walk⟩ | ⟨walk, _⟩
    · exact walk.simple bound simple2
    · exact walk.simple bound simple1
  · rcases walks with ⟨walk, _⟩ | ⟨_, walk⟩
    · rcases walk.flat flat1 with rfl
      exact absurd (flat1.not_var.symm.trans isVar) Bool.false_ne_true
    · rcases walk.flat flat2 with rfl
      exact absurd (flat2.not_var.symm.trans isVar) Bool.false_ne_true

theorem FlatPair.args (wf : bank.WellFormed) {t1 t2 r1 r2 : Nat} {term1 term2 : Term}
    (pair : FlatPair bank t1 t2) (bound : SimpleBindings (subst.trees bank))
    (walk1 : Walk subst bank t1 r1) (walk2 : Walk subst bank t2 r2)
    (var1 : bank.isVar r1 = false) (var2 : bank.isVar r2 = false)
    (entry1 : bank.terms[r1]? = some term1) (entry2 : bank.terms[r2]? = some term2) :
    ∀ p ∈ argPairs term1 term2, (bank.tree p.1).Simple ∧ (bank.tree p.2).Simple := by
  -- a constant has no arguments, and those of an atom are simple
  have inner : ∀ {r : Nat} {term : Term}, bank.isVar r = false → bank.terms[r]? = some term →
      (bank.tree r).Simple ∨ (bank.tree r).Flat → ∀ a ∈ term.args,
        (bank.tree a).Simple := by
    intro r term isVar entry shape a member
    rw [TermBank.tree_node wf entry isVar] at shape
    rcases shape with simple | flat
    · generalize args : term.args.map bank.tree = trees at simple
      cases simple with
      | const _ =>
          rw [List.map_eq_nil_iff.mp args] at member
          cases member
    · cases flat with
      | node _ each => exact each _ (List.mem_map.mpr ⟨a, member, rfl⟩)
  have shape1 : (bank.tree r1).Simple ∨ (bank.tree r1).Flat := by
    rcases pair with ⟨simple, _⟩ | ⟨flat, _⟩
    · exact Or.inl (walk1.simple bound simple)
    · exact Or.inr (walk1.flat flat ▸ flat)
  have shape2 : (bank.tree r2).Simple ∨ (bank.tree r2).Flat := by
    rcases pair with ⟨_, simple⟩ | ⟨_, flat⟩
    · exact Or.inl (walk2.simple bound simple)
    · exact Or.inr (walk2.flat flat ▸ flat)
  rintro ⟨a, b⟩ member
  rcases List.of_mem_zip member with ⟨left, right⟩
  exact ⟨inner var1 entry1 shape1 a (List.mem_of_mem_take left),
    inner var2 entry2 shape2 b (List.mem_of_mem_take right)⟩

theorem flatRule (wf : bank.WellFormed) (config : UnificationConfig) : UnifyRule bank config
    (fun t1 t2 subst _ subst' => SimpleBindings (subst.trees bank) → FlatPair bank t1 t2 →
      SimpleBindings (subst'.trees bank))
    (fun pairs subst _ subst' => SimpleBindings (subst.trees bank) →
      (∀ p ∈ pairs, (bank.tree p.1).Simple ∧ (bank.tree p.2).Simple) →
      SimpleBindings (subst'.trees bank)) := by
  constructor
  case same => exact fun _ _ _ bound _ => bound
  case bind =>
    intro t1 t2 x r subst _ walks _ isVar free _ bound pair y t known
    rw [trees_bind free] at known
    by_cases atX : y = x
    · subst atX
      rw [Function.update_self] at known
      rcases Option.some.inj known with rfl
      exact pair.ends bound walks isVar
    · rw [Function.update_of_ne atX] at known
      exact bound y t known
  case occurs => exact fun _ _ _ _ _ _ _ bound _ => bound
  case clash => exact fun _ _ _ _ _ _ _ _ bound _ => bound
  case args =>
    intro t1 t2 r1 r2 term1 term2 subst unified subst' _ walk1 walk2 var1 var2 entry1 entry2
      _ _ _ inner bound pair
    exact inner bound (pair.args wf bound walk1 walk2 var1 var2 entry1 entry2)
  case nil => exact fun _ bound _ => bound
  case fail =>
    exact fun _ first bound pairs => first bound (Or.inl (pairs _ List.mem_cons_self))
  case cons =>
    intro a b rest subst mid subst' unified _ _ first later bound pairs
    exact later (first bound (Or.inl (pairs _ List.mem_cons_self)))
      fun p member => pairs p (List.mem_cons_of_mem _ member)

theorem empty_simpleBindings (bank : TermBank) :
    SimpleBindings (({} : Substitution).trees bank) := fun _ _ known => by cases known

/-- Between flat terms no cycle of bindings closes, with the occurs check on or off. -/
theorem ClosesCycle.not_flat (wf : bank.WellFormed) {t1 t2 : Nat} (valid : subst.ValidIn bank)
    (bound : SimpleBindings (subst.trees bank)) (pair : FlatPair bank t1 t2) :
    ¬ ClosesCycle bank config t1 t2 subst := by
  intro cycle
  induction cycle with
  | @bind t1 t2 x r subst walks differ isVar occurs =>
      have simple := pair.ends bound walks isVar
      have free : bank.isVar r = true → subst.find r = none := by
        rcases walks with ⟨_, walk⟩ | ⟨walk, _⟩ <;> exact walk.free
      have inside : r < bank.size := by
        rcases walks with ⟨_, walk⟩ | ⟨walk, _⟩ <;> exact walk.valid
      rcases TermBank.tree_cases wf inside with ⟨varR, leaf⟩ | ⟨term, _, _, _, node⟩
      · rw [leaf] at occurs
        exact differ ((occursUnder_free (free varR)).mp occurs)
      · rw [node] at simple occurs
        generalize term.args.map bank.tree = args at simple occurs
        cases simple with
        | const _ =>
            rcases occurs with ⟨y, inner, _⟩
            simp at inner
  | @args t1 t2 r1 r2 a b fuel term1 term2 before after subst mid walk1 walk2 var1 var2 entry1
      entry2 _ _ split run _ ih =>
      have pairs := pair.args wf bound walk1 walk2 var1 var2 entry1 entry2
      rw [split] at pairs
      rcases unifyArgs_rule (flatRule wf config)
        (fun valid call => unify_rule wf (flatRule wf config) valid call) valid run with
        ⟨keeps, flat⟩
      exact ih keeps.valid
        (flat bound fun p member => pairs p (List.mem_append_left _ member))
        (Or.inl (pairs _ (List.mem_append_right _ List.mem_cons_self)))

end Unifying

section Inferences

variable {order : VariableOrder} {uconfig : UnificationConfig} {fuel : Nat} {env env' : Env}
  {inf : Inference}

def FunctionFree (lits : Literals Nat Nat) : Prop := ∀ lit ∈ lits, lit.1.Flat

theorem FunctionFree.atom {bank : TermBank} {lits : List Literal}
    (flat : FunctionFree (bank.read lits)) {i : Nat} {lit : Literal} (at_i : lits[i]? = some lit) :
    (bank.tree lit.atom).Flat :=
  flat (bank.tree lit.atom, lit.isPositive)
    (List.mem_map.mpr ⟨lit, List.mem_of_getElem? at_i, rfl⟩)

theorem Inferred.functionFree {bank bank' : TermBank} {atom1 atom2 : Nat}
    {rest lits : List Literal} (wf : bank.WellFormed) (flat1 : (bank.tree atom1).Flat)
    (flat2 : (bank.tree atom2).Flat) (flat : FunctionFree (bank.read rest))
    (inferred : Inferred uconfig bank atom1 atom2 rest (some lits) bank') :
    FunctionFree (bank'.read lits) := by
  cases inferred with
  | succeeds run valid applied =>
      have bound := (unify_rule wf (flatRule wf uconfig) (empty_validIn bank) run).2
        (empty_simpleBindings bank) (Or.inr ⟨flat1, flat2⟩)
      intro lit member
      rcases forall₂_mem_right applied.applied member with ⟨old, inside, _, resolved⟩
      exact (flat old inside).applied bound resolved

theorem Renamed.functionFree {c c' : Clause} (renamed : Renamed env c c' env')
    (fresh : env.Fresh) (flat : FunctionFree (env.bank.read c.literals)) :
    FunctionFree (env'.bank.read c'.literals) := by
  rcases renamed.apart fresh with ⟨ρ, _, _, copy⟩
  rw [copy]
  intro lit member
  rcases List.mem_map.mp member with ⟨old, inside, rfl⟩
  exact (flat old inside).rename ρ

theorem perform_functionFree {r : Clause} (wf : env.bank.WellFormed) (fresh : env.Fresh)
    (valid : inf.ValidIn env.bank)
    (flat : ∀ prem ∈ inf.premises, FunctionFree (env.bank.read prem.literals))
    (run : inf.perform order uconfig fuel env = .ok (some r, env')) :
    FunctionFree (env'.bank.read r.literals) := by
  cases inf with
  | resolve c1 i c2 j =>
      have valid1 := valid c1 (by simp [Inference.premises])
      have flat1 := flat c1 (by simp [Inference.premises])
      have flat2 := flat c2 (by simp [Inference.premises])
      have outcome := resolve_outcome wf valid1 (valid c2 (by simp [Inference.premises])) run
      generalize same : some r = out at outcome
      cases outcome with
      | samePolarity _ _ _ => cases same
      | @opposite lit1 lit2 c2r mid atom2 _ lits bank' at_i _ _ _ renamed at_j' inferred =>
          rcases Option.map_eq_some_iff.mp same.symm with ⟨found, rfl, rfl⟩
          have wfMid := renamed.grows.bank.wf wf
          have copied := renamed.functionFree fresh flat2
          rw [← TermBank.read_extends wf wfMid renamed.grows.bank.grows valid1] at flat1
          rw [Inference.conclusion_literals]
          refine inferred.functionFree wfMid (flat1.atom at_i) (copied.atom at_j') ?_
          rw [TermBank.read_append, TermBank.read_eraseIdx, TermBank.read_eraseIdx]
          intro lit member
          rcases List.mem_append.mp member with left | right
          · exact flat1 lit (List.eraseIdx_subset left)
          · exact copied lit (List.eraseIdx_subset right)
  | factor c i j =>
      have flatC := flat c (by simp [Inference.premises])
      have outcome := factorPair_outcome wf (valid c (by simp [Inference.premises])) run
      generalize same : some r = out at outcome
      cases outcome with
      | opposite _ _ _ => cases same
      | samePolarity at_i at_j _ inferred =>
          rcases Option.map_eq_some_iff.mp same.symm with ⟨found, rfl, rfl⟩
          rw [Inference.conclusion_literals]
          refine inferred.functionFree wf (flatC.atom at_i) (flatC.atom at_j) ?_
          rw [TermBank.read_eraseIdx]
          exact fun lit member => flatC lit (List.eraseIdx_subset member)

theorem Inference.ClosesCycle.not_functionFree (wf : env.bank.WellFormed) (fresh : env.Fresh)
    (valid : inf.ValidIn env.bank)
    (flat : ∀ prem ∈ inf.premises, FunctionFree (env.bank.read prem.literals)) :
    ¬ inf.ClosesCycle order uconfig env := by
  intro cycle
  cases cycle with
  | @resolve c1 c2 _ _ _ _ _ _ _ _ _ at_i _ _ rename at_j' inner =>
      have valid1 := valid c1 (by simp [Inference.premises])
      have renamed := renameVariables_spec wf (valid c2 (by simp [Inference.premises])) rename
      have wfMid := renamed.grows.bank.wf wf
      have flat1 := flat c1 (by simp [Inference.premises])
      rw [← TermBank.read_extends wf wfMid renamed.grows.bank.grows valid1] at flat1
      have copied := renamed.functionFree fresh (flat c2 (by simp [Inference.premises]))
      exact inner.not_flat wfMid (empty_validIn _) (empty_simpleBindings _)
        (Or.inr ⟨flat1.atom at_i, copied.atom at_j'⟩)
  | @factor c _ _ _ _ _ at_i at_j _ inner =>
      have flatC := flat c (by simp [Inference.premises])
      exact inner.not_flat wf (empty_validIn _) (empty_simpleBindings _)
        (Or.inr ⟨flatC.atom at_i, flatC.atom at_j⟩)

end Inferences

section Reading

/-- Whether the entry is a symbol applied to entries without arguments. -/
def TermBank.flat (bank : TermBank) (id : Nat) : Bool :=
  bank.terms[id]?.any fun t => !bank.symbols.isVar t.symbolId &&
    t.args.all fun a => bank.terms[a]?.any fun s => s.args.isEmpty

theorem TermBank.flat_tree {bank : TermBank} (wf : bank.WellFormed) {id : Nat}
    (flat : bank.flat id = true) : (bank.tree id).Flat := by
  cases found : bank.terms[id]? with
  | none => simp [TermBank.flat, found] at flat
  | some t =>
      simp only [TermBank.flat, found, Option.any_some, Bool.and_eq_true, Bool.not_eq_true',
        List.all_eq_true] at flat
      have isVar : bank.isVar id = false := by rw [TermBank.isVar_term found, flat.1]
      rw [TermBank.tree_node wf found isVar]
      refine .node _ fun arg member => ?_
      rcases List.mem_map.mp member with ⟨a, inside, rfl⟩
      have empty := flat.2 a inside
      cases entry : bank.terms[a]? with
      | none => simp [entry] at empty
      | some s =>
          have noArgs : s.args = [] := by simpa [entry] using empty
          rcases TermBank.tree_cases wf (List.getElem?_eq_some_iff.mp entry).1 with
            ⟨_, leaf⟩ | ⟨s', entry', _, _, node⟩
          · rw [leaf]
            exact .var a
          · rcases Option.some.inj (entry.symm.trans entry') with rfl
            rw [node, noArgs]
            exact .const _

end Reading

end AtpEngine
