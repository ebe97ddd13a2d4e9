import AtpEngine.FreshNames
import AtpEngine.InferenceExact
import Mathlib.Data.Set.Card

/-!
Renaming as a whole: on a table whose names `_R<k>` were all made by renaming, a
renaming returns a variant of its clause over new variables and leaves such a
table, so that all later calls find the same.
-/
namespace AtpEngine

open Fuelled ClauseLogic TermTree

variable {env env' : Env} {c c' : Clause}

/-- Every name `_R<k>` in use is a variable that the counter has passed. -/
def Env.Reserved (env : Env) : Prop :=
  ∀ info ∈ env.bank.symbols.infos, ∀ k, info.name = freshName k →
    info.kind = .kVariable ∧ k < env.varCounter

section Reserving

theorem freshVariable_reserved {y : Nat} (reserved : env.Reserved)
    (run : freshVariable env = .ok (y, env')) : env'.Reserved := by
  rw [freshVariable, bind_ok_iff] at run
  rcases run with ⟨⟨freshSym, symbols⟩, interned, run⟩
  have symbols' := TermBank.makeTerm_symbols { env.bank with symbols } freshSym []
  rcases Prod.mk.inj (pure_ok_iff.mp run) with ⟨rfl, rfl⟩
  intro info member k name
  have known : info ∈ symbols.infos :=
    (congrArg (fun table : SymbolTable => info ∈ table.infos) symbols').mp member
  rcases SymbolTable.mem_intern_infos interned known with old | rfl
  · rcases reserved info old k name with ⟨kind, below⟩
    exact ⟨kind, Nat.lt_succ_of_lt below⟩
  · rcases freshName_inj name with rfl
    exact ⟨rfl, Nat.lt_succ_self _⟩

theorem bindFresh_reserved {vars : List Nat} {subst subst' : Substitution} (reserved : env.Reserved)
    (run : bindFresh vars subst env = .ok (subst', env')) : env'.Reserved := by
  induction vars generalizing subst env with
  | nil =>
      rcases Prod.mk.inj (Except.ok.inj run) with ⟨rfl, rfl⟩
      exact reserved
  | cons v rest ih =>
      rw [bindFresh, bind_ok_iff] at run
      rcases run with ⟨⟨y, mid⟩, first, run⟩
      exact ih (freshVariable_reserved reserved first) run

end Reserving

theorem renameVariables_counts {order : VariableOrder} {fuel : Nat} (wf : env.bank.WellFormed)
    (valid : c.ValidIn env.bank) (reserved : env.Reserved)
    (run : renameVariables order fuel c env = .ok (c', env')) :
    env'.varCounter = env.varCounter + Set.ncard {x | VarOf x (env.bank.read c.literals)} ∧
      env'.Reserved := by
  rcases renameVariables_cases wf run with ⟨rfl, rfl, ground⟩ |
    ⟨vars, subst, mid, literals, bank, nodup, listed, _, bound, applied, rfl, rfl⟩
  · have none : {x | VarOf x (env'.bank.read c'.literals)} = ∅ :=
      Set.eq_empty_of_forall_notMem ground
    rw [none, Set.ncard_empty]
    exact ⟨rfl, reserved⟩
  · have count : Set.ncard {x | VarOf x (env.bank.read c.literals)} = vars.length := by
      have same : {x | VarOf x (env.bank.read c.literals)} = (vars.toFinset : Set Nat) := by
        ext x
        simp [listed x]
      rw [same, Set.ncard_coe_finset, List.toFinset_card_of_nodup nodup]
    have bindings := bindFresh_spec wf (empty_validIn env.bank) nodup
      (fun x member => varOf_lt wf valid ((listed x).mp member)) (fun _ _ => rfl) bound
    have lits := applyLiterals_spec (bindings.grows.bank.wf wf) bindings.valid
      (fun lit member => valid.mono bindings.grows.bank.grows lit member) applied
    refine ⟨count ▸ (bindFresh_grows wf bound).2.1, fun info member => ?_⟩
    rw [lits.symbols] at member
    exact bindFresh_reserved reserved bound info member

/-- A renaming returns the clause over new variables, one for each of its own. -/
theorem renameVariables_fresh (order : VariableOrder) (wf : env.bank.WellFormed)
    (reserved : env.Reserved) (valid : c.ValidIn env.bank) :
    ∃ c' env', Returns (fun fuel => renameVariables order fuel c env) (c', env') ∧
      c' = { c with literals := c'.literals } ∧ c'.size = c.size ∧
      c'.literals.map Literal.isPositive = c.literals.map Literal.isPositive ∧
      (∃ ρ : Nat → Nat, Set.InjOn ρ {x | VarOf x (env.bank.read c.literals)} ∧
        (∀ x, VarOf x (env.bank.read c.literals) → env'.bank.isVar (ρ x) = true ∧
          ∀ t < env.bank.size, ¬ Occurs (ρ x) (env'.bank.tree t)) ∧
        env'.bank.read c'.literals = inst (fun x => .var (ρ x)) (env.bank.read c.literals)) ∧
      env'.varCounter = env.varCounter + Set.ncard {x | VarOf x (env.bank.read c.literals)} ∧
      env'.Reserved := by
  have fresh := Env.fresh_of_reserved wf.table reserved
  rcases renameVariables_returns order wf valid (fun _ vars _ => fresh.namesFree vars.length) with
    ⟨c', env', done⟩
  rcases done.exists with ⟨fuel, run⟩
  have renamed := renameVariables_spec wf valid run
  have wf' := renamed.grows.bank.wf wf
  rcases renameVariables_counts wf valid reserved run with ⟨counter, reserved'⟩
  rcases renamed.apart fresh with ⟨ρ, injective, new, reads⟩
  refine ⟨c', env', done, renamed.header, renamed.size, ?_, ⟨ρ, ?_, ?_, reads⟩,
    counter, reserved'⟩
  · have polarities := congrArg (List.map Prod.snd) reads
    simp only [TermBank.read, inst, List.map_map] at polarities
    exact polarities
  · exact fun x hx y hy same => injective x y hx hy same
  · intro x occurs
    constructor
    · have image : VarOf (ρ x) (env'.bank.read c'.literals) := by
        rw [reads, varOf_inst]
        exact ⟨x, occurs, .var⟩
      exact varOf_lt wf' renamed.valid image
    · intro t old occurs'
      rw [TermBank.tree_extends wf wf' renamed.grows.bank.grows old] at occurs'
      have below := (TermBank.occurs_tree wf old occurs').2
      exact absurd (new x occurs) (by omega)

theorem renameVariables_fresh_sample : ∃ (c c' : Clause) (rest : List Clause) (env env' : Env),
    readInput resolventInput = .ok (c :: rest, env) ∧
    Returns (fun fuel => renameVariables .insertion fuel c env) (c', env') ∧
    env'.varCounter = env.varCounter + Set.ncard {x | VarOf x (env.bank.read c.literals)} ∧
    env'.Reserved := by
  rcases resolvent_pool with ⟨c1, c2, env, read, wf, _, valid1, _, _, _, plain, _⟩
  have reserved : env.Reserved := fun info member k same => absurd same (plain info member k)
  rcases renameVariables_fresh .insertion wf reserved valid1 with
    ⟨c', env', done, _, _, _, _, counter, reserved'⟩
  exact ⟨c1, c', [c2], env, env', read, done, counter, reserved'⟩

end AtpEngine
