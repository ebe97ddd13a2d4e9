import AtpEngine.InferenceReturns

/-!
Reads stay in bounds, function by function. A call is `Safe` when it does not
index out of bounds: it returns, throws, or runs out of its budget. What a call
needs for that is that the ids it is given are valid; what it returns is valid by
its own specification.
-/
namespace AtpEngine

open Fuelled Triangular TermTree Substitution

def Safe {α : Type} (x : Except Fault α) : Prop := x ≠ .error .outOfBounds

section Rules

variable {α β σ : Type}

theorem Safe.ok (a : α) : Safe (.ok a) := fun h => by cases h

theorem Safe.pure (a : α) : Safe (Pure.pure a : Except Fault α) := Safe.ok a

theorem Safe.outOfFuel : Safe (.error .outOfFuel : Except Fault α) := fun h => by cases h

theorem Safe.of_ok {x : Except Fault α} {a : α} (run : x = .ok a) : Safe x := run ▸ Safe.ok a

theorem Safe.bind {x : Except Fault α} {f : α → Except Fault β} (first : Safe x)
    (next : ∀ a, x = .ok a → Safe (f a)) : Safe (x >>= f) := by
  cases answer : x with
  | ok a => exact next a answer
  | error fault =>
      rw [answer] at first
      intro failed
      apply first
      rw [bind_error] at failed
      exact congrArg Except.error (Except.error.inj failed)

theorem Safe.anyM {p : α → Except Fault Bool} {l : List α} (each : ∀ a ∈ l, Safe (p a)) :
    Safe (l.anyM p) := by
  induction l with
  | nil => exact Safe.pure false
  | cons a rest ih =>
      rw [List.anyM_cons]
      refine (each a List.mem_cons_self).bind fun found _ => ?_
      cases found with
      | true => exact Safe.pure true
      | false => exact ih fun b member => each b (List.mem_cons_of_mem a member)

theorem Safe.foldlM {f : β → α → Except Fault β} {l : List α}
    (each : ∀ a ∈ l, ∀ b, Safe (f b a)) (b : β) : Safe (l.foldlM f b) := by
  induction l generalizing b with
  | nil => exact Safe.pure b
  | cons a rest ih =>
      rw [List.foldlM_cons]
      exact (each a List.mem_cons_self b).bind fun next _ =>
        ih (fun c member => each c (List.mem_cons_of_mem a member)) next

theorem Safe.mapAccum {f : α → σ → Except Fault (β × σ)} (P : σ → Prop) {l : List α}
    (each : ∀ a ∈ l, ∀ s, P s → Safe (f a s)) (keep : ∀ a ∈ l, ∀ s b s', P s →
      f a s = .ok (b, s') → P s') {s : σ} (start : P s) : Safe (mapAccum f l s) := by
  induction l generalizing s with
  | nil => exact Safe.ok _
  | cons a rest ih =>
      refine (each a List.mem_cons_self s start).bind fun out call => ?_
      have next := keep a List.mem_cons_self s out.1 out.2 start call
      exact (ih (fun b member => each b (List.mem_cons_of_mem a member))
        (fun b member => keep b (List.mem_cons_of_mem a member)) next).bind fun _ _ => Safe.pure _

end Rules

section Terms

variable {bank : TermBank} {subst : Substitution} {config : UnificationConfig}

theorem getTerm_safe {id : Nat} (inside : id < bank.size) : Safe (bank.getTerm id) :=
  Safe.of_ok (TermBank.getTerm_ok.mpr (List.getElem?_eq_getElem inside))

theorem isVariable_safe (wf : bank.WellFormed) {id : Nat} (inside : id < bank.size) :
    Safe (bank.isVariable id) :=
  Safe.of_ok (TermBank.isVariable_eq wf inside)

theorem resolve_safe (wf : bank.WellFormed) (valid : subst.ValidIn bank) (fuel : Nat) {id : Nat}
    (inside : id < bank.size) : Safe (subst.resolve bank fuel id) := by
  induction fuel generalizing id with
  | zero => exact Safe.outOfFuel
  | succ fuel ih =>
      rw [Substitution.resolve]
      refine (isVariable_safe wf inside).bind fun isVar _ => ?_
      cases isVar with
      | false => exact Safe.pure id
      | true =>
          cases found : subst.find id with
          | none => exact Safe.pure id
          | some next => exact ih (valid id next found).2

theorem args_inside (wf : bank.WellFormed) {id : Nat} {t : Term} (read : bank.getTerm id = .ok t) :
    ∀ arg ∈ t.args, arg < bank.size := by
  have entry := TermBank.getTerm_ok.mp read
  have inside := (List.getElem?_eq_some_iff.mp entry).1
  exact fun arg member => Nat.lt_trans (wf.args_lt entry arg member) inside

theorem occursIn_safe (wf : bank.WellFormed) (valid : subst.ValidIn bank) (fuel var : Nat)
    {term : Nat} (inside : term < bank.size) : Safe (subst.occursIn bank fuel var term) := by
  induction fuel generalizing term with
  | zero => exact Safe.outOfFuel
  | succ fuel ih =>
      rw [Substitution.occursIn]
      refine (resolve_safe wf valid fuel inside).bind fun last walked => ?_
      have lastInside := (resolve_walk walked).valid
      split
      · exact Safe.pure true
      refine (isVariable_safe wf lastInside).bind fun isVar _ => ?_
      cases isVar with
      | true => exact Safe.pure false
      | false =>
          exact (getTerm_safe lastInside).bind fun t read =>
            Safe.anyM fun arg member => ih (args_inside wf read arg member)

theorem bindVariable_safe (wf : bank.WellFormed) (valid : subst.ValidIn bank) (fuel x : Nat)
    {term : Nat} (inside : term < bank.size) :
    Safe (bindVariable bank config fuel subst x term) := by
  unfold bindVariable
  split
  · refine (occursIn_safe wf valid fuel x inside).bind fun occurs _ => ?_
    cases occurs with
    | true => exact Safe.pure _
    | false => exact Safe.pure _
  · exact Safe.pure _

theorem unifyArgs_safe (wf : bank.WellFormed) {fuel : Nat} {pairs : List (Nat × Nat)}
    (valid : subst.ValidIn bank) (each : ∀ a b, (a, b) ∈ pairs → ∀ subst : Substitution,
      subst.ValidIn bank → Safe (unify bank config fuel a b subst)) :
    Safe (unifyArgs (unify bank config fuel) pairs subst) := by
  induction pairs generalizing subst with
  | nil => exact Safe.ok _
  | cons pair rest ih =>
      rcases pair with ⟨a, b⟩
      refine (each a b List.mem_cons_self subst valid).bind fun answer call => ?_
      rcases answer with ⟨unified, mid⟩
      cases unified with
      | false => exact Safe.pure _
      | true =>
          have keeps := unify_keeps wf valid call
          exact ih keeps.valid fun c d member => each c d (List.mem_cons_of_mem _ member)

theorem unify_safe (wf : bank.WellFormed) (fuel : Nat) {t1 t2 : Nat} (valid : subst.ValidIn bank)
    (inside1 : t1 < bank.size) (inside2 : t2 < bank.size) :
    Safe (unify bank config fuel t1 t2 subst) := by
  induction fuel generalizing t1 t2 subst with
  | zero => exact Safe.outOfFuel
  | succ fuel ih =>
      rw [unify]
      refine (resolve_safe wf valid fuel inside1).bind fun r1 walked1 => ?_
      refine (resolve_safe wf valid fuel inside2).bind fun r2 walked2 => ?_
      -- each checked read below is at a term that a walk ended in or at one of its arguments
      have last1 := (resolve_walk walked1).valid
      have last2 := (resolve_walk walked2).valid
      split
      · exact Safe.pure _
      refine (isVariable_safe wf last1).bind fun var1 _ => ?_
      cases var1 with
      | true => exact bindVariable_safe wf valid fuel r1 last2
      | false =>
          refine (isVariable_safe wf last2).bind fun var2 _ => ?_
          cases var2 with
          | true => exact bindVariable_safe wf valid fuel r2 last1
          | false =>
              refine (getTerm_safe last1).bind fun term1 read1 => ?_
              refine (getTerm_safe last2).bind fun term2 read2 => ?_
              split
              · exact Safe.pure _
              · refine unifyArgs_safe wf valid fun a b member mid validMid => ?_
                have both := List.of_mem_zip member
                exact ih validMid (args_inside wf read1 a (List.mem_of_mem_take both.1))
                  (args_inside wf read2 b (List.mem_of_mem_take both.2))

theorem applySubstitution_safe (wf : bank.WellFormed) (valid : subst.ValidIn bank) (fuel : Nat)
    {term : Nat} (inside : term < bank.size) : Safe (applySubstitution subst fuel term bank) := by
  induction fuel generalizing term bank with
  | zero => exact Safe.outOfFuel
  | succ fuel ih =>
      rw [applySubstitution]
      refine (resolve_safe wf valid fuel inside).bind fun last walked => ?_
      have lastInside := (resolve_walk walked).valid
      refine (isVariable_safe wf lastInside).bind fun isVar _ => ?_
      cases isVar with
      | true => exact Safe.pure _
      | false =>
          refine (getTerm_safe lastInside).bind fun t read => ?_
          -- the pool grows from argument to argument and keeps the ids of the others
          refine Safe.bind (Safe.mapAccum (fun b => b.WellFormed ∧ bank.Extends b) ?_ ?_
            ⟨wf, .refl bank⟩) fun out _ => Safe.pure _
          · rintro arg member b ⟨wfB, grown⟩
            exact ih wfB (valid.mono wf grown)
              (Nat.lt_of_lt_of_le (args_inside wf read arg member) grown.size_le)
          · rintro arg _ b new b' ⟨wfB, grown⟩ call
            have step := applySubstitution_spec wfB (valid.mono wf grown) call
            exact ⟨step.grows.wf wfB, grown.trans step.grows.grows⟩

end Terms

section Inferences

variable {order : VariableOrder} {uconfig : UnificationConfig} {env : Env}

theorem collectVariables_safe {bank : TermBank} (wf : bank.WellFormed) (fuel : Nat) {term : Nat}
    (inside : term < bank.size) (seen : List Nat) :
    Safe (collectVariables bank fuel term seen) := by
  induction fuel generalizing term seen with
  | zero => exact Safe.outOfFuel
  | succ fuel ih =>
      rw [collectVariables]
      refine (isVariable_safe wf inside).bind fun isVar _ => ?_
      cases isVar with
      | true => exact Safe.pure _
      | false =>
          exact (getTerm_safe inside).bind fun t read =>
            Safe.foldlM (fun arg member seen => ih (args_inside wf read arg member) seen) seen

/-- `intern` may throw, but the index of names only has ids of the table. -/
theorem intern_safe {table : SymbolTable} (wf : table.WellFormed) (name : Text) (kind : SymbolKind)
    (arity sort : Nat) : Safe (table.intern name kind arity sort) := by
  rw [SymbolTable.intern]
  cases found : table.nameToId.lookup name with
  | none => exact Safe.ok _
  | some id =>
      rcases wf.sound name id found with ⟨info, entry, _⟩
      have read : table.getInfo id = .ok info := by rw [SymbolTable.getInfo, entry]
      refine (Safe.of_ok read).bind fun info' _ => ?_
      split
      · exact fun h => by cases h
      · exact Safe.pure _

theorem bindFresh_safe {vars : List Nat} (wf : env.bank.WellFormed) (subst : Substitution) :
    Safe (bindFresh vars subst env) := by
  induction vars generalizing env subst with
  | nil => exact Safe.ok _
  | cons v rest ih =>
      rw [bindFresh]
      have first : Safe (freshVariable env) :=
        (intern_safe wf.table _ _ _ _).bind fun _ _ => Safe.pure _
      refine first.bind fun out call => ?_
      exact ih ((freshVariable_spec wf call).1.bank.wf wf) _

theorem applyLiterals_safe {subst : Substitution} {lits : List Literal} {bank : TermBank}
    (wf : bank.WellFormed) (valid : subst.ValidIn bank) (fuel : Nat)
    (inside : ∀ lit ∈ lits, lit.atom < bank.size) :
    Safe (applyLiterals subst fuel lits bank) := by
  refine Safe.mapAccum (fun b => b.WellFormed ∧ bank.Extends b) ?_ ?_ ⟨wf, .refl bank⟩
  · rintro lit member b ⟨wfB, grown⟩
    exact (applySubstitution_safe wfB (valid.mono wf grown) fuel
      (Nat.lt_of_lt_of_le (inside lit member) grown.size_le)).bind fun _ _ => Safe.pure _
  · rintro lit _ b new b' ⟨wfB, grown⟩ call
    rcases bind_ok_iff.mp call with ⟨⟨atom, after⟩, applied, call⟩
    rcases Prod.mk.inj (pure_ok_iff.mp call) with ⟨_, rfl⟩
    have step := applySubstitution_spec wfB (valid.mono wf grown) applied
    exact ⟨step.grows.wf wfB, grown.trans step.grows.grows⟩

theorem renameVariables_safe {c : Clause} (wf : env.bank.WellFormed) (valid : c.ValidIn env.bank)
    (fuel : Nat) : Safe (renameVariables order fuel c env) := by
  rw [renameVariables]
  have collects : Safe (c.literals.foldlM
      (fun seen lit => collectVariables env.bank fuel lit.atom seen) []) :=
    Safe.foldlM (fun lit member seen => collectVariables_safe wf fuel (valid lit member) seen) []
  refine collects.bind fun varSet collected => ?_
  split
  · exact Safe.pure _
  rcases varSet_spec wf collected with ⟨members, nodup⟩
  have perm := order.perm env varSet
  refine (bindFresh_safe wf {}).bind fun out bound => ?_
  have bindings := bindFresh_spec wf (empty_validIn env.bank) (perm.nodup_iff.mpr nodup)
    (fun x member => varOf_lt wf valid ((members x).mp (perm.mem_iff.mp member)))
    (fun _ _ => rfl) bound
  exact (applyLiterals_safe (bindings.grows.bank.wf wf) bindings.valid fuel fun lit member =>
    valid.mono bindings.grows.bank.grows lit member).bind fun _ _ => Safe.pure _

theorem literalAt_safe {c : Clause} {i : Nat} (inRange : i < c.size) : Safe (c.literalAt i) :=
  Safe.of_ok (Clause.literalAt_ok.mpr (List.getElem?_eq_getElem inRange))

theorem inferred_safe {bank : TermBank} (wf : bank.WellFormed) (fuel : Nat) {atom1 atom2 : Nat}
    (inside1 : atom1 < bank.size) (inside2 : atom2 < bank.size) {α : Type}
    {next : Bool × Substitution → Except Fault α}
    (tail : ∀ unified subst, subst.ValidIn bank → Safe (next (unified, subst))) :
    Safe (unify bank uconfig fuel atom1 atom2 {} >>= next) :=
  (unify_safe wf fuel (empty_validIn bank) inside1 inside2).bind fun answer call =>
    tail answer.1 answer.2 (unify_empty_valid wf call)

theorem resolve_inBounds {c1 c2 : Clause} {i j : Nat} (wf : env.bank.WellFormed)
    (valid1 : c1.ValidIn env.bank) (valid2 : c2.ValidIn env.bank) (inRange1 : i < c1.size)
    (inRange2 : j < c2.size) (fuel : Nat) : Safe (resolve order uconfig fuel c1 i c2 j env) := by
  rw [resolve]
  refine (literalAt_safe inRange1).bind fun lit1 read1 => ?_
  refine (literalAt_safe inRange2).bind fun lit2 _ => ?_
  split
  · exact Safe.pure _
  refine (renameVariables_safe wf valid2 fuel).bind fun out rename => ?_
  rcases out with ⟨c2r, mid⟩
  have renamed := renameVariables_spec wf valid2 rename
  have wfMid := renamed.grows.bank.wf wf
  have grown := renamed.grows.bank.grows
  refine (literalAt_safe (renamed.size ▸ inRange2)).bind fun lit2r read2r => ?_
  have inside1 := valid1.mono grown lit1 (List.mem_of_getElem? (Clause.literalAt_ok.mp read1))
  have inside2 := renamed.valid lit2r (List.mem_of_getElem? (Clause.literalAt_ok.mp read2r))
  refine inferred_safe wfMid fuel inside1 inside2 fun unified subst valid => ?_
  cases unified with
  | false => exact Safe.pure _
  | true =>
      have left : ∀ lit ∈ c1.literals.eraseIdx i, lit.atom < mid.bank.size := fun lit member =>
        valid1.mono grown lit (List.eraseIdx_subset member)
      refine (applyLiterals_safe wfMid valid fuel left).bind fun first applied => ?_
      have step := applyLiterals_spec wfMid valid left applied
      refine (applyLiterals_safe (step.grows.wf wfMid) (valid.mono wfMid step.grows.grows) fuel
        fun lit member => ?_).bind fun _ _ => Safe.pure _
      exact Nat.lt_of_lt_of_le (renamed.valid lit (List.eraseIdx_subset member))
        step.grows.grows.size_le

theorem factorPair_inBounds {c : Clause} {i j : Nat} (wf : env.bank.WellFormed)
    (valid : c.ValidIn env.bank) (inRange1 : i < c.size) (inRange2 : j < c.size) (fuel : Nat) :
    Safe (factorPair uconfig fuel c i j env) := by
  rw [factorPair]
  refine (literalAt_safe inRange1).bind fun litI readI => ?_
  refine (literalAt_safe inRange2).bind fun litJ readJ => ?_
  split
  · exact Safe.pure _
  refine inferred_safe wf fuel (valid litI (List.mem_of_getElem? (Clause.literalAt_ok.mp readI)))
    (valid litJ (List.mem_of_getElem? (Clause.literalAt_ok.mp readJ))) fun unified subst kept => ?_
  cases unified with
  | false => exact Safe.pure _
  | true =>
      exact (applyLiterals_safe wf kept fuel fun lit member =>
        valid lit (List.eraseIdx_subset member)).bind fun _ _ => Safe.pure _

theorem perform_safe {inf : Inference} (wf : env.bank.WellFormed) (valid : inf.ValidIn env.bank)
    (inRange : inf.InRange) (fuel : Nat) : Safe (inf.perform order uconfig fuel env) := by
  cases inf with
  | resolve c1 i c2 j =>
      exact resolve_inBounds wf (valid c1 (by simp [Inference.premises]))
        (valid c2 (by simp [Inference.premises])) inRange.1 inRange.2 fuel
  | factor c i j =>
      exact factorPair_inBounds wf (valid c (by simp [Inference.premises]))
        (Nat.lt_trans inRange.1 inRange.2) inRange.2 fuel

def Performable (infs : List Inference) (env : Env) : Prop :=
  ∀ inf ∈ infs, inf.InRange ∧ inf.ValidIn env.bank

theorem Performable.mono {infs : List Inference} {env env' : Env} (ready : Performable infs env)
    (grown : env.Grows env') : Performable infs env' := fun inf member =>
  ⟨(ready inf member).1, fun c premise =>
    ((ready inf member).2 c premise).mono grown.bank.grows⟩

theorem performAll_grows {infs : List Inference} {env' : Env} {fuel : Nat}
    {outs : List (Option Clause)} (wf : env.bank.WellFormed) (ready : Performable infs env)
    (run : mapAccum (Inference.perform order uconfig fuel) infs env = .ok (outs, env')) :
    env.Grows env' := by
  refine (mapAccum_rule (fun e => env.Grows e) (fun _ _ => True) (fun _ _ _ => True)
    (fun _ => trivial) (fun _ _ => trivial) (fun _ _ => trivial) ?_ (.refl env) run).1
  intro inf member e out e' grown call
  have performed := perform_performed (grown.bank.wf wf) ((ready.mono grown) inf member).2 call
  exact ⟨grown.trans performed.grows, trivial, trivial⟩

theorem performAll_safe {infs : List Inference} (wf : env.bank.WellFormed)
    (ready : Performable infs env) (fuel : Nat) :
    Safe (mapAccum (Inference.perform order uconfig fuel) infs env) := by
  refine Safe.mapAccum (fun e => env.Grows e) ?_ ?_ (.refl env)
  · intro inf member e grown
    have now := (ready.mono grown) inf member
    exact perform_safe (grown.bank.wf wf) now.2 now.1 fuel
  · intro inf member e out e' grown call
    exact grown.trans
      (perform_performed (grown.bank.wf wf) ((ready.mono grown) inf member).2 call).grows

end Inferences

end AtpEngine
