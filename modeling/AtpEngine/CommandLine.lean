import AtpEngine.ClausePrinting
import AtpEngine.ProofOrder
import AtpEngine.UncheckedSearch

/-!
The whole of main.cc: arguments, the two output streams, exceptions and the exit
code. The file system is a parameter, and the licence notice that is printed first
is left out. What was written before an exception stays written, so the streams
are a state under the exceptions. A `Char` of an argument or a file stands for one
byte; the signs `¬`, `∨` and `□` that are printed in UTF-8 are one `Char` each.
-/
namespace AtpEngine

open Fuelled ClauseLogic

structure Streams where
  cout : Text := []
  cerr : Text := []
  deriving DecidableEq, Repr

abbrev Program (α : Type) := ExceptT Fault (StateM Streams) α

namespace Program

variable {α β : Type}

def go (program : Program α) (streams : Streams) : Except Fault α × Streams :=
  program.run.run streams

def call (computed : Except Fault α) : Program α := liftExcept computed

def toCout (text : Text) : Program Unit := modify fun s => { s with cout := s.cout ++ text }

def toCerr (text : Text) : Program Unit := modify fun s => { s with cerr := s.cerr ++ text }

end Program

open Program

def exitSuccess : Nat := 0

def exitFailure : Nat := 1

def statusLine (status filepath : Text) : Text :=
  "% SZS status ".toList ++ (status ++ (" for ".toList ++ filepath ++ "\n".toList))

def outputLine (edge filepath : Text) : Text :=
  "% SZS output ".toList ++ edge ++ " Proof for ".toList ++ filepath ++ "\n".toList

/-- The switch over the result. -/
def reportResult (fuel : Nat) (filepath : Text) (result : ProverResult) (prover : Prover) :
    Program Unit :=
  match result with
  | .kTheorem => do
      toCout (statusLine "Theorem".toList filepath ++ "\n".toList)
      match prover.getEmptyClauseId with
      | some eid => do
          let proof ← call (extractProof fuel prover.store eid)
          toCout (outputLine "start".toList filepath)
          let text ← call (formatProof fuel proof prover.store prover.env.bank)
          toCout text
          toCout (outputLine "end".toList filepath)
      | none => pure ()
  | .kSaturation => toCout (statusLine "Satisfiable".toList filepath)
  | .kTimeout => toCout (statusLine "Timeout".toList filepath)

def parsedLine (count : Nat) (filepath : Text) : Text :=
  "% Parsed ".toList ++ digits count ++ " formulas from ".toList ++ filepath ++ "\n".toList

def preparedLine (count : Nat) : Text :=
  "% ".toList ++ digits count ++ " clauses prepared for proving\n".toList

section Program

variable (files : Text → FileRead) (runtime : Runtime)

/-- The body of the try block. -/
def proveFile (fuel : Nat) (filepath : Text) : Program Unit := do
  let parsed ← call (parseTptpFile files filepath)
  toCerr (parsedLine parsed.1.formulas.length filepath)
  let clauses := prepareForProving parsed.1
  toCerr (preparedLine clauses.length)
  let prover ← call (Prover.addClauses runtime {} clauses { env := { bank := parsed.2 } })
  let answer ← call (Prover.prove runtime {} fuel prover)
  reportResult fuel filepath answer.1 answer.2

def cString (bytes : Text) : Text := bytes.takeWhile (· ≠ '\x00')

/-- `e.what()` is written as a C string. -/
def errorLine (what : Text) : Text := "% Error: ".toList ++ cString what ++ "\n".toList

/-- The exceptions of the source are caught; other faults are none. -/
def catchException : Fault → Program Nat
  | .runtimeError what => do
      toCerr (errorLine what)
      pure exitFailure
  | fault => throw fault

def usageLine : Text := "Usage: atp <file.p>\n".toList

def main (fuel : Nat) (argv : List Text) : Program Nat :=
  match argv[1]? with
  | none => do
      toCerr usageLine
      pure exitFailure
  | some filepath =>
      tryCatch (do
        proveFile files runtime fuel filepath
        pure exitSuccess) catchException

end Program

section Streams

variable {α β : Type} {s : Streams}

theorem go_bind (program : Program α) (next : α → Program β) : (program >>= next).go s =
    match program.go s with
    | (.ok a, s') => (next a).go s'
    | (.error fault, s') => (.error fault, s') := by
  change ExceptT.bindCont next (program.go s).1 (program.go s).2 = _
  rcases program.go s with ⟨_ | a, s'⟩ <;> rfl

theorem go_pure (a : α) : (pure a : Program α).go s = (.ok a, s) := rfl

theorem go_call (computed : Except Fault α) : (call computed).go s = (computed, s) := by
  cases computed <;> rfl

theorem go_toCout (text : Text) :
    (toCout text).go s = (.ok (), { s with cout := s.cout ++ text }) :=
  rfl

theorem go_toCerr (text : Text) :
    (toCerr text).go s = (.ok (), { s with cerr := s.cerr ++ text }) :=
  rfl

theorem go_tryCatch (program : Program α) (handler : Fault → Program α) :
    (tryCatch program handler).go s =
      match program.go s with
      | (.ok a, s') => (.ok a, s')
      | (.error fault, s') => (handler fault).go s' := by
  unfold go ExceptT.run StateT.run
  simp only [tryCatch, tryCatchThe, MonadExceptOf.tryCatch, ExceptT.tryCatch, ExceptT.mk,
    bind, StateT.bind]
  rcases program s with ⟨_ | a, s'⟩ <;> rfl

end Streams

section Budgets

theorem extractLoop_persists (store : ClauseStore) (fuel : Nat) (worklist visited : List ClauseId)
    (steps : List ProofStep) : Persists .outOfFuel (extractLoop store fuel worklist visited steps)
      (extractLoop store (fuel + 1) worklist visited steps) := by
  induction fuel generalizing worklist visited steps with
  | zero => exact Or.inl rfl
  | succ fuel ih =>
      cases worklist with
      | nil => exact .refl _
      | cons cid worklist =>
          rw [extractLoop, extractLoop]
          split
          · exact ih _ _ _
          · split
            · exact ih _ _ _
            · exact (Persists.refl _).bind fun c => ih _ _ _

theorem extractProof_persists (store : ClauseStore) (root : ClauseId) (fuel : Nat) :
    Persists .outOfFuel (extractProof fuel store root) (extractProof (fuel + 1) store root) :=
  (extractLoop_persists store fuel _ _ _).bind fun _ => .refl _

theorem termToPretty_persists (bank : TermBank) (fuel id : Nat) (varMap : VarMap) :
    Persists .outOfFuel (termToPretty bank fuel id varMap)
      (termToPretty bank (fuel + 1) id varMap) := by
  induction fuel generalizing id varMap with
  | zero => exact Or.inl rfl
  | succ fuel ih =>
      rw [termToPretty, termToPretty]
      refine (Persists.refl _).bind fun isVar => ?_
      cases isVar with
      | true => exact .refl _
      | false =>
          refine (Persists.refl _).bind fun t => (Persists.refl _).bind fun name => ?_
          dsimp only
          split
          · exact .refl _
          · exact (Persists.mapAccum ih t.args varMap).bind fun _ => .refl _

theorem clauseToString_persists (clause : Clause) (bank : TermBank) (fuel : Nat) :
    Persists .outOfFuel (clauseToString fuel clause bank)
      (clauseToString (fuel + 1) clause bank) := by
  rw [clauseToString, clauseToString]
  split
  · exact .refl _
  · refine (Persists.mapAccum (fun lit varMap => ?_) clause.literals []).bind fun _ => .refl _
    exact (termToPretty_persists bank fuel lit.atom varMap).bind fun _ => .refl _

theorem formatProof_persists (proof : List ProofStep) (store : ClauseStore) (bank : TermBank)
    (fuel : Nat) :
    Persists .outOfFuel (formatProof fuel proof store bank)
      (formatProof (fuel + 1) proof store bank) := by
  refine (Persists.mapM (fun numbered => ?_) _).bind fun _ => .refl _
  exact (Persists.refl _).bind fun c => (clauseToString_persists c bank fuel).bind fun _ => .refl _

theorem proveInput_returns {runtime : Runtime} {config : ProverConfig} {input : Text}
    {out : ProverResult × Prover} :
    Returns (fun fuel => proveInput runtime config fuel input) out ↔
      ∃ clauses env p, readInput input = .ok (clauses, env) ∧
        Prover.addClauses runtime config clauses { env } = .ok p ∧
        Returns (fun fuel => Prover.prove runtime config fuel p) out := by
  constructor
  · intro done
    rcases done.exists with ⟨fuel, run⟩
    rcases proveInput_ok.mp run with ⟨clauses, env, p, read, added, run⟩
    exact ⟨clauses, env, p, read, added, prove_returns_of run⟩
  · rintro ⟨clauses, env, p, read, added, done⟩
    exact done.mono fun fuel run => proveInput_ok.mpr ⟨clauses, env, p, read, added, run⟩

theorem proveInput_returns_of {runtime : Runtime} {config : ProverConfig} {input : Text}
    {fuel : Nat} {out : ProverResult × Prover}
    (run : proveInput runtime config fuel input = .ok out) :
    Returns (fun fuel => proveInput runtime config fuel input) out := by
  rcases proveInput_ok.mp run with ⟨clauses, env, p, read, added, run⟩
  exact proveInput_returns.mpr ⟨clauses, env, p, read, added, prove_returns_of run⟩

theorem proveInput_safe (runtime : Runtime) (config : ProverConfig) (fuel : Nat) (input : Text) :
    Safe (proveInput runtime config fuel input) := by
  have parses : Safe (readInput input) := by
    have sound := parseTptpString_sound input
    refine Safe.bind ?_ fun out _ => Safe.pure _
    intro failed
    rw [failed] at sound
    rcases sound with ⟨what, other⟩
    cases other
  refine parses.bind fun read isRead => ?_
  rcases read with ⟨clauses, env⟩
  have ready := (readInput_ready isRead).1
  rcases addClauses_spec runtime config clauses { env } with ⟨p, added, _⟩
  simp only [added, bind_ok]
  exact (proveLoop_safe ready.wf (StoreInv.init added).1 (RunInv.init ready.valid added)
    fuel .start).bind fun _ _ => Safe.pure _

end Budgets

section Proofs

variable {runtime : Runtime} {config : ProverConfig} {input : Text} {clauses : List Clause}
  {env env' : Env} {p p' : Prover}

theorem isWord_oneLine {w : Text} (word : IsWord w) : OneLine w := fun newline => by
  cases word.chars _ newline

theorem readInput_oneLine (read : readInput input = .ok (clauses, env)) (grows : env.Grows env') :
    env'.bank.symbols.OneLineNames := by
  have wf := (readInput_ready read).1.wf
  intro info member
  rcases List.getElem?_of_mem member with ⟨symbol, entry⟩
  rcases grows.entry wf entry with old | ⟨k, fresh⟩
  · exact isWord_oneLine (readInput_names read (List.mem_of_getElem? old)).1
  · rw [fresh]
    exact isWord_oneLine (freshName_word k).1

/-- The printed derivation of the stored empty clause: a line for each step, the
empty clause last, and every parent by the number of its line. -/
def Prover.PrintsProof (prover : Prover) (text : Text) : Prop :=
  ∃ root c proof, ∃ lines : List Text, prover.getEmptyClauseId = some root ∧
    prover.store.find root = some c ∧ c.literals = [] ∧
    Returns (fun fuel => extractProof fuel prover.store root) proof ∧
    (∃ earlier last, proof = earlier ++ [last] ∧ last.clauseId = root) ∧
    (∀ id, id ∈ proof.map (·.clauseId) ↔ prover.store.Reaches root id) ∧
    text = lines.flatMap (fun line => line ++ ['\n']) ∧ lines.length = proof.length ∧
    ∀ (i : Nat) step line, proof[i]? = some step → lines[i]? = some line →
      FormattedLine prover.store prover.env.bank proof i step line

theorem refutation_printed (read : readInput input = .ok (clauses, env))
    (added : Prover.addClauses runtime config clauses { env } = .ok p)
    (done : Returns (fun fuel => Prover.prove runtime config fuel p) (.kTheorem, p')) :
    ∃ root proof text, p'.getEmptyClauseId = some root ∧
      Returns (fun fuel => extractProof fuel p'.store root) proof ∧
      Returns (fun fuel => formatProof fuel proof p'.store p'.env.bank) text ∧
        p'.PrintsProof text := by
  rcases (readInput_ready read).1 with ⟨wf, _, valid, inputs⟩
  rcases done.exists with ⟨fuel, run⟩
  rcases prove_runInv wf valid added run with ⟨inv, derived, empty⟩
  rcases empty rfl with ⟨root, c, isRoot, found, literals⟩
  rcases extractProof_exact (inv.parentsInRange inputs) ⟨c, found⟩ with
    ⟨proof, extracts, _, members, _, ends, formats⟩
  rcases formats p'.env.bank (derived.grows.bank.wf wf) (readInput_oneLine read derived.grows)
    fun _ _ entry => derived.found entry with ⟨lines, prints, lengths, each⟩
  exact ⟨root, proof, _, isRoot, extracts, prints, root, c, proof, lines, isRoot, found,
    literals, extracts, ends, members, rfl, lengths, each⟩

end Proofs

section Output

/-- What main writes to the standard output for a verdict. -/
inductive Report (filepath : Text) (prover : Prover) : ProverResult → Text → Prop where
  | refuted {text : Text} : prover.PrintsProof text → Report filepath prover .kTheorem
      (statusLine "Theorem".toList filepath ++ "\n".toList ++
        outputLine "start".toList filepath ++ text ++ outputLine "end".toList filepath)
  | saturation : Report filepath prover .kSaturation (statusLine "Satisfiable".toList filepath)
  | timeout : Report filepath prover .kTimeout (statusLine "Timeout".toList filepath)

variable {files : Text → FileRead} {runtime : Runtime} {filepath content : Text}
  {result : ProverResult} {prover : Prover}

variable (filepath) in
theorem reportResult_writes
    (done : Returns (fun fuel => proveInput runtime {} fuel content) (result, prover)) :
    ∃ text, Report filepath prover result text ∧
      (∀ fuel s,
        (∃ s', (reportResult fuel filepath result prover).go s = (.error .outOfFuel, s')) ∨
        (reportResult fuel filepath result prover).go s =
        (.ok (), { s with cout := s.cout ++ text })) ∧
      ∀ᶠ fuel in Filter.atTop, ∀ s, ((reportResult fuel filepath result prover).go s).1 =
        .ok () := by
  cases result with
  | kSaturation =>
      exact ⟨_, .saturation, fun fuel s => Or.inr rfl, .of_forall fun fuel s => rfl⟩
  | kTimeout => exact ⟨_, .timeout, fun fuel s => Or.inr rfl, .of_forall fun fuel s => rfl⟩
  | kTheorem =>
      rcases proveInput_returns.mp done with ⟨clauses, env, p, read, added, proved⟩
      rcases refutation_printed read added proved with
        ⟨root, proof, text, isRoot, extracts, prints, full⟩
      refine ⟨_, .refuted full, fun fuel s => ?_, ?_⟩
      · simp only [reportResult, isRoot, go_bind, go_toCout, go_call]
        rcases extracts.at_fuel (extractProof_persists _ _) fuel with ended | extract
        · exact Or.inl ⟨_, by rw [ended]⟩
        · rw [extract]
          dsimp only
          rcases prints.at_fuel (formatProof_persists _ _ _) fuel with ended | format
          · rw [ended]
            exact Or.inl ⟨_, rfl⟩
          · exact Or.inr (by simp [format])
      · filter_upwards [extracts, prints] with fuel extract format s
        simp only [reportResult, isRoot, go_bind, go_toCout, go_call, extract, format]

def progress (filepath content : Text) : Text :=
  match parseTptpString content with
  | .error _ => []
  | .ok parsed =>
      parsedLine parsed.1.formulas.length filepath ++
        preparedLine (prepareForProving parsed.1).length

theorem proveFile_cases (files : Text → FileRead) (runtime : Runtime) (fuel : Nat)
    (filepath : Text) (s : Streams) :
    (files filepath = .unopened ∧ (proveFile files runtime fuel filepath).go s =
      (.error (.runtimeError ("Failed to open file: ".toList ++ filepath)), s)) ∨
    (∃ what, files filepath = .unreadable what ∧ (proveFile files runtime fuel filepath).go s =
      (.error (.runtimeError what), s)) ∨
    ∃ content, files filepath = .content content ∧
      ((∃ fault, proveInput runtime {} fuel content = .error fault ∧
        (proveFile files runtime fuel filepath).go s =
          (.error fault, { s with cerr := s.cerr ++ progress filepath content })) ∨
      ∃ result prover, proveInput runtime {} fuel content = .ok (result, prover) ∧
        (proveFile files runtime fuel filepath).go s = (reportResult fuel filepath result prover).go
          { s with cerr := s.cerr ++ progress filepath content }) := by
  simp only [proveFile, go_bind, go_call, go_toCerr, parseTptpFile]
  cases opened : files filepath with
  | unopened => exact Or.inl ⟨rfl, rfl⟩
  | unreadable what => exact Or.inr (Or.inl ⟨what, rfl, rfl⟩)
  | content content =>
      refine Or.inr (Or.inr ⟨content, rfl, ?_⟩)
      cases parsed : parseTptpString content with
      | error fault =>
          refine Or.inl ⟨fault, ?_, by simp [progress, parsed]⟩
          simp only [proveInput, readInput, parsed, bind_error]
      | ok out =>
          have read : readInput content = .ok (prepareForProving out.1, { bank := out.2 }) := by
            simp only [readInput, parsed, bind_ok]
            rfl
          have told : s.cerr ++ progress filepath content =
              s.cerr ++ parsedLine out.1.formulas.length filepath ++
                preparedLine (prepareForProving out.1).length := by
            simp [progress, parsed]
          rw [told]
          cases added : Prover.addClauses runtime {} (prepareForProving out.1)
            { env := { bank := out.2 } } with
          | error fault =>
              refine Or.inl ⟨fault, ?_, by simp only [parsed, added]⟩
              simp only [proveInput, read, bind_ok, added, bind_error]
          | ok start =>
              have proves :
                  proveInput runtime {} fuel content = Prover.prove runtime {} fuel start := by
                simp only [proveInput, read, bind_ok, added]
              rw [proves]
              cases proved : Prover.prove runtime {} fuel start with
              | error fault => exact Or.inl ⟨fault, rfl, by simp only [parsed, added, proved]⟩
              | ok answer =>
                  exact Or.inr ⟨answer.1, answer.2, rfl, by simp only [parsed, added, proved]⟩

variable (files runtime)

/-- What a run of main can leave behind: an exit code and the contents of the streams. -/
inductive MainOutcome (fuel : Nat) (argv : List Text) : Nat → Streams → Prop where
  | usage : argv[1]? = none → MainOutcome fuel argv exitFailure ⟨[], usageLine⟩
  | unopened {filepath : Text} : argv[1]? = some filepath → files filepath = .unopened →
      MainOutcome fuel argv exitFailure
        ⟨[], errorLine ("Failed to open file: ".toList ++ filepath)⟩
  | unreadable {filepath what : Text} : argv[1]? = some filepath →
      files filepath = .unreadable what →
      MainOutcome fuel argv exitFailure ⟨[], errorLine what⟩
  | thrown {filepath content what : Text} : argv[1]? = some filepath →
      files filepath = .content content → proveInput runtime {} fuel content =
      .error (.runtimeError what) →
      MainOutcome fuel argv exitFailure ⟨[], progress filepath content ++ errorLine what⟩
  | reported {filepath content text : Text} {result : ProverResult} {prover : Prover} :
      argv[1]? = some filepath → files filepath = .content content →
      proveInput runtime {} fuel content = .ok (result, prover) →
      Report filepath prover result text →
      MainOutcome fuel argv exitSuccess ⟨text, progress filepath content⟩

variable {files runtime}

theorem main_outcome (fuel : Nat) (argv : List Text) :
    (∃ streams, (main files runtime fuel argv).go {} = (.error .outOfFuel, streams)) ∨
    ∃ code streams, (main files runtime fuel argv).go {} = (.ok code, streams) ∧
      MainOutcome files runtime fuel argv code streams := by
  rw [main]
  cases argument : argv[1]? with
  | none => exact Or.inr ⟨_, _, rfl, .usage argument⟩
  | some filepath =>
      simp only [go_tryCatch, go_bind, go_pure]
      rcases proveFile_cases files runtime fuel filepath {} with ⟨missing, outcome⟩ |
        ⟨what, unread, outcome⟩ |
        ⟨content, opened, ⟨fault, failed, outcome⟩ | ⟨result, prover, proved, reports⟩⟩
      · rw [outcome]
        exact Or.inr ⟨_, _, rfl, .unopened argument missing⟩
      · rw [outcome]
        exact Or.inr ⟨_, _, rfl, .unreadable argument unread⟩
      · rw [outcome]
        cases fault with
        | runtimeError what => exact Or.inr ⟨_, _, rfl, .thrown argument opened failed⟩
        | outOfFuel => exact Or.inl ⟨_, rfl⟩
        | outOfBounds => exact absurd failed (proveInput_safe runtime {} fuel content)
      · rcases reportResult_writes filepath (proveInput_returns_of proved) with
          ⟨text, report, writes, _⟩
        rw [reports]
        rcases writes fuel { cerr := [] ++ progress filepath content } with ⟨s, ended⟩ | written
        · rw [ended]
          exact Or.inl ⟨_, rfl⟩
        · rw [written]
          exact Or.inr ⟨_, _, rfl, .reported argument opened proved report⟩

theorem main_returns {argv : List Text} (argument : argv[1]? = some filepath)
    (opened : files filepath = .content content)
    (done : Returns (fun fuel => proveInput runtime {} fuel content) (result, prover)) :
    ∃ text, Report filepath prover result text ∧ ∀ᶠ fuel in Filter.atTop,
      (main files runtime fuel argv).go {} =
      (.ok exitSuccess, ⟨text, progress filepath content⟩) := by
  rcases reportResult_writes filepath done with ⟨text, report, writes, returns⟩
  refine ⟨text, report, ?_⟩
  filter_upwards [done, returns] with fuel proved returned
  simp only [main, argument, go_tryCatch, go_bind, go_pure]
  rcases proveFile_cases files runtime fuel filepath {} with ⟨missing, _⟩ | ⟨_, unread, _⟩ |
    ⟨content', opened', ⟨fault, failed, _⟩ | ⟨result', prover', proved', reports⟩⟩
  · rw [opened] at missing
    cases missing
  · rw [opened] at unread
    cases unread
  · rcases FileRead.content.inj (opened.symm.trans opened') with rfl
    rw [proved] at failed
    cases failed
  · rcases FileRead.content.inj (opened.symm.trans opened') with rfl
    rcases Prod.mk.inj (Except.ok.inj (proved.symm.trans proved')) with ⟨rfl, rfl⟩
    rw [reports]
    rcases writes fuel { cerr := [] ++ progress filepath content } with ⟨s, ended⟩ | written
    · have never := returned { cerr := [] ++ progress filepath content }
      rw [ended] at never
      cases never
    · rw [written]
      rfl

end Output

/-- The behaviour of the program on every file system and every argument list. It
ends as `MainOutcome` says or runs for ever, and it reports each verdict of the
search on the file it is given. -/
theorem main_exact (files : Text → FileRead) (runtime : Runtime) (argv : List Text) :
    (∀ fuel,
      (∃ streams, (main files runtime fuel argv).go {} = (.error .outOfFuel, streams)) ∨
      ∃ code streams, (main files runtime fuel argv).go {} = (.ok code, streams) ∧
        MainOutcome files runtime fuel argv code streams) ∧
    ∀ filepath content result prover, argv[1]? = some filepath →
      files filepath = .content content →
      Returns (fun fuel => proveInput runtime {} fuel content) (result, prover) →
      ∃ text, Report filepath prover result text ∧ ∀ᶠ fuel in Filter.atTop,
        (main files runtime fuel argv).go {} =
        (.ok exitSuccess, ⟨text, progress filepath content⟩) :=
  ⟨fun fuel => main_outcome fuel argv, fun _ _ _ _ argument opened done =>
    main_returns argument opened done⟩

def oneFile (name content : Text) : Text → FileRead := fun filepath =>
  if filepath = name then .content content else .unopened

theorem main_exact_sample : ∃ prover text, Report "g.p".toList prover .kTheorem text ∧
    ∀ᶠ fuel in Filter.atTop,
      (main (oneFile "g.p".toList groundInput) .plain fuel ["atp".toList, "g.p".toList]).go {} =
        (.ok exitSuccess, ⟨text, progress "g.p".toList groundInput⟩) := by
  have answer : Prod.fst <$> proveInput .plain {} 50 groundInput = .ok .kTheorem := by
    decide +kernel
  rcases map_ok_iff.mp answer with ⟨⟨_, prover⟩, run, rfl⟩
  exact ⟨prover,
    (main_exact (oneFile "g.p".toList groundInput) .plain ["atp".toList, "g.p".toList]).2 _ _ _
    prover rfl rfl (proveInput_returns_of run)⟩

/-- A NUL of the input ends the message that quotes it. -/
example : (main (oneFile "n.p".toList "cnf(a,axiom,q\x00).".toList) .plain 50
    ["atp".toList, "n.p".toList]).go {} = (.ok exitFailure,
      ⟨[], "% Error: Parse error at line 1, col 15: unexpected token '\n".toList⟩) := by
  decide +kernel

section Verdicts

variable {files : Text → FileRead} {runtime : Runtime} {filepath : Text} {prover : Prover}
  {result : ProverResult} {text : Text}

theorem statusLine_starts {a b : Char} {common left right rest : Text}
    (starts : statusLine (common ++ a :: left) filepath <+:
      statusLine (common ++ b :: right) filepath ++ rest) : a = b := by
  unfold statusLine at starts
  generalize "% SZS status ".toList = head at starts
  generalize " for ".toList ++ filepath ++ "\n".toList = tail at starts
  simp only [List.append_assoc, List.prefix_append_right_inj, List.cons_append,
    List.cons_prefix_cons] at starts
  exact starts.1

theorem Report.status (report : Report filepath prover result text) :
    (statusLine "Theorem".toList filepath <+: text → result = .kTheorem) ∧
      (statusLine "Satisfiable".toList filepath <+: text → result = .kSaturation) := by
  have apart : ∀ {a b : Char} (common left right : Text) {rest : Text}, a ≠ b →
      ¬ statusLine (common ++ a :: left) filepath <+:
        statusLine (common ++ b :: right) filepath ++ rest :=
    fun _ _ _ _ apart starts => apart (statusLine_starts starts)
  have whole : ∀ status, statusLine status filepath = statusLine status filepath ++ [] :=
    fun status =>
    (List.append_nil _).symm
  cases report with
  | refuted _ =>
      refine ⟨fun _ => rfl, fun starts => absurd starts ?_⟩
      rw [List.append_assoc, List.append_assoc, List.append_assoc]
      exact apart [] "atisfiable".toList "heorem".toList (show 'S' ≠ 'T' by decide)
  | saturation =>
      refine ⟨fun starts => absurd starts ?_, fun _ => rfl⟩
      rw [whole "Satisfiable".toList]
      exact apart [] "heorem".toList "atisfiable".toList (show 'T' ≠ 'S' by decide)
  | timeout =>
      rw [whole "Timeout".toList]
      refine ⟨fun starts => absurd starts ?_, fun starts => absurd starts ?_⟩
      · exact apart ['T'] "eorem".toList "meout".toList (show 'h' ≠ 'i' by decide)
      · exact apart [] "atisfiable".toList "imeout".toList (show 'S' ≠ 'T' by decide)

/-- What the status line says of the file is true. Theorem: its clauses have no model
over infinite trees. Satisfiable: they have one there, and a model over finite trees. -/
theorem main_verdicts (files : Text → FileRead) (runtime : Runtime) {fuel : Nat}
    {argv : List Text} {streams : Streams}
    (run : (main files runtime fuel argv).go {} = (.ok exitSuccess, streams)) :
    ∃ filepath content clauses env, argv[1]? = some filepath ∧
      files filepath = .content content ∧
      readInput content = .ok (clauses, env) ∧
      (statusLine "Theorem".toList filepath <+: streams.cout → FewArguments content →
        ¬ TreeModelled (env.bank.readAll {c | c ∈ clauses})) ∧
      (statusLine "Satisfiable".toList filepath <+: streams.cout → env.Fresh →
        TreeModelled (env.bank.readAll {c | c ∈ clauses}) ∧
          Satisfiable.{0} (env.bank.readAll {c | c ∈ clauses})) := by
  rcases main_outcome fuel argv with ⟨_, ended⟩ | ⟨code, _, exits, outcome⟩
  · rw [run] at ended
    cases ended
  rcases Prod.mk.inj (run.symm.trans exits) with ⟨isCode, rfl⟩
  replace isCode := Except.ok.inj isCode
  cases outcome with
  | usage _ => cases isCode
  | unopened _ _ => cases isCode
  | unreadable _ _ => cases isCode
  | thrown _ _ _ => cases isCode
  | @reported filepath content text result prover argument opened proved report =>
      rcases proveInput_ok.mp proved with ⟨clauses, env, p, read, added, proves⟩
      rcases readInput_ready read with ⟨ready, small, _⟩
      have history : History runtime {} env clauses [result] prover :=
        .proved (.added .fresh ready.valid added) proves
      rcases history.inv ready.wf with ⟨budget, log, inv⟩
      have same := inv.run.readAll ready.wf ready.valid
      refine ⟨filepath, content, clauses, env, argument, opened, read, fun starts few => ?_,
        fun starts fresh => ?_⟩
      · rcases report.status.1 starts with rfl
        rw [← same]
        rintro ⟨truth, models⟩
        exact inv.no_model_cycles InfiniteTree.node_solvesCycles ready.wf (small few)
          (by simp) truth models
      · rcases report.status.2 starts with rfl
        rw [← same]
        have done := saturation_done proves
        have complete : CompleteIn ({} : ProverConfig).uconfig InfiniteTree.node :=
          .unchecked rfl InfiniteTree.node_free
        exact ⟨inv.modelled complete ready.wf fresh (by simp) done,
          inv.satisfiable ready.wf fresh (by simp) done⟩

theorem main_verdicts_sample : ∃ clauses env, readInput equalityInput = .ok (clauses, env) ∧
    ¬ TreeModelled (env.bank.readAll {c | c ∈ clauses}) := by
  have status :
      (fun out => (out.1, (statusLine "Theorem".toList "e.p".toList).isPrefixOf out.2.cout))
      ((main (oneFile "e.p".toList equalityInput) .plain 50 ["atp".toList, "e.p".toList]).go {}) =
      (.ok exitSuccess, true) := by decide +kernel
  rcases Prod.mk.inj status with ⟨exits, starts⟩
  rcases main_verdicts _ _ (Prod.ext exits rfl) with
    ⟨_, content, clauses, env, argument, opened, read, refutes, _⟩
  rcases Option.some.inj argument with rfl
  rcases FileRead.content.inj opened with rfl
  exact ⟨clauses, env, read, refutes (List.isPrefixOf_iff_prefix.mp starts)
    fun _ renders => renders.bounded (by decide +kernel)⟩

example : (main (oneFile "g.p".toList groundInput) .plain 50 ["atp".toList, "g.p".toList]).go {} =
    (.ok exitSuccess, ⟨("% SZS status Theorem for g.p\n\n% SZS output start Proof for g.p\n" ++
      "1. [input] ¬p(a)\n2. [input] p(a)\n3. [resolution] □  [1, 2]\n" ++
      "% SZS output end Proof for g.p\n").toList,
      "% Parsed 2 formulas from g.p\n% 2 clauses prepared for proving\n".toList⟩) := by
    decide +kernel

end Verdicts

end AtpEngine
