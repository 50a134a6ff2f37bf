import Mathlib
import Lox.Proofs.Run.Truncation
import Lox.Proofs.Session.Limit

/-!
A program whose output fails from some line on has written what it would have written up to there,
and ends with the failure of the line that came next. A program that does not write as much cannot
tell the difference.
-/

namespace Lox

open Run

namespace Sink

def accepting (sink : Sink) : Sink :=
  { sink with refusal := fun _ => none, flushFault := fun _ => none }

def acceptingFirst (sink : Sink) (count : Nat) (cause : Nat → HostFault) : Sink :=
  { sink.accepting with refusal := Cutoff.refusal ⟨sink.offered + count, cause⟩ }

end Sink

theorem truncates_executeProgram (cutoff : Cutoff) (fuel : Nat) (stmts : List Stmt) :
    Truncates cutoff (executeProgram fuel stmts) := (Task.executeProgram fuel stmts).truncates cutoff

theorem truncates_interpret (cutoff : Cutoff) (fuel : Nat) (stmts : List Stmt) :
    Truncates cutoff (interpret fuel stmts) := by
  intro machine accepting
  obtain ⟨texts, kept, output, offered, passed, stopped⟩ :=
    truncates_executeProgram cutoff fuel stmts machine accepting
  refine ⟨texts, ?_, ?_, ?_, ?_, ?_⟩
  · rw [final_interpret]
    exact kept
  · rw [final_interpret]
    exact output
  · rw [final_interpret]
    exact offered
  · intro within
    rw [interpret_eq, interpret_eq, passed within]
    cases executeProgram fuel stmts machine with
    | error abort after => rfl
    | ok value after =>
        have flushed : (after.cut cutoff).host.sink.flush.1 = after.host.sink.flush.1 := rfl
        simp only [leaving, flushed]
        cases after.host.sink.flush.1 <;> rfl
  · intro within reached
    obtain ⟨place, stop, ended, shown⟩ := stopped within reached
    exact ⟨place, stop.flushed, by rw [interpret_eq, ended], shown⟩

section Failures

variable {fuel : Nat} {stmts : List Stmt} {machine : Machine} {cutoff : Cutoff} {cause : HostFault}
  {place : Option Token}

theorem flush_of_accepting (accepting : machine.Accepting) :
    machine.host.sink.flush.1 = .ok () := by
  simp only [Sink.flush, accepting.2]

theorem fails_of_interpret {error : RuntimeError}
    (flushes : ∀ value after, executeProgram fuel stmts machine = .ok value after →
      after.host.sink.flush.1 = .ok ())
    (failed : (interpret fuel stmts).Fails machine error) :
    (Task.executeProgram fuel stmts).Fails machine error := by
  obtain ⟨after, ended⟩ := failed
  rw [interpret_eq] at ended
  cases ran : executeProgram fuel stmts machine with
  | error abort middle =>
      simp only [ran] at ended
      cases ended
      exact ⟨middle, ran⟩
  | ok value middle =>
      simp only [ran, flushes value middle ran] at ended
      cases ended

theorem not_fails_interpret (accepting : machine.Accepting) :
    ¬ (interpret fuel stmts).Fails machine ⟨.outputFailed cause, place⟩ := by
  intro failed
  obtain ⟨texts, truncated⟩ :=
    truncates_executeProgram ⟨0, fun _ => cause⟩ fuel stmts machine accepting
  refine Task.not_fails_outputFailed id accepting (fails_of_interpret ?_ failed)
  intro value after ran
  exact flush_of_accepting (final_of_ok ran ▸ truncated.accepting)

theorem offers_of_interpret (accepting : machine.Accepting)
    (within : machine.offered ≤ cutoff.bound)
    (failed : (interpret fuel stmts).Fails (machine.cut cutoff) ⟨.outputFailed cause, place⟩) :
    cause = cutoff.cause cutoff.bound ∧
      ∃ other later sink token, Reaches (.executeProgram fuel stmts) machine other later ∧
        Offers other later sink token ∧ sink.offered = cutoff.bound ∧ place = some token := by
  refine Task.offers_of_fails id accepting within (fails_of_interpret ?_ failed)
  intro value after ran
  obtain ⟨last, -, rfl, accepting', -⟩ :=
    (truncates_executeProgram cutoff fuel stmts).ended accepting within ran
  have flushed : last.host.sink.flush.1 = .ok () := flush_of_accepting accepting'
  exact flushed

end Failures

namespace Session

def writingTo (session : Session) (sink : Sink) : Session :=
  { session with machine := session.machine.onto sink }

def cut (session : Session) (cutoff : Cutoff) : Session :=
  { session with machine := session.machine.cut cutoff }

def analyzed (session : Session) (source : String) : Session :=
  if (session.parse source).2.hadError then (session.parse source).2 else session.prepared source

/-- What is run of a source: nothing if there are static faults. -/
def program (fuel : Nat) (session : Session) (source : String) : Run Unit :=
  if (session.parse source).2.hadError then pure ()
  else if (session.prepared source).hadError then pure ()
  else interpret fuel (session.parse source).1

/-- The machine that a source has come to with so much fuel, however its run ends. -/
def reached (fuel : Nat) (session : Session) (source : String) : Machine :=
  (session.program fuel source).final (session.analyzed source).machine

def Raised (before after : Session) (error : RuntimeError) : Prop :=
  ∃ found, after.diagnostics.errors = before.diagnostics.errors ++ found ++ [.runtime error]

variable {session after : Session} {source : String} {fuel : Nat} {error : RuntimeError}
  {cutoff : Cutoff}

theorem run_eq_program (session : Session) (fuel : Nat) (source : String) :
    session.run fuel source =
      ((session.analyzed source).performReporting (session.program fuel source)).map Prod.snd := by
  rw [run_eq]
  unfold analyzed program
  split
  · rfl
  · split <;> rfl

theorem errors_analyzed (session : Session) (source : String) :
    ∃ found, (session.analyzed source).diagnostics.errors = session.diagnostics.errors ++ found ∧
      ∀ fault ∈ found, fault.isStatic = true := by
  have lexical (errors : List LexicalError) : ∀ fault ∈ errors.map Diagnostic.lexical,
      fault.isStatic = true := by
    simp [Diagnostic.isStatic]
  have syntactic (errors : List SyntaxError) : ∀ fault ∈ errors.map Diagnostic.syntactic,
      fault.isStatic = true := by
    simp [Diagnostic.isStatic]
  have scoping (errors : List ScopeError) : ∀ fault ∈ errors.map Diagnostic.scoping,
      fault.isStatic = true := by
    simp [Diagnostic.isStatic]
  unfold analyzed
  split
  · simp only [parse, tokenize, report, Diagnostics.errors_report, List.append_assoc]
    exact ⟨_, rfl, List.forall_mem_append.mpr ⟨lexical _, syntactic _⟩⟩
  · simp only [prepared, resolve, parse, tokenize, report, Diagnostics.errors_report,
      List.append_assoc]
    exact ⟨_, rfl, List.forall_mem_append.mpr ⟨lexical _, List.forall_mem_append.mpr
      ⟨syntactic _, scoping _⟩⟩⟩

theorem raised_iff :
    (∃ after, session.run fuel source = some after ∧ session.Raised after error) ↔
      (session.program fuel source).Fails (session.analyzed source).machine error := by
  obtain ⟨faults, reported, static⟩ := session.errors_analyzed source
  rw [run_eq_program]
  constructor
  · rintro ⟨after, ended, found, raised⟩
    obtain ⟨⟨result, last⟩, performed, rfl⟩ := Option.map_eq_some_iff.mp ended
    obtain ⟨value, machine, ran, -, rfl⟩ | ⟨error', machine, ran, -, rfl⟩ :=
      performReporting_cases performed
    · -- without an error only static faults have been reported
      have last : Diagnostic.runtime error ∈ faults := by
        rw [reported, List.append_assoc] at raised
        rw [List.append_cancel_left raised]
        simp
      cases static _ last
    · simp only [report, Diagnostics.errors_report, reported] at raised
      rw [← List.concat_eq_append, ← List.concat_eq_append] at raised
      cases (List.of_concat_eq_concat raised).2
      exact ⟨machine, ran⟩
  · rintro ⟨machine, ran⟩
    let last := { session.analyzed source with machine }.report [.runtime error]
    refine ⟨last, ?_, faults, ?_⟩
    · simp only [performReporting, perform, ran, Option.map_some, last]
    · simp only [last, report, Diagnostics.errors_report, reported]

theorem analyzed_cut (session : Session) (source : String) :
    (session.cut cutoff).analyzed source = (session.analyzed source).cut cutoff := by
  have read : ((session.cut cutoff).parse source).2 = (session.parse source).2.cut cutoff := rfl
  have resolved : (session.cut cutoff).prepared source = (session.prepared source).cut cutoff := rfl
  unfold analyzed
  rw [read, resolved]
  exact (apply_ite (fun session : Session => session.cut cutoff) _ _ _).symm

theorem performReporting_cut {α : Type} {step : Run α}
    (same : step (session.machine.cut cutoff) =
      leaving id (·.cut cutoff) (step session.machine)) :
    (session.cut cutoff).performReporting step =
      (session.performReporting step).map fun ended => (ended.1, ended.2.cut cutoff) := by
  have started : (session.cut cutoff).machine = session.machine.cut cutoff := rfl
  simp only [performReporting, perform, started, same]
  rcases step session.machine with ⟨value, after⟩ | ⟨error | _, after⟩ <;> rfl

theorem truncates_program (cutoff : Cutoff) (session : Session) (source : String) (fuel : Nat) :
    Truncates cutoff (session.program fuel source) := by
  unfold program
  split
  · exact .pure _
  · split
    · exact .pure _
    · exact truncates_interpret cutoff fuel _

theorem accepting_analyzed (accepting : session.machine.Accepting) (source : String) :
    (session.analyzed source).machine.Accepting := by
  unfold analyzed
  split <;> exact accepting

theorem sink_analyzed (session : Session) (source : String) :
    (session.analyzed source).machine.host.sink = session.machine.host.sink := by
  unfold analyzed
  split <;> rfl

theorem not_fails_program {cause : HostFault} {place : Option Token}
    (accepting : session.machine.Accepting) :
    ¬ (session.program fuel source).Fails (session.analyzed source).machine
      ⟨.outputFailed cause, place⟩ := by
  have ready := accepting_analyzed accepting source
  unfold program
  split
  · exact not_fails_pure _
  · split
    · exact not_fails_pure _
    · exact not_fails_interpret ready

theorem offers_of_program {cause : HostFault} {place : Option Token}
    (accepting : session.machine.Accepting) (within : session.machine.offered ≤ cutoff.bound)
    (failed : (session.program fuel source).Fails ((session.analyzed source).machine.cut cutoff)
      ⟨.outputFailed cause, place⟩) :
    cause = cutoff.cause cutoff.bound ∧
      ∃ task moment sink token,
        Reaches (.executeProgram fuel (session.parse source).1) (session.prepared source).machine
          task moment ∧
        Offers task moment sink token ∧ sink.offered = cutoff.bound ∧ place = some token := by
  unfold program at failed
  split at failed
  · exact absurd failed (not_fails_pure _)
  · rename_i read
    split at failed
    · exact absurd failed (not_fails_pure _)
    · rw [analyzed, if_neg read] at failed
      exact offers_of_interpret accepting within failed

/-- Output failures truncate the output and change nothing else. The first of two sinks takes
`count` lines, the second all of them. What the first run writes is what the second one begins with;
the first run ends with a failure to write exactly if the second one attempts more lines, and the
failure lies where the next line is offered, by a print statement or by a call of the host; and if
it does not fail, it ends as the second run does, in the same state but for what the sink would
refuse. -/
theorem output_failures_truncate (session : Session) (source : String) (fuel count : Nat)
    (cause : Nat → HostFault) :
    let sink := session.machine.host.sink
    let failing := session.writingTo (sink.acceptingFirst count cause)
    let whole := session.writingTo sink.accepting
    ∃ texts,
      (whole.reached fuel source).output = session.output ++ texts ∧
      (whole.reached fuel source).offered = session.machine.offered + texts.length ∧
      (failing.reached fuel source).output = session.output ++ texts.take count ∧
      ((∃ after fault place, failing.run fuel source = some after ∧
          failing.Raised after ⟨.outputFailed fault, place⟩) ↔ count < texts.length) ∧
      (∀ after fault place, failing.run fuel source = some after →
        failing.Raised after ⟨.outputFailed fault, place⟩ →
          fault = cause (session.machine.offered + count) ∧
          ∃ task moment last token,
            Reaches (.executeProgram fuel (session.parse source).1) (whole.prepared source).machine
              task moment ∧
            Offers task moment last token ∧
            last.offered = session.machine.offered + count ∧ place = some token) ∧
      (texts.length ≤ count →
        failing.run fuel source = (whole.run fuel source).map fun after =>
          after.writingTo { after.machine.host.sink with
            refusal := (sink.acceptingFirst count cause).refusal }) := by
  intro sink failing whole
  let cutoff : Cutoff := ⟨session.machine.offered + count, cause⟩
  have cutAt : failing = whole.cut cutoff := rfl
  have accepting : whole.machine.Accepting := ⟨rfl, rfl⟩
  have within : whole.machine.offered ≤ cutoff.bound := Nat.le_add_right _ _
  have output : (whole.analyzed source).machine.output = session.output := by
    rw [Machine.output, sink_analyzed]
    rfl
  have offered : (whole.analyzed source).machine.offered = session.machine.offered := by
    rw [Machine.offered, sink_analyzed]
    rfl
  have within' : (whole.analyzed source).machine.offered ≤ cutoff.bound := offered.trans_le within
  obtain ⟨texts, truncated⟩ := truncates_program cutoff whole source fuel
    (whole.analyzed source).machine (accepting_analyzed accepting source)
  have raised_iff_fails (fault : HostFault) (place : Option Token) :
      (∃ after, failing.run fuel source = some after ∧
        failing.Raised after ⟨.outputFailed fault, place⟩) ↔
      (whole.program fuel source).Fails ((whole.analyzed source).machine.cut cutoff)
        ⟨.outputFailed fault, place⟩ := by
    rw [raised_iff, cutAt, analyzed_cut]
    exact Iff.rfl
  refine ⟨texts, ?_, ?_, ?_, ?_, ?_, ?_⟩
  · rw [reached, truncated.output, output]
  · rw [reached, truncated.offered, offered]
  · have remaining : cutoff.bound - (whole.analyzed source).machine.offered = count := by
      simp only [cutoff, offered]
      omega
    rw [reached, cutAt, analyzed_cut, ← output, ← remaining]
    exact truncated.output_cut within'
  · have failures := truncated.fails_iff within' fun _ _ => not_fails_program accepting
    simp only [cutoff, offered, Nat.add_lt_add_iff_left] at failures
    rw [← failures]
    constructor
    · rintro ⟨after, fault, place, ended⟩
      exact ⟨fault, place, (raised_iff_fails fault place).mp ⟨after, ended⟩⟩
    · rintro ⟨fault, place, failed⟩
      obtain ⟨after, ended⟩ := (raised_iff_fails fault place).mpr failed
      exact ⟨after, fault, place, ended⟩
  · intro after fault place ended raised
    have failed := (raised_iff_fails fault place).mp ⟨after, ended, raised⟩
    exact offers_of_program accepting within failed
  · intro le
    have passed := truncated.passed (by simp only [cutoff, offered]; omega)
    rw [cutAt, run_eq_program, run_eq_program, analyzed_cut]
    have performed := performReporting_cut passed
    rw [show (whole.cut cutoff).program fuel source = whole.program fuel source from rfl, performed,
      Option.map_map, Option.map_map]
    rfl

end Session

end Lox
