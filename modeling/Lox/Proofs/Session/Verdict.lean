import Mathlib
import Lox.CommandLine
import Lox.Proofs.Scoping.History

/-!
How an input ends. Either it adds no fault; or it adds static faults only, and then nothing of it has
been executed; or it adds one runtime error and nothing else. The flags of the diagnostics say which
kinds of faults are on record, after any steps of a session, and so does the status of the command that
runs a file.
-/

namespace Lox

namespace Diagnostics

structure Flagged (diagnostics : Diagnostics) : Prop where
  static : diagnostics.hadError = true ↔ ∃ error ∈ diagnostics.errors, error.isStatic = true
  runtime : diagnostics.hadRuntimeError = true ↔ ∃ error, .runtime error ∈ diagnostics.errors

theorem isStatic_eq_false {diagnostic : Diagnostic} :
    diagnostic.isStatic = false ↔ ∃ error, .runtime error = diagnostic := by
  cases diagnostic <;> simp [Diagnostic.isStatic]

theorem Flagged.report {diagnostics : Diagnostics} (flagged : diagnostics.Flagged)
    (found : List Diagnostic) : (diagnostics.report found).Flagged where
  static := by
    simp only [hadError_report, Bool.or_eq_true, flagged.static, List.any_eq_true, errors_report,
      List.mem_append, or_and_right, exists_or]
  runtime := by
    have inFound : (found.any fun error => !error.isStatic) = true ↔
        ∃ error, .runtime error ∈ found := by
      simp only [List.any_eq_true, Bool.not_eq_true', isStatic_eq_false]
      constructor
      · rintro ⟨_, member, error, rfl⟩
        exact ⟨error, member⟩
      · rintro ⟨error, member⟩
        exact ⟨_, member, error, rfl⟩
    simp only [hadRuntimeError_report, Bool.or_eq_true, flagged.runtime, inFound, errors_report,
      List.mem_append, exists_or]

theorem flagged_empty : Flagged {} := ⟨by simp, by simp⟩

end Diagnostics

namespace Session

open Diagnostics (Flagged)

theorem flagged_of_perform {α : Type} {session after : Session} {step : Run α}
    {result : Except RuntimeError α} (performed : session.perform step = some (result, after)) :
    after.diagnostics = session.diagnostics := by
  unfold perform at performed
  split at performed
  · cases performed
    rfl
  · cases performed
    rfl
  · cases performed

theorem errors_of_performReporting {α : Type} {session after : Session} {step : Run α}
    {result : Option α} (performed : session.performReporting step = some (result, after)) :
    (result.isSome ∧ after.diagnostics = session.diagnostics) ∨
      result = none ∧ ∃ error, after.diagnostics = session.diagnostics.report [.runtime error] := by
  obtain ⟨value, machine, -, rfl, rfl⟩ | ⟨error, machine, -, rfl, rfl⟩ :=
    performReporting_cases performed
  · exact .inl ⟨rfl, rfl⟩
  · exact .inr ⟨rfl, error, rfl⟩

theorem Flagged.performReporting {α : Type} {session after : Session} {step : Run α}
    {result : Option α} (flagged : session.diagnostics.Flagged)
    (performed : session.performReporting step = some (result, after)) :
    after.diagnostics.Flagged := by
  rcases errors_of_performReporting performed with ⟨-, same⟩ | ⟨-, error, same⟩
  · exact same ▸ flagged
  · exact same ▸ flagged.report _

theorem Flagged.run {session after : Session} {fuel : Nat} {source : String}
    (flagged : session.diagnostics.Flagged) (ran : session.run fuel source = some after) :
    after.diagnostics.Flagged := by
  have parsed : (session.parse source).2.diagnostics.Flagged := (flagged.report _).report _
  simp only [Session.run] at ran
  split at ran
  · cases ran
    exact parsed
  · split at ran
    · cases ran
      exact parsed.report _
    · simp only [Option.map_eq_some_iff] at ran
      obtain ⟨⟨result, last⟩, performed, rfl⟩ := ran
      refine Flagged.performReporting ?_ performed
      exact parsed.report _

theorem Flagged.evaluate {session after : Session} {fuel : Nat} {source : String}
    {value : Option Value} (flagged : session.diagnostics.Flagged)
    (evaluated : session.evaluate fuel source = some (value, after)) :
    after.diagnostics.Flagged := by
  have parsed : (session.parseExpression source).2.diagnostics.Flagged :=
    (flagged.report _).report _
  simp only [Session.evaluate] at evaluated
  split at evaluated
  · rename_i found read
    cases evaluated
    simpa only [read] using parsed
  · rename_i expr found read
    rw [read] at parsed
    split at evaluated
    · cases evaluated
      exact parsed
    · split at evaluated
      · cases evaluated
        exact parsed.report _
      · refine Flagged.performReporting ?_ evaluated
        exact parsed.report _

theorem Reachable.flagged {session : Session} (reachable : session.Reachable) :
    session.diagnostics.Flagged := by
  induction reachable with
  | new host maxCallDepth => exact Diagnostics.flagged_empty
  | report found _ ih => exact ih.report found
  | clear => exact Diagnostics.flagged_empty
  | reset _ ih | writeLine _ _ ih => exact ih
  | tokenize _ _ ih | resolve _ _ ih => exact ih.report _
  | parse _ _ ih | parseExpression _ _ ih => exact (ih.report _).report _
  | perform task _ performed ih => exact flagged_of_perform performed ▸ ih
  | run fuel source _ ran ih => exact Flagged.run ih ran
  | evaluate fuel source _ evaluated ih => exact Flagged.evaluate ih evaluated

end Session

/-- Faults that are found before an input is executed: those of its tokens and then those of its
syntax, or else those of its names. -/
inductive StaticFaults : List Diagnostic → Prop
  | reading (lexical : List LexicalError) (syntactic : List SyntaxError) :
      StaticFaults (lexical.map .lexical ++ syntactic.map .syntactic)
  | scoping (errors : List ScopeError) : StaticFaults (errors.map .scoping)

theorem StaticFaults.isStatic {found : List Diagnostic} (faults : StaticFaults found) :
    ∀ error ∈ found, error.isStatic = true := by
  cases faults with
  | reading lexical syntactic =>
      intro error member
      rcases List.mem_append.mp member with member | member
      · obtain ⟨fault, -, rfl⟩ := List.mem_map.mp member
        rfl
      · obtain ⟨fault, -, rfl⟩ := List.mem_map.mp member
        rfl
  | scoping errors =>
      intro error member
      obtain ⟨fault, -, rfl⟩ := List.mem_map.mp member
      rfl

inductive Verdict
  | clean
  | rejected
  | failed
deriving DecidableEq

namespace Verdict

/-- What an input that ends so has done to a session without faults. One that is rejected leaves behind
the depths that were found for it and no other trace in the machine. -/
def Describes (verdict : Verdict) (before after : Session) : Prop :=
  match verdict with
  | clean => after.diagnostics.errors = []
  | rejected =>
      after.diagnostics.errors ≠ [] ∧ StaticFaults after.diagnostics.errors ∧
        after.machine = { before.machine with depths := after.machine.depths }
  | failed => ∃ error, after.diagnostics.errors = [.runtime error]

def status : Verdict → Nat
  | clean => 0
  | rejected => 65
  | failed => 70

theorem status_injective : Function.Injective status := by
  intro first second same
  cases first <;> cases second <;> simp [status] at same ⊢

variable {verdict : Verdict} {before after : Session}

theorem Describes.statusOf (describes : verdict.Describes before after)
    (flagged : after.diagnostics.Flagged) : CommandLine.statusOf after = verdict.status := by
  have static : after.hadError = true ↔ _ := flagged.static
  have runtime : after.hadRuntimeError = true ↔ _ := flagged.runtime
  unfold CommandLine.statusOf
  cases verdict with
  | clean =>
      have none : after.diagnostics.errors = [] := describes
      rw [if_neg (by simp [static, none]), if_neg (by simp [runtime, none])]
      rfl
  | rejected =>
      obtain ⟨some, faults, -⟩ := describes
      obtain ⟨error, member⟩ := List.exists_mem_of_ne_nil _ some
      rw [if_pos (static.mpr ⟨error, member, faults.isStatic error member⟩)]
      rfl
  | failed =>
      obtain ⟨error, only⟩ := describes
      rw [if_neg (by simp [static, only, Diagnostic.isStatic]),
        if_pos (runtime.mpr ⟨error, by simp [only]⟩)]
      rfl

theorem Describes.unique {other : Verdict} (describes : verdict.Describes before after)
    (describes' : other.Describes before after) (flagged : after.diagnostics.Flagged) :
    verdict = other :=
  status_injective ((describes.statusOf flagged).symm.trans (describes'.statusOf flagged))

theorem existsUnique (describes : verdict.Describes before after)
    (flagged : after.diagnostics.Flagged) : ∃! verdict : Verdict, verdict.Describes before after :=
  ⟨verdict, describes, fun _ other => other.unique describes flagged⟩

end Verdict

namespace Session

variable {session after : Session} {fuel : Nat} {source : String}

theorem errors_parse (session : Session) (source : String) :
    (session.parse source).2.diagnostics.errors = session.diagnostics.errors ++
      ((Token.split (Token.scan source)).2.map .lexical ++
        (Parse.program (Token.split (Token.scan source)).1 session.supply).errors.map
          .syntactic) := by
  simp [parse, tokenize, report]

theorem errors_parseExpression (session : Session) (source : String) :
    (session.parseExpression source).2.diagnostics.errors = session.diagnostics.errors ++
      ((Token.split (Token.scan source)).2.map .lexical ++
        (Parse.expression (Token.split (Token.scan source)).1 session.supply).errors.map
          .syntactic) := by
  simp [parseExpression, tokenize, report]

theorem errors_resolve (session : Session) (resolution : Resolution) :
    (session.resolve resolution).diagnostics.errors =
      session.diagnostics.errors ++ resolution.errors.map .scoping := by
  simp [resolve, report]

theorem parseExpression_none {read : Session}
    (failed : session.parseExpression source = (none, read)) : read.diagnostics.errors ≠ [] := by
  have faults : (Parse.lone ⟨Parse.words (Token.split (Token.scan source)).1,
      session.supply⟩).2.1 ≠ [] := by
    have tree : (Parse.lone ⟨Parse.words (Token.split (Token.scan source)).1,
        session.supply⟩).1 = none := congrArg Prod.fst failed
    rw [Parse.lone] at tree ⊢
    split at tree
    · rename_i expr notes after _ _
      split at tree
      · rename_i ended
        rw [if_pos ended]
        intro unnoted
        obtain rfl : notes = [] := unnoted
        simp at tree
      · rename_i more
        rw [if_neg more]
        simp
    · simp
  obtain rfl : (session.parseExpression source).2 = read := by rw [failed]
  rw [errors_parseExpression]
  intro none
  simp only [List.append_eq_nil_iff, List.map_eq_nil_iff] at none
  exact faults (List.map_eq_nil_iff.mp none.2.2)

section Stages

variable {found : List Diagnostic} (faults : StaticFaults found)
  (flagged : after.diagnostics.Flagged)
include faults flagged

theorem nil_of_not_hadError (errors : after.diagnostics.errors = found)
    (clean : ¬ after.hadError = true) : after.diagnostics.errors = [] := by
  refine List.eq_nil_iff_forall_not_mem.mpr fun error member => clean ?_
  exact flagged.static.mpr ⟨error, member, faults.isStatic error (errors ▸ member)⟩

theorem describes_rejected (errors : after.diagnostics.errors = found)
    (hadError : after.hadError = true)
    (machine : after.machine = { session.machine with depths := after.machine.depths }) :
    Verdict.rejected.Describes session after := by
  obtain ⟨error, member, -⟩ := flagged.static.mp hadError
  refine ⟨List.ne_nil_of_mem member, ?_, machine⟩
  rw [errors]
  exact faults

end Stages

theorem describes_performed {α : Type} {start : Session} {step : Run α} {result : Option α}
    (empty : start.diagnostics.errors = [])
    (performed : start.performReporting step = some (result, after)) :
    (result.isSome ∧ Verdict.clean.Describes session after) ∨
      result = none ∧ Verdict.failed.Describes session after := by
  rcases errors_of_performReporting performed with ⟨yields, same⟩ | ⟨fails, error, same⟩
  · exact .inl ⟨yields, by rw [Verdict.Describes, same, empty]⟩
  · refine .inr ⟨fails, error, ?_⟩
    rw [same, Diagnostics.errors_report, empty, List.nil_append]

theorem describes_run (flagged : session.diagnostics.Flagged)
    (empty : session.diagnostics.errors = []) (ran : session.run fuel source = some after) :
    (∃ verdict : Verdict, verdict.Describes session after) ∧
      (Verdict.rejected.Describes session after →
        ∀ other, session.run other source = some after) := by
  have last := Flagged.run flagged ran
  have parsed : (session.parse source).2.diagnostics.Flagged := (flagged.report _).report _
  have errors := session.errors_parse source
  rw [empty, List.nil_append] at errors
  simp only [run] at ran ⊢
  split at ran
  · rename_i hadError
    cases ran
    simp only [if_pos hadError]
    exact ⟨⟨_, describes_rejected (.reading _ _) parsed errors hadError rfl⟩, fun _ _ => trivial⟩
  · rename_i clean
    have none := nil_of_not_hadError (.reading _ _) parsed errors clean
    have scoping := (session.parse source).2.errors_resolve (.ofProgram (session.parse source).1)
    rw [none, List.nil_append] at scoping
    simp only [if_neg clean]
    split at ran
    · rename_i hadError
      cases ran
      simp only [if_pos hadError]
      exact ⟨⟨_, describes_rejected (.scoping _) last scoping hadError rfl⟩, fun _ _ => trivial⟩
    · rename_i resolved
      simp only [Option.map_eq_some_iff] at ran
      obtain ⟨⟨result, final⟩, performed, rfl⟩ := ran
      have none' := nil_of_not_hadError (.scoping _) (parsed.report _) scoping resolved
      rcases describes_performed none' performed with ⟨-, describes⟩ | ⟨-, describes⟩
      · refine ⟨⟨_, describes⟩, fun rejected => ?_⟩
        cases describes.unique rejected last
      · refine ⟨⟨_, describes⟩, fun rejected => ?_⟩
        cases describes.unique rejected last

theorem describes_evaluate {value : Option Value} (flagged : session.diagnostics.Flagged)
    (empty : session.diagnostics.errors = [])
    (evaluated : session.evaluate fuel source = some (value, after)) :
    (∃ verdict : Verdict, verdict.Describes session after ∧
      (value.isSome ↔ verdict = .clean)) ∧
      (Verdict.rejected.Describes session after →
        ∀ other, session.evaluate other source = some (value, after)) := by
  have last := Flagged.evaluate flagged evaluated
  have parsed : (session.parseExpression source).2.diagnostics.Flagged :=
    (flagged.report _).report _
  have errors := session.errors_parseExpression source
  have machine : (session.parseExpression source).2.machine = session.machine := rfl
  rw [empty, List.nil_append] at errors
  simp only [evaluate] at evaluated ⊢
  split at evaluated
  · rename_i found read
    cases evaluated
    have some := parseExpression_none read
    rw [read] at errors machine
    refine ⟨⟨.rejected, ⟨some, errors ▸ .reading _ _, ?_⟩, by simp⟩, fun _ _ => rfl⟩
    rw [← machine]
  · rename_i expr found read
    rw [read] at parsed errors machine
    split at evaluated
    · rename_i hadError
      cases evaluated
      simp only [if_pos hadError]
      refine ⟨⟨.rejected, ?_, by simp⟩, fun _ _ => trivial⟩
      exact describes_rejected (.reading _ _) parsed errors hadError (by rw [← machine])
    · rename_i clean
      have none := nil_of_not_hadError (.reading _ _) parsed errors clean
      have scoping := found.errors_resolve (.ofExpr expr)
      rw [none, List.nil_append] at scoping
      simp only [if_neg clean]
      split at evaluated
      · rename_i hadError
        cases evaluated
        simp only [if_pos hadError]
        refine ⟨⟨.rejected, ?_, by simp⟩, fun _ _ => trivial⟩
        exact describes_rejected (.scoping _) last scoping hadError (by rw [← machine]; rfl)
      · rename_i resolved
        have none' := nil_of_not_hadError (.scoping _) (parsed.report _) scoping resolved
        rcases describes_performed none' evaluated with ⟨yields, describes⟩ | ⟨rfl, describes⟩
        · refine ⟨⟨_, describes, by simp [yields]⟩, fun rejected => ?_⟩
          cases describes.unique rejected last
        · refine ⟨⟨_, describes, by simp⟩, fun rejected => ?_⟩
          cases describes.unique rejected last

end Session

def Invocation.logging? (invocation : Invocation) (host : Host) : Option Host :=
  match invocation.logFile with
  | none => some host
  | some name =>
      match host.files.write name [] with
      | .ok files => some { host with files }
      | .error _ => none

theorem CommandLine.run_file {fuel : Nat} {invocation : Invocation} {host ready : Host}
    {name source : String} (command : invocation.command = .run name)
    (logging : invocation.logging? host = some ready)
    (read : CommandLine.readSource ready.files name = .ok source) :
    CommandLine.run fuel invocation host =
      ((Session.new ready invocation.maxCallDepth).run fuel source).map
        (CommandLine.conclude · none) := by
  have performed : CommandLine.perform fuel (Session.new ready invocation.maxCallDepth)
      (.run name) = ((Session.new ready invocation.maxCallDepth).run fuel source).map
        (CommandLine.conclude · none) := by
    have read' : CommandLine.readSource
        (Session.new ready invocation.maxCallDepth).machine.host.files name = .ok source := read
    simp only [CommandLine.perform, read']
  unfold CommandLine.run
  unfold Invocation.logging? at logging
  cases logged : invocation.logFile with
  | none =>
      rw [logged] at logging
      cases logging
      rw [command]
      exact performed
  | some log =>
      rw [logged] at logging
      dsimp only at logging ⊢
      cases made : host.files.write log [] with
      | error cause =>
          rw [made] at logging
          cases logging
      | ok files =>
          rw [made] at logging
          cases logging
          rw [command]
          exact performed

/-- After any steps of a session the flags are those of the faults on record. An input of a session
without faults ends in exactly one of three ways: no fault; static faults, and nothing has been executed,
whatever the fuel; one runtime error. An evaluation yields a value exactly in the first, and the command
that runs a file has the status 0, 65 or 70 exactly in the first, the second or the third. -/
theorem faults_fall_in_one_class :
    (∀ session : Session, session.Reachable →
      (session.hadError = true ↔ ∃ error ∈ session.diagnostics.errors, error.isStatic = true) ∧
        (session.hadRuntimeError = true ↔ ∃ error, .runtime error ∈ session.diagnostics.errors)) ∧
    (∀ (session after : Session) (fuel : Nat) (source : String), session.Reachable →
      session.diagnostics.errors = [] → session.run fuel source = some after →
      (∃! verdict : Verdict, verdict.Describes session after) ∧
        (Verdict.rejected.Describes session after →
          ∀ other, session.run other source = some after)) ∧
    (∀ (session after : Session) (fuel : Nat) (source : String) (value : Option Value),
      session.Reachable → session.diagnostics.errors = [] →
      session.evaluate fuel source = some (value, after) →
      (∃! verdict : Verdict, verdict.Describes session after) ∧
        (value.isSome ↔ Verdict.clean.Describes session after) ∧
        (Verdict.rejected.Describes session after →
          ∀ other, session.evaluate other source = some (value, after))) ∧
    ∀ (invocation : Invocation) (host ready : Host) (name source : String) (fuel : Nat)
      (after : Session), invocation.command = .run name →
      invocation.logging? host = some ready →
      CommandLine.readSource ready.files name = .ok source →
      (Session.new ready invocation.maxCallDepth).run fuel source = some after →
      ∃ outcome, CommandLine.run fuel invocation host = some outcome ∧
        ∀ verdict : Verdict, outcome.status = verdict.status ↔
          verdict.Describes (Session.new ready invocation.maxCallDepth) after := by
  refine ⟨?_, ?_, ?_, ?_⟩
  · intro session reachable
    exact ⟨reachable.flagged.static, reachable.flagged.runtime⟩
  · intro session after fuel source reachable empty ran
    obtain ⟨⟨verdict, describes⟩, unexecuted⟩ :=
      Session.describes_run reachable.flagged empty ran
    exact ⟨Verdict.existsUnique describes (Session.Flagged.run reachable.flagged ran), unexecuted⟩
  · intro session after fuel source value reachable empty evaluated
    have flagged := Session.Flagged.evaluate reachable.flagged evaluated
    obtain ⟨⟨verdict, describes, yields⟩, unexecuted⟩ :=
      Session.describes_evaluate reachable.flagged empty evaluated
    refine ⟨Verdict.existsUnique describes flagged, yields.trans ⟨?_, ?_⟩, unexecuted⟩
    · rintro rfl
      exact describes
    · exact fun clean => describes.unique clean flagged
  · intro invocation host ready name source fuel after command logging read ran
    have reachable : Session.Reachable (.new ready invocation.maxCallDepth) := .new _ _
    have flagged := Session.Flagged.run reachable.flagged ran
    obtain ⟨⟨verdict, describes⟩, -⟩ := Session.describes_run reachable.flagged rfl ran
    refine ⟨CommandLine.conclude after none, ?_, fun other => ⟨fun same => ?_, fun other => ?_⟩⟩
    · rw [CommandLine.run_file command logging read, ran]
      rfl
    · have status : (CommandLine.conclude after none).status = verdict.status :=
        describes.statusOf flagged
      exact Verdict.status_injective (status.symm.trans same) ▸ describes
    · exact other.statusOf flagged

/-- A file that would print a value, if its second statement were not refused. -/
theorem faults_fall_in_one_class_at_return :
    let bytes : List UInt8 := [112, 114, 105, 110, 116, 32, 110, 105, 108, 59, 114, 101, 116, 117, 114, 110, 59]
    let host : Host := { files := ⟨[], ({} : Std.TreeMap String Entry).insert "a" (.file bytes)⟩ }
    let invocation : Invocation := { command := .run "a", maxCallDepth := 8 }
    CommandLine.readSource host.files "a" = .ok "print nil;return;" ∧
      ∃ after outcome, (Session.new host 8).run 12 "print nil;return;" = some after ∧
        CommandLine.run 12 invocation host = some outcome ∧ outcome.status = 65 ∧
        Verdict.rejected.Describes (Session.new host 8) after ∧
        after.machine.host.sink.lines = #[] ∧
        (Session.new host 8).run 0 "print nil;return;" = some after := by
  intro bytes host invocation
  have read : CommandLine.readSource host.files "a" = .ok "print nil;return;" := by cbv
  let start := Session.new host 8
  let keyword : Token := ⟨.returnWord, "return", none, 1⟩
  let program : List Stmt :=
    [.print ⟨.printWord, "print", none, 1⟩ (.literal .nil), .returnStmt keyword none]
  have parsed : start.parse "print nil;return;" = (program, { start with supply := ⟨0, 0⟩ }) := by
    cbv
  let after := ({ start with supply := ⟨0, 0⟩ } : Session).resolve (.ofProgram program)
  have ran : start.run 12 "print nil;return;" = some after := by
    simp only [Session.run, parsed]
    rfl
  obtain ⟨-, -, -, commands⟩ := faults_fall_in_one_class
  obtain ⟨outcome, performed, status⟩ :=
    commands invocation host host "a" "print nil;return;" 12 after rfl rfl read ran
  have rejected : Verdict.rejected.Describes start after :=
    ⟨List.cons_ne_nil _ _, .scoping [⟨keyword, .returnAtTopLevel⟩], rfl⟩
  have unexecuted := (faults_fall_in_one_class.2.1 start after 12 _ (.new host 8) rfl ran).2 rejected
  exact ⟨read, after, outcome, ran, performed, (status .rejected).mpr rejected, rejected, rfl,
    unexecuted 0⟩

end Lox
