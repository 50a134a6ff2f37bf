import Mathlib
import Lox.Proofs.Run.Limit
import Lox.Proofs.Session.Sourced

/-!
The limit on calls makes no difference to a program that does not come to it, and nothing that a
program has written when it comes to the limit would be different under a higher one.
-/

namespace Lox

open Run

theorem prolongs_interpret (limit : Nat) {fuel more : Nat} (le : fuel ≤ more) (stmts : List Stmt) :
    Prolongs limit (interpret fuel stmts) (interpret more stmts) := by
  intro machine lower
  obtain ⟨kept, keptLong, grows, ends⟩ := prolongs_executeProgram limit le stmts machine lower
  have final_eq (fuel : Nat) (machine : Machine) :
      ((interpret fuel stmts).final machine).maxCallDepth =
          ((executeProgram fuel stmts).final machine).maxCallDepth ∧
        ((interpret fuel stmts).final machine).output =
          ((executeProgram fuel stmts).final machine).output := by
    rw [final_interpret]
    exact ⟨rfl, rfl⟩
  refine ⟨(final_eq _ _).1.trans kept, (final_eq _ _).1.trans keptLong, ?_, ?_⟩
  · rw [(final_eq _ _).2]
    exact grows
  rw [(final_eq _ _).2, interpret_eq, interpret_eq]
  rcases ends with same | ⟨abort, after, ran, cuts, written⟩
  · left
    rw [same]
    cases executeProgram fuel stmts machine with
    | error abort after => rfl
    | ok value after =>
        have flushed : (after.allowing limit).host.sink.flush = after.host.sink.flush := rfl
        simp only [allowing, flushed]
        cases after.host.sink.flush.1 <;> rfl
  · rw [ran]
    exact .inr ⟨abort, after.flushed, rfl, cuts, written⟩

namespace Session

def allowing (session : Session) (limit : Nat) : Session :=
  { session with machine := session.machine.allowing limit }

def output (session : Session) : List String := session.machine.output

/-- The last fault that was reported in between is a stack overflow. -/
def Overflowed (before after : Session) : Prop :=
  ∃ found place, after.diagnostics.errors =
    before.diagnostics.errors ++ found ++ [.runtime ⟨.stackOverflow, place⟩]

structure Outlasts (limit : Nat) (session after : Session) (longer : Option Session) : Prop where
  same : (session.machine.maxCallDepth < limit → ¬ session.Overflowed after) →
    longer = some (after.allowing limit)
  output : ∀ other, longer = some other → after.output <+: other.output

variable {session : Session} {limit : Nat}

theorem performReporting_allowing {α : Type} {short long : Run α} {after : Session}
    {value : Option α}
    (same : long (session.machine.allowing limit) = Run.allowing limit (short session.machine))
    (ended : session.performReporting short = some (value, after)) :
    (session.allowing limit).performReporting long = some (value, after.allowing limit) := by
  have started : (session.allowing limit).machine = session.machine.allowing limit := rfl
  obtain ⟨result, machine, ran, rfl, rfl⟩ | ⟨error, machine, ran, rfl, rfl⟩ :=
    performReporting_cases ended
  · simp only [performReporting, perform, started, same, ran, Run.allowing]
    rfl
  · simp only [performReporting, perform, started, same, ran, Run.allowing]
    rfl

theorem outlasts_performReporting {α : Type} {short long : Run α} {found : List Diagnostic}
    {ready after : Session} {value : Option α} (prolongs : Prolongs limit short long)
    (lower : session.machine.maxCallDepth ≤ limit)
    (reported : ready.diagnostics.errors = session.diagnostics.errors ++ found)
    (limited : ready.machine.maxCallDepth = session.machine.maxCallDepth)
    (ended : ready.performReporting short = some (value, after)) :
    Outlasts limit session after
      (((ready.allowing limit).performReporting long).map Prod.snd) := by
  have prolonged := prolongs ready.machine (limited.trans_le lower)
  constructor
  · intro held
    rcases prolonged.ends with same | ⟨abort, machine, ran, cuts, -⟩
    · rw [performReporting_allowing same ended]
      rfl
    · obtain ⟨result, machine', ran', -⟩ | ⟨error, machine', ran', -, rfl⟩ :=
        performReporting_cases ended
      · rw [ran] at ran'
        cases ran'
      · rw [ran] at ran'
        cases ran'
        rcases cuts with none | ⟨strictly, place, overflow⟩
        · cases none
        · cases overflow
          refine absurd ⟨found, place, ?_⟩ (held (limited ▸ strictly))
          simp [report, reported]
  · intro other longer
    obtain ⟨⟨result, last⟩, performed, rfl⟩ := Option.map_eq_some_iff.mp longer
    rw [output, output, machine_of_performReporting ended, machine_of_performReporting performed]
    exact prolonged.output

def prepared (session : Session) (source : String) : Session :=
  (session.parse source).2.resolve (.ofProgram (session.parse source).1)

theorem run_eq (fuel : Nat) (source : String) :
    session.run fuel source =
      if (session.parse source).2.hadError then some (session.parse source).2
      else if (session.prepared source).hadError then some (session.prepared source)
      else ((session.prepared source).performReporting
        (interpret fuel (session.parse source).1)).map Prod.snd := rfl

theorem run_allowing (fuel : Nat) (source : String) :
    (session.allowing limit).run fuel source =
      if (session.parse source).2.hadError then some ((session.parse source).2.allowing limit)
      else if (session.prepared source).hadError then some ((session.prepared source).allowing limit)
      else (((session.prepared source).allowing limit).performReporting
        (interpret fuel (session.parse source).1)).map Prod.snd := rfl

theorem outlasts_static (after : Session) :
    Outlasts limit session after (some (after.allowing limit)) where
  same := fun _ => rfl
  output := by
    rintro other ⟨⟩
    exact List.prefix_rfl

theorem errors_prepared (session : Session) (source : String) :
    ∃ found, (session.prepared source).diagnostics.errors = session.diagnostics.errors ++ found := by
  simp only [prepared, resolve, parse, tokenize, report, Diagnostics.errors_report,
    List.append_assoc]
  exact ⟨_, rfl⟩

theorem outlasts_run {source : String} {fuel more : Nat} {after : Session} (le : fuel ≤ more)
    (lower : session.machine.maxCallDepth ≤ limit)
    (ended : session.run fuel source = some after) :
    Outlasts limit session after ((session.allowing limit).run more source) := by
  rw [run_eq] at ended
  rw [run_allowing]
  split at ended
  · rename_i faulty
    rw [if_pos faulty]
    cases ended
    exact outlasts_static _
  · rename_i read
    rw [if_neg read]
    split at ended
    · rename_i faulty
      rw [if_pos faulty]
      cases ended
      exact outlasts_static _
    · rename_i resolved
      rw [if_neg resolved]
      obtain ⟨⟨result, last⟩, performed, rfl⟩ := Option.map_eq_some_iff.mp ended
      obtain ⟨found, reported⟩ := session.errors_prepared source
      exact outlasts_performReporting (prolongs_interpret limit le _) lower reported rfl performed

theorem limit_run {source : String} {fuel : Nat} {after : Session}
    (ended : session.run fuel source = some after) :
    after.machine.maxCallDepth = session.machine.maxCallDepth := by
  rw [run_eq] at ended
  split at ended
  · cases ended
    rfl
  · split at ended
    · cases ended
      rfl
    · obtain ⟨⟨result, last⟩, performed, rfl⟩ := Option.map_eq_some_iff.mp ended
      exact (performReporting_kept (interpret_keeps fuel _) performed).maxCallDepth

theorem performReporting_eq_none_iff {α : Type} {step : Run α} :
    session.performReporting step = none ↔
      ∃ after, step session.machine = .error .outOfFuel after := by
  unfold performReporting perform
  cases step session.machine with
  | ok value after => simp
  | error abort after => cases abort <;> simp

theorem run_allowing_eq_none {source : String} {fuel : Nat}
    (lower : session.machine.maxCallDepth ≤ limit) (starved : session.run fuel source = none) :
    (session.allowing limit).run fuel source = none := by
  rw [run_eq] at starved
  rw [run_allowing]
  split at starved
  · cases starved
  · rename_i read
    rw [if_neg read]
    split at starved
    · cases starved
    · rename_i resolved
      rw [if_neg resolved]
      rw [Option.map_eq_none_iff, performReporting_eq_none_iff] at starved ⊢
      obtain ⟨after, starved⟩ := starved
      rw [interpret_eq] at starved
      have spans := (Task.executeProgram fuel (session.parse source).1).spans limit
        (session.prepared source).machine lower
      simp only [Task.run] at spans
      cases ran : executeProgram fuel (session.parse source).1 (session.prepared source).machine with
      | ok value last =>
          simp only [ran] at starved
          cases flushed : last.host.sink.flush.1 <;> simp [flushed] at starved
      | error abort last =>
          simp only [ran] at starved spans
          cases starved
          obtain same | ⟨_, _, ⟨⟩⟩ := spans
          exact ⟨_, by rw [interpret_eq, allowing, same]; rfl⟩

/-- The limit on calls is transparent. A run that does not come to it ends in the same way under any
higher limit, in the same state but for the limit; and whether it comes to it or not, a run under a
higher limit that ends has begun with the same output. A run that never ends does not end under a
higher limit either. -/
theorem call_limit_is_transparent (session : Session) (source : String) {limit higher : Nat}
    (le : limit ≤ higher) :
    (∀ fuel after, (session.allowing limit).run fuel source = some after →
      (¬ session.Overflowed after →
        (∀ more, fuel ≤ more →
          (session.allowing higher).run more source = some (after.allowing higher)) ∧
        ∀ other last, (session.allowing higher).run other source = some last →
          last = after.allowing higher) ∧
      ∀ other last, (session.allowing higher).run other source = some last →
        after.output <+: last.output) ∧
    ∀ fuel, (session.allowing limit).run fuel source = none →
      (session.allowing higher).run fuel source = none := by
  refine ⟨fun fuel after ended => ?_, fun fuel starved =>
    @run_allowing_eq_none (session.allowing limit) higher source fuel le starved⟩
  have outlasts {more : Nat} (enough : fuel ≤ more) :
      Outlasts higher (session.allowing limit) after ((session.allowing higher).run more source) :=
    outlasts_run enough le ended
  -- more fuel alone changes nothing in a run that has ended
  have settled {other more : Nat} {last : Session} (enough : other ≤ more)
      (ended' : (session.allowing higher).run other source = some last) :
      (session.allowing higher).run more source = some last := by
    have same : (session.allowing higher).run more source = some (last.allowing higher) :=
      (outlasts_run enough le_rfl ended').same fun strictly => absurd strictly (lt_irrefl _)
    have limited : last.allowing higher = last := by
      have kept : last.machine.maxCallDepth = higher := limit_run ended'
      simp only [allowing, Machine.allowing_eq_self kept]
    rwa [limited] at same
  refine ⟨fun within => ⟨fun more enough => (outlasts enough).same fun _ => within, ?_⟩, ?_⟩
  · intro other last ended'
    have one := settled (le_max_right fuel other) ended'
    rw [(outlasts (le_max_left fuel other)).same fun _ => within] at one
    exact (Option.some.inj one).symm
  · intro other last ended'
    exact (outlasts (le_max_left fuel other)).output last (settled (le_max_right fuel other) ended')

/-- A function that calls itself prints once more if it may go one call deeper. -/
theorem call_limit_is_transparent_to_output :
    let source := "fun f() \x7bprint nil; f();\x7d f();"
    let session := Session.new {} 0
    ∃ after last, (session.allowing 1).run 24 source = some after ∧
      (session.allowing 2).run 24 source = some last ∧
      after.output = ["nil"] ∧ last.output = ["nil", "nil"] ∧ after.output <+: last.output := by
  intro source session
  have ran : ((session.allowing 1).run 24 source).map output = some ["nil"] := by
    simp only [session, source]
    cbv
  have ran' : ((session.allowing 2).run 24 source).map output = some ["nil", "nil"] := by
    simp only [session, source]
    cbv
  obtain ⟨after, ended, written⟩ := Option.map_eq_some_iff.mp ran
  obtain ⟨last, ended', written'⟩ := Option.map_eq_some_iff.mp ran'
  exact ⟨after, last, ended, ended', written, written',
    ((call_limit_is_transparent session source (Nat.le_succ 1)).1 24 after ended).2 24 last ended'⟩

end Session

end Lox
