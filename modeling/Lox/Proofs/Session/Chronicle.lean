import Lox.Proofs.Run.Timeline
import Lox.Proofs.Session.Sourced

/-!
The inputs of a session in time. What holds of a new machine, and is kept when depths are recorded
and when a launched input is performed, holds of every machine that is driven by its inputs. So the
inputs are performed one after the other, and in the whole history a scope is opened at one moment
only.
-/

namespace Lox

def Session.Starts (session : Session) (launch : Launch) : Prop :=
  ∃ fuel source, session.launchProgram? fuel source = some launch ∨
    session.launchExpr? fuel source = some launch

namespace Session

variable {session : Session} {launch : Launch} {fuel : Nat} {source : String}

theorem launchProgram?_eq_some (launched : session.launchProgram? fuel source = some launch) :
    ∃ stmts parsed, session.parse source = (stmts, parsed) ∧ parsed.hadError = false ∧
      (parsed.resolve (.ofProgram stmts)).hadError = false ∧
      launch = ⟨.executeProgram fuel stmts, Stmt.visitsAll .topLevel stmts,
        parsed.resolve (.ofProgram stmts)⟩ := by
  simp only [launchProgram?] at launched
  split at launched
  · cases launched
  · rename_i clean
    split at launched
    · cases launched
    · rename_i resolved
      cases launched
      exact ⟨(session.parse source).1, (session.parse source).2, rfl, eq_false_of_ne_true clean,
        eq_false_of_ne_true resolved, rfl⟩

theorem launchExpr?_eq_some (launched : session.launchExpr? fuel source = some launch) :
    ∃ expr parsed, session.parseExpression source = (some expr, parsed) ∧
      (parsed.resolve (.ofExpr expr)).hadError = false ∧
      launch = ⟨.evaluate fuel expr, Site.topLevel.visits expr.uses,
        parsed.resolve (.ofExpr expr)⟩ := by
  simp only [launchExpr?] at launched
  split at launched
  · cases launched
  · rename_i expr parsed read
    split at launched
    · cases launched
    · split at launched
      · cases launched
      · rename_i resolved
        cases launched
        exact ⟨expr, parsed, read, eq_false_of_ne_true resolved, rfl⟩

/-- The static checks of an input leave at most depths and static faults behind. -/
structure Checks (before after : Session) : Prop where
  machine : ∃ pairs, after.machine = before.machine.record pairs
  errors : ∀ error, .runtime error ∈ after.diagnostics.errors →
    .runtime error ∈ before.diagnostics.errors

namespace Checks

theorem parse (session : Session) (source : String) : session.Checks (session.parse source).2 where
  machine := ⟨[], rfl⟩
  errors := by simp [Session.parse, tokenize, report]

theorem parseExpression (session : Session) (source : String) :
    session.Checks (session.parseExpression source).2 where
  machine := ⟨[], rfl⟩
  errors := by simp [Session.parseExpression, tokenize, report]

theorem resolve {parsed : Session} (checks : session.Checks parsed)
    (kept : parsed.machine = session.machine) (resolution : Resolution) :
    session.Checks (parsed.resolve resolution) where
  machine := ⟨resolution.depths, congrArg (Machine.record · _) kept⟩
  errors := by simpa [Session.resolve, report] using checks.errors

end Checks

theorem Starts.checks (starts : session.Starts launch) : session.Checks launch.session := by
  obtain ⟨fuel, source, launched | launched⟩ := starts
  · obtain ⟨stmts, parsed, read, -, -, rfl⟩ := launchProgram?_eq_some launched
    obtain rfl : (session.parse source).2 = parsed := congrArg Prod.snd read
    exact (Checks.parse session source).resolve rfl _
  · obtain ⟨expr, parsed, read, -, rfl⟩ := launchExpr?_eq_some launched
    obtain rfl : (session.parseExpression source).2 = parsed := congrArg Prod.snd read
    exact (Checks.parseExpression session source).resolve rfl _

theorem checks_of_run {after : Session} (ran : session.run fuel source = some after)
    (launched : session.launchProgram? fuel source = none) : session.Checks after := by
  simp only [launchProgram?] at launched
  simp only [run] at ran
  split at ran
  · cases ran
    exact .parse session source
  · rename_i parsed
    rw [if_neg parsed] at launched
    split at ran
    · cases ran
      exact (Checks.parse session source).resolve rfl _
    · rename_i resolved
      rw [if_neg resolved] at launched
      cases launched

theorem checks_of_evaluate {after : Session} {value : Option Value}
    (evaluated : session.evaluate fuel source = some (value, after))
    (launched : session.launchExpr? fuel source = none) : session.Checks after := by
  have parsed := Checks.parseExpression session source
  rcases read : session.parseExpression source with ⟨tree, found⟩
  obtain rfl : (session.parseExpression source).2 = found := by rw [read]
  simp only [launchExpr?] at launched
  simp only [evaluate] at evaluated
  rw [read] at launched evaluated
  cases tree with
  | none =>
      cases evaluated
      exact parsed
  | some expr =>
      dsimp only at launched evaluated
      split at evaluated
      · cases evaluated
        exact parsed
      · rename_i clean
        rw [if_neg clean] at launched
        split at evaluated
        · cases evaluated
          exact parsed.resolve rfl _
        · rename_i resolved
          rw [if_neg resolved] at launched
          cases launched

end Session

namespace History

theorem Driven.machine_induction {motive : History → Machine → Prop}
    (fresh : ∀ limit host, motive {} (.fresh limit host))
    (recorded : ∀ {history machine} pairs, motive history machine →
      motive history (machine.record pairs))
    (performed : ∀ {history session launch} host, Driven history session →
      session.Starts launch → motive history launch.session.machine →
      motive (history.add launch)
        { launch.task.run.final launch.session.machine with host })
    {history : History} {session : Session} (driven : history.Driven session) :
    motive history session.machine := by
  have launch {history : History} {session : Session} {launch : Launch}
      (before : Driven history session) (starts : session.Starts launch)
      (known : motive history session.machine) (host : Host) :
      motive (history.add launch)
        { launch.task.run.final launch.session.machine with host } := by
    refine performed host before starts ?_
    obtain ⟨pairs, same⟩ := starts.checks.machine
    rw [same]
    exact recorded pairs known
  induction driven with
  | new host limit => exact fresh limit host
  | clear _ ih => exact ih
  | reset => exact fresh _ _
  | @run history session after fuel source before ran ih =>
      cases launched : session.launchProgram? fuel source with
      | none =>
          obtain ⟨pairs, same⟩ := (Session.checks_of_run ran launched).machine
          rw [same]
          exact recorded pairs ih
      | some input =>
          obtain ⟨stmts, task, equation⟩ := Session.run_of_launch launched
          rw [equation, Option.map_eq_some_iff] at ran
          obtain ⟨⟨result, last⟩, done, rfl⟩ := ran
          have ended := launch before ⟨fuel, source, .inl launched⟩ ih
          rw [Session.machine_of_performReporting done, final_interpret]
          rw [task] at ended
          exact ended _
  | @evaluate history session after value fuel source before evaluated ih =>
      cases launched : session.launchExpr? fuel source with
      | none =>
          obtain ⟨pairs, same⟩ := (Session.checks_of_evaluate evaluated launched).machine
          rw [same]
          exact recorded pairs ih
      | some input =>
          obtain ⟨expr, task, equation⟩ := Session.evaluate_of_launch launched
          rw [equation] at evaluated
          have ended := launch before ⟨fuel, source, .inr launched⟩ ih
          rw [Session.machine_of_performReporting evaluated]
          rw [task] at ended
          exact ended _

structure Chronicles (history : History) (machine : Machine) : Prop where
  ordered : history.starts.Pairwise fun first second => first.1.EndsBy first.2 second.2
  ended : ∀ start ∈ history.starts, start.1.EndsBy start.2 machine

theorem Chronicles.later {history : History} {machine later : Machine}
    (chronicles : history.Chronicles machine) (le : machine.age ≤ later.age) :
    history.Chronicles later :=
  ⟨chronicles.ordered, fun start member => (chronicles.ended start member).trans le⟩

variable {history : History} {session : Session} {launch : Launch}

theorem Chronicles.add (chronicles : history.Chronicles launch.session.machine) :
    (history.add launch).starts.Pairwise
      fun first second => first.1.EndsBy first.2 second.2 := by
  refine List.pairwise_append.mpr ⟨chronicles.ordered, List.pairwise_singleton _ _, ?_⟩
  intro start member later last
  rw [List.mem_singleton] at last
  subst last
  exact chronicles.ended start member

theorem Driven.chronicles (driven : history.Driven session) :
    history.Chronicles session.machine := by
  refine driven.machine_induction ?_ ?_ ?_
  · exact fun limit host => ⟨.nil, by simp⟩
  · exact fun pairs chronicles => chronicles.later le_rfl
  · intro history session launch host _ _ chronicles
    refine ⟨chronicles.add, fun start member => ?_⟩
    rcases List.mem_append.mp member with earlier | last
    · have aged := launch.task.age_le launch.session.machine
      exact (chronicles.ended start earlier).trans aged
    · rw [List.mem_singleton] at last
      subst last
      exact le_rfl

theorem Driven.opens_once (driven : history.Driven session) (starts : session.Starts launch)
    {one other : Task} {early late : Machine} {region region' : Region}
    (moment : (history.add launch).Moment one early)
    (moment' : (history.add launch).Moment other late) (opens : one.Opens region)
    (opens' : other.Opens region') (same : early.age = late.age) :
    (one, early) = (other, late) := by
  have chronicles : history.Chronicles launch.session.machine := by
    obtain ⟨pairs, recorded⟩ := starts.checks.machine
    rw [recorded]
    exact driven.chronicles.later le_rfl
  obtain ⟨start, member, reaches⟩ := moment
  obtain ⟨start', member', reaches'⟩ := moment'
  have apart {first second : Task × Machine} {task task' : Task} {machine machine' : Machine}
      {region : Region} (reaches : Reaches first.1 first.2 task machine)
      (reaches' : Reaches second.1 second.2 task' machine') (opens : task.Opens region)
      (before : first.1.EndsBy first.2 second.2) : machine.age < machine'.age :=
    calc machine.age < (task.run.final machine).age := opens.age_lt_final
      _ ≤ (first.1.run.final first.2).age := reaches.age_final_le
      _ ≤ second.2.age := before
      _ ≤ machine'.age := reaches'.age_le
  rcases related_of_pairwise chronicles.add member member' with rfl | before | after
  · exact reaches.opens_once reaches' opens opens' same
  · exact absurd same (apart reaches reaches' opens before).ne
  · exact absurd same (apart reaches' reaches opens' after).ne'

end History

end Lox
