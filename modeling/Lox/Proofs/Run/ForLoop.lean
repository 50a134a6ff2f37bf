import Lox.Proofs.Run.Limit
import Lox.Proofs.Run.Trimmed
import Lox.Proofs.Scoping.Aligned

/-!
The loop that a `for` statement stands for. It is said here directly, without other statements: the
initializer is executed once in a scope of its own, and then come the rounds. The expansion of the
statement does the same. It needs more fuel, since its parts are nested deeper, and with an increment
every round has an idle scope.
-/

namespace Lox

/-! More fuel. -/

namespace Run

variable {α β : Type} {limit : Nat} {short middle long : Run α}

theorem Prolongs.trans (first : Prolongs limit short middle) (second : Prolongs limit middle long) :
    Prolongs limit short long := by
  intro machine le
  have early := first machine le
  have late := second (machine.allowing limit) le_rfl
  refine ⟨early.kept, late.keptLong, late.grows, ?_⟩
  rcases early.ends with same | ⟨abort, after, ran, cuts, written⟩
  · rcases late.ends with same' | ⟨abort, after, ran, cuts | ⟨low, -⟩, written⟩
    · left
      refine same'.trans ?_
      rw [same]
      cases short machine <;> rfl
    · rw [same] at ran
      cases ended : short machine with
      | ok value after => simp [ended, allowing] at ran
      | error abort' after' =>
          rw [ended] at ran
          cases ran
          exact .inr ⟨_, after', rfl, .inl cuts, written⟩
    · exact absurd low (Nat.lt_irrefl limit)
  · exact .inr ⟨abort, after, ran, cuts, written.trans late.output⟩

theorem Prolongs.exhausted (self : Prolongs limit long long) :
    Prolongs limit (MonadExcept.throw Abort.outOfFuel) long :=
  fun machine le => (self machine le).cut (.inl rfl)

theorem Prolongs.settled {machine : Machine} (prolongs : Prolongs machine.maxCallDepth short long)
    (ended : ∀ after, short machine ≠ .error .outOfFuel after) : long machine = short machine := by
  obtain ⟨kept, -, -, same | ⟨abort, after, ran, cut | ⟨low, -⟩, -⟩⟩ := prolongs machine le_rfl
  · refine same.trans ?_
    unfold final at kept
    cases ran : short machine with
    | ok value after =>
        rw [ran] at kept
        exact congrArg (EStateM.Result.ok value) (Machine.allowing_eq_self kept)
    | error abort after =>
        rw [ran] at kept
        exact congrArg (EStateM.Result.error abort) (Machine.allowing_eq_self kept)
  · exact absurd (cut ▸ ran) (ended after)
  · exact absurd low (Nat.lt_irrefl _)

theorem Prolongs.written {machine : Machine}
    (prolongs : Prolongs machine.maxCallDepth short long) :
    (short.final machine).output <+: (long.final machine).output :=
  (prolongs machine le_rfl).output

end Run

open Run

def Flow.andThen (flow : Flow) (next : Run Flow) : Run Flow :=
  match flow with
  | .returned value => pure (.returned value)
  | .normal => next

theorem Run.Prolongs.andThen {limit : Nat} {short long : Run Flow}
    (prolongs : Prolongs limit short long) (flow : Flow) :
    Prolongs limit (flow.andThen short) (flow.andThen long) := by
  cases flow with
  | returned value => exact .pure _
  | normal => exact prolongs

/-- Rounds up to the first before which the test fails, or that returns. -/
def rounds (test : Nat → Run Bool) (round : Nat → Run Flow) : Nat → Run Flow
  | 0 => throw .outOfFuel
  | fuel + 1 => do
      if ← test fuel then
        (← round fuel).andThen (rounds test round fuel)
      else pure .normal

structure ForLoop where
  initializer : Option Stmt
  condition : Option Expr
  increment : Option Expr
  body : Stmt

namespace ForLoop

variable (loop : ForLoop)

def expanded : Stmt :=
  .forLoop loop.initializer loop.condition loop.increment loop.body

def test (fuel : Nat) : Run Bool := do
  match loop.condition with
  | some condition => return (← evaluate fuel condition).isTruthy
  | none => return true

/-- The increment is evaluated for its effects, and not at all if the body returns. -/
def round (fuel : Nat) : Run Flow := do
  (← execute fuel loop.body).andThen do
    let _ ← evaluateOr fuel loop.increment
    pure .normal

/-- An initializer has a scope of its own, which is around all that comes after it. -/
def within (fuel : Nat) (rest : Run Flow) : Run Flow :=
  match loop.initializer with
  | some first => do
      let env ← openScope (← get).env {}
      inside env do
        let _ ← execute fuel first
        rest
  | none => rest

def run (fuel : Nat) : Run Flow := loop.within fuel (rounds loop.test loop.round fuel)

/-! The expansion of the statement. -/

def tested : Expr := loop.condition.getD (.literal (.bool true))

def roundStmt : Stmt :=
  match loop.increment with
  | some step => .block [loop.body, .expression step]
  | none => loop.body

def idleRound (fuel : Nat) : Run Flow :=
  match loop.increment with
  | some _ => do
      let env ← openScope (← get).env {}
      inside env (loop.round fuel)
  | none => loop.round fuel

def idleRun (fuel : Nat) : Run Flow := loop.within fuel (rounds loop.test loop.idleRound fuel)

end ForLoop

section Fuel

variable {limit fuel more : Nat}

theorem executeAll_singleton_prolongs (fuel : Nat) (stmt : Stmt) :
    Prolongs limit (executeAll fuel [stmt]) (execute fuel stmt) := by
  cases fuel with
  | zero => exact .throw _
  | succ fuel =>
      rw [← bind_pure (execute (fuel + 1) stmt)]
      refine .bind ((resumes limit (Nat.le_succ fuel)).execute stmt) fun flow => ?_
      cases flow with
      | returned value => exact .pure _
      | normal =>
          cases fuel with
          | zero => exact .exhausted (.pure _)
          | succ fuel => exact .pure _

theorem execute_prolongs_executeAll (fuel : Nat) (stmt : Stmt) :
    Prolongs limit (execute fuel stmt) (executeAll (fuel + 2) [stmt]) := by
  rw [← bind_pure (execute fuel stmt)]
  refine .bind ((resumes limit (Nat.le_succ fuel)).execute stmt) fun flow => ?_
  cases flow with
  | returned value => exact .pure _
  | normal => exact .pure _

theorem executeAll_pair_prolongs (fuel : Nat) (first second : Stmt) :
    Prolongs limit (executeAll fuel [first, second])
      (do (← execute fuel first).andThen (execute fuel second)) := by
  cases fuel with
  | zero => exact .throw _
  | succ fuel =>
      have more := resumes limit (Nat.le_succ fuel)
      exact .bind (more.execute first) fun flow =>
        ((executeAll_singleton_prolongs fuel second).trans (more.execute second)).andThen flow

theorem pair_prolongs_executeAll (fuel : Nat) (first second : Stmt) :
    Prolongs limit (do (← execute fuel first).andThen (execute fuel second))
      (executeAll (fuel + 3) [first, second]) :=
  .bind ((resumes limit (Nat.le_add_right fuel 2)).execute first) fun flow =>
    (execute_prolongs_executeAll fuel second).andThen flow

theorem rounds_prolongs_self {test : Nat → Run Bool} {round : Nat → Run Flow}
    (tests : ∀ fuel, Prolongs limit (test fuel) (test fuel))
    (bodies : ∀ fuel, Prolongs limit (round fuel) (round fuel)) (fuel : Nat) :
    Prolongs limit (rounds test round fuel) (rounds test round fuel) := by
  induction fuel with
  | zero => exact .throw _
  | succ fuel ih =>
      refine .bind (tests fuel) fun goes => ?_
      split
      · exact .bind (bodies fuel) fun flow => ih.andThen flow
      · exact .pure _

theorem rounds_prolongs {test test' : Nat → Run Bool} {round round' : Nat → Run Flow} (extra : Nat)
    (tests : ∀ fuel, Prolongs limit (test fuel) (test' (fuel + extra)))
    (bodies : ∀ fuel, Prolongs limit (round fuel) (round' (fuel + extra)))
    (self : Prolongs limit (rounds test' round' extra) (rounds test' round' extra)) (fuel : Nat) :
    Prolongs limit (rounds test round fuel) (rounds test' round' (fuel + extra)) := by
  induction fuel with
  | zero =>
      rw [Nat.zero_add]
      exact .exhausted self
  | succ fuel ih =>
      rw [Nat.succ_add]
      refine .bind (tests fuel) fun goes => ?_
      split
      · exact .bind (bodies fuel) fun flow => ih.andThen flow
      · exact .pure _

theorem repeatWhile_eq_rounds (condition : Expr) (body : Stmt) (fuel : Nat) :
    repeatWhile fuel condition body =
      rounds (fun fuel => do return (← evaluate fuel condition).isTruthy)
        (fun fuel => execute fuel body) fuel := by
  induction fuel with
  | zero => rfl
  | succ fuel ih =>
      simp only [repeatWhile, rounds, bind_assoc, pure_bind, ih]
      rfl

namespace ForLoop

variable (loop : ForLoop)

theorem expanded_eq : loop.expanded =
    match loop.initializer with
    | some first => .block [first, .whileLoop loop.tested loop.roundStmt]
    | none => .whileLoop loop.tested loop.roundStmt := rfl

theorem test_prolongs (le : fuel ≤ more) : Prolongs limit (loop.test fuel) (loop.test more) := by
  unfold test
  split
  · exact .bind ((resumes limit le).evaluate _) fun _ => .pure _
  · exact .pure _

theorem tested_prolongs_test (fuel : Nat) :
    Prolongs limit (do return (← evaluate fuel loop.tested).isTruthy) (loop.test fuel) := by
  unfold tested test
  cases loop.condition with
  | some condition => exact .bind ((resumes limit le_rfl).evaluate condition) fun _ => .pure _
  | none =>
      cases fuel with
      | zero => exact .exhausted (.pure true)
      | succ fuel => exact .pure true

theorem test_prolongs_tested (fuel extra : Nat) :
    Prolongs limit (loop.test fuel)
      (do return (← evaluate (fuel + (extra + 1)) loop.tested).isTruthy) := by
  unfold tested test
  cases loop.condition with
  | some condition =>
      exact .bind ((resumes limit (Nat.le_add_right _ _)).evaluate condition) fun _ => .pure _
  | none => exact .pure true

theorem round_prolongs (le : fuel ≤ more) : Prolongs limit (loop.round fuel) (loop.round more) :=
  have sub := resumes limit le
  .bind (sub.execute loop.body) fun flow =>
    Prolongs.andThen (.bind (sub.evaluateOr loop.increment) fun _ => .pure _) flow

theorem idleRound_prolongs (le : fuel ≤ more) :
    Prolongs limit (loop.idleRound fuel) (loop.idleRound more) := by
  unfold idleRound
  split
  · exact .get fun machine => .bind (.openScope _ _) fun env => (loop.round_prolongs le).inside env
  · exact loop.round_prolongs le

theorem round_of_none (none : loop.increment = .none) (fuel : Nat) :
    loop.round (fuel + 1) = execute (fuel + 1) loop.body := by
  have last : (fun flow : Flow =>
      flow.andThen (evaluateOr (fuel + 1) .none >>= fun _ => pure .normal)) =
      pure := by
    funext flow
    cases flow <;> rfl
  rw [round, none, last, bind_pure]

theorem expression_prolongs (fuel : Nat) (step : Expr) :
    Prolongs limit (execute fuel (.expression step))
      (do let _ ← evaluateOr (fuel + 1) (some step)
          pure .normal) := by
  cases fuel with
  | zero => exact .exhausted (.bind ((resumes limit le_rfl).evaluateOr _) fun _ => .pure _)
  | succ fuel => exact .bind ((resumes limit (Nat.le_succ fuel)).evaluate step) fun _ => .pure _

theorem prolongs_expression (fuel : Nat) (step : Expr) :
    Prolongs limit (do let _ ← evaluateOr fuel (some step)
                       pure .normal) (execute (fuel + 1) (.expression step)) := by
  cases fuel with
  | zero => exact .exhausted ((resumes limit le_rfl).execute _)
  | succ fuel => exact .bind ((resumes limit (Nat.le_succ fuel)).evaluate step) fun _ => .pure _

theorem roundStmt_prolongs_idleRound (fuel : Nat) :
    Prolongs limit (execute fuel loop.roundStmt) (loop.idleRound fuel) := by
  cases fuel with
  | zero => exact .exhausted (loop.idleRound_prolongs le_rfl)
  | succ fuel =>
      have sub := resumes limit (Nat.le_succ fuel)
      unfold roundStmt idleRound
      cases found : loop.increment with
      | none =>
          dsimp only
          rw [loop.round_of_none found]
          exact (resumes limit le_rfl).execute loop.body
      | some step =>
          refine .get fun machine => .bind (.openScope _ _) fun env => .inside ?_ env
          refine (executeAll_pair_prolongs fuel loop.body (.expression step)).trans ?_
          refine .bind (sub.execute loop.body) fun flow => .andThen ?_ flow
          rw [found]
          exact expression_prolongs fuel step

theorem idleRound_prolongs_roundStmt (fuel : Nat) :
    Prolongs limit (loop.idleRound fuel) (execute (fuel + 5) loop.roundStmt) := by
  unfold roundStmt idleRound
  cases found : loop.increment with
  | none =>
      have body := (resumes limit (Nat.le_add_right fuel 5)).execute loop.body
      cases fuel with
      | zero => exact body
      | succ fuel =>
          dsimp only
          rw [loop.round_of_none found]
          exact body
  | some step =>
      refine .get fun machine => .bind (.openScope _ _) fun env => .inside ?_ env
      refine Prolongs.trans ?_ (pair_prolongs_executeAll (fuel + 1) loop.body (.expression step))
      refine .bind ((resumes limit (Nat.le_succ fuel)).execute loop.body) fun flow =>
        .andThen ?_ flow
      rw [found]
      exact prolongs_expression fuel step

theorem idleRounds_prolongs (le : fuel ≤ more) :
    Prolongs limit (rounds loop.test loop.idleRound fuel) (rounds loop.test loop.idleRound more) := by
  obtain ⟨extra, rfl⟩ := Nat.exists_eq_add_of_le le
  exact rounds_prolongs extra (fun fuel => loop.test_prolongs (Nat.le_add_right fuel extra))
    (fun fuel => loop.idleRound_prolongs (Nat.le_add_right fuel extra))
    (rounds_prolongs_self (fun _ => loop.test_prolongs le_rfl)
      (fun _ => loop.idleRound_prolongs le_rfl) extra) fuel

theorem while_prolongs_rounds (fuel : Nat) :
    Prolongs limit (execute fuel (.whileLoop loop.tested loop.roundStmt))
      (rounds loop.test loop.idleRound fuel) := by
  refine ((resumes limit (Nat.le_succ fuel)).execute _).trans ?_
  show Prolongs limit (repeatWhile fuel loop.tested loop.roundStmt) _
  rw [repeatWhile_eq_rounds]
  exact rounds_prolongs 0 loop.tested_prolongs_test loop.roundStmt_prolongs_idleRound (.throw _) fuel

theorem rounds_prolongs_while (fuel : Nat) :
    Prolongs limit (rounds loop.test loop.idleRound fuel)
      (execute (fuel + 6) (.whileLoop loop.tested loop.roundStmt)) := by
  have self := (resumes limit (le_refl 5)).repeatWhile loop.tested loop.roundStmt
  show Prolongs limit _ (repeatWhile (fuel + 5) loop.tested loop.roundStmt)
  rw [repeatWhile_eq_rounds] at self ⊢
  exact rounds_prolongs 5 (loop.test_prolongs_tested · 4) loop.idleRound_prolongs_roundStmt self fuel

def Plain : Prop :=
  ∀ first ∈ loop.initializer, (∃ name value, first = .varDecl name value) ∨
    ∃ value, first = .expression value

variable {loop}

theorem Plain.goes_on (plain : loop.Plain) {first : Stmt} (found : loop.initializer = some first)
    (fuel : Nat) (next : Run Flow) :
    (do (← execute fuel first).andThen next) = (do let _ ← execute fuel first; next) := by
  cases fuel with
  | zero => rfl
  | succ fuel =>
      obtain ⟨name, value, rfl⟩ | ⟨value, rfl⟩ := plain first found
      · simp only [execute, bind_assoc, pure_bind, Flow.andThen]
      · simp only [execute, bind_assoc, pure_bind, Flow.andThen]

theorem Plain.expanded_prolongs_idleRun (plain : loop.Plain) (fuel : Nat) :
    Prolongs limit (execute fuel loop.expanded) (loop.idleRun fuel) := by
  rw [expanded_eq, idleRun, within]
  cases found : loop.initializer with
  | none => exact loop.while_prolongs_rounds fuel
  | some first =>
      cases fuel with
      | zero =>
          refine .exhausted (.get fun machine => .bind (.openScope _ _) fun env => .inside ?_ env)
          exact .bind ((resumes limit le_rfl).execute first) fun _ => .throw _
      | succ fuel =>
          refine .get fun machine => .bind (.openScope _ _) fun env => .inside ?_ env
          refine (executeAll_pair_prolongs fuel _ _).trans ?_
          rw [plain.goes_on found]
          exact .bind ((resumes limit (Nat.le_succ fuel)).execute first) fun _ =>
            (loop.while_prolongs_rounds fuel).trans (loop.idleRounds_prolongs (Nat.le_succ fuel))

theorem Plain.idleRun_prolongs_expanded (plain : loop.Plain) (fuel : Nat) :
    Prolongs limit (loop.idleRun fuel) (execute (fuel + 10) loop.expanded) := by
  rw [expanded_eq, idleRun, within]
  cases found : loop.initializer with
  | none =>
      exact (loop.rounds_prolongs_while fuel).trans ((resumes limit (by omega)).execute _)
  | some first =>
      refine .get fun machine => .bind (.openScope _ _) fun env => .inside ?_ env
      refine Prolongs.trans ?_ (pair_prolongs_executeAll (fuel + 6) _ _)
      rw [plain.goes_on found]
      exact .bind ((resumes limit (by omega)).execute first) fun _ => loop.rounds_prolongs_while fuel

end ForLoop

end Fuel

/-! The idle scopes of the rounds. -/

section Rounds

variable {tables : Tables} {roster : Roster} {mask : Mask}

section Ends

variable {α α' : Type} {R : Roster → α → α' → Prop} {step : Run α} {step' : Run α'}
  {machine machine' : Machine}
  (ends : TrimsEnd tables roster mask R (step machine) (step' machine'))
include ends

theorem Run.TrimsEnd.ended (ended : ∀ after, step' machine' ≠ .error .outOfFuel after) :
    ∀ after, step machine ≠ .error .outOfFuel after := by
  intro after ran
  rw [ran] at ends
  generalize step' machine' = result' at ends ended
  cases ends with
  | error => exact ended _ rfl

theorem Run.TrimsEnd.output : (step'.final machine').output = (step.final machine).output := by
  unfold final
  generalize step machine = result at ends
  generalize step' machine' = result' at ends
  cases ends with
  | ok _ _ after => exact congrArg (·.sink.lines.toList) after.host
  | error _ _ after => exact congrArg (·.sink.lines.toList) after.host

end Ends

theorem Run.Trims.andThen {next next' : Run Flow}
    (rest : Run.Trims tables roster mask (Flow.Trims tables) next next') {flow flow' : Flow}
    (ended : flow.Trims tables roster flow') :
    Run.Trims tables roster mask (Flow.Trims tables) (flow.andThen next) (flow'.andThen next') := by
  cases ended with
  | returned value => exact .pure fun _ grown => .returned (value.mono grown)
  | normal => exact rest

theorem rounds_trims {test test' : Nat → Run Bool} {round round' : Nat → Run Flow}
    (tests : ∀ fuel roster,
      Trims tables roster mask (fun _ goes goes' => goes' = goes) (test fuel) (test' fuel))
    (bodies : ∀ fuel roster,
      Trims tables roster mask (Flow.Trims tables) (round fuel) (round' fuel)) (fuel : Nat)
    (roster : Roster) :
    Trims tables roster mask (Flow.Trims tables) (rounds test round fuel)
      (rounds test' round' fuel) := by
  induction fuel generalizing roster with
  | zero => exact .throw _
  | succ fuel ih =>
      refine .bind (tests fuel roster) fun _ _ goes goes' same => ?_
      subst same
      split
      · exact .bind (bodies fuel _) fun _ _ _ _ flow => Run.Trims.andThen (ih _) flow
      · exact .pure fun _ _ => .normal

theorem Run.Keeps.andThen {next : Run Flow} (keeps : Keeps next) (flow : Flow) :
    Keeps (flow.andThen next) := by
  cases flow with
  | returned value => exact .pure _
  | normal => exact keeps

theorem rounds_keeps {test : Nat → Run Bool} {round : Nat → Run Flow}
    (tests : ∀ fuel, Keeps (test fuel)) (bodies : ∀ fuel, Keeps (round fuel)) (fuel : Nat) :
    Keeps (rounds test round fuel) := by
  induction fuel with
  | zero => exact Kept.refl
  | succ fuel ih =>
      refine .bind (tests fuel) fun goes => ?_
      split
      · exact .bind (bodies fuel) fun flow => ih.andThen flow
      · exact .pure _

end Rounds

/-- Two steps, each from a machine of its own and with as much fuel as it takes: when one of them comes
to an end, the other comes to the one that corresponds to it, and if neither does, they still write the
same. Both return to the scopes from which they started. -/
structure Run.Agree (tables : Tables) (roster : Roster) (machine machine' : Machine)
    (step step' : Nat → Run Flow) : Prop where
  ends : ∀ fuel, (∀ after, step fuel machine ≠ .error .outOfFuel after) →
    ∃ more, TrimsEnd tables roster [] (Flow.Trims tables) (step fuel machine) (step' more machine')
  ends' : ∀ fuel, (∀ after, step' fuel machine' ≠ .error .outOfFuel after) →
    ∃ more, TrimsEnd tables roster [] (Flow.Trims tables) (step more machine) (step' fuel machine')
  written : ∀ fuel, ∃ more,
    ((step fuel).final machine).output <+: ((step' more).final machine').output
  written' : ∀ fuel, ∃ more,
    ((step' fuel).final machine').output <+: ((step more).final machine).output
  env : ∀ fuel, ((step fuel).final machine).env = machine.env
  env' : ∀ fuel, ((step' fuel).final machine').env = machine'.env

namespace ForLoop

def outer (loop : ForLoop) : Mask := if loop.initializer.isSome then [false] else []

def inner (loop : ForLoop) : Mask :=
  if loop.increment.isSome then true :: loop.outer else loop.outer

/-- The clauses of the one loop stand in the scopes of the expansion, those of the other do not. -/
structure Trims (tables : Tables) (loop loop' : ForLoop) : Prop where
  initializer : Option.Rel (Stmt.Trims tables [false]) loop.initializer loop'.initializer
  condition : Option.Rel (Expr.Trims tables loop.outer) loop.condition loop'.condition
  increment : Option.Rel (Expr.Trims tables loop.inner) loop.increment loop'.increment
  body : loop.body.Trims tables loop.inner loop'.body

section Keeps

variable (loop : ForLoop)

theorem test_keeps (fuel : Nat) : Keeps (loop.test fuel) := by
  unfold test
  split
  · exact .bind (evaluate_keeps fuel _) fun _ => .pure _
  · exact .pure _

theorem round_keeps (fuel : Nat) : Keeps (loop.round fuel) :=
  .bind (execute_keeps fuel _) fun flow =>
    .andThen (.bind (evaluateOr_keeps fuel _) fun _ => .pure _) flow

theorem run_keeps (fuel : Nat) : Keeps (loop.run fuel) := by
  have all := rounds_keeps loop.test_keeps loop.round_keeps fuel
  unfold run within
  split
  · exact .bind .get fun _ => .bind (.openScope _ _) fun env =>
      .inside (.bind (execute_keeps fuel _) fun _ => all) env
  · exact all

end Keeps

section Meaning

variable {tables : Tables} {loop loop' : ForLoop} (trims : loop.Trims tables loop')
include trims

theorem Trims.test (fuel : Nat) (roster : Roster) :
    Run.Trims tables roster loop.outer (fun _ goes goes' => goes' = goes) (loop.test fuel)
      (loop'.test fuel) := by
  unfold ForLoop.test
  rcases relCases trims.condition with ⟨none, none'⟩ | ⟨condition, condition', found, found', tested⟩
  · rw [none, none']
    exact .pure fun _ _ => rfl
  · rw [found, found']
    exact .bind (evaluate_trims fuel tested) fun _ _ _ _ value => .pure fun _ _ => value.isTruthy

theorem Trims.round (fuel : Nat) (roster : Roster) :
    Run.Trims tables roster loop.inner (Flow.Trims tables) (loop.round fuel) (loop'.round fuel) :=
  .bind (execute_trims fuel trims.body) fun _ _ _ _ flow =>
    Run.Trims.andThen (.bind (evaluateOr_trims fuel trims.increment) fun _ _ _ _ _ =>
      .pure fun _ _ => .normal) flow

theorem Trims.idleRound (fuel : Nat) (roster : Roster) :
    Run.Trims tables roster loop.outer (Flow.Trims tables) (loop.idleRound fuel)
      (loop'.round fuel) := by
  have round := trims.round fuel roster
  unfold ForLoop.inner at round
  unfold ForLoop.idleRound
  cases found : loop.increment with
  | none =>
      rw [found] at round
      exact round
  | some step =>
      rw [found] at round
      exact .idle (loop'.round_keeps fuel) round

theorem Trims.run (fuel : Nat) (roster : Roster) :
    Run.Trims tables roster [] (Flow.Trims tables) (loop.idleRun fuel) (loop'.run fuel) := by
  have all := rounds_trims trims.test trims.idleRound fuel
  unfold ForLoop.outer at all
  unfold ForLoop.idleRun ForLoop.run ForLoop.within
  rcases relCases trims.initializer with ⟨none, none'⟩ | ⟨first, first', found, found', executed⟩
  · rw [none] at all
    rw [none, none']
    exact all roster
  · rw [found] at all
    rw [found, found']
    refine .bind .get fun _ _ machine machine' trims =>
      .bind (.openScope trims.env .empty) fun _ _ _ _ opened => .inside opened ?_
    exact .bind (execute_trims fuel executed) fun _ _ _ _ _ => all _

theorem Trims.agree (plain : loop.Plain) {roster : Roster} {machine machine' : Machine}
    (machines : machine.Trims tables roster [] machine') :
    Agree tables roster machine machine' (execute · loop.expanded) loop'.run := by
  have pair (fuel : Nat) := trims.run fuel roster roster List.prefix_rfl machine machine' machines
  constructor
  · intro fuel ended
    refine ⟨fuel, ?_⟩
    rw [← (plain.expanded_prolongs_idleRun fuel).settled ended]
    exact pair fuel
  · intro fuel ended
    refine ⟨fuel + 10, ?_⟩
    rw [(plain.idleRun_prolongs_expanded fuel).settled ((pair fuel).ended ended)]
    exact pair fuel
  · intro fuel
    refine ⟨fuel, ?_⟩
    rw [(pair fuel).output]
    exact (plain.expanded_prolongs_idleRun fuel).written
  · intro fuel
    refine ⟨fuel + 10, ?_⟩
    rw [(pair fuel).output]
    exact (plain.idleRun_prolongs_expanded fuel).written
  · exact fun fuel => (execute_keeps fuel _ machine).env
  · exact fun fuel => (loop'.run_keeps fuel machine').env

end Meaning

/-! The resolution of the loop. -/

def renumbered (loop : ForLoop) (offset : Nat) : ForLoop where
  initializer := loop.initializer.map (Stmt.shift ⟨offset, 0⟩)
  condition := loop.condition.map (Expr.shift ⟨offset, 0⟩)
  increment := loop.increment.map (Expr.shift ⟨offset, 0⟩)
  body := loop.body.shift ⟨offset, 0⟩

def site (loop : ForLoop) (around : Site) : Site :=
  match loop.initializer with
  | some first => (around.enter (.block [first]) []).after first
  | none => around

/-- The walk through the clauses as they stand. What the body declares is in no scope that is open at
the increment. -/
def visits (loop : ForLoop) (around : Site) : List Visit :=
  (match loop.initializer with
    | some first => first.visits (around.enter (.block [first]) [])
    | none => []) ++
  ((loop.site around).visits (Expr.usesAll loop.condition.toList) ++
    ((loop.site around).visits (Expr.usesAll loop.increment.toList) ++
      loop.body.visits (loop.site around)))

theorem uses_renumbered (loop : ForLoop) (offset : Nat) (around : Site) :
    ((loop.renumbered offset).visits around).map Visit.use =
      ((loop.visits around).map Visit.use).map (Use.shift ⟨offset, 0⟩) := by
  unfold visits renumbered
  simp only [List.map_append, Grammar.map_use_visits, Expr.uses_shift_option,
    loop.body.uses_shift (loop.site around)]
  cases loop.initializer with
  | none => rfl
  | some first =>
      simp only [Option.map_some, first.uses_shift (around.enter (.block [first]) [])]

/-- Where the names of the clauses are looked up. Between a clause and the scopes around the statement
there are the scope of the initializer and perhaps an empty one: neither the condition nor the increment
sees what the body declares. -/
structure Scoped (loop : ForLoop) (around : Site) (visits : List Visit) : Prop where
  declares : ∀ name value, loop.initializer = some (.varDecl name value) →
    (loop.site around).scopes = [name.lexeme] :: around.scopes
  initializer : ∀ first ∈ loop.initializer, ∃ site : Site,
    site.scopes = [] :: around.scopes ∧ first.visits site ⊆ visits
  condition : ∀ use ∈ Expr.usesAll loop.condition.toList, ∃ visit ∈ visits,
    visit.use = use ∧ visit.scopes = (loop.site around).scopes
  increment : ∀ use ∈ Expr.usesAll loop.increment.toList, ∃ visit ∈ visits,
    visit.use = use ∧ visit.scopes = [] :: (loop.site around).scopes
  body : ∃ site : Site, loop.body.visits site ⊆ visits ∧
    (site.scopes = (loop.site around).scopes ∨ site.scopes = [] :: (loop.site around).scopes)

section Resolution

variable {tables : Tables} {loop : ForLoop} {offset : Nat} {around : Site}

theorem scoped_of_while {site : Site} {visits : List Visit} (formed : loop.roundStmt.Formed)
    (bare : loop.body.declared? = none) (same : site.scopes = (loop.site around).scopes)
    (included : (Stmt.whileLoop loop.tested loop.roundStmt).visits site ⊆ visits)
    (initializer : ∀ first ∈ loop.initializer, ∃ site : Site,
      site.scopes = [] :: around.scopes ∧ first.visits site ⊆ visits) :
    loop.Scoped around visits := by
  obtain ⟨tested, round⟩ := List.append_subset.mp included
  refine ⟨fun name value found => ?_, initializer, fun use used => ?_, fun use used => ?_, ?_⟩
  · simp only [ForLoop.site, found]
    rfl
  · refine ⟨⟨use, site.regions, site.scopes⟩, tested (List.mem_map_of_mem ?_), rfl, same⟩
    unfold ForLoop.tested
    cases found : loop.condition with
    | none => simp [found, Expr.usesAll] at used
    | some condition => simpa [found, Expr.usesAll] using used
  · cases found : loop.increment with
    | none => simp [found, Expr.usesAll] at used
    | some step =>
        simp only [roundStmt, found] at formed round
        obtain ⟨-, stepped⟩ := List.append_subset.mp round
        rw [Site.after_eq formed.1 bare] at stepped
        simp only [Stmt.visitsAll, Stmt.visits, List.append_nil] at stepped
        have used : use ∈ step.uses := by simpa [found, Expr.usesAll] using used
        exact ⟨_, stepped (List.mem_map_of_mem used), rfl, congrArg ([] :: ·) same⟩
  · cases found : loop.increment with
    | none =>
        simp only [roundStmt, found] at round
        exact ⟨site, round, .inl same⟩
    | some step =>
        simp only [roundStmt, found] at round
        obtain ⟨body, -⟩ := List.append_subset.mp round
        exact ⟨_, body, .inr (congrArg ([] :: ·) same)⟩

theorem expanded_scoped (loop : ForLoop) (formed : loop.expanded.Formed)
    (bare : loop.body.declared? = none) :
    loop.Scoped around (loop.expanded.visits around) := by
  rw [expanded_eq] at formed ⊢
  cases found : loop.initializer with
  | none =>
      rw [found] at formed
      exact scoped_of_while formed.2 bare (by simp [ForLoop.site, found]) (List.Subset.refl _)
        (by simp [found])
  | some first =>
      rw [found] at formed
      obtain ⟨early, late⟩ := List.append_subset.mp (List.Subset.refl
        ((Stmt.block [first, .whileLoop loop.tested loop.roundStmt]).visits around))
      refine scoped_of_while formed.2.1.2 bare ?_ (List.append_subset.mp late).1 ?_
      · simp only [ForLoop.site, found]
        rfl
      · intro other given
        rw [found] at given
        cases given
        exact ⟨_, rfl, early⟩

section Rounds

variable {outer : Mask} {site site' : Site} (aligned : Aligned outer site.scopes site'.scopes)
  (spelled : (Node.stmt (.whileLoop loop.tested loop.roundStmt)).Spelled)
  (known : Knows tables.full ((Stmt.whileLoop loop.tested loop.roundStmt).visits site))

include aligned spelled known

theorem trims_condition
    (known' : Knows tables.trimmed
      (site'.visits (Expr.usesAll (loop.renumbered offset).condition.toList))) :
    Option.Rel (Expr.Trims tables outer) loop.condition (loop.renumbered offset).condition := by
  have tested : (Node.expr loop.tested).Spelled := spelled.part (by simp [Node.parts])
  obtain ⟨known, -⟩ := knows_append.mp known
  unfold ForLoop.tested at tested known
  unfold renumbered at known' ⊢
  refine Expr.option_shift aligned loop.condition ?_ ?_ known'
  · intro condition found
    rwa [Option.mem_def.mp found] at tested
  · cases found : loop.condition with
    | none => simp [Expr.usesAll, Site.visits, Knows]
    | some condition => simpa [Expr.usesAll, found] using known

theorem trims_body (formed : loop.roundStmt.Formed) (bare : loop.body.declared? = none)
    (apart : ∀ names ∈ site.scopes.head?, "super" ∉ names)
    (known' : Knows tables.trimmed
      (site'.visits (Expr.usesAll (loop.renumbered offset).increment.toList)))
    (known'' : Knows tables.trimmed ((loop.renumbered offset).body.visits site')) :
    let inner := if loop.increment.isSome then true :: outer else outer
    Option.Rel (Expr.Trims tables inner) loop.increment (loop.renumbered offset).increment ∧
      loop.body.Trims tables inner (loop.renumbered offset).body := by
  have round : (Node.stmt loop.roundStmt).Spelled := spelled.part (by simp [Node.parts])
  obtain ⟨-, known⟩ := knows_append.mp known
  unfold roundStmt at round known formed
  unfold renumbered at known' known'' ⊢
  cases found : loop.increment with
  | none =>
      rw [found] at round known formed
      exact ⟨.none, loop.body.trims_shift aligned formed (fun _ => bare) round known known''⟩
  | some step =>
      rw [found] at round known formed known'
      have idle : Aligned (true :: outer)
          (site.enter (.block [loop.body, .expression step]) []).scopes site'.scopes :=
        .idle apart aligned
      obtain ⟨body, known⟩ := knows_append.mp known
      rw [Site.after_eq formed.1 bare] at known
      have stepped : (Node.stmt (.expression step)).Spelled := round.part (by simp [Node.parts])
      refine ⟨.some (step.site_shift idle (stepped.part List.mem_cons_self) ?_ ?_),
        loop.body.trims_shift idle formed.1 (fun _ => bare) (round.part (by simp [Node.parts])) body
          known''⟩
      · simpa [Stmt.visitsAll, Stmt.visits] using known
      · simpa [Expr.usesAll] using known'

end Rounds

theorem super_not_mem_after {region : Region} {first : Stmt} (formed : first.Formed)
    (spelled : (Node.stmt first).Spelled) :
    ∀ names ∈ ((around.enter region []).after first).scopes.head?, "super" ∉ names := by
  have scopes := first.resolve_scopes around.around ([] :: around.scopes) formed
  intro names head
  simp only [Site.after, Site.enter, scopes] at head
  cases declared : first.declared? with
  | none =>
      rw [declared] at head
      cases head
      simp
  | some name =>
      have nameable := spelled.declared name declared
      rw [declared] at head
      cases head
      simpa using nameable.ne_super.symm

theorem trims_renumbered (formed : loop.expanded.Formed) (bare : loop.body.declared? = none)
    (spelled : (Node.stmt loop.expanded).Spelled)
    (apart : ∀ names ∈ around.scopes.head?, "super" ∉ names)
    (known : Knows tables.full (loop.expanded.visits around))
    (known' : Knows tables.trimmed ((loop.renumbered offset).visits around)) :
    loop.Trims tables (loop.renumbered offset) := by
  obtain ⟨first', known'⟩ := knows_append.mp known'
  obtain ⟨condition', known'⟩ := knows_append.mp known'
  obtain ⟨increment', body'⟩ := knows_append.mp known'
  rw [expanded_eq] at formed spelled known
  cases found : loop.initializer with
  | none =>
      have same : (loop.renumbered offset).site around = around := by
        simp [ForLoop.site, renumbered, found]
      rw [found] at formed spelled known
      rw [same] at condition' increment' body'
      have level := Aligned.level around.scopes
      obtain ⟨increment, body⟩ :=
        trims_body level spelled known formed.2 bare apart increment' body'
      refine ⟨by simp [renumbered, found], ?_, ?_, ?_⟩
      · simpa [ForLoop.outer, found] using trims_condition level spelled known condition'
      · simpa [ForLoop.inner, ForLoop.outer, found] using increment
      · simpa [ForLoop.inner, ForLoop.outer, found] using body
  | some first =>
      have same : (loop.renumbered offset).site around =
          (around.enter (.block [first.shift ⟨offset, 0⟩]) []).after first := by
        simp [ForLoop.site, renumbered, found, Site.after_shift]
      rw [found] at formed spelled known
      rw [same] at condition' increment' body'
      obtain ⟨known₁, known⟩ := knows_append.mp known
      obtain ⟨known, -⟩ := knows_append.mp known
      have spelled₁ : (Node.stmt first).Spelled := spelled.part (by simp [Node.parts])
      have spelled := spelled.part (List.mem_map_of_mem (List.mem_cons_of_mem _ List.mem_cons_self))
      -- the scope of the initializer is the same for both
      have fresh : Aligned [false] ([] :: around.scopes) ([] :: around.scopes) :=
        .shared [] (.level around.scopes)
      have isOpen : ¬ Mask.Open [false] → first.declared? = none := absurd (Mask.open_cons [])
      have level : Aligned [false]
          ((around.enter (.block [first, .whileLoop loop.tested loop.roundStmt]) []).after
            first).scopes
          ((around.enter (.block [first.shift ⟨offset, 0⟩]) []).after first).scopes :=
        Aligned.after fresh formed.1 isOpen
      obtain ⟨increment, body⟩ :=
        trims_body level spelled known formed.2.1.2 bare (super_not_mem_after formed.1 spelled₁)
          increment' body'
      refine ⟨?_, ?_, ?_, ?_⟩
      · simp only [renumbered, found, Option.map_some] at first' ⊢
        exact .some (first.trims_shift fresh formed.1 isOpen spelled₁ known₁ first')
      · simpa [ForLoop.outer, found] using trims_condition level spelled known condition'
      · simpa [ForLoop.inner, ForLoop.outer, found] using increment
      · simpa [ForLoop.inner, ForLoop.outer, found] using body

end Resolution

end ForLoop

end Lox
