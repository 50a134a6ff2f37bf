import Mathlib
import Lox.Proofs.Run.Faults
import Lox.Proofs.Run.Limit

/-!
Runs whose output is cut off. Of two runs that differ in their sinks only, one is refused no line
and the other every line from some number on. They do the same until that line is offered. There the
second fails, at the token of the task that offers the line, and has written all lines before it.
-/

namespace Lox

/-- From which line on a sink refuses, and for what cause each. -/
structure Cutoff where
  bound : Nat
  cause : Nat → HostFault

def Cutoff.refusal (cutoff : Cutoff) (offered : Nat) : Option HostFault :=
  if cutoff.bound ≤ offered then some (cutoff.cause offered) else none

namespace Machine

def onto (machine : Machine) (sink : Sink) : Machine := { machine with host.sink := sink }

def offered (machine : Machine) : Nat := machine.host.sink.offered

def Accepting (machine : Machine) : Prop :=
  machine.host.sink.refusal = (fun _ => none) ∧ machine.host.sink.flushFault = fun _ => none

def cut (machine : Machine) (cutoff : Cutoff) : Machine :=
  machine.onto { machine.host.sink with refusal := cutoff.refusal }

end Machine

namespace Native

open Run

theorem takeLine_onto (host : Host) (sink : Sink) :
    { host with sink }.takeLine = (host.takeLine.1, { host.takeLine.2 with sink }) := by
  obtain ⟨_, input, files, clock⟩ := host
  cases input with
  | nil => rfl
  | cons first rest =>
      simp only [Host.takeLine]
      split <;> rfl

end Native

theorem Deed.blind {deed : Deed} (silent : ∀ text, deed ≠ .writeLine text) (machine : Machine) :
    (∀ sink, deed.answer (machine.onto sink) = deed.answer machine) ∧
      (∀ sink, deed.change (machine.onto sink) = (deed.change machine).onto sink) ∧
      (deed.change machine).host.sink = machine.host.sink := by
  cases deed with
  | writeLine text => exact absurd rfl (silent text)
  | readLine =>
      have taken (sink : Sink) : (machine.onto sink).host.takeLine =
          (machine.host.takeLine.1, { machine.host.takeLine.2 with sink }) :=
        Native.takeLine_onto machine.host sink
      simp only [Deed.answer, Deed.change, taken]
      exact ⟨fun _ => trivial, fun _ => rfl, Native.sink_takeLine _⟩
  | assign id name =>
      have same (sink : Sink) : (machine.onto sink).holderOf? id name = machine.holderOf? id name :=
        rfl
      simp only [Deed.answer, Deed.change, same]
      cases machine.holderOf? id name <;> exact ⟨fun _ => trivial, fun _ => rfl, rfl⟩
  | writeFile path text =>
      have same (sink : Sink) : (machine.onto sink).host.files = machine.host.files := rfl
      simp only [Deed.answer, Deed.change, same]
      cases machine.host.files.write path text.toUTF8.toList <;>
        exact ⟨fun _ => trivial, fun _ => rfl, rfl⟩
  | _ => exact ⟨fun _ => rfl, fun _ => rfl, rfl⟩

namespace Run

variable {α β : Type} {cutoff : Cutoff} {step : Run α} {machine : Machine} {texts : List String}

def offer (text : String) (place : Option Token) : Run Unit := do
  match ← writeLine text with
  | .ok () => pure ()
  | .error fault => throw (.error ⟨.outputFailed fault, place⟩)

/-- The step writes these texts. If they reach the bound, the step is stopped there when the output
is cut off; otherwise it makes no difference. -/
structure Truncated (cutoff : Cutoff) (step : Run α) (machine : Machine) (texts : List String) :
    Prop where
  accepting : (step.final machine).Accepting
  output : (step.final machine).output = machine.output ++ texts
  offered : (step.final machine).offered = machine.offered + texts.length
  passed : machine.offered + texts.length ≤ cutoff.bound →
    step (machine.cut cutoff) = leaving id (·.cut cutoff) (step machine)
  stopped : machine.offered ≤ cutoff.bound → cutoff.bound < machine.offered + texts.length →
    ∃ place after,
      step (machine.cut cutoff) =
        .error (.error ⟨.outputFailed (cutoff.cause cutoff.bound), place⟩) after ∧
      after.output = machine.output ++ texts.take (cutoff.bound - machine.offered)

def Truncates (cutoff : Cutoff) (step : Run α) : Prop :=
  ∀ machine, machine.Accepting → ∃ texts, Truncated cutoff step machine texts

theorem Truncates.ended (truncates : Truncates cutoff step) (accepting : machine.Accepting)
    (within : machine.offered ≤ cutoff.bound) {value : α} {after : Machine}
    (ended : step (machine.cut cutoff) = .ok value after) :
    ∃ last, step machine = .ok value last ∧ after = last.cut cutoff ∧ last.Accepting ∧
      last.offered ≤ cutoff.bound := by
  obtain ⟨texts, truncated⟩ := truncates machine accepting
  by_cases reached : cutoff.bound < machine.offered + texts.length
  · obtain ⟨place, stop, stopped, -⟩ := truncated.stopped within reached
    rw [ended] at stopped
    cases stopped
  · have same := truncated.passed (not_lt.mp reached)
    rw [ended] at same
    have kept := truncated.accepting
    have count := truncated.offered
    cases ran : step machine with
    | error abort last =>
        rw [ran] at same
        cases same
    | ok value' last =>
        rw [ran] at same
        cases same
        simp only [final, ran] at kept count
        exact ⟨last, rfl, rfl, kept, by omega⟩

theorem Truncated.output_cut (truncated : Truncated cutoff step machine texts)
    (within : machine.offered ≤ cutoff.bound) :
    (step.final (machine.cut cutoff)).output =
      machine.output ++ texts.take (cutoff.bound - machine.offered) := by
  by_cases reached : cutoff.bound < machine.offered + texts.length
  · obtain ⟨place, stop, stopped, shown⟩ := truncated.stopped within reached
    rw [final, stopped]
    exact shown
  · have same := truncated.output
    rw [List.take_of_length_le (by omega), ← same, final, final,
      truncated.passed (not_lt.mp reached)]
    cases step machine <;> rfl

/-- A step that does not fail to write otherwise does so exactly if it comes to the bound. -/
theorem Truncated.fails_iff (truncated : Truncated cutoff step machine texts)
    (within : machine.offered ≤ cutoff.bound)
    (sound : ∀ cause place, ¬ step.Fails machine ⟨.outputFailed cause, place⟩) :
    (∃ cause place, step.Fails (machine.cut cutoff) ⟨.outputFailed cause, place⟩) ↔
      cutoff.bound < machine.offered + texts.length := by
  constructor
  · rintro ⟨cause, place, after, failed⟩
    by_contra early
    rw [truncated.passed (not_lt.mp early)] at failed
    apply sound cause place
    cases ran : step machine with
    | ok value last =>
        rw [ran] at failed
        cases failed
    | error abort last =>
        rw [ran] at failed
        cases failed
        exact ⟨last, ran⟩
  · intro reached
    obtain ⟨place, stop, stopped, -⟩ := truncated.stopped within reached
    exact ⟨_, place, stop, stopped⟩

namespace Truncates

theorem still (ends : ∀ machine, step.final machine = machine)
    (same : ∀ machine : Machine,
      step (machine.cut cutoff) = leaving id (·.cut cutoff) (step machine)) :
    Truncates cutoff step := by
  intro machine accepting
  refine ⟨[], by rwa [ends], by simp [ends], by simp [ends], fun _ => same machine, ?_⟩
  intro within reached
  exact absurd reached (not_lt.mpr within)

theorem pure (value : α) : Truncates cutoff (pure value) := .still (fun _ => rfl) fun _ => rfl

theorem throw (abort : Abort) : Truncates cutoff (throw abort : Run α) :=
  .still (fun _ => rfl) fun _ => rfl

theorem offer (text : String) (place : Option Token) : Truncates cutoff (offer text place) := by
  intro machine accepting
  have written : machine.host.sink.writeLine text = (.ok (), { machine.host.sink with
      offered := machine.host.sink.offered + 1, lines := machine.host.sink.lines.push text }) := by
    simp only [Sink.writeLine, show machine.host.sink.refusal _ = none from congrFun accepting.1 _]
  refine ⟨[text], ?_, ?_, ?_, ?_, ?_⟩
  · simp only [final, Bind.bind, EStateM.bind, Run.offer, writeLine, written]
    exact accepting
  · simp only [final, Bind.bind, EStateM.bind, Run.offer, writeLine, written]
    exact Array.toList_push
  · simp only [final, Bind.bind, EStateM.bind, Run.offer, writeLine, written]
    rfl
  · intro within
    simp only [List.length_singleton, Machine.offered] at within
    have kept : (machine.cut cutoff).host.sink.writeLine text =
        (.ok (), { (machine.cut cutoff).host.sink with
          offered := machine.host.sink.offered + 1
          lines := machine.host.sink.lines.push text }) := by
      simp only [Sink.writeLine, Machine.cut, Machine.onto, Cutoff.refusal]
      rw [if_neg (by omega)]
    simp only [Bind.bind, EStateM.bind, Run.offer, writeLine, written, kept]
    rfl
  · intro within reached
    simp only [List.length_singleton, Machine.offered] at within reached
    have last : machine.host.sink.offered = cutoff.bound := by omega
    have refused : (machine.cut cutoff).host.sink.writeLine text =
        (.error (cutoff.cause cutoff.bound), { (machine.cut cutoff).host.sink with
          offered := machine.host.sink.offered + 1 }) := by
      simp only [Sink.writeLine, Machine.cut, Machine.onto, Cutoff.refusal, last, le_refl, if_true]
    simp only [Bind.bind, EStateM.bind, Run.offer, writeLine, refused]
    refine ⟨place, _, rfl, ?_⟩
    simp only [Machine.offered, last, Nat.sub_self, List.take_zero, List.append_nil]
    rfl

theorem bind {next : α → Run β} (first : Truncates cutoff step)
    (second : ∀ value, Truncates cutoff (next value)) : Truncates cutoff (step >>= next) := by
  intro machine accepting
  obtain ⟨texts, kept, output, offered, passed, stopped⟩ := first machine accepting
  cases ran : step machine with
  | error abort after =>
      have whole : (step >>= next) machine = .error abort after := by
        simp only [Bind.bind, EStateM.bind, ran]
      simp only [final, ran] at kept output offered
      refine ⟨texts, ?_, ?_, ?_, ?_, ?_⟩
      · simpa only [final, whole] using kept
      · simpa only [final, whole] using output
      · simpa only [final, whole] using offered
      · intro within
        simp only [Bind.bind, EStateM.bind, passed within, ran, leaving]
      · intro within reached
        obtain ⟨place, stop, ended, shown⟩ := stopped within reached
        exact ⟨place, stop, by simp only [Bind.bind, EStateM.bind, ended], shown⟩
  | ok value after =>
      have whole : (step >>= next) machine = next value after := by
        simp only [Bind.bind, EStateM.bind, ran]
      simp only [final, ran] at kept output offered
      obtain ⟨texts', kept', output', offered', passed', stopped'⟩ := second value after kept
      have onward (within : machine.offered + texts.length ≤ cutoff.bound) :
          (step >>= next) (machine.cut cutoff) = next value (after.cut cutoff) := by
        simp only [Bind.bind, EStateM.bind, passed within, ran, leaving]
      refine ⟨texts ++ texts', ?_, ?_, ?_, ?_, ?_⟩
      · simpa only [final, whole] using kept'
      · simp only [final, whole] at output' ⊢
        rw [output', output, List.append_assoc]
      · simp only [final, whole] at offered' ⊢
        rw [offered', offered, List.length_append, Nat.add_assoc]
      · intro within
        rw [List.length_append] at within
        rw [onward (by omega), passed' (by omega), whole]
      · intro within reached
        rw [List.length_append] at reached
        by_cases early : cutoff.bound < machine.offered + texts.length
        · obtain ⟨place, stop, ended, shown⟩ := stopped within early
          refine ⟨place, stop, by simp only [Bind.bind, EStateM.bind, ended], ?_⟩
          rw [shown, List.take_append_of_le_length (by omega)]
        · obtain ⟨place, stop, ended, shown⟩ := stopped' (by omega) (by omega)
          refine ⟨place, stop, (onward (by omega)).trans ended, ?_⟩
          have rest : cutoff.bound - after.offered =
              cutoff.bound - machine.offered - texts.length := by
            omega
          have whole : texts.take (cutoff.bound - machine.offered) = texts :=
            List.take_of_length_le (by omega)
          rw [shown, output, rest, List.take_append, whole, List.append_assoc]

end Truncates

theorem Truncated.leaving {inner : Run α} {before : Machine}
    (truncated : Truncated cutoff inner before texts) (place : Abort → Abort)
    (restore : Machine → Machine)
    (starts : step machine = Run.leaving place restore (inner before))
    (startsCut : step (machine.cut cutoff) =
      Run.leaving place restore (inner (before.cut cutoff)))
    (sinks : before.host.sink = machine.host.sink)
    (restores : ∀ after, (restore after).host = after.host)
    (cuts : ∀ after, restore (after.cut cutoff) = (restore after).cut cutoff)
    (places : ∀ fault token, ∃ token', place (.error ⟨fault, token⟩) = .error ⟨fault, token'⟩) :
    Truncated cutoff step machine texts := by
  have left : step.final machine = restore (inner.final before) := by
    simp only [final, starts]
    cases inner before <;> rfl
  have output : before.output = machine.output := by simp only [Machine.output, sinks]
  have offered : before.offered = machine.offered := by simp only [Machine.offered, sinks]
  constructor
  · rw [left, Machine.Accepting, restores]
    exact truncated.accepting
  · rw [left, Machine.output, restores, ← output]
    exact truncated.output
  · rw [left, Machine.offered, restores, ← offered]
    exact truncated.offered
  · intro within
    rw [startsCut, truncated.passed (offered ▸ within), starts]
    cases inner before with
    | ok value after => simp only [Run.leaving, cuts]
    | error abort after => simp only [Run.leaving, cuts, id]
  · intro within reached
    obtain ⟨token, stop, ended, shown⟩ := truncated.stopped (offered ▸ within) (offered ▸ reached)
    obtain ⟨token', placed⟩ := places (.outputFailed (cutoff.cause cutoff.bound)) token
    refine ⟨token', restore stop, ?_, ?_⟩
    · rw [startsCut, ended, Run.leaving, placed]
    · rw [Machine.output, restores, ← output, ← offered]
      exact shown

theorem Truncates.around (truncates : Truncates cutoff step) (setting : Setting) :
    Truncates cutoff (setting.around step) := by
  intro machine accepting
  cases entered : setting.enter? machine with
  | none =>
      obtain ⟨paren, rfl, full, -⟩ := Setting.around_of_none step entered
      have refused : ∀ machine : Machine, machine.maxCallDepth ≤ machine.callDepth →
          guarded paren step machine = .error (.error ⟨.stackOverflow, some paren⟩) machine :=
        fun _ => guarded_full
      have stops : Truncates cutoff (Run.fail .stackOverflow paren : Run α) := .throw _
      obtain ⟨texts, truncated⟩ := stops machine accepting
      exact ⟨texts, truncated.leaving id id (refused _ full) (refused _ full) rfl (fun _ => rfl)
        (fun _ => rfl) fun _ token => ⟨token, rfl⟩⟩
  | some present =>
      have entersCut : setting.enter? (machine.cut cutoff) = some (present.cut cutoff) := by
        cases setting with
        | here | inside => cases entered; rfl
        | nested =>
            obtain ⟨room, ⟨⟩⟩ := Option.ite_none_right_eq_some.mp entered
            exact if_pos room
      obtain ⟨env, callDepth, rfl⟩ := Setting.eq_of_enter entered
      obtain ⟨texts, truncated⟩ := truncates { machine with env, callDepth } accepting
      refine ⟨texts, truncated.leaving setting.placing (setting.leave machine)
        (Setting.around_of_some entered) ?_ rfl ?_ ?_ ?_⟩
      · rw [Setting.around_of_some entersCut]
        cases setting <;> rfl
      · intro after
        cases setting <;> rfl
      · intro after
        cases setting <;> rfl
      · intro fault token
        cases setting <;> exact ⟨_, rfl⟩

end Run

open Run

namespace Plan

theorem truncates {bound : Nat} {α : Type} {cutoff : Cutoff} (plan : Plan bound α)
    {sets : Prop} (shorter : ∀ task : Task, task.bound < bound → Truncates cutoff task.run)
    (heeds : plan.Heeds sets) : Truncates cutoff (plan.play Task.run) := by
  induction plan with
  | done value => exact .pure value
  | stop abort => exact .throw abort
  | act deed next ih =>
      by_cases writes : ∃ text, deed = .writeLine text
      · obtain ⟨text, rfl⟩ := writes
        obtain ⟨⟨place, stops⟩, goesOn⟩ := heeds
        have same : (act (.writeLine text) next).play Task.run =
            offer text place >>= fun done => (next (.ok done)).play Task.run := by
          funext machine
          simp only [play, offer, Bind.bind, EStateM.bind, writeLine, Deed.answer, Deed.change]
          cases (machine.host.sink.writeLine text).1 with
          | ok done => rfl
          | error fault => rw [stops]; rfl
        rw [same]
        exact .bind (.offer text place) fun _ => ih _ goesOn
      · have silent := not_exists.mp writes
        intro machine accepting
        obtain ⟨sees, changes, sinks⟩ := deed.blind silent machine
        obtain ⟨texts, truncated⟩ := ih (deed.answer machine) (heeds.next _)
          (deed.change machine) (by rwa [Machine.Accepting, sinks])
        refine ⟨texts, truncated.leaving id id (leaving_id _).symm ?_ sinks (fun _ => rfl)
          (fun _ => rfl) fun _ token => ⟨token, rfl⟩⟩
        simp only [leaving_id, play, Machine.cut, sees, changes, sinks]
  | start setting task next less ih =>
      exact .bind ((shorter task less).around setting) fun result => ih result (heeds result)

end Plan

theorem Task.truncates (cutoff : Cutoff) (task : Task) : Truncates cutoff task.run := by
  induction task using Task.induction with
  | step task shorter =>
      rw [← task.play_plan]
      exact task.plan.truncates shorter task.heeds

/-! Where a line is offered. -/

inductive Offers : Task → Machine → Sink → Token → Prop
  | print {fuel keyword value machine result after} :
      evaluate fuel value machine = .ok result after →
      Offers (.execute (fuel + 1) (.print keyword value)) machine after.host.sink keyword
  | echo {fuel function paren value machine} :
      function.callable? = some (.native .echo) → machine.callDepth < machine.maxCallDepth →
      Offers (.call (fuel + 2) function paren [value]) machine machine.host.sink paren

section Places

variable {task other : Task} {machine later : Machine} {cutoff : Cutoff}

theorem Operator.unary_ne_outputFailed (operator : TokenKind) (operand : Value)
    (cause : HostFault) :
    Operator.unary operator operand ≠ .error (.outputFailed cause) := by
  unfold Operator.unary
  split <;> simp

theorem Operator.binary_ne_outputFailed (operator : TokenKind) (left right : Value)
    (cause : HostFault) : Operator.binary operator left right ≠ .error (.outputFailed cause) := by
  have onNumbers (function : Number → Number → Except RuntimeFault Value)
      (other : ∀ first second, function first second ≠ .error (.outputFailed cause)) :
      Operator.onNumbers left right function ≠ .error (.outputFailed cause) := by
    unfold Operator.onNumbers
    split
    · exact other _ _
    · simp
  unfold Operator.binary
  split
  · unfold Operator.add
    split <;> simp
  case h_4 =>
    refine onNumbers _ fun first second => ?_
    split <;> simp
  all_goals first | exact onNumbers _ fun _ _ => by simp | simp

theorem Sink.refusal_of_writeLine {sink : Sink} {text : String} {cause : HostFault}
    (failed : (sink.writeLine text).1 = .error cause) : sink.refusal sink.offered = some cause := by
  unfold Sink.writeLine at failed
  split at failed
  · rename_i found
    cases failed
    exact found
  · cases failed

theorem Raises.offers {cause : HostFault} {place : Option Token}
    (raised : Raises task machine ⟨.outputFailed cause, place⟩) :
    ∃ sink token, Offers task machine sink token ∧ sink.refusal sink.offered = some cause ∧
      place = some token := by
  cases raised with
  | unary _ applied => exact absurd applied (Operator.unary_ne_outputFailed _ _ _)
  | binary _ _ applied => exact absurd applied (Operator.binary_ne_outputFailed _ _ _ _)
  | print ended failed => exact ⟨_, _, .print ended, Sink.refusal_of_writeLine failed, rfl⟩
  | native callable enough free stops =>
      obtain ⟨-, -, written⟩ := stops.native
      obtain ⟨rfl, value, rfl, refused⟩ := written cause rfl
      exact ⟨_, _, .echo callable free, Sink.refusal_of_writeLine refused, rfl⟩

theorem Substep.cut_cases (step : Substep task (machine.cut cutoff) other later)
    (accepting : machine.Accepting) (within : machine.offered ≤ cutoff.bound) :
    ∃ present, Substep task machine other present ∧ later = present.cut cutoff ∧
      present.Accepting ∧ present.offered ≤ cutoff.bound := by
  have ended {α : Type} {part : Run α} (truncates : Truncates cutoff part) {value : α}
      {after : Machine} (ran : part (machine.cut cutoff) = .ok value after) :=
    truncates.ended accepting within ran
  cases step with
  | call first second =>
      obtain ⟨middle, first', rfl, accepting', within'⟩ :=
        ended (Task.truncates cutoff (.evaluate _ _)) first
      obtain ⟨last, second', rfl, kept⟩ :=
        (Task.truncates cutoff (.evaluateAll _ _)).ended accepting' within' second
      exact ⟨last, .call first' second', rfl, kept⟩
  | nextRound first truthy second =>
      obtain ⟨middle, first', rfl, accepting', within'⟩ :=
        ended (Task.truncates cutoff (.evaluate _ _)) first
      obtain ⟨last, second', rfl, kept⟩ :=
        (Task.truncates cutoff (.execute _ _)).ended accepting' within' second
      exact ⟨last, .nextRound first' truthy second', rfl, kept⟩
  | restStmts ran | restOfProgram ran =>
      obtain ⟨last, ran', rfl, kept⟩ := ended (Task.truncates cutoff (.execute _ _)) ran
      exact ⟨last, by constructor; exact ran', rfl, kept⟩
  | binaryRight ran | logicalRight ran | commaRight ran | thenBranch ran | elseBranch ran
  | arguments ran | getMethod ran | setValue ran | restOf ran | ifThen ran | ifElseThen ran
  | ifElseElse ran | declareSubclass ran | loopBody ran =>
      obtain ⟨last, ran', rfl, kept⟩ := ended (Task.truncates cutoff (.evaluate _ _)) ran
      exact ⟨last, by constructor <;> assumption, rfl, kept⟩
  | bindInitializer made found =>
      cases made
      exact ⟨_, .bindInitializer rfl found, rfl, accepting, within⟩
  | initializer made found bound =>
      cases made
      cases bound
      exact ⟨_, .initializer rfl found rfl, rfl, accepting, within⟩
  | superMethod recorded parent receiver found =>
      exact ⟨machine, .superMethod recorded parent receiver found, rfl, accepting, within⟩
  | invoke callable enough free =>
      exact ⟨_, .invoke callable enough free, rfl, accepting, within⟩
  | functionBody => exact ⟨_, .functionBody, rfl, accepting, within⟩
  | block => exact ⟨_, .block, rfl, accepting, within⟩
  | _ => exact ⟨machine, by constructor, rfl, accepting, within⟩

theorem Reaches.cut_cases (reaches : Reaches task (machine.cut cutoff) other later)
    (accepting : machine.Accepting) (within : machine.offered ≤ cutoff.bound) :
    ∃ present, Reaches task machine other present ∧ later = present.cut cutoff ∧
      present.Accepting ∧ present.offered ≤ cutoff.bound := by
  induction reaches with
  | here => exact ⟨machine, .here, rfl, accepting, within⟩
  | begun _ step ih =>
      obtain ⟨present, reached, rfl, accepting', within'⟩ := ih
      obtain ⟨last, step', rfl, kept⟩ := step.cut_cases accepting' within'
      exact ⟨last, reached.begun step', rfl, kept⟩

theorem Offers.of_cut {sink : Sink} {place : Token} {cause : HostFault}
    (offers : Offers task (machine.cut cutoff) sink place) (accepting : machine.Accepting)
    (within : machine.offered ≤ cutoff.bound) (refused : sink.refusal sink.offered = some cause) :
    ∃ present, Offers task machine present place ∧ present.offered = cutoff.bound ∧
      cause = cutoff.cause cutoff.bound := by
  have first (present : Machine) (within : present.offered ≤ cutoff.bound)
      (refused : cutoff.refusal present.offered = some cause) :
      present.offered = cutoff.bound ∧ cause = cutoff.cause cutoff.bound := by
    unfold Cutoff.refusal at refused
    split at refused
    · rename_i late
      have same := le_antisymm within late
      rw [same] at refused
      exact ⟨same, (Option.some.inj refused).symm⟩
    · cases refused
  cases offers with
  | print ended =>
      obtain ⟨last, ended', rfl, -, within'⟩ :=
        (Task.truncates cutoff (.evaluate _ _)).ended accepting within ended
      exact ⟨last.host.sink, .print ended', first last within' refused⟩
  | echo callable free =>
      exact ⟨machine.host.sink, .echo callable free, first machine within refused⟩

theorem Task.offers_of_fails {cause : HostFault} {place : Option Token} (own : ¬ task.InvokesHost)
    (accepting : machine.Accepting) (within : machine.offered ≤ cutoff.bound)
    (failed : task.Fails (machine.cut cutoff) ⟨.outputFailed cause, place⟩) :
    cause = cutoff.cause cutoff.bound ∧
      ∃ other later sink token, Reaches task machine other later ∧
        Offers other later sink token ∧ sink.offered = cutoff.bound ∧ place = some token := by
  obtain ⟨other, later, reached, raised⟩ := Task.exists_raises failed own
  obtain ⟨present, reached', rfl, accepting', within'⟩ := reached.cut_cases accepting within
  obtain ⟨sink, token, offers, refused, placed⟩ := raised.offers
  obtain ⟨sink', offers', count, same⟩ := offers.of_cut accepting' within' refused
  exact ⟨same, other, present, sink', token, reached', offers', count, placed⟩

theorem Task.not_fails_outputFailed {cause : HostFault} {place : Option Token}
    (own : ¬ task.InvokesHost) (accepting : machine.Accepting) :
    ¬ task.Fails machine ⟨.outputFailed cause, place⟩ := by
  rintro ⟨after, ended⟩
  obtain ⟨another, differs⟩ : ∃ another : HostFault, cause ≠ another := by
    by_cases same : cause = .notFound
    · exact ⟨.sinkClosed, by simp [same]⟩
    · exact ⟨.notFound, same⟩
  let cutoff : Cutoff := ⟨(task.run.final machine).offered, fun _ => another⟩
  obtain ⟨texts, truncated⟩ := task.truncates cutoff machine accepting
  have count : machine.offered + texts.length = cutoff.bound := truncated.offered.symm
  have failed : task.Fails (machine.cut cutoff) ⟨.outputFailed cause, place⟩ := by
    refine ⟨after.cut cutoff, ?_⟩
    rw [truncated.passed count.le, ended]
    rfl
  exact differs (Task.offers_of_fails own accepting (by omega) failed).1

end Places

end Lox
