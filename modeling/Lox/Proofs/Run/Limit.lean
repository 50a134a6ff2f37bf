import Mathlib
import Lox.Proofs.Run.Discipline

/-!
Runs with less and with more room. A run with less fuel or a lower limit on calls does what one with
more of both does, up to the point where it is cut short: there it has run out of fuel, or it has come
to a limit that the other run is not held by. Everything that it has written by then the other run
has written too.
-/

namespace Lox

namespace Machine

def allowing (machine : Machine) (limit : Nat) : Machine := { machine with maxCallDepth := limit }

def output (machine : Machine) : List String := machine.host.sink.lines.toList

variable (machine : Machine) (limit : Nat)

theorem allowing_eq_self {machine : Machine} {limit : Nat} (same : machine.maxCallDepth = limit) :
    machine.allowing limit = machine := by
  subst same
  rfl

@[simp] theorem valueOf?_allowing (id : ExprId) (name : String) :
    (machine.allowing limit).valueOf? id name = machine.valueOf? id name := rfl

@[simp] theorem holderOf?_allowing (id : ExprId) (name : String) :
    (machine.allowing limit).holderOf? id name = machine.holderOf? id name := rfl

@[simp] theorem field?_allowing (inst : Instance) (name : String) :
    (machine.allowing limit).field? inst name = machine.field? inst name := rfl

@[simp] theorem scopes_allowing : (machine.allowing limit).scopes = machine.scopes := rfl

@[simp] theorem env_allowing : (machine.allowing limit).env = machine.env := rfl

@[simp] theorem depths_allowing : (machine.allowing limit).depths = machine.depths := rfl

@[simp] theorem host_allowing : (machine.allowing limit).host = machine.host := rfl

/-- For want of fuel, or because of a lower limit, a run from the machine stops. -/
def Cuts (machine : Machine) (limit : Nat) (abort : Abort) : Prop :=
  abort = .outOfFuel ∨
    machine.maxCallDepth < limit ∧ ∃ place, abort = .error ⟨.stackOverflow, place⟩

end Machine

namespace Run

variable {α β : Type} {limit : Nat}

def allowing (limit : Nat) : EStateM.Result Abort Machine α → EStateM.Result Abort Machine α
  | .ok value after => .ok value (after.allowing limit)
  | .error abort after => .error abort (after.allowing limit)

/-- The longer step under the limit goes on from where the shorter one is cut. -/
structure Prolonged (limit : Nat) (short long : Run α) (machine : Machine) : Prop where
  kept : (short.final machine).maxCallDepth = machine.maxCallDepth
  keptLong : (long.final (machine.allowing limit)).maxCallDepth = limit
  grows : machine.output <+: (long.final (machine.allowing limit)).output
  ends : long (machine.allowing limit) = allowing limit (short machine) ∨
    ∃ abort after, short machine = .error abort after ∧ machine.Cuts limit abort ∧
      after.output <+: (long.final (machine.allowing limit)).output

def Prolongs (limit : Nat) (short long : Run α) : Prop :=
  ∀ machine, machine.maxCallDepth ≤ limit → Prolonged limit short long machine

theorem Prolongs.plain {step : Run α}
    (blind : ∀ machine, step (machine.allowing limit) = allowing limit (step machine))
    (kept : ∀ machine, (step.final machine).maxCallDepth = machine.maxCallDepth)
    (grows : ∀ machine, machine.output <+: (step.final machine).output) :
    Prolongs limit step step := by
  intro machine _
  exact ⟨kept machine, kept _, grows (machine.allowing limit), .inl (blind machine)⟩

theorem Prolongs.pure (value : α) : Prolongs limit (pure value) (pure value) :=
  .plain (fun _ => rfl) (fun _ => rfl) fun _ => List.prefix_rfl

theorem Prolongs.throw (abort : Abort) : Prolongs limit (throw abort : Run α) (throw abort) :=
  .plain (fun _ => rfl) (fun _ => rfl) fun _ => List.prefix_rfl

theorem Prolonged.output {short long : Run α} {machine : Machine}
    (prolonged : Prolonged limit short long machine) :
    (short.final machine).output <+: (long.final (machine.allowing limit)).output := by
  rcases prolonged.ends with same | ⟨abort, after, ran, -, written⟩
  · simp only [final, same]
    cases short machine with
    | ok value after => exact List.prefix_rfl
    | error abort after => exact List.prefix_rfl
  · rwa [final, ran]

theorem Prolonged.cut {short long : Run α} {machine : Machine} {abort : Abort}
    (other : Prolonged limit short long machine) (cuts : machine.Cuts limit abort) :
    Prolonged limit (throw abort) long machine :=
  ⟨rfl, other.keptLong, other.grows, .inr ⟨abort, machine, rfl, cuts, other.grows⟩⟩

theorem Prolongs.get {next next' : Machine → Run β}
    (rest : ∀ machine, Prolongs limit (next machine) (next' (machine.allowing limit))) :
    Prolongs limit (get >>= next) (get >>= next') := by
  intro machine le
  obtain ⟨kept, keptLong, grows, ends⟩ := rest machine machine le
  exact ⟨kept, keptLong, grows, ends⟩

theorem Prolongs.bind {short long : Run α} {next next' : α → Run β}
    (first : Prolongs limit short long)
    (second : ∀ value, Prolongs limit (next value) (next' value)) :
    Prolongs limit (short >>= next) (long >>= next') := by
  intro machine le
  obtain ⟨kept, keptLong, grows, ends⟩ := first machine le
  -- whatever follows the longer step starts under the limit, and writes only more
  have onward (value : α) (after : Machine) (ended : long (machine.allowing limit) = .ok value after) :
      ((next' value).final after).maxCallDepth = limit ∧
        after.output <+: ((next' value).final after).output := by
    have same : after.maxCallDepth = limit := by simpa [final, ended] using keptLong
    have rest := second value after same.le
    rw [← Machine.allowing_eq_self same]
    exact ⟨rest.keptLong, rest.grows⟩
  have longer : ((long >>= next').final (machine.allowing limit)).maxCallDepth = limit ∧
      (long.final (machine.allowing limit)).output <+:
        ((long >>= next').final (machine.allowing limit)).output := by
    simp only [final, Bind.bind, EStateM.bind] at keptLong ⊢
    cases ended : long (machine.allowing limit) with
    | ok value after => simpa [final] using onward value after ended
    | error abort after => simpa [ended] using keptLong
  cases ran : short machine with
  | error abort after =>
      refine ⟨?_, longer.1, grows.trans longer.2, ?_⟩
      · simpa [final, Bind.bind, EStateM.bind, ran] using kept
      · rcases ends with same | ⟨abort', after', ran', cut, shown⟩
        · rw [ran] at same
          left
          simp only [Bind.bind, EStateM.bind, ran, same, allowing]
        · rw [ran] at ran'
          cases ran'
          exact .inr ⟨abort, after, by simp only [Bind.bind, EStateM.bind, ran], cut,
            shown.trans longer.2⟩
  | ok value after =>
      have present : after.maxCallDepth = machine.maxCallDepth := by simpa [final, ran] using kept
      have same : long (machine.allowing limit) = .ok value (after.allowing limit) := by
        rcases ends with same | ⟨abort', after', ran', -⟩
        · rw [same, ran]
          rfl
        · rw [ran] at ran'
          cases ran'
      obtain ⟨kept', -, -, ends'⟩ := second value after (present ▸ le)
      have short_eq : (short >>= next) machine = next value after := by
        simp only [Bind.bind, EStateM.bind, ran]
      have long_eq : (long >>= next') (machine.allowing limit) =
          next' value (after.allowing limit) := by
        simp only [Bind.bind, EStateM.bind, same]
      refine ⟨?_, longer.1, grows.trans longer.2, ?_⟩
      · simp only [final, short_eq] at kept' ⊢
        rw [kept', present]
      · simp only [final, short_eq, long_eq]
        simpa only [final, Machine.Cuts, present] using ends'

theorem Prolongs.openScope (outer : Env) (bindings : Bindings) :
    Prolongs limit (openScope outer bindings) (openScope outer bindings) :=
  .plain (fun _ => rfl) (fun _ => rfl) fun _ => List.prefix_rfl

end Run

open Run

theorem Native.sink_takeLine (host : Host) : host.takeLine.2.sink = host.sink := by
  unfold Host.takeLine
  split
  · rfl
  · dsimp only
    split <;> rfl

theorem Sink.lines_writeLine (sink : Sink) (text : String) :
    sink.lines.toList <+: (sink.writeLine text).2.lines.toList := by
  unfold Sink.writeLine
  split
  · exact List.prefix_rfl
  · simp

theorem lasting_output : Lasting fun before after => before.output <+: after.output where
  refl _ := List.prefix_rfl
  trans := List.IsPrefix.trans
  change deed machine := by
    cases deed with
    | writeLine text => exact Sink.lines_writeLine _ text
    | readLine => simp only [Deed.change, Machine.output, Native.sink_takeLine, List.prefix_rfl]
    | assign | writeFile =>
        simp only [Deed.change]
        split <;> exact List.prefix_rfl
    | _ => exact List.prefix_rfl
  leave setting machine _ after entered written := by
    obtain ⟨_, _, rfl⟩ := Setting.eq_of_enter entered
    obtain ⟨_, _, same⟩ := setting.leave_eq machine after
    rw [same]
    exact written

theorem Deed.answer_allowing (deed : Deed) (machine : Machine) (limit : Nat) :
    deed.answer (machine.allowing limit) = deed.answer machine := by
  cases deed <;> rfl

theorem Deed.change_allowing (deed : Deed) (machine : Machine) (limit : Nat) :
    deed.change (machine.allowing limit) = (deed.change machine).allowing limit := by
  cases deed with
  | assign id name =>
      simp only [Deed.change, Machine.holderOf?_allowing]
      cases machine.holderOf? id name <;> rfl
  | writeFile path text =>
      simp only [Deed.change, Machine.host_allowing]
      cases machine.host.files.write path text.toUTF8.toList <;> rfl
  | _ => rfl

theorem Setting.enter?_allowing {setting : Setting} {machine present : Machine} {limit : Nat}
    (entered : setting.enter? machine = some present) (le : machine.maxCallDepth ≤ limit) :
    setting.enter? (machine.allowing limit) = some (present.allowing limit) := by
  cases setting with
  | here | inside =>
      cases entered
      rfl
  | nested =>
      obtain ⟨room, ⟨⟩⟩ := Option.ite_none_right_eq_some.mp entered
      exact if_pos (room.trans_le le)

section Prolongs

variable {α : Type} {limit : Nat} {short long : Run α}

theorem Run.Prolongs.around (inner : Prolongs limit short long) (setting : Setting) :
    Prolongs limit (setting.around short) (setting.around long) := by
  intro machine le
  cases entered : setting.enter? machine with
  | some present =>
      have enters := Setting.enter?_allowing entered le
      obtain ⟨env, callDepth, rfl⟩ := Setting.eq_of_enter entered
      obtain ⟨kept, keptLong, grows, ends⟩ := inner { machine with env, callDepth } le
      have leaves (before after : Machine) :
          (setting.leave before after).maxCallDepth = after.maxCallDepth ∧
            (setting.leave before after).output = after.output := by
        cases setting <;> exact ⟨rfl, rfl⟩
      constructor
      · rwa [Setting.final_around entered, (leaves _ _).1]
      · rwa [Setting.final_around enters, (leaves _ _).1]
      · rwa [Setting.final_around enters, (leaves _ _).2]
      · rw [Setting.around_of_some entered, Setting.around_of_some enters,
          Setting.final_around enters, (leaves _ _).2]
        rcases ends with same | ⟨abort, after, ran, cut, written⟩
        · rw [same]
          left
          cases short { machine with env, callDepth } <;> cases setting <;> rfl
        · refine .inr ⟨setting.placing abort, setting.leave machine after, by rw [ran]; rfl, ?_, ?_⟩
          · rcases cut with rfl | ⟨lower, place, rfl⟩
            · exact .inl (by cases setting <;> rfl)
            · refine .inr ⟨lower, ?_⟩
              cases setting <;> exact ⟨_, rfl⟩
          · rwa [(leaves _ _).2]
  | none =>
      obtain ⟨paren, rfl, full, refused⟩ := Setting.around_of_none short entered
      by_cases fullLong : limit ≤ machine.callDepth
      · have stops : (Setting.nested paren).enter? (machine.allowing limit) = none :=
          if_neg (not_lt.mpr fullLong)
        obtain ⟨_, ⟨⟩, -, refusedLong⟩ := Setting.around_of_none long stops
        constructor
        · rw [final, refused]
        · rw [final, refusedLong]
          rfl
        · rw [final, refusedLong]
          exact List.prefix_rfl
        · rw [refused, refusedLong]
          exact .inl rfl
      · have enters : (Setting.nested paren).enter? (machine.allowing limit) =
            some (machine.calling.allowing limit) := if_pos (not_le.mp fullLong)
        obtain ⟨-, keptLong, grows, -⟩ := inner machine.calling le
        have lower : machine.maxCallDepth < limit := full.trans_lt (not_le.mp fullLong)
        constructor
        · rw [final, refused]
        · rwa [Setting.final_around enters]
        · rwa [Setting.final_around enters]
        · refine .inr ⟨_, _, refused, .inr ⟨lower, _, rfl⟩, ?_⟩
          rwa [Setting.final_around enters]

theorem Run.Prolongs.inside (inner : Prolongs limit short long) (env : Env) :
    Prolongs limit (inside env short) (inside env long) := inner.around (.inside env)

theorem Plan.prolongs {bound : Nat} {runs : (task : Task) → Run task.Result} (plan : Plan bound α)
    (shorter : ∀ task : Task, task.bound < bound → Prolongs limit task.run (runs task)) :
    Prolongs limit (plan.play Task.run) (plan.play runs) := by
  induction plan with
  | done value => exact .pure value
  | stop abort => exact .throw abort
  | act deed next ih =>
      intro machine le
      have limited := (deed.kept machine).maxCallDepth
      obtain ⟨kept, keptLong, grows, ends⟩ := ih _ (deed.change machine) (limited ▸ le)
      have long_eq : (act deed next).play runs (machine.allowing limit) =
          (next (deed.answer machine)).play runs ((deed.change machine).allowing limit) := by
        simp only [play, deed.answer_allowing, deed.change_allowing]
      constructor
      · exact kept.trans limited
      · rwa [final, long_eq]
      · rw [final, long_eq]
        exact (lasting_output.change deed machine).trans grows
      · rw [final, long_eq]
        rcases ends with same | ⟨abort, after, ran, cut, written⟩
        · exact .inl same
        · rw [Machine.Cuts, limited] at cut
          exact .inr ⟨abort, after, ran, cut, written⟩
  | start setting task next less ih => exact .bind ((shorter task less).around setting) ih

theorem Task.prolongs_exhausted (task : Task) (more : Option Nat) :
    Prolongs limit (throw .outOfFuel) (task.runWith more) := by
  intro machine le
  have grows := lasting_output.final_with more task (machine.allowing limit)
  exact ⟨rfl, (lasting_kept.final_with more task (machine.allowing limit)).maxCallDepth, grows,
    .inr ⟨_, _, rfl, .inl rfl, grows⟩⟩

end Prolongs

theorem Task.prolongs (limit : Nat) (task : Task) {more : Nat} (le : task.bound ≤ more) :
    Prolongs limit task.run (task.runWith (some more)) := by
  induction task using Task.induction generalizing more with
  | step task shorter =>
      rcases task.play_plan_with with ⟨-, exhausted⟩ | ⟨pos, played⟩ | played
      · rw [exhausted]
        exact task.prolongs_exhausted _
      · have played := played (some (more - 1))
        rw [Option.map_some, Nat.succ_eq_add_one, Nat.sub_add_cancel (pos.trans_le le)] at played
        rw [← task.play_plan, ← played]
        exact task.plan.prolongs fun inner less =>
          shorter inner less (Nat.le_sub_one_of_lt (less.trans_le le))
      · rw [← task.play_plan, ← played]
        exact task.plan.prolongs fun inner less => shorter inner less (less.le.trans le)

section Spans

variable {α : Type} {limit : Nat}

/-- With the same fuel the step ends under the limit as it does under a lower one, unless it comes to
the lower one. -/
def Run.Spans (limit : Nat) (step : Run α) : Prop :=
  ∀ machine, machine.maxCallDepth ≤ limit →
    step (machine.allowing limit) = allowing limit (step machine) ∨
      ∃ place after, step machine = .error (.error ⟨.stackOverflow, place⟩) after

theorem Run.Spans.around {step : Run α} (inner : Spans limit step) (setting : Setting) :
    Spans limit (setting.around step) := by
  intro machine le
  cases entered : setting.enter? machine with
  | none =>
      obtain ⟨paren, -, -, refused⟩ := Setting.around_of_none step entered
      exact .inr ⟨some paren, machine, refused⟩
  | some present =>
      have enters := Setting.enter?_allowing entered le
      obtain ⟨env, callDepth, rfl⟩ := Setting.eq_of_enter entered
      rw [Setting.around_of_some entered, Setting.around_of_some enters]
      rcases inner { machine with env, callDepth } le with same | ⟨place, after, ran⟩
      · rw [same]
        left
        cases step { machine with env, callDepth } <;> cases setting <;> rfl
      · rw [ran]
        right
        cases setting <;> exact ⟨_, _, rfl⟩

theorem Plan.spans {bound : Nat} (plan : Plan bound α)
    (shorter : ∀ task : Task, task.bound < bound → Spans limit task.run) :
    Spans limit (plan.play Task.run) := by
  induction plan with
  | done value | stop abort => exact fun _ _ => .inl rfl
  | act deed next ih =>
      intro machine le
      have later := ih (deed.answer machine) (deed.change machine)
        ((deed.kept machine).maxCallDepth.trans_le le)
      simpa only [play, deed.answer_allowing, deed.change_allowing] using later
  | start setting task next less ih =>
      intro machine le
      have kept := ((task.prolongs limit le_rfl).around setting machine le).kept
      rcases (shorter task less).around setting machine le with same | ⟨place, after, overflowed⟩
      · cases ran : setting.around task.run machine with
        | error abort after =>
            left
            rw [ran] at same
            simp only [play, Bind.bind, EStateM.bind, ran, same, allowing]
        | ok value after =>
            rw [ran] at same
            rw [final_of_ok ran] at kept
            have later := ih value after (kept.trans_le le)
            simpa only [play, Bind.bind, EStateM.bind, ran, same, allowing] using later
      · exact .inr ⟨place, after, by simp only [play, Bind.bind, EStateM.bind, overflowed]⟩

theorem Task.spans (limit : Nat) (task : Task) : Spans limit task.run := by
  induction task using Task.induction with
  | step task shorter =>
      rw [← task.play_plan]
      exact task.plan.spans shorter

end Spans

structure Resumes (limit fuel more : Nat) : Prop where
  evaluate : ∀ expr, Prolongs limit (evaluate fuel expr) (evaluate more expr)
  evaluateOr : ∀ expr, Prolongs limit (evaluateOr fuel expr) (evaluateOr more expr)
  execute : ∀ stmt, Prolongs limit (execute fuel stmt) (execute more stmt)
  repeatWhile : ∀ condition body,
    Prolongs limit (repeatWhile fuel condition body) (repeatWhile more condition body)

theorem resumes (limit : Nat) {fuel more : Nat} (le : fuel ≤ more) : Resumes limit fuel more where
  evaluate expr := (Task.evaluate fuel expr).prolongs limit le
  evaluateOr expr := (Task.evaluateOr fuel expr).prolongs limit le
  execute stmt := (Task.execute fuel stmt).prolongs limit le
  repeatWhile condition body := (Task.repeatWhile fuel condition body).prolongs limit le

theorem prolongs_executeProgram (limit : Nat) {fuel more : Nat} (le : fuel ≤ more)
    (stmts : List Stmt) :
    Prolongs limit (executeProgram fuel stmts) (executeProgram more stmts) := by
  induction stmts with
  | nil => exact .pure _
  | cons first rest ih => exact .bind ((resumes limit le).execute first) fun _ => ih

end Lox
