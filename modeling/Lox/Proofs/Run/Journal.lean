import Mathlib
import Lox.Proofs.Run.Holdings

/-!
The journal of a run. It lists in their order the beginnings and the ends of all tasks, each as
often as it comes. From one event to the next the fields of the instances stay as they are, except
that the end of an assignment gives one field of one instance its value. So the fields are at all
times what was set last.
-/

namespace Lox

open Run

/-! What happens in a run. -/

/-- A task begins in a state of the machine, or it ends that has begun in it. -/
inductive Event
  | begun (task : Task) (machine : Machine)
  | ended (task : Task) (machine : Machine)

structure Assignment where
  inst : Instance
  name : String
  value : Value

def assigned (fuel : Nat) (object : Expr) (name : Token) (value : Expr) :
    Run (Instance × Value) := do
  match ← evaluate fuel object with
  | .object inst => return (inst, ← evaluate fuel value)
  | _ => fail .fieldOfNonInstance name

def Task.assignment? (machine : Machine) : Task → Option Assignment
  | .evaluate (fuel + 1) (.set object name value) =>
      match assigned fuel object name value machine with
      | .ok (inst, result) _ => some ⟨inst, name.lexeme, result⟩
      | .error _ _ => none
  | _ => none

namespace Event

def state : Event → Machine
  | begun _ machine => machine
  | ended task machine => task.run.final machine

def assignment? : Event → Option Assignment
  | begun _ _ => none
  | ended task machine => task.assignment? machine

def sets? (event : Event) (index : Nat) (name : String) : Option Value :=
  event.assignment?.bind fun assignment =>
    if assignment.inst.index = index ∧ assignment.name = name then some assignment.value else none

/-- The value is there: a task is given it or has yielded it, or the machine has stored it. -/
inductive Shows : Event → Value → Prop
  | given {task machine value} : value ∈ task.carries → Shows (begun task machine) value
  | yielded {task machine result after value} : task.run machine = .ok result after →
      value ∈ task.yields result → Shows (ended task machine) value
  | stored {event value} : event.state.Contains value → Shows event value

end Event

/-- The value that was given last to a field of an instance. -/
def latest (events : List Event) (index : Nat) (name : String) : Option Value :=
  events.reverse.findSome? (·.sets? index name)

theorem latest_append (early late : List Event) (index : Nat) (name : String) :
    latest (early ++ late) index name =
      (latest late index name).or (latest early index name) := by
  simp [latest, List.reverse_append, List.findSome?_append]

theorem latest_single (event : Event) (index : Nat) (name : String) :
    latest [event] index name = event.sets? index name := by
  simp [latest]

def Task.journal (task : Task) (machine : Machine) : List Event :=
  .begun task machine ::
    ((task.stages machine).attach.flatMap fun next => next.1.1.journal next.1.2) ++
      [.ended task machine]
termination_by task.bound
decreasing_by exact bound_lt (mem_stages.mp next.2)

theorem Task.journal_eq (task : Task) (machine : Machine) :
    task.journal machine = .begun task machine ::
      ((task.stages machine).flatMap fun next => next.1.journal next.2) ++
        [.ended task machine] := by
  rw [journal, List.flatMap_subtype (g := fun next => next.1.journal next.2) (fun _ _ => rfl)]
  simp

theorem Reaches.mem_journal {task other : Task} {machine later : Machine}
    (reaches : Reaches task machine other later) :
    .begun other later ∈ task.journal machine ∧ .ended other later ∈ task.journal machine := by
  induction reaches using Reaches.head_induction with
  | here =>
      rw [Task.journal_eq]
      simp
  | @begun task machine next present step _ ih =>
      have inner {event : Event} (member : event ∈ next.journal present) :
          event ∈ task.journal machine := by
        rw [Task.journal_eq]
        refine List.mem_append_left _ (List.mem_cons_of_mem _ (List.mem_flatMap.mpr ?_))
        exact ⟨(next, present), step.mem_stages, member⟩
      exact ⟨inner ih.1, inner ih.2⟩

theorem Run.ok_of_bind {α β : Type} {step : Run α} {next : α → Run β} {machine after : Machine}
    {value : β} (ended : (step >>= next) machine = .ok value after) :
    ∃ first middle, step machine = .ok first middle ∧ next first middle = .ok value after := by
  simp only [Bind.bind, EStateM.bind] at ended
  cases begun : step machine with
  | ok first middle =>
      rw [begun] at ended
      exact ⟨first, middle, rfl, ended⟩
  | error abort middle =>
      rw [begun] at ended
      cases ended

theorem Run.bindMethod_eq (method : Closure) (inst : Instance) (machine : Machine) :
    ∃ after, bindMethod method inst machine = .ok (method.boundIn machine) after ∧
      after.fields = machine.fields ∧
      after.scopes.getAt? (method.boundIn machine).env 0 "this" = some (.object inst) := by
  refine ⟨_, rfl, rfl, ?_⟩
  have opened := machine.scopes.lookUp?_enter method.env
    (({} : Bindings).insert "this" (.object inst)) ⟨machine.age⟩ "this"
  simpa [Scopes.getAt?, Closure.boundIn, Machine.age, Scopes.enter] using opened

/-! Steps that leave the fields alone. -/

def Machine.fieldAt (machine : Machine) (index : Nat) (name : String) : Option Value :=
  machine.fields[index]?.bind fun fields => fields[name]?

structure Machine.Steady (before after : Machine) : Prop where
  precedes : before.Precedes after
  fields : ∀ index name, after.fieldAt index name = before.fieldAt index name

namespace Machine.Steady

variable {first second third : Machine}

theorem refl (machine : Machine) : machine.Steady machine := ⟨.refl machine, fun _ _ => rfl⟩

theorem trans (early : first.Steady second) (late : second.Steady third) : first.Steady third :=
  ⟨early.precedes.trans late.precedes, fun index name =>
    (late.fields index name).trans (early.fields index name)⟩

theorem of_eq (fields : second.fields = first.fields)
    (classes : first.nextClass ≤ second.nextClass) :
    first.Steady second :=
  ⟨⟨(congrArg Array.size fields).ge, classes⟩, fun index name => by simp only [fieldAt, fields]⟩

end Machine.Steady

/-! From one task to the next. -/

inductive Relay : Machine → List (Task × Machine) → Machine → Prop
  | idle {machine last} : machine.Steady last → Relay machine [] last
  | next {machine task start rest last} : machine.Steady start →
      Relay (task.run.final start) rest last → Relay machine ((task, start) :: rest) last

namespace Relay

variable {first middle last : Machine} {stages more : List (Task × Machine)}

theorem after (steady : first.Steady middle) (relay : Relay middle stages last) :
    Relay first stages last := by
  cases relay with
  | idle kept => exact .idle (steady.trans kept)
  | next kept rest => exact .next (steady.trans kept) rest

end Relay

theorem Deed.steady {deed : Deed} (plain : ∀ inst name value, deed ≠ .setField inst name value)
    (machine : Machine) : machine.Steady (deed.change machine) := by
  cases deed with
  | setField inst name value => exact absurd rfl (plain inst name value)
  | newInstance cls =>
      refine ⟨⟨(Array.size_push _).ge.trans' (Nat.le_succ _), le_rfl⟩, fun index name => ?_⟩
      have pushed : ((newInstance cls).change machine).fieldAt index name =
        (machine.fields.push {})[index]?.bind fun fields => fields[name]? := rfl
      rw [pushed, Machine.fieldAt, Array.getElem?_push]
      by_cases new : index = machine.fields.size
      · simp [new]
      · simp [new]
  | makeClass => exact .of_eq rfl (Nat.le_succ _)
  | assign | writeFile =>
      simp only [Deed.change]
      split <;> exact .of_eq rfl le_rfl
  | _ => exact .of_eq rfl le_rfl

namespace Plan

variable {bound : Nat} {α : Type} {plan : Plan bound α}

theorem Heeds.relay (heeds : plan.Heeds False) (machine : Machine) :
    Relay machine (plan.stages Task.run machine) ((plan.play Task.run).final machine) := by
  induction plan generalizing machine with
  | done | stop => exact .idle (.refl machine)
  | act deed next ih =>
      refine (ih _ (heeds.next _) _).after (deed.steady ?_ machine)
      rintro inst name value rfl
      exact heeds.1
  | start setting task next less ih =>
      cases entered : setting.enter? machine with
      | none =>
          obtain ⟨paren, -, -, refused⟩ := Setting.around_of_none task.run entered
          simp only [stages, play, final, Bind.bind, EStateM.bind, entered, refused]
          exact .idle (.refl machine)
      | some present =>
          have steady : machine.Steady present := by
            obtain ⟨_, _, rfl⟩ := Setting.eq_of_enter entered
            exact .of_eq rfl le_rfl
          have left : (task.run.final present).Steady ((setting.around task.run).final machine) := by
            rw [Setting.final_around entered]
            obtain ⟨_, _, same⟩ := setting.leave_eq machine (task.run.final present)
            rw [same]
            exact .of_eq rfl le_rfl
          simp only [stages, play, final, Bind.bind, EStateM.bind, entered] at left ⊢
          refine .next steady (.after left ?_)
          cases setting.around task.run machine with
          | ok result after => exact ih result (heeds result) after
          | error abort after => exact .idle (.refl after)

end Plan

/-- What an event does to the fields: one may be given a value, and no other changes. -/
structure Event.Turns (event : Event) (before : Machine) : Prop where
  precedes : before.Precedes event.state
  fields : ∀ index name, event.state.fieldAt index name =
    (event.sets? index name).or (before.fieldAt index name)

theorem Run.fieldAt_setField (inst : Instance) (name : Token) (value : Value) {machine : Machine}
    (inStore : inst.index < machine.fields.size) (index : Nat) (used : String) :
    ((setField inst name value).final machine).fieldAt index used =
      if inst.index = index ∧ name.lexeme = used then some value
      else machine.fieldAt index used := by
  have changed : ((setField inst name value).final machine).fieldAt index used =
    (machine.fields.modify inst.index (·.insert name.lexeme value))[index]?.bind
      fun fields => fields[used]? := rfl
  rw [changed, Machine.fieldAt, Array.getElem?_modify]
  by_cases same : inst.index = index
  · subst same
    simp [Array.getElem?_eq_getElem inStore, Std.TreeMap.getElem?_insert]
  · simp [same]

section Assign

variable {fuel : Nat} {machine : Machine} {object : Expr} {name : Token} {value : Expr}

theorem evaluate_set : evaluate (fuel + 1) (.set object name value) =
    assigned fuel object name value >>= fun (inst, result) =>
      setField inst name result >>= fun _ => pure result := by
  simp only [evaluate, assigned, bind_assoc]
  refine bind_congr fun target => ?_
  cases target with
  | object inst => simp only [bind_assoc, pure_bind]
  | _ => rfl

theorem relay_assigned : Relay machine
    ((Task.evaluate (fuel + 1) (.set object name value)).stages machine)
    ((assigned fuel object name value).final machine) := by
  simp only [Task.stages, Task.plan, Plan.ofExpr, Plan.stages, Setting.enter?, Setting.around,
    Task.run, assigned, final, Bind.bind, EStateM.bind]
  refine .next (.refl machine) ?_
  simp only [Task.run, final]
  cases evaluate fuel object machine with
  | error abort after => exact .idle (.refl after)
  | ok target middle =>
      cases target with
      | object inst =>
          simp only [Plan.stages, Setting.enter?, Setting.around, Task.run, EStateM.bind]
          refine .next (.refl middle) ?_
          simp only [Task.run, final]
          cases evaluate fuel value middle with
          | error abort after => exact .idle (.refl after)
          | ok result after => exact .idle (.refl after)
      | _ => exact .idle (.refl middle)

theorem turns_set
    (inStore : ∀ inst result after,
      assigned fuel object name value machine = .ok (inst, result) after →
      inst.index < after.fields.size) :
    (Event.ended (.evaluate (fuel + 1) (.set object name value)) machine).Turns
      ((assigned fuel object name value).final machine) := by
  cases computed : assigned fuel object name value machine with
  | error abort after =>
      have state : (Event.ended (.evaluate (fuel + 1) (.set object name value)) machine).state =
          (assigned fuel object name value).final machine := by
        simp only [Event.state, Task.run, evaluate_set, final, Bind.bind, EStateM.bind, computed]
      refine ⟨state ▸ .refl _, fun index used => ?_⟩
      simp only [state, Event.sets?, Event.assignment?, Task.assignment?, computed,
        Option.bind_none, Option.none_or]
  | ok parts after =>
      obtain ⟨inst, result⟩ := parts
      have state : (Event.ended (.evaluate (fuel + 1) (.set object name value)) machine).state =
          (setField inst name result).final after := by
        simp only [Event.state, Task.run]
        rw [evaluate_set, final_bind computed]
        rfl
      rw [final_of_ok computed]
      refine ⟨state ▸ ⟨Array.size_modify.ge, le_rfl⟩, fun index used => ?_⟩
      rw [state, fieldAt_setField inst name result (inStore inst result after computed)]
      simp only [Event.sets?, Event.assignment?, Task.assignment?, computed, Option.bind_some]
      split
      · rfl
      · rfl

theorem parts_of_assigned {inst : Instance} {result : Value} {after : Machine}
    (computed : assigned fuel object name value machine = .ok (inst, result) after) :
    ∃ middle, evaluate fuel object machine = .ok (.object inst) middle ∧
      evaluate fuel value middle = .ok result after := by
  obtain ⟨target, middle, first, computed⟩ := ok_of_bind computed
  cases target with
  | object target =>
      obtain ⟨result, last, second, ⟨⟩⟩ := ok_of_bind computed
      exact ⟨middle, first, second⟩
  | _ => cases computed

end Assign

section Journal

variable {moment : Task → Machine → Prop} {task : Task} {machine : Machine}

theorem Task.assignment?_eq_none (plain : ¬ task.Assigns) : task.assignment? machine = none := by
  unfold assignment?
  split
  · exact absurd ⟨_, _, _, _, rfl⟩ plain
  · rfl

theorem Equipped.relay (equipped : Equipped moment task machine)
    (begun : ∀ {other later}, Reaches task machine other later → moment other later) :
    ∃ last, Relay machine (task.stages machine) last ∧ (Event.ended task machine).Turns last := by
  by_cases assigns : task.Assigns
  · obtain ⟨fuel, object, name, value, rfl⟩ := assigns
    refine ⟨_, relay_assigned, turns_set fun inst result after computed => ?_⟩
    obtain ⟨middle, first, second⟩ := parts_of_assigned computed
    obtain ⟨-, -, present⟩ := (equipped.ends_of_substep begun .setObject).of_ok first
    obtain ⟨later, -⟩ := (equipped.ends_of_substep begun (.setValue first)).of_ok second
    exact present.1.trans_le later.objects
  · have heeds := task.heeds
    simp only [assigns] at heeds
    have relay := heeds.relay machine
    rw [task.play_plan] at relay
    refine ⟨task.run.final machine, relay, .refl _, fun index name => ?_⟩
    simp only [Event.state, Event.sets?, Event.assignment?, Task.assignment?_eq_none assigns,
      Option.bind_none, Option.none_or]

structure Event.Follows (moment : Task → Machine → Prop) (event : Event) (before : Machine) : Prop
    extends event.Turns before where
  shown : ∀ value, event.Shows value → value.Present moment event.state

inductive Tracks (moment : Task → Machine → Prop) : Machine → List Event → Machine → Prop
  | idle {machine last} : machine.Steady last → Tracks moment machine [] last
  | next {machine event rest last} : event.Follows moment machine →
      Tracks moment event.state rest last → Tracks moment machine (event :: rest) last

namespace Tracks

variable {first middle last : Machine} {events more : List Event}

theorem after (steady : first.Steady middle) (tracks : Tracks moment middle events last) :
    Tracks moment first events last := by
  cases tracks with
  | idle kept => exact .idle (steady.trans kept)
  | next follows rest =>
      have turns : Event.Turns _ first :=
        ⟨steady.precedes.trans follows.precedes, fun index name => by
          rw [follows.fields, steady.fields]⟩
      exact .next ⟨turns, follows.shown⟩ rest

theorem append (tracks : Tracks moment first events middle) (tracks' : Tracks moment middle more last) :
    Tracks moment first (events ++ more) last := by
  induction tracks with
  | idle steady => exact tracks'.after steady
  | next follows _ ih => exact .next follows (ih tracks')

theorem before (tracks : Tracks moment first events middle) (steady : middle.Steady last) :
    Tracks moment first events last := by
  rw [← List.append_nil events]
  exact tracks.append (.idle steady)

theorem upTo {event : Event} (tracks : Tracks moment first (events ++ event :: more) last) :
    Tracks moment first (events ++ [event]) event.state := by
  induction events generalizing first with
  | nil =>
      cases tracks with
      | next follows _ => exact .next follows (.idle (.refl _))
  | cons head tail ih =>
      cases tracks with
      | next follows rest => exact .next follows (ih rest)

theorem precedes (tracks : Tracks moment first events last) : first.Precedes last := by
  induction tracks with
  | idle steady => exact steady.precedes
  | next follows _ ih => exact follows.precedes.trans ih

theorem fields (tracks : Tracks moment first events last) (index : Nat) (name : String) :
    last.fieldAt index name = (latest events index name).or (first.fieldAt index name) := by
  induction tracks with
  | idle steady => exact steady.fields index name
  | @next _ event rest _ follows _ ih =>
      have split := latest_append [event] rest index name
      rw [List.singleton_append, latest_single] at split
      rw [ih, follows.fields, split, Option.or_assoc]

theorem shown (tracks : Tracks moment first events last) {event : Event} (member : event ∈ events)
    {value : Value} (shows : event.Shows value) : value.Present moment last := by
  induction tracks with
  | idle => cases member
  | next follows rest ih =>
      rcases List.mem_cons.mp member with rfl | member
      · exact (follows.shown value shows).later rest.precedes
      · exact ih member

end Tracks

theorem Relay.tracks {first last : Machine} {stages : List (Task × Machine)}
    (relay : Relay first stages last)
    (inner : ∀ stage ∈ stages,
      Tracks moment stage.2 (stage.1.journal stage.2) (stage.1.run.final stage.2)) :
    Tracks moment first (stages.flatMap fun stage => stage.1.journal stage.2) last := by
  induction relay with
  | idle steady => exact .idle steady
  | next steady _ ih =>
      rw [List.forall_mem_cons] at inner
      exact (inner.1.append (ih inner.2)).after steady

theorem Equipped.follows_begun (equipped : Equipped moment task machine) :
    (Event.begun task machine).Follows moment machine := by
  refine ⟨⟨.refl machine, fun _ _ => rfl⟩, fun value shows => ?_⟩
  cases shows with
  | given member => exact equipped.carried value member
  | stored contained => exact equipped.stocked value contained

theorem Equipped.shown (equipped : Equipped moment task machine)
    (begun : ∀ {other later}, Reaches task machine other later → moment other later)
    {value : Value} (shows : (Event.ended task machine).Shows value) :
    value.Present moment (task.run.final machine) := by
  obtain ⟨-, stocked, delivers⟩ := equipped.ends begun
  cases shows with
  | yielded ended member =>
      rw [final_of_ok ended]
      exact (delivers _ _ ended).present member
  | stored contained => exact stocked value contained

theorem tracks_journal
    (begun : ∀ {other later}, Reaches task machine other later → moment other later)
    (equipped : Equipped moment task machine) :
    Tracks moment machine (task.journal machine) (task.run.final machine) := by
  induction task using Task.induction generalizing machine with
  | step task shorter =>
      obtain ⟨last, relay, turns⟩ := equipped.relay begun
      have stages := relay.tracks fun stage member => by
        have step := Task.mem_stages.mp member
        exact shorter _ (Task.bound_lt step) (fun reaches => begun (reaches.head step))
          (equipped.reaches begun (.begun .here step))
      have ended : (Event.ended task machine).Follows moment last :=
        ⟨turns, fun value shows => equipped.shown begun shows⟩
      rw [Task.journal_eq]
      exact .next equipped.follows_begun (stages.append (.next ended (.idle (.refl _))))

end Journal

end Lox
