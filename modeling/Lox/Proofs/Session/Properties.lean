import Lox.Proofs.Session.Classes

/-!
The properties of instances. In every state of a session a property is the value that was set last
for its name on the instance, or else the method of the nearest class that declares one, bound to
the instance. Setting a field changes one property of one instance, and nothing else.
-/

namespace Lox

open Run

/-- What is found for a name on an instance, by what was set before and by the statements that have
made its class and the superclasses. -/
inductive Property (past : List Event) (statements : List ClassStatement) (inst : Instance)
    (name : Token) (machine : Machine) : EStateM.Result Abort Machine Value → Prop
  | field {value} : latest past inst.index name.lexeme = some value →
      Property past statements inst name machine (.ok value machine)
  | method {method after} : latest past inst.index name.lexeme = none →
      statements.findSome? (·.method? name.lexeme) = some method →
      after.fields = machine.fields →
      after.scopes.getAt? (method.boundIn machine).env 0 "this" = some (.object inst) →
      Property past statements inst name machine (.ok (.function (method.boundIn machine)) after)
  | missing {fault} : latest past inst.index name.lexeme = none →
      statements.findSome? (·.method? name.lexeme) = none →
      fault.message = "Undefined property '" ++ name.lexeme ++ "'." →
      Property past statements inst name machine (.error (.error ⟨fault, some name⟩) machine)

theorem property_getProperty {moment : Task → Machine → Prop} {past : List Event}
    {statements : List ClassStatement} {inst : Instance} {machine : Machine}
    (descends : Descends moment inst.cls statements)
    (fields : ∀ index name, machine.fieldAt index name = latest past index name) (name : Token) :
    Property past statements inst name machine (getProperty inst name machine) := by
  have stored : machine.field? inst name.lexeme = latest past inst.index name.lexeme :=
    fields inst.index name.lexeme
  have inherited := descends.findMethod? name.lexeme
  cases set : latest past inst.index name.lexeme with
  | some value =>
      have read : getProperty inst name machine = .ok value machine := by
        rw [set] at stored
        simp only [getProperty, Bind.bind, EStateM.bind, MonadState.get, getThe, MonadStateOf.get,
          EStateM.get, stored]
        rfl
      rw [read]
      exact .field set
  | none =>
      rw [set] at stored
      cases found : statements.findSome? (·.method? name.lexeme) with
      | some method =>
          obtain ⟨after, bound, kept, this⟩ := bindMethod_eq method inst machine
          have read : getProperty inst name machine =
              .ok (.function (method.boundIn machine)) after := by
            rw [getProperty_method stored (inherited.trans found)]
            simp only [Bind.bind, EStateM.bind, bound]
            rfl
          rw [read]
          exact .method set found kept this
      | none =>
          have read : getProperty inst name machine =
              .error (.error ⟨.undefinedProperty name.lexeme, some name⟩) machine := by
            rw [found] at inherited
            simp only [getProperty, Bind.bind, EStateM.bind, MonadState.get, getThe,
              MonadStateOf.get, EStateM.get, stored, inherited]
            rfl
          rw [read]
          exact .missing set found rfl

theorem Run.getProperty_congr {inst : Instance} {name : Token} {machine : Machine}
    {fields : Array Bindings}
    (same : ({ machine with fields } : Machine).field? inst name.lexeme =
      machine.field? inst name.lexeme) :
    getProperty inst name { machine with fields } =
      leaving id (fun after => { after with fields }) (getProperty inst name machine) := by
  simp only [getProperty, Bind.bind, EStateM.bind, MonadState.get, getThe, MonadStateOf.get,
    EStateM.get, same]
  cases machine.field? inst name.lexeme with
  | some value => rfl
  | none =>
      cases inst.cls.findMethod? name.lexeme with
      | some method => rfl
      | none => rfl

/-- The field is set, for all that refer to the instance, and nothing else changes. -/
structure SetsOnly (inst : Instance) (name : Token) (value : Value) (machine after : Machine) :
    Prop where
  kept : after = { machine with fields := after.fields }
  changed : ∀ copy used, copy.index = inst.index → used.lexeme = name.lexeme →
    getProperty copy used after = .ok value after
  others : ∀ other used, other.index ≠ inst.index ∨ used.lexeme ≠ name.lexeme →
    getProperty other used after =
      leaving id (fun later => { later with fields := after.fields })
        (getProperty other used machine)

theorem setsOnly_setField {inst : Instance} {machine : Machine}
    (inStore : inst.index < machine.fields.size) (name : Token) (value : Value) :
    SetsOnly inst name value machine ((setField inst name value).final machine) := by
  have changed (other : Instance) (used : Token) :=
    fieldAt_setField inst name value inStore other.index used.lexeme
  refine ⟨rfl, fun copy used same called => ?_, fun other used differ => ?_⟩
  · have stored : ((setField inst name value).final machine).field? copy used.lexeme = some value :=
      (changed copy used).trans (if_pos ⟨same.symm, called.symm⟩)
    simp only [getProperty, Bind.bind, EStateM.bind, MonadState.get, getThe, MonadStateOf.get,
      EStateM.get, stored]
    rfl
  · refine getProperty_congr ((changed other used).trans (if_neg ?_))
    rintro ⟨same, called⟩
    rcases differ with differ | differ
    · exact differ same.symm
    · exact differ called.symm

/-- In every state of a session, between its inputs and while one of them runs: a property of an
instance is the value that was set last for its name on that instance, in the whole history; or else
the method of the nearest class that declares one, by the last declaration of its statement, bound
to the instance; or else it is undefined. Setting a field changes this property of this instance and
nothing else. The superclasses of a class are as many as the statements that have made them, each
made before the class that inherits from it. -/
theorem properties_are_set_or_inherited {history : History} {session : Session}
    {launch? : Option Launch} (driven : history.Driven session)
    (starts : ∀ launch ∈ launch?, session.Starts launch) :
    (∀ task machine, (history.extend launch?).Moment task machine →
      .begun task machine ∈ (history.extend launch?).journal ∧
      .ended task machine ∈ (history.extend launch?).journal) ∧
    ∀ past machine, history.Stands session launch? past machine →
      (∀ inst, History.Known past machine (.object inst) →
        (∃ statements, Descends (history.extend launch?).Moment inst.cls statements ∧
          ∀ name, Property past statements inst name machine (getProperty inst name machine)) ∧
        ∀ name value, ∃ after, setField inst name value machine = .ok () after ∧
          SetsOnly inst name value machine after) ∧
      ∀ cls, History.Known past machine (.ofClass cls) →
        ∃ statements, Descends (history.extend launch?).Moment cls statements ∧
          cls.chain.length = statements.length ∧
          (cls.chain.map ClassBody.id).Pairwise (· > ·) ∧ cls.chain.length ≤ machine.nextClass := by
  refine ⟨fun task machine moment => moment.mem_journal, fun past machine stands => ⟨?_, ?_⟩⟩
  · intro inst known
    obtain ⟨inStore, ⟨statements, descends⟩, -⟩ := driven.present starts stands known
    have fields := driven.fieldAt_eq starts stands
    refine ⟨⟨statements, descends, property_getProperty descends fields⟩, fun name value => ?_⟩
    exact ⟨_, rfl, setsOnly_setField inStore name value⟩
  · intro cls known
    obtain ⟨⟨statements, descends⟩, earlier⟩ := driven.present starts stands known
    obtain ⟨ordered, short⟩ := descends.decreasing
    exact ⟨statements, descends, descends.declares.length_eq, ordered, short.trans earlier⟩

def Session.globalObject? (session : Session) (name : String) : Option Instance :=
  match session.machine.scopes.lookUp? ⟨0⟩ name with
  | some (.object inst) => some inst
  | _ => none

theorem Session.contains_globalObject {session : Session} {name : String} {inst : Instance}
    (found : session.globalObject? name = some inst) :
    session.machine.Contains (.object inst) := by
  unfold globalObject? at found
  split at found
  · rename_i bound
    cases found
    exact .bound bound
  · cases found

def Session.flag? (session : Session) (inst : Instance) (name : Token) : Option Bool :=
  match getProperty inst name session.machine with
  | .ok (.bool flag) _ => some flag
  | _ => none

/-- A field hides an inherited method, also where it was set through another name. -/
theorem properties_are_set_or_inherited_of_field :
    ∃ (history : History) (session : Session) (inst : Instance),
      history.Driven session ∧ session.globalObject? "b" = some inst ∧
      History.Known history.journal session.machine (.object inst) ∧
      latest history.journal inst.index "m" = some (.bool true) := by
  have computed : ((Session.new {} 4).run 40
      "class A { m() {} } class B < A {} var b = B(); var c = b; c.m = true;").map
      (fun session => (session.globalObject? "b").bind
        fun inst => session.flag? inst ⟨.identifier, "m", none, 1⟩) =
      some (some true) := by cbv
  obtain ⟨session, ran, computed⟩ := Option.map_eq_some_iff.mp computed
  obtain ⟨inst, found, flag⟩ := Option.bind_eq_some_iff.mp computed
  have driven := History.Driven.run 40 _ (.new {} 4) ran
  have starts : ∀ launch ∈ (none : Option Launch), session.Starts launch := by simp
  have known := Session.contains_globalObject found
  have properties := (properties_are_set_or_inherited driven starts).2 _ _ .between
  obtain ⟨⟨statements, -, property⟩, -⟩ := properties.1 inst (.inl known)
  have named := property ⟨.identifier, "m", none, 1⟩
  unfold Session.flag? at flag
  split at flag
  · rename_i value after read
    rw [read] at named
    cases flag
    cases named with
    | field set => exact ⟨_, session, inst, driven, found, .inl known, set⟩
  · cases flag

end Lox
