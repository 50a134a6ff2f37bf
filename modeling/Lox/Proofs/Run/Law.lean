import Lox.Proofs.Run.Stages

/-!
Laws for runs. A law says which tasks are admitted in a state of the machine and which deeds are
permitted, what holds of all states, and what tasks yield. If the plans of admitted tasks obey it,
then an admitted task ends as the law says, however it ends, and begins only tasks that are admitted
in their turn.
-/

namespace Lox

structure Law where
  admits : Task → Machine → Prop
  permits : Deed → Machine → Prop
  holds : Machine → Prop
  /-- What may become of a state. -/
  later : Machine → Machine → Prop
  yields : (task : Task) → Machine → task.Result → Machine → Prop
  later_refl : ∀ machine, later machine machine
  later_trans : ∀ {first second third}, later first second → later second third →
    later first third
  change : ∀ {deed machine}, permits deed machine → holds machine →
    later machine (deed.change machine) ∧ holds (deed.change machine)
  enter : ∀ {setting : Setting} {machine present}, setting.enter? machine = some present →
    holds machine → holds present
  leave : ∀ {setting : Setting} {machine present after}, setting.enter? machine = some present →
    later present after → holds after →
    later machine (setting.leave machine after) ∧ holds (setting.leave machine after)

/-- From the state on the plan does what the law permits, and what it ends with has the property. -/
def Plan.Obeys {bound : Nat} {α : Type} (law : Law) (post : α → Machine → Prop) :
    Plan bound α → Machine → Prop
  | done value, machine => post value machine
  | stop _, _ => True
  | act deed next, machine => law.permits deed machine ∧
      (law.later machine (deed.change machine) → law.holds (deed.change machine) →
        (next (deed.answer machine)).Obeys law post (deed.change machine))
  | start setting task next _, machine => ∀ present, setting.enter? machine = some present →
      law.admits task present ∧ ∀ result after, task.run present = .ok result after →
        law.later present after → law.holds after → law.yields task present result after →
        (next result).Obeys law post (setting.leave machine after)

namespace Plan.Obeys

variable {bound : Nat} {α : Type} {law : Law} {post : α → Machine → Prop} {machine : Machine}
  {task : Task} {next : task.Result → Plan bound α} {shorter : task.bound < bound}

theorem here (admitted : law.admits task machine)
    (rest : ∀ result after, task.run machine = .ok result after → law.later machine after →
      law.holds after → law.yields task machine result after → (next result).Obeys law post after) :
    (start .here task next shorter).Obeys law post machine := by
  rintro _ ⟨⟩
  exact ⟨admitted, rest⟩

theorem last {post : task.Result → Machine → Prop} (admitted : law.admits task machine)
    (implies : ∀ result after, law.later machine after → law.yields task machine result after →
      post result after) :
    (start .here task done shorter).Obeys law post machine :=
  .here admitted fun result after _ later _ yielded => implies result after later yielded

theorem act {deed : Deed} {next : deed.Result → Plan bound α} (permitted : law.permits deed machine)
    (rest : ∀ answer, deed.answer machine = answer → law.later machine (deed.change machine) →
      law.holds (deed.change machine) → (next answer).Obeys law post (deed.change machine)) :
    (act deed next).Obeys law post machine := ⟨permitted, rest _ rfl⟩

theorem orFailAt {place : Token} {result : Except RuntimeFault α}
    (belongs : ∀ value, result = .ok value → post value machine) :
    (orFailAt place result : Plan bound α).Obeys law post machine := by
  cases result with
  | ok value => exact belongs value rfl
  | error fault => trivial

end Plan.Obeys

/-! What the store has. -/

namespace Scopes

theorem lookUp?_enter (scopes : Scopes) (outer : Env) (bindings : Bindings) (ref : ScopeRef)
    (name : String) :
    (scopes.enter outer bindings).2.lookUp? ref name =
      if ref.index = scopes.tables.size then bindings[name]? else scopes.lookUp? ref name := by
  simp only [enter, lookUp?, Array.getElem?_push]
  split <;> simp

theorem lookUp?_define (scopes : Scopes) (ref : ScopeRef) (outer : Env) (name : String)
    (value : Value) (other : ScopeRef) (used : String) :
    (scopes.define (ref :: outer) name value).lookUp? other used =
      if ref.index = other.index ∧ name = used ∧ other.index < scopes.tables.size then some value
      else scopes.lookUp? other used := by
  simp only [define, lookUp?, Array.getElem?_modify]
  by_cases same : ref.index = other.index
  · by_cases inStore : other.index < scopes.tables.size
    · simp [same, inStore, Std.TreeMap.getElem?_insert]
    · simp [same, inStore]
  · simp [same]

theorem size_define (scopes : Scopes) (env : Env) (name : String) (value : Value) :
    (scopes.define env name value).tables.size = scopes.tables.size := by
  cases env <;> simp [define]

end Scopes

def Bindings.All (kind : Value → Prop) (table : Bindings) : Prop :=
  ∀ (name : String) value, table[name]? = some value → kind value

namespace Bindings.All

variable {kind : Value → Prop}

theorem empty : Bindings.All kind {} := by
  intro name value bound
  simp at bound

theorem insert {table : Bindings} {name : String} {value : Value} (all : Bindings.All kind table)
    (new : kind value) : Bindings.All kind (table.insert name value) := by
  intro used found bound
  rw [Std.TreeMap.getElem?_insert] at bound
  split at bound
  · cases bound
    exact new
  · exact all used found bound

theorem parameters (params : List Token) {arguments : List Value}
    (given : ∀ value ∈ arguments, kind value) :
    Bindings.All kind (Run.parameterBindings params arguments) := by
  have filled (pairs : List (Token × Value)) (table : Bindings)
      (new : ∀ pair ∈ pairs, kind pair.2) (all : Bindings.All kind table) :
      Bindings.All kind
        (pairs.foldl (fun table pair => table.insert pair.1.lexeme pair.2) table) := by
    induction pairs generalizing table with
    | nil => exact all
    | cons pair rest ih =>
        rw [List.forall_mem_cons] at new
        exact ih _ new.2 (all.insert new.1)
  exact filled _ _ (fun _ member => given _ (List.of_mem_zip member).2) empty

end Bindings.All

structure Machine.StoresOnly (scope : ScopeRef → Prop) (object : Nat → Prop) (kind : Value → Prop)
    (machine : Machine) : Prop where
  bound : ∀ ref name value, scope ref → machine.scopes.lookUp? ref name = some value → kind value
  fields : ∀ inst name value, object inst.index → machine.field? inst name = some value → kind value

def Deed.Puts (kind : Value → Prop) : Deed → Prop
  | assign _ _ given | define _ given | setField _ _ given => kind given
  | openScope _ bindings => bindings.All kind
  | _ => True

section Stores

variable {scope : ScopeRef → Prop} {object : Nat → Prop} {kind : Value → Prop} {machine : Machine}

theorem Machine.StoresOnly.define (stores : machine.StoresOnly scope object kind) (env : Env)
    (name : String) {value : Value} (given : kind value) :
    ({ machine with scopes := machine.scopes.define env name value } : Machine).StoresOnly scope object
      kind := by
  refine ⟨fun ref used found seen bound => ?_, stores.fields⟩
  cases env with
  | nil => exact stores.bound ref used found seen bound
  | cons first outer =>
      rw [Scopes.lookUp?_define] at bound
      split at bound
      · cases bound
        exact given
      · exact stores.bound ref used found seen bound

theorem Machine.StoresOnly.change {deed : Deed} (stores : machine.StoresOnly scope object kind)
    (puts : deed.Puts kind) : (deed.change machine).StoresOnly scope object kind := by
  cases deed with
  | assign id name value =>
      simp only [Deed.change]
      split
      · exact stores.define _ name puts
      · exact stores
  | define name value => exact stores.define machine.env name puts
  | openScope outer bindings =>
      refine ⟨fun ref name value seen bound => ?_, stores.fields⟩
      rw [Deed.change, Scopes.lookUp?_enter] at bound
      split at bound
      · exact puts name value bound
      · exact stores.bound ref name value seen bound
  | newInstance =>
      refine ⟨stores.bound, fun inst name value own found => ?_⟩
      rw [Machine.field?, Deed.change, Array.getElem?_push] at found
      split at found
      · simp at found
      · exact stores.fields inst name value own found
  | setField inst name value =>
      refine ⟨stores.bound, fun holder used found own stored => ?_⟩
      rw [Machine.field?, Deed.change, Array.getElem?_modify] at stored
      split at stored
      · obtain ⟨table, changed, stored⟩ := Option.bind_eq_some_iff.mp stored
        obtain ⟨before, known, rfl⟩ := Option.map_eq_some_iff.mp changed
        rw [Std.TreeMap.getElem?_insert] at stored
        split at stored
        · cases stored
          exact puts
        · exact stores.fields holder used found own
            (Option.bind_eq_some_iff.mpr ⟨before, known, stored⟩)
      · exact stores.fields holder used found own stored
  | writeFile =>
      simp only [Deed.change]
      split <;> exact ⟨stores.bound, stores.fields⟩
  | _ => exact ⟨stores.bound, stores.fields⟩

end Stores

theorem Deed.method_of_makeClass {machine : Machine} {name : String}
    {superclass : Option ClassObject} {env : Env} {methods : List FunctionDecl} {body : ClassBody}
    (member : body ∈ ((makeClass name superclass env methods).answer machine).chain)
    {used : String} {method : Closure} (found : body.methods[used]? = some method) :
    (∃ decl ∈ methods, method = ⟨decl, env, decl.name.lexeme = "init"⟩) ∨
      ∃ parent ∈ superclass, body ∈ parent.chain := by
  have listed {decls : List FunctionDecl} {table : Std.TreeMap String Closure}
      (found : (decls.foldl (fun table decl => table.insert decl.name.lexeme
        ⟨decl, env, decl.name.lexeme = "init"⟩) table)[used]? = some method) :
      table[used]? = some method ∨
        ∃ decl ∈ decls, method = ⟨decl, env, decl.name.lexeme = "init"⟩ := by
    induction decls generalizing table with
    | nil => exact .inl found
    | cons first rest ih =>
        rcases ih found with earlier | ⟨decl, member, same⟩
        · rw [Std.TreeMap.getElem?_insert] at earlier
          split at earlier
          · cases earlier
            exact .inr ⟨first, List.mem_cons_self, rfl⟩
          · exact .inl earlier
        · exact .inr ⟨decl, List.mem_cons_of_mem _ member, same⟩
  rcases List.mem_cons.mp member with rfl | member
  · rcases listed found with absent | declared
    · simp at absent
    · exact .inl declared
  · cases superclass with
    | none => cases member
    | some parent => exact .inr ⟨parent, rfl, member⟩

/-! Values that no law is about. -/

/-- Neither an instance nor a class, nor a function that is declared in code. -/
def Value.Plain : Value → Prop
  | .nil | .bool _ | .number _ | .string _ | .callable (.native _) => True
  | .object _ | .callable (.function _) | .callable (.constructor _) => False

theorem Value.plain_ofConstant (constant : Constant) : (ofConstant constant).Plain := by
  cases constant <;> trivial

namespace Operator

theorem plain_unary {operator : TokenKind} {operand value : Value}
    (applied : unary operator operand = .ok value) : value.Plain := by
  unfold unary at applied
  split at applied
  all_goals cases applied
  all_goals trivial

theorem plain_onNumbers {left right value : Value}
    {function : Number → Number → Except RuntimeFault Value}
    (applied : onNumbers left right function = .ok value)
    (plain : ∀ first second result, function first second = .ok result → result.Plain) :
    value.Plain := by
  unfold onNumbers at applied
  split at applied
  · exact plain _ _ _ applied
  · cases applied

theorem plain_binary {operator : TokenKind} {left right value : Value}
    (applied : binary operator left right = .ok value) : value.Plain := by
  unfold binary at applied
  split at applied
  · unfold add at applied
    split at applied
    all_goals cases applied
    all_goals trivial
  case h_4 =>
    refine plain_onNumbers applied fun first second result divided => ?_
    split at divided
    all_goals cases divided
    trivial
  case h_9 | h_10 =>
    cases applied
    trivial
  case h_11 => cases applied
  all_goals
    refine plain_onNumbers applied fun first second result computed => ?_
    cases computed
    trivial

end Operator

def Deed.Hosted : Deed → Prop
  | writeLine _ | readLine | readFile _ | writeFile _ _ | clock => True
  | _ => False

theorem Plan.obeys_ofNative {bound : Nat} {law : Law} {post : Value → Machine → Prop}
    (permits : ∀ (deed : Deed) machine, deed.Hosted → law.permits deed machine)
    (plain : ∀ (value : Value) machine, value.Plain → post value machine) (arguments : List Value)
    (builtin : Native) (machine : Machine) :
    (ofNative arguments builtin : Plan bound Value).Obeys law post machine := by
  have yields (value : Value) (machine : Machine) (known : value.Plain) :
      (done value : Plan bound Value).Obeys law post machine := plain value machine known
  cases builtin with
  | clock => exact .act (permits _ _ trivial) fun _ _ _ _ => yields _ _ trivial
  | readLine =>
      refine .act (permits _ _ trivial) fun answer _ _ _ => ?_
      rcases answer with fault | ⟨_ | text⟩
      · trivial
      · exact yields _ _ trivial
      · exact yields _ _ trivial
  | readFile | writeFile | echo =>
      simp only [ofNative]
      split
      · refine .act (permits _ _ trivial) fun answer _ _ _ => ?_
        cases answer with
        | ok => exact yields _ _ trivial
        | error => trivial
      · trivial

namespace Law

variable {law : Law} {α : Type} {machine : Machine} {post : α → Machine → Prop}

/-- However the step ends, the law has been kept. -/
structure Ends (law : Law) (step : Run α) (machine : Machine) (post : α → Machine → Prop) :
    Prop where
  later : law.later machine (step.final machine)
  holds : law.holds (step.final machine)
  yields : ∀ value after, step machine = .ok value after → post value after

namespace Ends

variable {step : Run α}

theorem of_ok (ends : law.Ends step machine post) {value : α} {after : Machine}
    (ended : step machine = .ok value after) :
    law.later machine after ∧ law.holds after ∧ post value after := by
  obtain ⟨later, holds, yields⟩ := ends
  simp only [Run.final, ended] at later holds
  exact ⟨later, holds, yields value after ended⟩

theorem of_error (ends : law.Ends step machine post) {abort : Abort} {after : Machine}
    (ended : step machine = .error abort after) : law.later machine after ∧ law.holds after := by
  obtain ⟨later, holds, -⟩ := ends
  simp only [Run.final, ended] at later holds
  exact ⟨later, holds⟩

end Ends

section Play

variable {bound : Nat} {plan : Plan bound α}

theorem ends_play
    (inner : plan.Begins Task.run (fun task machine => law.admits task machine → law.holds machine →
      law.Ends task.run machine (law.yields task machine)) machine)
    (obeys : plan.Obeys law post machine) (holds : law.holds machine) :
    law.Ends (plan.play Task.run) machine post ∧
      plan.Begins Task.run (fun task machine => law.admits task machine ∧ law.holds machine) machine := by
  induction plan generalizing machine with
  | done value =>
      refine ⟨⟨law.later_refl machine, holds, ?_⟩, .done _⟩
      rintro _ _ ⟨⟩
      exact obeys
  | stop abort => exact ⟨⟨law.later_refl machine, holds, by rintro _ _ ⟨⟩⟩, .stop _⟩
  | act deed next ih =>
      obtain ⟨later, kept⟩ := law.change obeys.1 holds
      obtain ⟨⟨later', holds', yields⟩, begins⟩ := ih _ inner (obeys.2 later kept) kept
      exact ⟨⟨law.later_trans later later', holds', yields⟩, begins⟩
  | start setting task next less ih =>
      rw [Plan.begins_start] at inner ⊢
      cases entered : setting.enter? machine with
      | none =>
          obtain ⟨paren, -, -, refused⟩ := Setting.around_of_none task.run entered
          have whole : (Plan.start setting task next less).play Task.run machine =
              .error (.error ⟨.stackOverflow, some paren⟩) machine := by
            simp only [Plan.play, Bind.bind, EStateM.bind, refused]
          refine ⟨⟨?_, ?_, ?_⟩, by rintro _ ⟨⟩, ?_⟩
          · simpa only [Run.final, whole] using law.later_refl machine
          · simpa only [Run.final, whole] using holds
          · rw [whole]
            rintro _ _ ⟨⟩
          · rw [refused]
            rintro _ _ ⟨⟩
      | some present =>
          obtain ⟨admitted, rest⟩ := obeys present entered
          have ends := inner.1 present entered admitted (law.enter entered holds)
          obtain ⟨later, kept⟩ := law.leave entered ends.later ends.holds
          have around : setting.around task.run machine =
              Run.leaving setting.placing (setting.leave machine) (task.run present) :=
            Setting.around_of_some entered
          cases ran : task.run present with
          | error abort after =>
              rw [ran] at around
              have whole : (Plan.start setting task next less).play Task.run machine =
                  .error (setting.placing abort) (setting.leave machine after) := by
                simp only [Plan.play, Bind.bind, EStateM.bind, around, Run.leaving]
              simp only [Run.final, ran] at later kept
              refine ⟨⟨?_, ?_, ?_⟩, ?_, ?_⟩
              · simpa only [Run.final, whole] using later
              · simpa only [Run.final, whole] using kept
              · rw [whole]
                rintro _ _ ⟨⟩
              · rintro _ ⟨⟩
                exact ⟨admitted, law.enter entered holds⟩
              · rw [around]
                rintro _ _ ⟨⟩
          | ok result after =>
              rw [ran] at around
              have whole : (Plan.start setting task next less).play Task.run machine =
                  (next result).play Task.run (setting.leave machine after) := by
                simp only [Plan.play, Bind.bind, EStateM.bind, around, Run.leaving]
              simp only [Run.final, ran] at later kept
              obtain ⟨later', holds', yields⟩ := ends.of_ok ran
              obtain ⟨⟨onward, holds'', yields'⟩, begins⟩ := ih result (inner.2 _ _ around)
                (rest result after ran later' holds' yields) kept
              simp only [Run.final] at onward holds''
              refine ⟨⟨?_, ?_, ?_⟩, ?_, ?_⟩
              · simpa only [Run.final, whole] using law.later_trans later onward
              · simpa only [Run.final, whole] using holds''
              · rwa [whole]
              · rintro _ ⟨⟩
                exact ⟨admitted, law.enter entered holds⟩
              · rw [around]
                rintro _ _ ⟨⟩
                exact begins

end Play

def Binds (law : Law) (task : Task) (machine : Machine) : Prop :=
  law.admits task machine → law.holds machine →
    task.plan.Obeys law (law.yields task machine) machine

variable {task other : Task} {later : Machine}

theorem ends (binds : ∀ {other later}, Reaches task machine other later → law.Binds other later)
    (admitted : law.admits task machine) (holds : law.holds machine) :
    law.Ends task.run machine (law.yields task machine) := by
  induction task using Task.induction generalizing machine with
  | step task shorter =>
      rw [← task.play_plan]
      refine (ends_play ?_ (binds .here admitted holds) holds).1
      intro stage member admitted holds
      have step := Task.mem_stages.mp member
      exact shorter _ (Task.bound_lt step) (fun reaches => binds (reaches.head step)) admitted holds

theorem admits_of_substep
    (binds : ∀ {other later}, Reaches task machine other later → law.Binds other later)
    (admitted : law.admits task machine) (holds : law.holds machine)
    (step : Substep task machine other later) : law.admits other later ∧ law.holds later := by
  refine (ends_play ?_ (binds .here admitted holds) holds).2 (other, later) step.mem_stages
  intro stage member admitted holds
  have step := Task.mem_stages.mp member
  exact ends (fun reaches => binds (reaches.head step)) admitted holds

theorem admits_of_reaches
    (binds : ∀ {other later}, Reaches task machine other later → law.Binds other later)
    (admitted : law.admits task machine) (holds : law.holds machine)
    (reaches : Reaches task machine other later) : law.admits other later ∧ law.holds later := by
  induction reaches using Reaches.head_induction with
  | here => exact ⟨admitted, holds⟩
  | begun step _ ih =>
      obtain ⟨admitted, holds⟩ := admits_of_substep binds admitted holds step
      exact ih (fun reaches => binds (reaches.head step)) admitted holds

end Law

end Lox
