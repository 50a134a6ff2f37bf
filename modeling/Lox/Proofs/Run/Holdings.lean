import Mathlib
import Lox.Proofs.Run.Law
import Lox.Proofs.Run.Values

/-!
Which instances, classes and functions a program can have. An instance that is a value anywhere is in
the store, a class that is one was made by a class statement that has been executed, and a function
was created by a task that has been begun. The store of instances and the number of classes only grow,
so what is true of a value stays true of it.
-/

namespace Lox

open Run

def Machine.declaredClass (machine : Machine) (name : Token) (superclass : Option ClassObject)
    (methods : List FunctionDecl) : ClassObject :=
  let env := match superclass with
    | some _ => ⟨machine.age⟩ :: machine.env
    | none => machine.env
  let table := methods.foldl
    (fun table decl => table.insert decl.name.lexeme ⟨decl, env, decl.name.lexeme = "init"⟩) {}
  let ancestors := match superclass with
    | some parent => parent.chain
    | none => []
  ⟨⟨machine.nextClass, name.lexeme, table⟩, ancestors⟩

structure Machine.Precedes (before after : Machine) : Prop where
  objects : before.fields.size ≤ after.fields.size
  classes : before.nextClass ≤ after.nextClass

namespace Machine.Precedes

variable {first second third : Machine}

theorem refl (machine : Machine) : machine.Precedes machine := ⟨le_rfl, le_rfl⟩

theorem trans (early : first.Precedes second) (late : second.Precedes third) :
    first.Precedes third :=
  ⟨early.objects.trans late.objects, early.classes.trans late.classes⟩

theorem of_eq (objects : second.fields.size = first.fields.size)
    (classes : second.nextClass = first.nextClass) : first.Precedes second :=
  ⟨objects.ge, classes.ge⟩

end Machine.Precedes

/-- The methods that a class statement declares, and the scopes around them. -/
structure ClassStatement where
  methods : List FunctionDecl
  env : Env

/-- Of the declarations of one name in the statement the last counts. -/
def ClassStatement.method? (statement : ClassStatement) (name : String) : Option Closure :=
  (statement.methods.reverse.find? (·.name.lexeme = name)).map
    fun decl => ⟨decl, statement.env, name = "init"⟩

/-- The class and its superclasses, the nearest first, were made by these statements. Each
superclass was there when the statement was executed. -/
inductive Descends (moment : Task → Machine → Prop) : ClassObject → List ClassStatement → Prop
  | base {name methods machine} : moment (.declareClass name none methods) machine →
      Descends moment (machine.declaredClass name none methods) [⟨methods, machine.env⟩]
  | derived {name parent methods machine statements} :
      moment (.declareClass name (some parent) methods) machine →
      parent.own.id < machine.nextClass → Descends moment parent statements →
      Descends moment (machine.declaredClass name (some parent) methods)
        (⟨methods, ⟨machine.age⟩ :: machine.env⟩ :: statements)

theorem Descends.mono {moment more : Task → Machine → Prop} {cls : ClassObject}
    {statements : List ClassStatement} (descends : Descends moment cls statements)
    (implies : ∀ task machine, moment task machine → more task machine) :
    Descends more cls statements := by
  induction descends with
  | base declared => exact .base (implies _ _ declared)
  | derived declared earlier _ ih => exact .derived (implies _ _ declared) earlier ih

section Present

variable (moment : Task → Machine → Prop)

def ClassObject.Declared (cls : ClassObject) : Prop := ∃ statements, Descends moment cls statements

def ClassObject.Present (machine : Machine) (cls : ClassObject) : Prop :=
  cls.Declared moment ∧ cls.own.id < machine.nextClass

def Closure.Made (closure : Closure) : Prop :=
  ∃ task machine, moment task machine ∧ Creates task machine closure

def Value.Present (machine : Machine) : Value → Prop
  | .object inst => inst.index < machine.fields.size ∧ inst.cls.Present moment machine
  | .callable (.constructor cls) => cls.Present moment machine
  | .callable (.function closure) => closure.Made moment
  | _ => True

def Machine.Stocked (machine : Machine) : Prop :=
  ∀ value, machine.Contains value → value.Present moment machine

variable {moment} {machine after : Machine} {value : Value}

theorem Value.Plain.present (plain : value.Plain) : value.Present moment machine := by
  cases value with
  | object => exact plain.elim
  | callable callee =>
      cases callee with
      | native => trivial
      | function | constructor => exact plain.elim
  | _ => trivial

theorem Value.Present.later (present : value.Present moment machine)
    (precedes : machine.Precedes after) :
    value.Present moment after := by
  have known {cls : ClassObject} (present : cls.Present moment machine) : cls.Present moment after :=
    ⟨present.1, present.2.trans_le precedes.classes⟩
  cases value with
  | object inst => exact ⟨present.1.trans_le precedes.objects, known present.2⟩
  | callable callee =>
      cases callee with
      | constructor cls => exact known present
      | function closure => exact present
      | native => trivial
  | _ => trivial

theorem Machine.Stocked.congr (stocked : machine.Stocked moment)
    (scopes : after.scopes = machine.scopes) (fields : after.fields = machine.fields)
    (classes : machine.nextClass ≤ after.nextClass) : after.Stocked moment := by
  intro value contained
  refine (stocked value ?_).later ⟨(congrArg Array.size fields).ge, classes⟩
  cases contained with
  | bound found => exact .bound (scopes ▸ found)
  | @field inst name found =>
      have found' : machine.field? inst name = some value := by rwa [Machine.field?, ← fields]
      exact .field found'

end Present

/-! What is read from the store. -/

namespace Machine

variable {machine : Machine} {env : Env} {name : String} {value : Value}

theorem contains_of_find? (found : machine.scopes.find? env name = some value) :
    machine.Contains value := by
  obtain ⟨ref, -, bound⟩ := List.exists_of_findSome?_eq_some found
  exact .bound bound

theorem contains_of_getAt? {depth : Nat}
    (found : machine.scopes.getAt? env depth name = some value) : machine.Contains value := by
  unfold Scopes.getAt? at found
  split at found
  · cases found
  · exact .bound found

theorem contains_of_valueOf? {id : ExprId} (found : machine.valueOf? id name = some value) :
    machine.Contains value := by
  unfold valueOf? at found
  split at found
  · exact contains_of_getAt? found
  · exact contains_of_find? found

end Machine

section Law

variable {moment : Task → Machine → Prop} {machine : Machine}

def Task.carries : Task → List Value
  | bindMethod _ inst => [.object inst]
  | declareClass _ superclass _ => superclass.toList.map .ofClass
  | task => task.operands

def Task.Delivers (moment : Task → Machine → Prop) : (task : Task) → task.Result → Machine → Prop
  | .evaluate _ _ | .evaluateOr _ _ | .call _ _ _ _ | .invoke _ _ _ | .invokeFunction _ _ _ =>
      fun value after => value.Present moment after
  | .evaluateAll _ _ => fun values after => ∀ value ∈ values, value.Present moment after
  | .execute _ _ | .executeAll _ _ | .repeatWhile _ _ _ => fun flow after =>
      ∀ value, flow = .returned value → value.Present moment after
  | .bindMethod _ _ | .declareClass _ _ _ | .executeProgram _ _ => fun _ _ => True

theorem Deed.precedes_change (deed : Deed) (machine : Machine) :
    machine.Precedes (deed.change machine) := by
  cases deed with
  | newInstance => exact ⟨(Array.size_push _).ge.trans' (Nat.le_succ _), le_rfl⟩
  | setField => exact ⟨Array.size_modify.ge, le_rfl⟩
  | makeClass => exact ⟨le_rfl, Nat.le_succ _⟩
  | assign | writeFile =>
      simp only [Deed.change]
      split <;> exact .of_eq rfl rfl
  | _ => exact .of_eq rfl rfl

theorem Machine.Stocked.change {deed : Deed} (stocked : machine.Stocked moment)
    (puts : deed.Puts (·.Present moment machine)) : (deed.change machine).Stocked moment := by
  have stores : machine.StoresOnly (fun _ => True) (fun _ => True) (·.Present moment machine) :=
    ⟨fun _ _ value _ bound => stocked value (.bound bound),
      fun _ _ value _ found => stocked value (.field found)⟩
  intro value contained
  refine Value.Present.later ?_ (deed.precedes_change machine)
  cases contained with
  | bound bound => exact (stores.change puts).bound _ _ value trivial bound
  | field found => exact (stores.change puts).fields _ _ value trivial found

def holdings (moment : Task → Machine → Prop) : Law where
  admits task machine := ∀ value ∈ task.carries, value.Present moment machine
  permits deed machine := deed.Puts (·.Present moment machine)
  holds machine := machine.Stocked moment
  later := Machine.Precedes
  yields task _ := task.Delivers moment
  later_refl := .refl
  later_trans := .trans
  change puts stocked := ⟨Deed.precedes_change _ _, stocked.change puts⟩
  enter entered stocked := by
    obtain ⟨_, _, rfl⟩ := Setting.eq_of_enter entered
    exact stocked.congr rfl rfl le_rfl
  leave {setting machine present after} entered precedes stocked := by
    obtain ⟨_, _, rfl⟩ := Setting.eq_of_enter entered
    obtain ⟨_, _, same⟩ := setting.leave_eq machine after
    rw [same]
    exact ⟨⟨precedes.objects, precedes.classes⟩, stocked.congr rfl rfl le_rfl⟩

end Law

/-! The plans of tasks keep this law. -/

section Plans

variable {moment : Task → Machine → Prop} {machine : Machine} {fuel bound : Nat}

open Plan

theorem holdings_bare {task : Task} (bare : task.carries = []) :
    (holdings moment).admits task machine := by
  intro value carried
  rw [bare] at carried
  cases carried

theorem holdings_readVariable (stocked : machine.Stocked moment) (id : ExprId) (name : Token) :
    (readVariable id name : Plan bound Value).Obeys (holdings moment)
      (fun value after => value.Present moment after) machine := by
  refine .act trivial fun answer found _ _ => ?_
  cases answer with
  | none => trivial
  | some value => exact stocked value (Machine.contains_of_valueOf? found)

theorem holdings_retrieve {method : Closure} {inst : Instance}
    (present : (Value.object inst).Present moment machine)
    (retrieved : (method.boundIn machine).Made moment) :
    (retrieve fuel method inst).Obeys (holdings moment)
      (fun value after => value.Present moment after) machine := by
  refine .here (List.forall_mem_singleton.mpr present) fun bound after ran _ _ _ => ?_
  cases ran
  exact retrieved

theorem holdings_ofExpr {expr : Expr} (begun : moment (.evaluate (fuel + 1) expr) machine)
    (stocked : machine.Stocked moment) :
    (ofExpr fuel expr).Obeys (holdings moment) (fun value after => value.Present moment after)
      machine := by
  cases expr with
  | literal constant => exact (Value.plain_ofConstant constant).present
  | grouping => exact .last (holdings_bare rfl) fun _ _ _ present => present
  | unary =>
      refine .here (holdings_bare rfl) fun _ _ _ _ _ _ => .orFailAt fun value applied => ?_
      exact (Operator.plain_unary applied).present
  | binary =>
      refine .here (holdings_bare rfl) fun _ _ _ _ _ _ => .here (holdings_bare rfl) ?_
      exact fun _ _ _ _ _ _ => .orFailAt fun _ applied => (Operator.plain_binary applied).present
  | logical =>
      refine .here (holdings_bare rfl) fun first after _ _ _ present => ?_
      split
      · exact present
      · exact .last (holdings_bare rfl) fun _ _ _ present => present
  | comma =>
      refine .here (holdings_bare rfl) fun _ _ _ _ _ _ => .last (holdings_bare rfl) ?_
      exact fun _ _ _ present => present
  | conditional =>
      refine .here (holdings_bare rfl) fun value _ _ _ _ _ => ?_
      split <;> exact .last (holdings_bare rfl) fun _ _ _ present => present
  | var id name => exact holdings_readVariable stocked id name
  | this id keyword => exact holdings_readVariable stocked id keyword
  | assign id name value =>
      refine .here (holdings_bare rfl) fun result after _ _ _ present => ?_
      refine .act present fun answer _ later _ => ?_
      cases answer with
      | true => exact present.later later
      | false => trivial
  | call callee paren arguments =>
      refine .here (holdings_bare rfl) fun function _ _ _ _ present => ?_
      refine .here (holdings_bare rfl) fun values _ _ later _ delivered => ?_
      refine .last (List.forall_mem_cons.mpr ⟨present.later later, delivered⟩) ?_
      exact fun _ _ _ present => present
  | get object name =>
      refine .here (holdings_bare rfl) fun target after ended _ stocked present => ?_
      cases target with
      | object inst =>
          refine .act trivial fun answer missing _ _ => ?_
          cases answer with
          | some value => exact stocked value (.field missing)
          | none =>
              dsimp only
              split
              · rename_i method found
                exact holdings_retrieve present ⟨_, _, begun, .property (.getMethod ended missing found)⟩
              · trivial
      | _ => trivial
  | set object name value =>
      refine .here (holdings_bare rfl) fun target _ _ _ _ _ => ?_
      cases target with
      | object inst =>
          refine .here (holdings_bare rfl) fun result _ _ _ _ present => ?_
          exact .act present fun _ _ later _ => present.later later
      | _ => trivial
  | super id keyword method =>
      refine .act trivial fun answer found _ _ => ?_
      cases answer with
      | none => trivial
      | some pair =>
          obtain ⟨superclass, inst⟩ := pair
          obtain ⟨depth, recorded, parent, receiver⟩ := Deed.inherited_eq_some.mp found
          dsimp only
          split
          · rename_i method found
            exact holdings_retrieve (stocked _ (Machine.contains_of_getAt? receiver))
              ⟨_, _, begun, .inherited (.superMethod recorded parent receiver found)⟩
          · trivial

theorem holdings_ofCall {function : Value} {arguments : List Value} (paren : Token)
    (given : ∀ value ∈ function :: arguments, value.Present moment machine) :
    (ofCall fuel function paren arguments).Obeys (holdings moment)
      (fun value after => value.Present moment after) machine := by
  unfold ofCall
  split
  · trivial
  · rename_i callee callable
    split
    · trivial
    · intro present entered
      obtain ⟨_, _, rfl⟩ := Setting.eq_of_enter entered
      have invoked : function = .callable callee := by
        cases function <;> cases callable
        rfl
      refine ⟨fun value carried => ?_, fun result after _ _ _ present => ?_⟩
      · exact (given value (invoked ▸ carried)).later (.of_eq rfl rfl)
      · exact Value.Present.later present (.of_eq rfl rfl)

theorem holdings_ofCallable {callee : Callable} {arguments : List Value}
    (given : ∀ value ∈ Value.callable callee :: arguments, value.Present moment machine) :
    (ofCallable fuel arguments callee).Obeys (holdings moment)
      (fun value after => value.Present moment after) machine := by
  obtain ⟨known, passed⟩ := List.forall_mem_cons.mp given
  cases callee with
  | native builtin =>
      refine obeys_ofNative (fun deed _ hosted => ?_) (fun _ _ plain => plain.present) _ _ _
      cases deed with
      | writeLine | readLine | readFile | writeFile | clock => trivial
      | _ => exact hosted.elim
  | function closure => exact .last passed fun _ _ _ present => present
  | constructor cls =>
      refine .act trivial fun inst created later _ => ?_
      have present : (Value.object inst).Present moment ((Deed.newInstance cls).change machine) := by
        subst created
        exact ⟨(Array.size_push _).symm ▸ Nat.lt_succ_self _, known⟩
      split
      · refine .here (List.forall_mem_singleton.mpr present) fun bound _ _ later' _ _ => ?_
        refine .here (fun value carried => ?_) fun _ _ _ later'' _ _ => ?_
        · exact ((passed value carried).later later).later later'
        · exact (present.later later').later later''
      · exact present

theorem holdings_ofFunction {arguments : List Value} (closure : Closure)
    (given : ∀ value ∈ arguments, value.Present moment machine) :
    (ofFunction fuel closure arguments).Obeys (holdings moment)
      (fun value after => value.Present moment after) machine := by
  refine .act (Bindings.All.parameters closure.decl.params given) fun env _ _ _ => ?_
  rintro _ ⟨⟩
  refine ⟨holdings_bare rfl, fun flow after _ _ stocked delivered => ?_⟩
  unfold Plan.functionResult
  split
  · refine .act trivial fun answer found _ _ => ?_
    cases answer with
    | none => trivial
    | some value =>
        exact (stocked value (Machine.contains_of_getAt? found)).later (.of_eq rfl rfl)
  · cases flow with
    | normal => trivial
    | returned value => exact (delivered value rfl).later (.of_eq rfl rfl)

theorem holdings_ofStmt {stmt : Stmt} (begun : moment (.execute (fuel + 1) stmt) machine) :
    (ofStmt fuel stmt).Obeys (holdings moment)
      (fun flow after => ∀ value, flow = .returned value → value.Present moment after) machine := by
  cases stmt with
  | expression => exact .here (holdings_bare rfl) fun _ _ _ _ _ _ => by rintro _ ⟨⟩
  | print =>
      refine .here (holdings_bare rfl) fun _ _ _ _ _ _ => .act trivial fun answer _ _ _ => ?_
      cases answer with
      | ok => rintro _ ⟨⟩
      | error => trivial
  | varDecl =>
      refine .here (holdings_bare rfl) fun _ _ _ _ _ present => .act present ?_
      exact fun _ _ _ _ => by rintro _ ⟨⟩
  | block =>
      refine .act trivial fun _ _ _ _ => .act Bindings.All.empty fun _ _ _ _ => ?_
      rintro _ ⟨⟩
      refine ⟨holdings_bare rfl, fun flow after _ _ _ delivered value returned => ?_⟩
      exact (delivered value returned).later (.of_eq rfl rfl)
  | ifThen =>
      refine .here (holdings_bare rfl) fun value _ _ _ _ _ => ?_
      split
      · exact .last (holdings_bare rfl) fun _ _ _ delivered => delivered
      · rintro _ ⟨⟩
  | ifElse =>
      refine .here (holdings_bare rfl) fun value _ _ _ _ _ => ?_
      split <;> exact .last (holdings_bare rfl) fun _ _ _ delivered => delivered
  | whileLoop => exact .last (holdings_bare rfl) fun _ _ _ delivered => delivered
  | functionDecl decl =>
      refine .act trivial fun env same _ _ => ?_
      subst same
      have present : (Value.function ⟨decl, machine.env, false⟩).Present moment machine :=
        ⟨_, _, begun, .declared⟩
      exact .act present fun _ _ _ _ => by rintro _ ⟨⟩
  | returnStmt =>
      refine .here (holdings_bare rfl) fun result _ _ _ _ present => ?_
      rintro value ⟨⟩
      exact present
  | classDecl name superclass methods =>
      cases superclass with
      | none => exact .here (holdings_bare rfl) fun _ _ _ _ _ _ => by rintro _ ⟨⟩
      | some parent =>
          refine .here (holdings_bare rfl) fun value _ _ _ _ present => ?_
          split
          · exact .here (List.forall_mem_singleton.mpr present) fun _ _ _ _ _ _ => by rintro _ ⟨⟩
          · trivial

theorem holdings_ofClass {name : Token} {superclass : Option ClassObject}
    {methods : List FunctionDecl} (begun : moment (.declareClass name superclass methods) machine)
    (given : ∀ value ∈ superclass.toList.map Value.ofClass, value.Present moment machine) :
    (ofClass name superclass methods : Plan bound Unit).Obeys (holdings moment) (fun _ _ => True)
      machine := by
  refine .act trivial fun _ _ _ _ => .act trivial fun env same _ _ => ?_
  subst same
  cases superclass with
  | none =>
      refine .act trivial fun cls made _ _ => .act ?_ fun _ _ _ _ => trivial
      subst made
      exact ⟨⟨_, (.base begun : Descends moment (machine.declaredClass name none methods) _)⟩,
        Nat.lt_succ_self _⟩
  | some parent =>
      obtain ⟨⟨statements, descends⟩, earlier⟩ := List.forall_mem_singleton.mp given
      have inherited : (Value.ofClass parent).Present moment machine :=
        ⟨⟨statements, descends⟩, earlier⟩
      refine .act (Bindings.All.empty.insert (inherited.later (.of_eq rfl rfl))) ?_
      intro env opened _ _
      refine .act trivial fun cls made _ _ => .act ?_ fun _ _ _ _ => trivial
      have declared : cls = machine.declaredClass name (some parent) methods := by
        subst opened made
        simp only [Deed.answer, Deed.change, Machine.declaredClass, Machine.age, Scopes.enter,
          Scopes.size_define]
      subst declared
      exact ⟨⟨_, .derived begun earlier descends⟩, Nat.lt_succ_self _⟩

theorem holdings_binds {task : Task} (begun : moment task machine) :
    (holdings moment).Binds task machine := by
  intro given stocked
  unfold Task.plan
  split
  case h_10 => exact holdings_ofExpr begun stocked
  case h_11 exprs =>
      cases exprs with
      | nil => exact List.forall_mem_nil _
      | cons =>
          refine .here (holdings_bare rfl) fun value _ _ _ _ present => ?_
          refine .here (holdings_bare rfl) fun values _ _ later _ delivered => ?_
          exact List.forall_mem_cons.mpr ⟨present.later later, delivered⟩
  case h_12 => trivial
  case h_13 => exact .last (holdings_bare rfl) fun _ _ _ present => present
  case h_14 => exact holdings_ofCall _ given
  case h_15 => exact holdings_ofCallable given
  case h_16 => exact holdings_ofFunction _ given
  case h_17 =>
      exact .act (Bindings.All.empty.insert (List.forall_mem_singleton.mp given))
        fun _ _ _ _ => trivial
  case h_18 => exact holdings_ofStmt begun
  case h_19 stmts =>
      cases stmts with
      | nil => rintro _ ⟨⟩
      | cons =>
          refine .here (holdings_bare rfl) fun flow _ _ _ _ delivered => ?_
          cases flow with
          | normal => exact .last (holdings_bare rfl) fun _ _ _ delivered => delivered
          | returned => exact delivered
  case h_20 =>
      refine .here (holdings_bare rfl) fun value _ _ _ _ _ => ?_
      split
      · refine .here (holdings_bare rfl) fun flow _ _ _ _ delivered => ?_
        cases flow with
        | normal => exact .last (holdings_bare rfl) fun _ _ _ delivered => delivered
        | returned => exact delivered
      · rintro _ ⟨⟩
  case h_21 => exact holdings_ofClass begun given
  case h_22 fuel stmts =>
      cases stmts with
      | nil => trivial
      | cons =>
          refine .here (holdings_bare rfl) fun _ _ _ _ _ _ => .last (holdings_bare rfl) ?_
          exact fun _ _ _ _ => trivial
  all_goals trivial

end Plans

/-! What is there at the moments of a run. -/

section Moments

variable {moment : Task → Machine → Prop} {task other : Task} {machine later : Machine}

structure Equipped (moment : Task → Machine → Prop) (task : Task) (machine : Machine) : Prop where
  carried : ∀ value ∈ task.carries, value.Present moment machine
  stocked : machine.Stocked moment

namespace Equipped

theorem bare (none : task.carries = []) (stocked : machine.Stocked moment) :
    Equipped moment task machine :=
  ⟨none ▸ List.forall_mem_nil _, stocked⟩

variable (equipped : Equipped moment task machine)
  (begun : ∀ {other later}, Reaches task machine other later → moment other later)

include equipped begun

theorem ends : (holdings moment).Ends task.run machine fun result after =>
    task.Delivers moment result after :=
  Law.ends (fun reaches => holdings_binds (begun reaches)) equipped.carried equipped.stocked

theorem reaches (reaches : Reaches task machine other later) : Equipped moment other later := by
  have admitted := Law.admits_of_reaches (fun reaches => holdings_binds (begun reaches))
    equipped.carried equipped.stocked reaches
  exact ⟨admitted.1, admitted.2⟩

theorem ends_of_substep (step : Substep task machine other later) :
    (holdings moment).Ends other.run later fun result after =>
      other.Delivers moment result after :=
  (equipped.reaches begun (.begun .here step)).ends fun reaches => begun (reaches.head step)

end Equipped

theorem Task.Delivers.present {result : task.Result} {after : Machine}
    (delivers : task.Delivers moment result after) {value : Value}
    (member : value ∈ task.yields result) :
    value.Present moment after := by
  cases task with
  | evaluateAll => exact delivers value member
  | execute | executeAll | repeatWhile =>
      cases result with
      | normal => cases member
      | returned =>
          cases List.mem_singleton.mp member
          exact delivers _ rfl
  | bindMethod | declareClass | executeProgram => cases member
  | _ =>
      cases List.mem_singleton.mp member
      exact delivers

theorem Equipped.present_of_meets (equipped : Equipped moment task machine)
    (begun : ∀ {other later}, Reaches task machine other later → moment other later)
    {value : Value} (meets : task.Meets machine value) :
    value.Present moment (task.run.final machine) := by
  obtain ⟨later, stocked, delivers⟩ := equipped.ends begun
  cases meets with
  | given member =>
      refine (equipped.carried value ?_).later later
      cases task with
      | bindMethod | declareClass => cases member
      | _ => exact member
  | found contained => exact (equipped.stocked value contained).later later
  | yielded ended member =>
      rw [final_of_ok ended]
      exact (delivers _ _ ended).present member
  | left contained => exact stocked value contained

end Moments

section Mono

variable {moment more : Task → Machine → Prop}
  (implies : ∀ task machine, moment task machine → more task machine) {machine : Machine}
include implies

theorem Value.Present.mono {value : Value} (present : value.Present moment machine) :
    value.Present more machine := by
  have declared {cls : ClassObject} (present : cls.Present moment machine) :
      cls.Present more machine := by
    obtain ⟨⟨statements, descends⟩, earlier⟩ := present
    exact ⟨⟨statements, descends.mono implies⟩, earlier⟩
  cases value with
  | object inst => exact ⟨present.1, declared present.2⟩
  | callable callee =>
      cases callee with
      | constructor cls => exact declared present
      | function closure =>
          obtain ⟨task, begun, creates⟩ := present
          exact ⟨task, begun, implies _ _ creates.1, creates.2⟩
      | native => trivial
  | _ => trivial

theorem Machine.Stocked.mono (stocked : machine.Stocked moment) : machine.Stocked more :=
  fun value contained => (stocked value contained).mono implies

theorem Equipped.mono {task : Task} (equipped : Equipped moment task machine) :
    Equipped more task machine :=
  ⟨fun value carried => (equipped.carried value carried).mono implies, equipped.stocked.mono implies⟩

end Mono

theorem stocked_fresh (moment : Task → Machine → Prop) (limit : Nat) (host : Host) :
    (Machine.fresh limit host).Stocked moment := by
  intro value contained
  cases contained with
  | bound bound =>
      simp only [Machine.fresh, Scopes.lookUp?_enter] at bound
      split at bound
      · obtain ⟨builtin, rfl⟩ := Native.eq_ofNative_of_natives bound
        trivial
      · simp [Scopes.lookUp?, Scopes.empty] at bound
  | field found => simp [Machine.field?, Machine.fresh] at found

end Lox
