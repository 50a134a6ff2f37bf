import Lox.Proofs.Node
import Lox.Proofs.Run.Discipline
import Lox.Proofs.Run.Law
import Lox.Proofs.Scoping.Parsed

/-!
Realms. A realm is a part of the store of scopes and instances together with what may be found
there: which functions and methods, and which code may run in which scopes. It has a rule for each
way in which a run makes a scope, a function or a class. A deed stays in a realm if it reads and
changes only what belongs to it, and puts only such values there. Then what the realm holds still
belongs to it; and the deed is blind to everything outside: with other contents behind a veil there,
it does the same and leaves those contents as they are.
-/

namespace Lox

/-- Other contents for some of the scopes and some of the instances. -/
structure Veil where
  scopes : Nat → Option Bindings
  fields : Nat → Option Bindings

namespace Veil

def none : Veil := ⟨fun _ => .none, fun _ => .none⟩

theorem scopes_none (ref : ScopeRef) : none.scopes ref.index = .none := rfl

theorem fields_none (index : Nat) : none.fields index = .none := rfl

def cover (contents : Nat → Option Bindings) (tables : Array Bindings) : Array Bindings :=
  tables.mapIdx fun index table => (contents index).getD table

variable {contents : Nat → Option Bindings} {tables : Array Bindings}

@[simp] theorem size_cover : (cover contents tables).size = tables.size := by simp [cover]

@[simp] theorem getElem?_cover (index : Nat) :
    (cover contents tables)[index]? =
      tables[index]?.map fun table => (contents index).getD table := by
  simp [cover]

theorem getElem?_cover_of_none {index : Nat} (seen : contents index = .none) :
    (cover contents tables)[index]? = tables[index]? := by
  simp [seen]

theorem cover_push (table : Bindings) (seen : contents tables.size = .none) :
    cover contents (tables.push table) = (cover contents tables).push table := by
  simp [cover, Array.mapIdx_push, seen]

theorem cover_modify {index : Nat} (change : Bindings → Bindings) (seen : contents index = .none) :
    cover contents (tables.modify index change) = (cover contents tables).modify index change := by
  apply Array.ext_getElem?
  intro other
  by_cases same : index = other
  · subst same
    simp [Array.getElem?_modify, seen, Function.comp_def]
  · simp [Array.getElem?_modify, same]

end Veil

def Machine.veiled (machine : Machine) (veil : Veil) : Machine :=
  { machine with
    scopes := ⟨Veil.cover veil.scopes machine.scopes.tables⟩
    fields := Veil.cover veil.fields machine.fields }

def Veil.over {α : Type} (veil : Veil) :
    EStateM.Result Abort Machine α → EStateM.Result Abort Machine α
  | .ok value after => .ok value (after.veiled veil)
  | .error abort after => .error abort (after.veiled veil)

/-- The parts of a node that run in the same scopes as the node. -/
def Node.inPlace : Node → List Node
  | .expr whole => whole.parts.map .expr
  | .stmt (.block _) | .stmt (.functionDecl _) => []
  | .stmt (.classDecl _ superclass _) => superclass.toList.map .expr
  | .stmt other => (Node.stmt other).parts
  | .function _ | .method _ => []

theorem Node.mem_parts_of_mem_inPlace {node child : Node} (member : child ∈ node.inPlace) :
    child ∈ node.parts := by
  unfold inPlace at member
  split at member
  · exact member
  · cases member
  · cases member
  · exact List.mem_append_left _ member
  · exact member
  · cases member
  · cases member

structure Realm where
  moments : Task → Machine → Prop
  /-- The scopes and the instances of the realm; whatever is made later belongs to it. -/
  scope : ScopeRef → Prop
  object : Nat → Prop
  oldScopes : Nat
  oldObjects : Nat
  veil : Veil
  /-- The names that code of the realm may declare or assign. -/
  declarable : String → Prop
  later : Scopes → Scopes → Prop
  code : Scopes → Env → Node → Prop
  function : Scopes → Closure → Prop
  method : Scopes → Closure → Prop
  begun : ∀ {task machine other present}, moments task machine →
    Substep task machine other present → moments other present
  scope_new : ∀ ref, oldScopes ≤ ref.index → scope ref
  object_new : ∀ index, oldObjects ≤ index → object index
  scope_seen : ∀ ref, scope ref → veil.scopes ref.index = none
  object_seen : ∀ index, object index → veil.fields index = none
  later_refl : ∀ store, later store store
  later_trans : ∀ {first second third}, later first second → later second third → later first third
  later_enter : ∀ store outer bindings, later store (store.enter outer bindings).2
  later_define : ∀ store env {name} value, declarable name →
    later store (store.define env name value)
  code_later : ∀ {before after env node}, code before env node → later before after →
    code after env node
  function_later : ∀ {before after closure}, function before closure → later before after →
    function after closure
  method_later : ∀ {before after closure}, method before closure → later before after →
    method after closure
  code_scope : ∀ {store env node}, code store env node → ∀ ref ∈ env, scope ref
  function_scope : ∀ {store closure}, function store closure → ∀ ref ∈ closure.env, scope ref
  code_part : ∀ {store env node child}, code store env node → child ∈ node.inPlace →
    code store env child
  code_declares : ∀ {store env stmt}, code store env (.stmt stmt) →
    ∀ name ∈ stmt.declared?, declarable name.lexeme
  code_assigns : ∀ {store env id name value}, code store env (.expr (.assign id name value)) →
    declarable name.lexeme
  code_block : ∀ {fuel body machine}, moments (.execute (fuel + 1) (.block body)) machine →
    oldScopes ≤ machine.scopes.tables.size → code machine.scopes machine.env (.stmt (.block body)) →
    ∀ stmt ∈ body,
      code (machine.entering machine.env {}).scopes (machine.entering machine.env {}).env
        (.stmt stmt)
  code_body : ∀ {fuel closure arguments machine},
    moments (.invokeFunction (fuel + 1) closure arguments) machine →
    oldScopes ≤ machine.scopes.tables.size → function machine.scopes closure →
    ∀ bindings, ∀ stmt ∈ closure.decl.body,
      code (machine.entering closure.env bindings).scopes
        (machine.entering closure.env bindings).env
        (.stmt stmt)
  function_declared : ∀ {fuel decl machine},
    moments (.execute (fuel + 1) (.functionDecl decl)) machine →
    code machine.scopes machine.env (.stmt (.functionDecl decl)) →
    function machine.scopes ⟨decl, machine.env, false⟩
  method_declared : ∀ {name methods machine},
    moments (.declareClass name none methods) machine →
    code machine.scopes machine.env (.stmt (.classDecl name none methods)) →
    ∀ decl ∈ methods, method machine.scopes ⟨decl, machine.env, decl.name.lexeme = "init"⟩
  method_inherited : ∀ {name expr parent methods machine},
    moments (.declareClass name (some parent) methods) machine →
    oldScopes ≤ machine.scopes.tables.size →
    code machine.scopes machine.env (.stmt (.classDecl name (some expr) methods)) →
    ∀ store, store.tables.size = machine.scopes.tables.size → later machine.scopes store →
    ∀ decl ∈ methods,
      method (store.enter machine.env (({} : Bindings).insert "super" (.ofClass parent))).2
        ⟨decl, ⟨machine.scopes.tables.size⟩ :: machine.env, decl.name.lexeme = "init"⟩
  function_bound : ∀ {closure inst machine}, moments (.bindMethod closure inst) machine →
    oldScopes ≤ machine.scopes.tables.size → method machine.scopes closure →
    function (machine.scopes.enter closure.env (({} : Bindings).insert "this" (.object inst))).2
      { closure with env := ⟨machine.scopes.tables.size⟩ :: closure.env }

namespace Realm

variable (realm : Realm)

def Class (store : Scopes) (cls : ClassObject) : Prop :=
  ∀ body ∈ cls.chain, ∀ (name : String) method, body.methods[name]? = some method →
    realm.method store method

def Value (store : Scopes) : Lox.Value → Prop
  | .callable (.function closure) => realm.function store closure
  | .callable (.constructor cls) => realm.Class store cls
  | .object inst => realm.object inst.index ∧ realm.Class store inst.cls
  | .nil | .bool _ | .number _ | .string _ | .callable (.native _) => True

/-- Everything that the scopes and instances of the realm hold belongs to it. -/
structure Within (machine : Machine) : Prop where
  globals : ∀ ref ∈ machine.globals, realm.scope ref
  scopes : realm.oldScopes ≤ machine.scopes.tables.size
  objects : realm.oldObjects ≤ machine.fields.size
  bound : ∀ ref name value, realm.scope ref → machine.scopes.lookUp? ref name = some value →
    realm.Value machine.scopes value
  fields : ∀ inst name value, realm.object inst.index → machine.field? inst name = some value →
    realm.Value machine.scopes value

structure Extends (before after : Machine) : Prop where
  kept : Kept before after
  later : realm.later before.scopes after.scopes
  within : realm.Within after

structure Leads {α : Type} (step : Run α) (machine : Machine) (post : α → Scopes → Prop) :
    Prop where
  ends : match step machine with
    | .ok value after => realm.Extends machine after ∧ post value after.scopes
    | .error _ after => realm.Extends machine after
  blind : step (machine.veiled realm.veil) = realm.veil.over (step machine)

variable {realm} {α β : Type} {machine : Machine} {store : Scopes}

theorem Class.later {before after : Scopes} {cls : ClassObject} (belongs : realm.Class before cls)
    (grown : realm.later before after) : realm.Class after cls :=
  fun body member name method found =>
    realm.method_later (belongs body member name method found) grown

theorem Class.findMethod? {cls : ClassObject} {name : String} {method : Closure}
    (belongs : realm.Class store cls) (found : cls.findMethod? name = some method) :
    realm.method store method := by
  obtain ⟨body, member, holds⟩ := List.exists_of_findSome?_eq_some found
  exact belongs body member name method holds

theorem Value.later {before after : Scopes} {value : Lox.Value} (belongs : realm.Value before value)
    (grown : realm.later before after) : realm.Value after value := by
  match value with
  | .callable (.function closure) => exact realm.function_later belongs grown
  | .callable (.constructor cls) => exact Class.later belongs grown
  | .object inst => exact ⟨belongs.1, belongs.2.later grown⟩
  | .nil | .bool _ | .number _ | .string _ | .callable (.native _) => trivial

theorem Within.congr {other : Machine} (within : realm.Within machine)
    (globals : other.globals = machine.globals) (scopes : other.scopes = machine.scopes)
    (fields : other.fields = machine.fields) : realm.Within other where
  globals := globals ▸ within.globals
  scopes := scopes ▸ within.scopes
  objects := fields ▸ within.objects
  bound := scopes ▸ within.bound
  fields := by
    simp only [Machine.field?, fields, scopes]
    exact within.fields

namespace Leads

variable {post : α → Scopes → Prop} {post' : β → Scopes → Prop} {step : Run α}

theorem of_ok (leads : realm.Leads step machine post) {value : α} {after : Machine}
    (ended : step machine = .ok value after) :
    realm.Extends machine after ∧ post value after.scopes := by
  simpa [ended] using leads.ends

theorem of_error (leads : realm.Leads step machine post) {abort : Abort} {after : Machine}
    (ended : step machine = .error abort after) : realm.Extends machine after := by
  simpa [ended] using leads.ends

theorem extends_final (leads : realm.Leads step machine post) :
    realm.Extends machine (step.final machine) := by
  unfold Run.final
  cases ended : step machine with
  | ok value after => exact (leads.of_ok ended).1
  | error abort after => exact leads.of_error ended

theorem final_veiled (leads : realm.Leads step machine post) :
    step.final (machine.veiled realm.veil) = (step.final machine).veiled realm.veil := by
  unfold Run.final
  rw [leads.blind]
  cases step machine <;> rfl

end Leads

/-! What is read in the realm. -/

section Reading

theorem lookUp?_veiled {ref : ScopeRef} (seen : realm.scope ref) (name : String) :
    (machine.veiled realm.veil).scopes.lookUp? ref name = machine.scopes.lookUp? ref name := by
  simp only [Machine.veiled, Scopes.lookUp?]
  rw [Veil.getElem?_cover_of_none (realm.scope_seen ref seen)]

theorem field?_veiled {inst : Instance} (own : realm.object inst.index) (name : String) :
    (machine.veiled realm.veil).field? inst name = machine.field? inst name := by
  simp only [Machine.veiled, Machine.field?]
  rw [Veil.getElem?_cover_of_none (realm.object_seen _ own)]

variable {env : Env} (seen : ∀ ref ∈ env, realm.scope ref)
include seen

theorem find?_veiled (name : String) :
    (machine.veiled realm.veil).scopes.find? env name = machine.scopes.find? env name := by
  induction env with
  | nil => rfl
  | cons ref outer ih =>
      rw [List.forall_mem_cons] at seen
      have rest := ih seen.2
      simp only [Scopes.find?, List.findSome?_cons, lookUp?_veiled seen.1] at rest ⊢
      rw [rest]

theorem holder?_veiled (name : String) :
    (machine.veiled realm.veil).scopes.holder? env name = machine.scopes.holder? env name := by
  induction env with
  | nil => rfl
  | cons ref outer ih =>
      rw [List.forall_mem_cons] at seen
      simp only [Scopes.holder?, lookUp?_veiled seen.1, ih seen.2]

theorem seen_drop {depth : Nat} {ref : ScopeRef} {outer : Env}
    (found : env.drop depth = ref :: outer) :
    realm.scope ref :=
  seen ref (List.mem_of_mem_drop (found ▸ List.mem_cons_self))

theorem getAt?_veiled (depth : Nat) (name : String) :
    (machine.veiled realm.veil).scopes.getAt? env depth name =
      machine.scopes.getAt? env depth name := by
  unfold Scopes.getAt?
  split
  · rfl
  · rename_i ref outer found
    exact lookUp?_veiled (seen_drop seen found) name

theorem holderAt?_veiled (depth : Nat) (name : String) :
    (machine.veiled realm.veil).scopes.holderAt? env depth name =
      machine.scopes.holderAt? env depth name := by
  unfold Scopes.holderAt?
  split
  · rfl
  · rename_i ref outer found
    rw [lookUp?_veiled (seen_drop seen found)]

variable (within : realm.Within machine)
include within

theorem value_find? {name : String} {value : Lox.Value}
    (found : machine.scopes.find? env name = some value) : realm.Value machine.scopes value := by
  obtain ⟨ref, member, bound⟩ := List.exists_of_findSome?_eq_some found
  exact within.bound ref name value (seen ref member) bound

theorem value_getAt? {depth : Nat} {name : String} {value : Lox.Value}
    (found : machine.scopes.getAt? env depth name = some value) :
    realm.Value machine.scopes value := by
  unfold Scopes.getAt? at found
  split at found
  · cases found
  · rename_i ref outer dropped
    exact within.bound ref name value (seen_drop seen dropped) found

end Reading

theorem scope_holder? {scopes : Scopes} {env : Env} (seen : ∀ ref ∈ env, realm.scope ref)
    {name : String} {holder : Env} (found : scopes.holder? env name = some holder) :
    ∀ ref ∈ holder, realm.scope ref := by
  induction env with
  | nil => cases found
  | cons ref outer ih =>
      unfold Scopes.holder? at found
      split at found
      · cases found
        exact seen
      · exact ih (List.forall_mem_cons.mp seen).2 found

theorem scope_holderAt? {scopes : Scopes} {env : Env} (seen : ∀ ref ∈ env, realm.scope ref)
    {depth : Nat} {name : String} {holder : Env}
    (found : scopes.holderAt? env depth name = some holder) : ∀ ref ∈ holder, realm.scope ref := by
  unfold Scopes.holderAt? at found
  split at found
  · cases found
  · rename_i ref outer dropped
    split at found
    · cases found
      intro other member
      exact seen other (List.mem_of_mem_drop (dropped ▸ member))
    · cases found

/-! What is done in the realm. -/

def Permits (realm : Realm) (machine : Machine) : Deed → Prop
  | .value _ _ | .heritage _ => ∀ ref ∈ machine.env, realm.scope ref
  | .assign _ name given | .define name given =>
      (∀ ref ∈ machine.env, realm.scope ref) ∧ realm.declarable name ∧
        realm.Value machine.scopes given
  | .openScope _ bindings => bindings.All (realm.Value machine.scopes)
  | .field inst _ => realm.object inst.index
  | .setField inst _ given => realm.object inst.index ∧ realm.Value machine.scopes given
  | .receiver env => ∀ ref ∈ env, realm.scope ref
  | _ => True

section Deeds

variable {deed : Deed}

theorem Permits.puts (permitted : realm.Permits machine deed) :
    deed.Puts (realm.Value machine.scopes) := by
  cases deed with
  | assign | define => exact permitted.2.2
  | openScope => exact permitted
  | setField => exact permitted.2
  | _ => trivial

theorem Permits.later (permitted : realm.Permits machine deed) :
    realm.later machine.scopes (deed.change machine).scopes := by
  cases deed with
  | assign =>
      simp only [Deed.change]
      split
      · exact realm.later_define _ _ _ permitted.2.1
      · exact realm.later_refl _
  | define => exact realm.later_define _ _ _ permitted.2.1
  | openScope outer bindings => exact realm.later_enter machine.scopes outer bindings
  | writeFile =>
      simp only [Deed.change]
      split <;> exact realm.later_refl _
  | _ => exact realm.later_refl _

theorem Within.change (within : realm.Within machine) (permitted : realm.Permits machine deed) :
    realm.Extends machine (deed.change machine) := by
  have kept := deed.kept machine
  have stores : machine.StoresOnly realm.scope realm.object (realm.Value machine.scopes) :=
    ⟨within.bound, within.fields⟩
  obtain ⟨bound, fields⟩ := stores.change permitted.puts
  refine ⟨kept, permitted.later, kept.globals ▸ within.globals, ?_, ?_, ?_, ?_⟩
  · refine within.scopes.trans ?_
    cases deed with
    | assign | writeFile =>
        simp only [Deed.change]
        split <;> simp [Scopes.size_define]
    | define | openScope => simp [Deed.change, Scopes.size_define, Scopes.enter]
    | _ => exact le_rfl
  · refine within.objects.trans ?_
    cases deed with
    | assign | writeFile =>
        simp only [Deed.change]
        split <;> exact le_rfl
    | newInstance | setField => simp [Deed.change]
    | _ => exact le_rfl
  · exact fun ref name value seen found => (bound ref name value seen found).later permitted.later
  · exact fun inst name value own found => (fields inst name value own found).later permitted.later

theorem valueOf?_veiled (within : realm.Within machine)
    (seen : ∀ ref ∈ machine.env, realm.scope ref) (id : ExprId) (name : String) :
    (machine.veiled realm.veil).valueOf? id name = machine.valueOf? id name := by
  have depths : (machine.veiled realm.veil).depths = machine.depths := rfl
  simp only [Machine.valueOf?, depths]
  split
  · exact getAt?_veiled seen _ name
  · exact find?_veiled within.globals name

theorem holderOf?_veiled (within : realm.Within machine)
    (seen : ∀ ref ∈ machine.env, realm.scope ref) (id : ExprId) (name : String) :
    (machine.veiled realm.veil).holderOf? id name = machine.holderOf? id name := by
  have depths : (machine.veiled realm.veil).depths = machine.depths := rfl
  simp only [Machine.holderOf?, depths]
  split
  · exact holderAt?_veiled seen _ name
  · exact holder?_veiled within.globals name

theorem define_veiled {env : Env} (seen : ∀ ref ∈ env, realm.scope ref) (name : String)
    (value : Lox.Value) :
    ({ machine.veiled realm.veil with
      scopes := (machine.veiled realm.veil).scopes.define env name value } : Machine) =
      { machine with scopes := machine.scopes.define env name value }.veiled realm.veil := by
  cases env with
  | nil => rfl
  | cons ref outer =>
      have clear := realm.scope_seen ref (seen ref List.mem_cons_self)
      simp only [Scopes.define, Machine.veiled, Veil.cover_modify _ clear]

/-- Outside of the realm nothing is read, and nothing is changed. -/
theorem Within.blind (within : realm.Within machine) (permitted : realm.Permits machine deed) :
    deed.answer (machine.veiled realm.veil) = deed.answer machine ∧
      deed.change (machine.veiled realm.veil) = (deed.change machine).veiled realm.veil := by
  cases deed with
  | value id name => exact ⟨valueOf?_veiled within permitted id name, rfl⟩
  | assign id name given =>
      obtain ⟨seen, -, -⟩ := permitted
      have same := holderOf?_veiled within seen id name
      simp only [Deed.answer, Deed.change, same]
      cases found : machine.holderOf? id name with
      | none => exact ⟨trivial, rfl⟩
      | some holder =>
          refine ⟨trivial, define_veiled ?_ name given⟩
          unfold Machine.holderOf? at found
          split at found
          · exact scope_holderAt? seen found
          · exact scope_holder? within.globals found
  | define name given => exact ⟨rfl, define_veiled permitted.1 name given⟩
  | openScope outer bindings =>
      have seen : realm.veil.scopes machine.scopes.tables.size = none :=
        realm.scope_seen ⟨_⟩ (realm.scope_new ⟨_⟩ within.scopes)
      simp only [Deed.answer, Deed.change, Scopes.enter, Machine.veiled, Veil.cover_push _ seen,
        Veil.size_cover, and_self]
  | newInstance cls =>
      have seen : realm.veil.fields machine.fields.size = none :=
        realm.object_seen _ (realm.object_new _ within.objects)
      simp only [Deed.answer, Deed.change, Machine.veiled, Veil.cover_push _ seen, Veil.size_cover,
        and_self]
  | field inst name => exact ⟨field?_veiled permitted name, rfl⟩
  | setField inst name given =>
      refine ⟨rfl, ?_⟩
      simp only [Deed.change, Machine.veiled, Veil.cover_modify _ (realm.object_seen _ permitted.1)]
  | heritage id =>
      refine ⟨?_, rfl⟩
      have depths : (machine.veiled realm.veil).depths = machine.depths := rfl
      have env : (machine.veiled realm.veil).env = machine.env := rfl
      simp only [Deed.answer, Deed.inherited, depths, env, getAt?_veiled permitted]
  | receiver env => exact ⟨getAt?_veiled permitted 0 "this", rfl⟩
  | writeFile path text =>
      refine ⟨rfl, ?_⟩
      have host : (machine.veiled realm.veil).host = machine.host := rfl
      simp only [Deed.change, host]
      cases machine.host.files.write path text.toUTF8.toList <;> rfl
  | _ => exact ⟨rfl, rfl⟩

end Deeds

theorem around_veiled {setting : Setting} {step : Run α}
    (blind : ∀ present, setting.enter? machine = some present →
      step (present.veiled realm.veil) = realm.veil.over (step present)) :
    setting.around step (machine.veiled realm.veil) =
      realm.veil.over (setting.around step machine) := by
  have enters : setting.enter? (machine.veiled realm.veil) =
      (setting.enter? machine).map (·.veiled realm.veil) := by
    cases setting with
    | here | inside => rfl
    | nested paren =>
        exact (apply_ite (Option.map (Machine.veiled · realm.veil))
          (machine.callDepth < machine.maxCallDepth) (some machine.calling) none).symm
  cases entered : setting.enter? machine with
  | none =>
      rw [entered] at enters
      obtain ⟨paren, rfl, -, refused⟩ := Setting.around_of_none step entered
      obtain ⟨_, ⟨⟩, -, refused'⟩ := Setting.around_of_none step enters
      rw [refused, refused']
      rfl
  | some present =>
      rw [entered] at enters
      rw [Setting.around_of_some entered, Setting.around_of_some enters, blind present entered]
      cases setting <;> cases step present <;> rfl

end Realm

namespace Native

theorem eq_ofNative_of_natives {name : String} {value : Value}
    (bound : Machine.natives[name]? = some value) : ∃ builtin, value = .ofNative builtin := by
  have inserted {builtins : List Native} {table : Bindings}
      (known : ∀ (name : String) value, table[name]? = some value →
        ∃ builtin, value = .ofNative builtin)
      (name : String) (value : Value) (bound : (builtins.foldl (fun table builtin =>
        table.insert builtin.name (.ofNative builtin)) table)[name]? = some value) :
      ∃ builtin, value = .ofNative builtin := by
    induction builtins generalizing table with
    | nil => exact known name value bound
    | cons first rest ih =>
        refine ih (fun used found bound => ?_) bound
        rw [Std.TreeMap.getElem?_insert] at bound
        split at bound
        · exact ⟨first, (Option.some.inj bound).symm⟩
        · exact known used found bound
  exact inserted (by simp) name value bound

end Native

theorem Realm.within_fresh {realm : Realm} (limit : Nat) (host : Host)
    (globals : ∀ ref ∈ (Machine.fresh limit host).globals, realm.scope ref)
    (scopes : realm.oldScopes = 0) (objects : realm.oldObjects = 0) :
    realm.Within (.fresh limit host) where
  globals := globals
  scopes := scopes ▸ Nat.zero_le _
  objects := objects ▸ Nat.zero_le _
  bound := by
    intro ref name value _ bound
    simp only [Machine.fresh, Scopes.lookUp?_enter] at bound
    split at bound
    · obtain ⟨builtin, rfl⟩ := Native.eq_ofNative_of_natives bound
      trivial
    · simp [Scopes.lookUp?, Scopes.empty] at bound
  fields := by
    intro inst name value _ found
    simp [Machine.field?, Machine.fresh] at found

end Lox
