import Lox.Proofs.Run.Confined

/-!
The part of the store that one can come to from given values and scopes: through the scopes around a
scope, the values bound there, the scopes of functions, the methods of classes and of their
superclasses, and the fields of instances. With all that is made later it is a realm.
-/

namespace Lox

inductive Item
  | env (env : Env)
  | value (value : Value)
  | closure (closure : Closure)

/-- From the roots one comes to the item. A class leads to the methods of its whole chain, so to
those of its superclasses. -/
inductive Machine.Accessible (machine : Machine) (roots : List Item) : Item → Prop
  | root {item} : item ∈ roots → Accessible machine roots item
  | enclosing {ref outer} : Accessible machine roots (.env (ref :: outer)) →
      Accessible machine roots (.env outer)
  | bound {ref outer name value} : Accessible machine roots (.env (ref :: outer)) →
      machine.scopes.lookUp? ref name = some value → Accessible machine roots (.value value)
  | function {closure} : Accessible machine roots (.value (.callable (.function closure))) →
      Accessible machine roots (.closure closure)
  | captured {closure} : Accessible machine roots (.closure closure) →
      Accessible machine roots (.env closure.env)
  | method {cls body method} {name : String} :
      Accessible machine roots (.value (.callable (.constructor cls))) → body ∈ cls.chain →
      body.methods[name]? = some method → Accessible machine roots (.closure method)
  | instanceClass {inst} : Accessible machine roots (.value (.object inst)) →
      Accessible machine roots (.value (.callable (.constructor inst.cls)))
  | field {inst name value} : Accessible machine roots (.value (.object inst)) →
      machine.field? inst name = some value → Accessible machine roots (.value value)

namespace Machine

variable (machine : Machine) (roots : List Item)

def AccessibleScope (ref : ScopeRef) : Prop :=
  ∃ outer, machine.Accessible roots (.env (ref :: outer))

def AccessibleObject (index : Nat) : Prop :=
  ∃ inst : Instance, inst.index = index ∧ machine.Accessible roots (.value (.object inst))

def InReach (ref : ScopeRef) : Prop :=
  machine.scopes.tables.size ≤ ref.index ∨ machine.AccessibleScope roots ref

variable {machine roots}

theorem Accessible.scopes {env : Env} (accessible : machine.Accessible roots (.env env)) :
    ∀ ref ∈ env, machine.AccessibleScope roots ref := by
  induction env with
  | nil => simp
  | cons ref outer ih =>
      rw [List.forall_mem_cons]
      exact ⟨⟨outer, accessible⟩, ih accessible.enclosing⟩

theorem not_accessible_fresh (limit : Nat) (host : Host) (closure : Closure) :
    ¬ (fresh limit host).Accessible [.env (fresh limit host).env, .env (fresh limit host).globals]
      (.closure closure) := by
  let known : Item → Prop
    | .env env => env = [⟨0⟩] ∨ env = []
    | .value value => ∃ builtin, value = .ofNative builtin
    | .closure _ => False
  have all (item : Item) (accessible : (fresh limit host).Accessible
      [.env (fresh limit host).env, .env (fresh limit host).globals] item) : known item := by
    induction accessible with
    | root member =>
        have same := by simpa using member
        rw [same.elim id id]
        exact .inl rfl
    | enclosing _ ih =>
        rcases ih with same | same
        · cases same
          exact .inr rfl
        · cases same
    | bound _ found ih =>
        rcases ih with same | same
        · cases same
          simp only [fresh, Scopes.lookUp?_enter] at found
          exact Native.eq_ofNative_of_natives found
        · cases same
    | function _ ih | method _ _ _ ih | instanceClass _ ih | field _ _ ih =>
        obtain ⟨builtin, same⟩ := ih
        cases same
    | captured _ ih => exact ih.elim
  exact all (.closure closure)

end Machine

/-- The veil hides nothing but what exists and cannot be come to. -/
structure Veil.Hides (veil : Veil) (machine : Machine) (roots : List Item) : Prop where
  scopes : ∀ index, (veil.scopes index).isSome →
    index < machine.scopes.tables.size ∧ ¬ machine.AccessibleScope roots ⟨index⟩
  fields : ∀ index, (veil.fields index).isSome →
    index < machine.fields.size ∧ ¬ machine.AccessibleObject roots index

structure Closure.Held (closure : Closure) (good : Node → Prop) (scope : ScopeRef → Prop) :
    Prop where
  body : ∀ stmt ∈ closure.decl.body, good (.stmt stmt)
  scopes : ∀ ref ∈ closure.env, scope ref

section Bodies

variable {good : Node → Prop}
  (closed : ∀ {node child}, good node → child ∈ node.parts → good child) {decl : FunctionDecl}
include closed

theorem good_body (declared : good (.function decl) ∨ good (.method decl)) :
    ∀ stmt ∈ decl.body, good (.stmt stmt) := by
  intro stmt member
  rcases declared with held | held <;> exact closed held (List.mem_map_of_mem member)

theorem good_method {name : Token} {superclass : Option Expr} {methods : List FunctionDecl}
    (held : good (.stmt (.classDecl name superclass methods))) (listed : decl ∈ methods) :
    good (.method decl) :=
  closed held (List.mem_append_right _ (List.mem_map_of_mem listed))

end Bodies

/-- What the roots lead to, and everything that is made from then on. Code is restricted to nodes of
one kind, and so are the bodies of functions. -/
def territory (machine : Machine) (roots : List Item) (good : Node → Prop)
    (closed : ∀ {node child}, good node → child ∈ node.parts → good child) {veil : Veil}
    (hides : veil.Hides machine roots) : Realm where
  moments := fun _ _ => True
  scope := machine.InReach roots
  object := fun index => machine.fields.size ≤ index ∨ machine.AccessibleObject roots index
  oldScopes := machine.scopes.tables.size
  oldObjects := machine.fields.size
  veil := veil
  declarable := fun _ => True
  later := fun _ _ => True
  code := fun _ env node => good node ∧ ∀ ref ∈ env, machine.InReach roots ref
  function := fun _ closure => closure.Held good (machine.InReach roots)
  method := fun _ closure => closure.Held good (machine.InReach roots)
  begun := fun _ _ => trivial
  scope_new := fun _ new => .inl new
  object_new := fun _ new => .inl new
  scope_seen := by
    intro ref seen
    by_contra hidden
    have hidden := hides.scopes ref.index (Option.isSome_iff_ne_none.mpr hidden)
    exact seen.elim (Nat.not_le_of_lt hidden.1) hidden.2
  object_seen := by
    intro index seen
    by_contra hidden
    have hidden := hides.fields index (Option.isSome_iff_ne_none.mpr hidden)
    exact seen.elim (Nat.not_le_of_lt hidden.1) hidden.2
  later_refl := fun _ => trivial
  later_trans := fun _ _ => trivial
  later_enter := fun _ _ _ => trivial
  later_define := fun _ _ _ _ _ => trivial
  code_later := fun code _ => code
  function_later := fun function _ => function
  method_later := fun method _ => method
  code_scope := fun code => code.2
  function_scope := fun function => function.scopes
  code_part := fun code member => ⟨closed code.1 (Node.mem_parts_of_mem_inPlace member), code.2⟩
  code_declares := fun _ _ _ => trivial
  code_assigns := fun _ => trivial
  code_block := fun _ old code stmt member =>
    ⟨closed code.1 (List.mem_map_of_mem member), List.forall_mem_cons.mpr ⟨.inl old, code.2⟩⟩
  code_body := fun _ old function _ stmt member =>
    ⟨function.body stmt member, List.forall_mem_cons.mpr ⟨.inl old, function.scopes⟩⟩
  function_declared := fun _ code =>
    ⟨good_body closed (.inl (closed code.1 List.mem_cons_self)), code.2⟩
  method_declared := fun _ code _ listed =>
    ⟨good_body closed (.inr (good_method closed code.1 listed)), code.2⟩
  method_inherited := fun _ old code _ _ _ _ listed =>
    ⟨good_body closed (.inr (good_method closed code.1 listed)),
      List.forall_mem_cons.mpr ⟨.inl old, code.2⟩⟩
  function_bound := fun _ old method =>
    ⟨method.body, List.forall_mem_cons.mpr ⟨.inl old, method.scopes⟩⟩

/-! A machine is in a realm whose scopes, instances and functions include those that the roots lead
to. -/

section Included

variable {realm : Realm} {machine : Machine} {roots : List Item}

theorem Machine.Accessible.belongs {value : Value}
    (accessible : machine.Accessible roots (.value value)) {store : Scopes}
    (objects : ∀ index, machine.AccessibleObject roots index → realm.object index)
    (closures : ∀ closure, machine.Accessible roots (.closure closure) →
      realm.function store closure ∧ realm.method store closure) : realm.Value store value := by
  have classes {cls : ClassObject}
      (accessible : machine.Accessible roots (.value (.callable (.constructor cls)))) :
      realm.Class store cls :=
    fun body member name method found => (closures method (accessible.method member found)).2
  match value with
  | .callable (.function closure) => exact (closures closure accessible.function).1
  | .callable (.constructor cls) => exact classes accessible
  | .object inst => exact ⟨objects _ ⟨inst, rfl, accessible⟩, classes accessible.instanceClass⟩
  | .nil | .bool _ | .number _ | .string _ | .callable (.native _) => trivial

theorem Realm.within_of_accessible (globals : .env machine.globals ∈ roots)
    (scopes : realm.scope = machine.InReach roots)
    (objects : realm.object = fun index =>
      machine.fields.size ≤ index ∨ machine.AccessibleObject roots index)
    (oldScopes : realm.oldScopes = machine.scopes.tables.size)
    (oldObjects : realm.oldObjects = machine.fields.size)
    (closures : ∀ closure, machine.Accessible roots (.closure closure) →
      realm.function machine.scopes closure ∧ realm.method machine.scopes closure) :
    realm.Within machine := by
  have belongs {value : Lox.Value} (accessible : machine.Accessible roots (.value value)) :
      realm.Value machine.scopes value :=
    accessible.belongs (fun index reached => objects ▸ .inr reached) closures
  constructor
  · intro ref member
    rw [scopes]
    exact .inr ((Machine.Accessible.root globals).scopes ref member)
  · exact oldScopes.le
  · exact oldObjects.le
  · intro ref name value inside bound
    rw [scopes] at inside
    rcases inside with new | ⟨outer, accessible⟩
    · simp [Scopes.lookUp?, new] at bound
    · exact belongs (accessible.bound bound)
  · intro inst name value inside found
    rw [objects] at inside
    rcases inside with new | ⟨other, same, accessible⟩
    · simp [Machine.field?, new] at found
    · have found' : machine.field? other name = some value := by
        rw [← found]
        simp only [Machine.field?, same]
      exact belongs (accessible.field found')

end Included

section Territory

variable {machine : Machine} {roots : List Item} {good : Node → Prop}
  {closed : ∀ {node child}, good node → child ∈ node.parts → good child} {veil : Veil}
  {hides : veil.Hides machine roots}
  (bodies : ∀ closure, machine.Accessible roots (.closure closure) →
    ∀ stmt ∈ closure.decl.body, good (.stmt stmt))
include bodies

theorem held_of_accessible {closure : Closure}
    (accessible : machine.Accessible roots (.closure closure)) :
    closure.Held good (machine.InReach roots) :=
  ⟨bodies closure accessible, fun ref member => .inr (accessible.captured.scopes ref member)⟩

theorem value_territory {value : Value} (accessible : machine.Accessible roots (.value value))
    (store : Scopes) : (territory machine roots good closed hides).Value store value :=
  accessible.belongs (fun _ reached => .inr reached) fun _ accessible =>
    ⟨held_of_accessible bodies accessible, held_of_accessible bodies accessible⟩

theorem within_territory (globals : .env machine.globals ∈ roots) :
    (territory machine roots good closed hides).Within machine :=
  Realm.within_of_accessible globals rfl rfl rfl rfl fun _ accessible =>
    ⟨held_of_accessible bodies accessible, held_of_accessible bodies accessible⟩

end Territory

end Lox
