import Mathlib
import Lox.Proofs.Run.Law

/-!
Values of two runs. Which functions of the runs correspond, and which methods, is left open; values
correspond if their functions do. Values that correspond cannot be told apart by a program. What is
found in stores that correspond, or put into them, corresponds again.
-/

namespace Lox

theorem relCases {α β : Type} {R : α → β → Prop} {value : Option α} {value' : Option β}
    (related : Option.Rel R value value') :
    (value = none ∧ value' = none) ∨
      ∃ found found', value = some found ∧ value' = some found' ∧ R found found' := by
  cases related with
  | none => exact .inl ⟨rfl, rfl⟩
  | some related => exact .inr ⟨_, _, rfl, rfl, related⟩

theorem relOption {α β : Type} {R : α → β → Prop} {value : Option α} {value' : Option β}
    (related : List.Forall₂ R value.toList value'.toList) : Option.Rel R value value' := by
  cases value <;> cases value' <;> cases related
  · exact .none
  · exact .some ‹_›

theorem relImp {α β : Type} {R S : α → β → Prop} (imp : ∀ value value', R value value' → S value value')
    {value : Option α} {value' : Option β} (related : Option.Rel R value value') :
    Option.Rel S value value' := by
  cases related with
  | none => exact .none
  | some related => exact .some (imp _ _ related)

theorem relRefl {α : Type} {R : α → α → Prop} (refl : ∀ value, R value value) (value : Option α) :
    Option.Rel R value value := by
  cases value with
  | none => exact .none
  | some value => exact .some (refl value)

theorem relMap {α β α' β' : Type} {R : α → β → Prop} {S : α' → β' → Prop} {change : α → α'}
    {change' : β → β'} (imp : ∀ value value', R value value' → S (change value) (change' value'))
    {value : Option α} {value' : Option β} (related : Option.Rel R value value') :
    Option.Rel S (value.map change) (value'.map change') := by
  cases related with
  | none => exact .none
  | some related => exact .some (imp _ _ related)

/-! Tables of names. -/

section Tables

variable {α β : Type} {R : α → β → Prop}

def TablesMatch (R : α → β → Prop) (table : Std.TreeMap String α) (table' : Std.TreeMap String β) :
    Prop :=
  ∀ name : String, Option.Rel R table[name]? table'[name]?

theorem TablesMatch.empty : TablesMatch R {} {} := by
  intro name
  simp

theorem TablesMatch.insert {table : Std.TreeMap String α} {table' : Std.TreeMap String β}
    (paired : TablesMatch R table table') (name : String) {value : α} {value' : β}
    (related : R value value') :
    TablesMatch R (table.insert name value) (table'.insert name value') := by
  intro used
  rw [Std.TreeMap.getElem?_insert, Std.TreeMap.getElem?_insert]
  split
  · exact .some related
  · exact paired used

theorem TablesMatch.fill {γ δ : Type} {S : γ → δ → Prop} {key : γ → String} {key' : δ → String}
    {value : γ → α} {value' : δ → β} (keys : ∀ entry entry', S entry entry' → key' entry' = key entry)
    (values : ∀ entry entry', S entry entry' → R (value entry) (value' entry'))
    {entries : List γ} {entries' : List δ} (related : List.Forall₂ S entries entries')
    {table : Std.TreeMap String α} {table' : Std.TreeMap String β}
    (start : TablesMatch R table table') :
    TablesMatch R (entries.foldl (fun table entry => table.insert (key entry) (value entry)) table)
      (entries'.foldl (fun table entry => table.insert (key' entry) (value' entry)) table') := by
  induction related generalizing table table' with
  | nil => exact start
  | @cons entry entry' _ _ related _ ih =>
      apply ih
      beta_reduce
      rw [keys entry entry' related]
      exact start.insert _ (values entry entry' related)

end Tables

/-- Which functions of two runs correspond, and which methods that have no receiver yet. -/
structure Kinship where
  Functions : Closure → Closure → Prop
  Methods : Closure → Closure → Prop
  name : ∀ {closure closure'}, Functions closure closure' → closure'.name = closure.name
  arity : ∀ {closure closure'}, Functions closure closure' → closure'.arity = closure.arity
  methodArity : ∀ {method method'}, Methods method method' → method'.arity = method.arity
  same : ∀ {closure closure' other other'}, Functions closure closure' → Functions other other' →
    closure'.same other' = closure.same other

section Values

variable (kin : Kinship)

structure ClassBody.Alike (body body' : ClassBody) : Prop where
  id : body'.id = body.id
  name : body'.name = body.name
  methods : TablesMatch kin.Methods body.methods body'.methods

def ClassObject.Alike (cls cls' : ClassObject) : Prop :=
  List.Forall₂ (ClassBody.Alike kin) cls.chain cls'.chain

structure Instance.Alike (inst inst' : Instance) : Prop where
  index : inst'.index = inst.index
  cls : inst.cls.Alike kin inst'.cls

inductive Callable.Alike : Callable → Callable → Prop
  | native (builtin : Native) : Callable.Alike (.native builtin) (.native builtin)
  | function {closure closure'} : kin.Functions closure closure' →
      Callable.Alike (.function closure) (.function closure')
  | constructor {cls cls'} : cls.Alike kin cls' →
      Callable.Alike (.constructor cls) (.constructor cls')

inductive Value.Alike : Value → Value → Prop
  | nil : Value.Alike .nil .nil
  | bool (value : Bool) : Value.Alike (.bool value) (.bool value)
  | number (value : Number) : Value.Alike (.number value) (.number value)
  | string (value : String) : Value.Alike (.string value) (.string value)
  | callable {callable callable'} : callable.Alike kin callable' →
      Value.Alike (.callable callable) (.callable callable')
  | object {inst inst'} : inst.Alike kin inst' → Value.Alike (.object inst) (.object inst')

inductive Flow.Alike : Flow → Flow → Prop
  | normal : Flow.Alike .normal .normal
  | returned {value value'} : value.Alike kin value' →
      Flow.Alike (.returned value) (.returned value')

end Values

/-! What corresponds in one way corresponds in every weaker way. -/

structure Kinship.Weakens (kin other : Kinship) : Prop where
  functions : ∀ closure closure', kin.Functions closure closure' → other.Functions closure closure'
  methods : ∀ method method', kin.Methods method method' → other.Methods method method'

section Weaker

variable {kin other : Kinship}

theorem ClassObject.Alike.imp {cls cls' : ClassObject} (alike : cls.Alike kin cls')
    (weaker : kin.Weakens other) : cls.Alike other cls' :=
  List.Forall₂.imp (fun _ _ body => ⟨body.id, body.name, fun name =>
    relImp weaker.methods (body.methods name)⟩) alike

theorem Instance.Alike.imp {inst inst' : Instance} (alike : inst.Alike kin inst')
    (weaker : kin.Weakens other) : inst.Alike other inst' := ⟨alike.index, alike.cls.imp weaker⟩

theorem Callable.Alike.imp {callable callable' : Callable} (alike : callable.Alike kin callable')
    (weaker : kin.Weakens other) : callable.Alike other callable' := by
  cases alike with
  | native builtin => exact .native builtin
  | function closure => exact .function (weaker.functions _ _ closure)
  | constructor cls => exact .constructor (cls.imp weaker)

theorem Value.Alike.imp {value value' : Value} (alike : value.Alike kin value')
    (weaker : kin.Weakens other) : value.Alike other value' := by
  cases alike with
  | nil => exact .nil
  | bool value => exact .bool value
  | number value => exact .number value
  | string value => exact .string value
  | callable callable => exact .callable (callable.imp weaker)
  | object inst => exact .object (inst.imp weaker)

end Weaker

/-! A program cannot tell apart values that correspond. -/

section Alike

variable {kin : Kinship}

theorem ClassObject.Alike.own {cls cls' : ClassObject} (alike : cls.Alike kin cls') :
    cls.own.Alike kin cls'.own := by
  cases alike with
  | cons own ancestors => exact own

theorem ClassObject.Alike.findMethod? {cls cls' : ClassObject} (alike : cls.Alike kin cls')
    (name : String) : Option.Rel kin.Methods (cls.findMethod? name) (cls'.findMethod? name) := by
  unfold ClassObject.findMethod?
  unfold ClassObject.Alike at alike
  generalize cls.chain = bodies at alike
  generalize cls'.chain = bodies' at alike
  induction alike with
  | nil => exact .none
  | cons body rest ih =>
      simp only [List.findSome?_cons]
      rcases relCases (body.methods name) with ⟨none, none'⟩ | ⟨method, method', found, found', alike⟩
      · rw [none, none']
        exact ih
      · rw [found, found']
        exact .some alike

theorem Callable.Alike.arity {callable callable' : Callable}
    (alike : callable.Alike kin callable') : callable'.arity = callable.arity := by
  cases alike with
  | native builtin => rfl
  | function closure => exact kin.arity closure
  | constructor cls =>
      simp only [Callable.arity, ClassObject.arity]
      rcases relCases (cls.findMethod? "init") with
        ⟨none, none'⟩ | ⟨method, method', found, found', methods⟩
      · rw [none, none']
      · rw [found, found']
        exact kin.methodArity methods

namespace Value.Alike

variable {value value' other other' : Value}

theorem of_plain (plain : value.Plain) : value.Alike kin value := by
  cases value with
  | callable callable =>
      cases callable with
      | native builtin => exact .callable (.native builtin)
      | function | constructor => exact plain.elim
  | object => exact plain.elim
  | nil | bool | number | string => constructor

theorem isTruthy (alike : value.Alike kin value') : value'.isTruthy = value.isTruthy := by
  cases alike <;> rfl

theorem callable? (alike : value.Alike kin value') :
    Option.Rel (Callable.Alike kin) value.callable? value'.callable? := by
  cases alike with
  | callable callable => exact .some callable
  | nil | bool | number | string | object => exact .none

theorem typeName (alike : value.Alike kin value') : value'.typeName = value.typeName := by
  cases alike with
  | callable callable => cases callable <;> rfl
  | nil | bool | number | string | object => rfl

theorem text (alike : value.Alike kin value') : value'.text = value.text := by
  cases alike with
  | callable callable =>
      cases callable with
      | native builtin => rfl
      | function closure => simp only [Value.text, kin.name closure]
      | constructor cls => exact cls.own.name
  | object inst => simp only [Value.text, ClassObject.name, inst.cls.own.name]
  | nil | bool | number | string => rfl

theorem equals (alike : value.Alike kin value') (alike' : other.Alike kin other') :
    value'.equals other' = value.equals other := by
  cases alike with
  | callable callable =>
      cases alike' with
      | callable callable' =>
          cases callable with
          | native builtin => cases callable' <;> rfl
          | function closure =>
              cases callable' with
              | function closure' => exact kin.same closure closure'
              | native | constructor => rfl
          | constructor cls =>
              cases callable' with
              | constructor cls' => simp only [Value.equals, cls.own.id, cls'.own.id]
              | native | function => rfl
      | nil | bool | number | string | object => cases callable <;> rfl
  | object inst =>
      cases alike' with
      | object inst' => simp only [Value.equals, inst.index, inst'.index]
      | callable callable => cases callable <;> rfl
      | nil | bool | number | string => rfl
  | nil | bool | number | string => cases alike' <;> rfl

theorem heirs {parent parent' receiver receiver' : Option Value} :
    Option.Rel (Value.Alike kin) parent parent' → Option.Rel (Value.Alike kin) receiver receiver' →
    Option.Rel (fun heir heir' : ClassObject × Instance =>
        heir.1.Alike kin heir'.1 ∧ heir.2.Alike kin heir'.2)
      (match parent, receiver with
        | some (.callable (.constructor superclass)), some (.object inst) => some (superclass, inst)
        | _, _ => none)
      (match parent', receiver' with
        | some (.callable (.constructor superclass)), some (.object inst) => some (superclass, inst)
        | _, _ => none) := by
  intro outer inner
  rcases relCases outer with ⟨rfl, rfl⟩ | ⟨value, value', rfl, rfl, alike⟩
  · exact .none
  · rcases relCases inner with ⟨rfl, rfl⟩ | ⟨other, other', rfl, rfl, alike'⟩
    · rcases alike with _ | _ | _ | _ | (_ | _ | _) | _ <;> exact .none
    · rcases alike with _ | _ | _ | _ | (_ | _ | superclass) | _
      case callable.constructor =>
        cases alike' with
        | object inst => exact .some ⟨superclass, inst⟩
        | _ => exact .none
      all_goals exact .none

end Value.Alike

namespace Operator

variable {value value' other other' : Value}

theorem unary_alike (kind : TokenKind) (alike : value.Alike kin value') :
    unary kind value' = unary kind value := by
  cases alike with
  | callable | object => cases kind <;> rfl
  | nil | bool | number | string => rfl

theorem binary_alike (kind : TokenKind) (alike : value.Alike kin value')
    (alike' : other.Alike kin other') : binary kind value' other' = binary kind value other := by
  have sum : add value' other' = add value other := by cases alike <;> cases alike' <;> rfl
  have numbers (function : Number → Number → Except RuntimeFault Value) :
      onNumbers value' other' function = onNumbers value other function := by
    cases alike <;> cases alike' <;> rfl
  unfold binary
  simp only [numbers, sum, alike.equals alike']

theorem shortCircuits_alike (kind : TokenKind) (alike : value.Alike kin value') :
    shortCircuits kind value' = shortCircuits kind value := by
  simp only [shortCircuits, alike.isTruthy]

end Operator

theorem Native.firstType_alike {arguments arguments' : List Value}
    (alike : List.Forall₂ (Value.Alike kin) arguments arguments') :
    firstType arguments' = firstType arguments := by
  cases alike with
  | nil => rfl
  | cons first _ => exact first.typeName

theorem ClassObject.Alike.made {machine machine' : Machine}
    (next : machine'.nextClass = machine.nextClass) (name : String)
    {superclass superclass' : Option ClassObject}
    (classes : Option.Rel (ClassObject.Alike kin) superclass superclass') {env env' : Env}
    {R : FunctionDecl → FunctionDecl → Prop} {methods methods' : List FunctionDecl}
    (decls : List.Forall₂ R methods methods')
    (names : ∀ decl decl', R decl decl' → decl'.name.lexeme = decl.name.lexeme)
    (related : ∀ decl decl' isInitializer, R decl decl' →
      kin.Methods ⟨decl, env, isInitializer⟩ ⟨decl', env', isInitializer⟩) :
    ClassObject.Alike kin ((Deed.makeClass name superclass env methods).answer machine)
      ((Deed.makeClass name superclass' env' methods').answer machine') := by
  refine .cons ⟨next, rfl, .fill names (fun decl decl' declared => ?_) decls .empty⟩ ?_
  · rw [names decl decl' declared]
    exact related decl decl' _ declared
  · cases classes with
    | none => exact .nil
    | some parents => exact parents

end Alike

/-! Stores. -/

/-- In scopes that are linked the same names are bound, to related values. -/
structure Scopes.Alike (Link : ScopeRef → ScopeRef → Prop) (R : Value → Value → Prop)
    (scopes scopes' : Scopes) : Prop where
  inj : ∀ {ref ref' other other'}, Link ref ref' → Link other other' →
    (ref' = other' ↔ ref = other)
  inStore : ∀ {ref ref'}, Link ref ref' →
    (ref'.index < scopes'.tables.size ↔ ref.index < scopes.tables.size)
  bound : ∀ {ref ref'}, Link ref ref' → ∀ name, Option.Rel R (scopes.lookUp? ref name)
    (scopes'.lookUp? ref' name)

namespace Scopes.Alike

variable {Link : ScopeRef → ScopeRef → Prop} {R : Value → Value → Prop} {scopes scopes' : Scopes}
  {env env' : Env} (alike : scopes.Alike Link R scopes')

include alike

theorem isSome_lookUp? {ref ref' : ScopeRef} (link : Link ref ref') (name : String) :
    (scopes'.lookUp? ref' name).isSome = (scopes.lookUp? ref name).isSome := by
  rcases relCases (alike.bound link name) with ⟨none, none'⟩ | ⟨_, _, found, found', -⟩
  · rw [none, none']
  · rw [found, found']
    rfl

theorem find? (links : List.Forall₂ Link env env') (name : String) :
    Option.Rel R (scopes.find? env name) (scopes'.find? env' name) := by
  unfold Scopes.find?
  induction links with
  | nil => exact .none
  | cons link _ ih =>
      rw [List.findSome?_cons, List.findSome?_cons]
      rcases relCases (alike.bound link name) with
        ⟨none, none'⟩ | ⟨value, value', found, found', related⟩
      · rw [none, none']
        exact ih
      · rw [found, found']
        exact .some related

theorem getAt? {depth depth' : Nat}
    (heads : Option.Rel Link (env.drop depth).head? (env'.drop depth').head?) (name : String) :
    Option.Rel R (scopes.getAt? env depth name) (scopes'.getAt? env' depth' name) := by
  unfold Scopes.getAt?
  generalize env.drop depth = chain at heads
  generalize env'.drop depth' = chain' at heads
  cases chain <;> cases chain' <;> cases heads
  · exact .none
  · rename_i link
    exact alike.bound link name

theorem holder? (links : List.Forall₂ Link env env') (name : String) :
    Option.Rel (fun holder holder' => Option.Rel Link holder.head? holder'.head?)
      (scopes.holder? env name) (scopes'.holder? env' name) := by
  induction links with
  | nil => exact .none
  | cons link _ ih =>
      rw [Scopes.holder?, Scopes.holder?, alike.isSome_lookUp? link]
      split
      · exact .some (.some link)
      · exact ih

theorem holderAt? {depth depth' : Nat}
    (heads : Option.Rel Link (env.drop depth).head? (env'.drop depth').head?) (name : String) :
    Option.Rel (fun holder holder' => Option.Rel Link holder.head? holder'.head?)
      (scopes.holderAt? env depth name) (scopes'.holderAt? env' depth' name) := by
  unfold Scopes.holderAt?
  generalize env.drop depth = chain at heads
  generalize env'.drop depth' = chain' at heads
  cases chain <;> cases chain' <;> cases heads
  · exact .none
  · rename_i link
    simp only [alike.isSome_lookUp? link]
    split
    · exact .some (.some link)
    · exact .none

theorem define (heads : Option.Rel Link env.head? env'.head?) (name : String) {value value' : Value}
    (related : R value value') :
    (scopes.define env name value).Alike Link R (scopes'.define env' name value') := by
  refine ⟨alike.inj, fun link => ?_, fun {ref ref'} link used => ?_⟩
  · rw [Scopes.size_define, Scopes.size_define]
    exact alike.inStore link
  · have indices (left right : ScopeRef) : left.index = right.index ↔ left = right := by
      cases left
      cases right
      simp
    cases env <;> cases env' <;> cases heads
    · exact alike.bound link used
    · rename_i same
      simp only [Scopes.lookUp?_define, indices, alike.inj same link, alike.inStore link]
      split
      · exact .some related
      · exact alike.bound link used

end Scopes.Alike

structure FieldsMatch (R : Value → Value → Prop) (fields fields' : Array Bindings) : Prop where
  size : fields'.size = fields.size
  stored : ∀ (index : Nat) (name : String), Option.Rel R (fields[index]?.bind fun table => table[name]?)
    (fields'[index]?.bind fun table => table[name]?)

namespace FieldsMatch

variable {R : Value → Value → Prop} {fields fields' : Array Bindings}

theorem push (related : FieldsMatch R fields fields') :
    FieldsMatch R (fields.push {}) (fields'.push {}) := by
  refine ⟨by simp only [Array.size_push, related.size], fun index name => ?_⟩
  simp only [Array.getElem?_push, related.size]
  split
  · exact TablesMatch.empty name
  · exact related.stored index name

theorem modify (related : FieldsMatch R fields fields') (index : Nat) (name : String)
    {value value' : Value} (new : R value value') :
    FieldsMatch R (fields.modify index (·.insert name value))
      (fields'.modify index (·.insert name value')) := by
  refine ⟨by simp only [Array.size_modify, related.size], fun other used => ?_⟩
  simp only [Array.getElem?_modify]
  have before := related.stored other used
  split
  · by_cases inStore : other < fields.size
    · have inStore' : other < fields'.size := by rwa [related.size]
      rw [Array.getElem?_eq_getElem inStore, Array.getElem?_eq_getElem inStore'] at before ⊢
      simp only [Option.map_some, Option.bind_some, Std.TreeMap.getElem?_insert] at before ⊢
      split
      · exact .some new
      · exact before
    · have outside' : ¬ other < fields'.size := by rwa [related.size]
      rw [Array.getElem?_eq_none (by omega), Array.getElem?_eq_none (by omega)]
      exact .none
  · exact before

end FieldsMatch

end Lox
