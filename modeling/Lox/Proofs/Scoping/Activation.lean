import Lox.Proofs.Run.Timeline
import Lox.Proofs.Scoping.Lineage

/-!
The method in which code runs. If the resolver has found `this` to be allowed, the lineage of the
scopes leads to an innermost call of a method, and the scope around its body holds the instance to
which it was bound. If `super` is allowed too, the next scope was opened when the class of the
method was declared, and holds the superclass.
-/

namespace Lox

/-- A method at work: the method as its class has it, the instance to which it was bound, and the
states of the machine in which it was bound and called. -/
structure Activation where
  method : Closure
  receiver : Instance
  binding : Machine
  calling : Machine

namespace Activation

def closure (activation : Activation) : Closure :=
  { activation.method with
    env := ⟨activation.binding.scopes.tables.size⟩ :: activation.method.env }

def env (activation : Activation) : Env :=
  ⟨activation.calling.scopes.tables.size⟩ :: activation.closure.env

structure Occurs (activation : Activation) (moments : Task → Machine → Prop) : Prop where
  bound : moments (.bindMethod activation.method activation.receiver) activation.binding
  called : ∃ fuel arguments,
    moments (.invokeFunction (fuel + 1) activation.closure arguments) activation.calling

/-- Code with these scopes and regions stands in the body of the method, at any depth of blocks and
functions there, but in no class that is nested in it. -/
inductive Encloses (activation : Activation) : Env → List Region → Prop
  | body {env decl methods outer} : env = activation.env → decl = activation.method.decl →
      decl ∈ methods → Encloses activation env (.function decl :: .this methods :: outer)
  | inside {ref env region regions} : region.isThis = false → region.isSuper = false →
      Encloses activation env regions → Encloses activation (ref :: env) (region :: regions)

variable {activation other : Activation} {env : Env} {regions : List Region}

theorem Encloses.unique (encloses : activation.Encloses env regions)
    (encloses' : other.Encloses env regions) : activation.env = other.env := by
  -- the body is directly inside the innermost region of `this`
  induction encloses with
  | body same _ _ =>
      cases encloses' with
      | body same' => exact same.symm.trans same'
      | inside _ _ rest =>
          cases rest with
          | inside notThis => cases notThis
  | inside notThis _ rest ih =>
      cases encloses' with
      | inside _ _ rest' => exact ih rest'
      | body =>
          cases rest with
          | inside notThis => cases notThis

theorem Encloses.depth (encloses : activation.Encloses env regions) :
    ∃ depth, regions.findIdx? Region.isThis = some depth ∧
      env.drop depth = activation.closure.env := by
  induction encloses with
  | body same _ _ =>
      subst same
      exact ⟨1, rfl, rfl⟩
  | inside notThis _ _ ih =>
      obtain ⟨depth, found, dropped⟩ := ih
      refine ⟨depth + 1, ?_, dropped⟩
      rw [List.findIdx?_cons, notThis, found]
      rfl

end Activation

structure Subclassing where
  name : Token
  parent : ClassObject
  methods : List FunctionDecl
  machine : Machine

namespace Subclassing

def Creates (subclassing : Subclassing) (cls : ClassObject) : Prop :=
  ∃ (after : Machine) (store : Scopes),
    Run.declareClass subclassing.name (some subclassing.parent) subclassing.methods
      subclassing.machine = .ok () after ∧
    after.scopes = store.define subclassing.machine.env subclassing.name.lexeme (.ofClass cls)

theorem creates (subclassing : Subclassing) :
    ∃ cls, subclassing.Creates cls ∧ cls.ancestors = subclassing.parent.chain :=
  ⟨Run.subclass subclassing.name subclassing.parent subclassing.methods subclassing.machine,
    ⟨_, _, Run.declareClass_inherited .., rfl⟩, rfl⟩

structure Makes (subclassing : Subclassing) (moments : Task → Machine → Prop) (method : Closure) :
    Prop where
  occurs : moments (.declareClass subclassing.name (some subclassing.parent) subclassing.methods)
    subclassing.machine
  listed : method.decl ∈ subclassing.methods
  env : method.env = ⟨subclassing.machine.scopes.tables.size⟩ :: subclassing.machine.env

end Subclassing

namespace World

variable {world : World} {store : Scopes} {env : Env} {regions : List Region}

structure FindsMethod (world : World) (store : Scopes) (env : Env) (regions : List Region)
    (activation : Activation) (methods : List FunctionDecl) (outer : List Region) : Prop where
  occurs : activation.Occurs world.moments
  encloses : activation.Encloses env regions
  enclosingClass : classAt regions = classAt (.this methods :: outer)
  super : ∀ depth, regions.findIdx? Region.isThis = some depth →
    regions.findIdx? Region.isSuper = (outer.findIdx? Region.isSuper).map (· + (depth + 1))
  method : world.MethodLineage store activation.method methods outer
  receiver : store.lookUp? ⟨activation.binding.scopes.tables.size⟩ "this" =
    some (.object activation.receiver)

theorem MethodLineage.member {method : Closure} {methods : List FunctionDecl} {outer : List Region}
    (lineage : world.MethodLineage store method methods outer) : method.decl ∈ methods := by
  cases lineage with
  | plain _ member => exact member
  | inherited _ member => exact member

theorem FindsMethod.inside {activation : Activation} {methods : List FunctionDecl}
    {outer : List Region} (finds : world.FindsMethod store env regions activation methods outer)
    {region : Region} (ref : ScopeRef) (notThis : region.isThis = false)
    (notSuper : region.isSuper = false) (same : classAt (region :: regions) = classAt regions) :
    world.FindsMethod store (ref :: env) (region :: regions) activation methods outer where
  occurs := finds.occurs
  encloses := .inside notThis notSuper finds.encloses
  enclosingClass := same.trans finds.enclosingClass
  super := by
    intro depth found
    simp only [List.findIdx?_cons, notThis, Bool.false_eq_true, if_false] at found
    obtain ⟨rest, found', rfl⟩ := Option.map_eq_some_iff.mp found
    simp only [List.findIdx?_cons, notSuper, Bool.false_eq_true, if_false, finds.super rest found']
    simp [Function.comp_def, Nat.add_assoc]
  method := finds.method
  receiver := finds.receiver

theorem FindsMethod.body {activation : Activation} {methods : List FunctionDecl}
    {outer : List Region} (occurs : activation.Occurs world.moments)
    (method : world.MethodLineage store activation.method methods outer)
    (receiver : store.lookUp? ⟨activation.binding.scopes.tables.size⟩ "this" =
      some (.object activation.receiver)) :
    world.FindsMethod store activation.env
      (.function activation.method.decl :: .this methods :: outer) activation methods outer where
  occurs := occurs
  encloses := .body rfl rfl method.member
  enclosingClass := rfl
  super := by
    intro depth found
    cases found
    simp [List.findIdx?_cons, Region.isSuper, Function.comp_def]
  method := method
  receiver := receiver

mutual
theorem Lineage.findsMethod {env : Env} {regions : List Region}
    (lineage : world.Lineage store env regions) (inMethod : classAt regions ≠ .outside) :
    ∃ activation methods outer,
      world.FindsMethod store env regions activation methods outer := by
  match lineage with
  | .globals => exact absurd rfl inMethod
  | .block _ outer =>
      obtain ⟨activation, methods, around, finds⟩ := outer.findsMethod inMethod
      exact ⟨activation, methods, around, finds.inside _ rfl rfl rfl⟩
  | .call moment function => exact function.findsMethod moment inMethod

theorem FunctionLineage.findsMethod {closure : Closure} {regions : List Region}
    (lineage : world.FunctionLineage store closure regions) {fuel : Nat} {arguments : List Value}
    {machine : Machine}
    (moment : world.moments (.invokeFunction (fuel + 1) closure arguments) machine)
    (inMethod : classAt regions ≠ .outside) :
    ∃ activation methods outer, world.FindsMethod store
      (⟨machine.scopes.tables.size⟩ :: closure.env) (.function closure.decl :: regions)
      activation methods outer := by
  match lineage with
  | .declared _ outer =>
      obtain ⟨activation, methods, around, finds⟩ := outer.findsMethod inMethod
      exact ⟨activation, methods, around, finds.inside _ rfl rfl rfl⟩
  | @FunctionLineage.bound _ _ method inst binding methods outer bound lineage receiver =>
      let activation : Activation := ⟨method, inst, binding, machine⟩
      have occurs : activation.Occurs world.moments := ⟨bound, fuel, arguments, moment⟩
      exact ⟨activation, methods, outer, FindsMethod.body occurs lineage receiver⟩
end

theorem MethodLineage.makes {method : Closure} {methods : List FunctionDecl} {outer : List Region}
    (lineage : world.MethodLineage store method methods outer)
    (subclass : classAt (.this methods :: outer) = .subclass) :
    outer.findIdx? Region.isSuper = some 0 ∧
      ∃ subclassing : Subclassing, subclassing.Makes world.moments method ∧
        store.getAt? method.env 0 "super" = some (.ofClass subclassing.parent) := by
  cases lineage with
  | plain _ _ around =>
      -- no scope of `super` is around a class without a superclass
      have notSuper := around.not_super
      exfalso
      cases outer with
      | nil => cases subclass
      | cons region outer => cases region <;> simp_all [classAt, Region.isSuper]
  | @inherited name parent _ machine decl _ regions moment member _ bound =>
      exact ⟨rfl, ⟨name, parent, methods, machine⟩, ⟨moment, member, rfl⟩, bound⟩

namespace FindsMethod

variable {activation : Activation} {methods : List FunctionDecl} {outer : List Region}

theorem this_at (finds : world.FindsMethod store env regions activation methods outer) :
    ∃ depth, regions.findIdx? Region.isThis = some depth ∧
      env.drop (depth + 1) = activation.method.env ∧
      store.getAt? env depth "this" = some (.object activation.receiver) := by
  obtain ⟨depth, found, dropped⟩ := finds.encloses.depth
  refine ⟨depth, found, ?_, ?_⟩
  · rw [← List.tail_drop, dropped]
    rfl
  · rw [Scopes.getAt?, dropped]
    exact finds.receiver

theorem super_at (finds : world.FindsMethod store env regions activation methods outer)
    (subclass : classAt regions = .subclass) :
    ∃ (depth : Nat) (subclassing : Subclassing),
      regions.findIdx? Region.isSuper = some (depth + 1) ∧
      store.getAt? env depth "this" = some (.object activation.receiver) ∧
      subclassing.Makes world.moments activation.method ∧
      store.getAt? env (depth + 1) "super" = some (.ofClass subclassing.parent) := by
  obtain ⟨depth, found, dropped, receiver⟩ := finds.this_at
  obtain ⟨directly, subclassing, makes, parent⟩ :=
    finds.method.makes (finds.enclosingClass.symm.trans subclass)
  refine ⟨depth, subclassing, ?_, receiver, makes, ?_⟩
  · rw [finds.super depth found, directly, Option.map_some, Nat.zero_add]
  · rw [Scopes.getAt?, dropped]
    exact parent

end FindsMethod

section Keywords

variable {id : ExprId} {keyword : Token}

/-- Where `this` is evaluated, it was visited in the body of a method, and the depth of the visit
leads to the scope of the receiver. -/
theorem TracedExpr.this (traced : world.TracedExpr store env (.this id keyword)) :
    ∃ (visit : Visit) (activation : Activation) (depth : Nat), world.visits visit ∧
      visit.use = ⟨.this, id, keyword⟩ ∧ visit.depth? = some depth ∧
      activation.Occurs world.moments ∧ activation.Encloses env visit.regions ∧
      store.getAt? env depth keyword.lexeme = some (.object activation.receiver) := by
  obtain ⟨site, enclosingClass, pending, lineage, regular, around, admitted, spelled⟩ := traced
  obtain same | ⟨_, _, other⟩ := around
  · have lexeme : keyword.lexeme = "this" := spelled.here.keyword keyword "this" rfl
    have inMethod : classAt site.regions ≠ .outside := by
      rw [← regular.enclosingClass, ← same]
      rintro rfl
      have clean := admitted.clean
      simp [Expr.resolve, Resolution.error] at clean
    obtain ⟨activation, methods, outer, finds⟩ := lineage.findsMethod inMethod
    obtain ⟨depth, found, -, receiver⟩ := finds.this_at
    refine ⟨⟨⟨.this, id, keyword⟩, site.regions, site.scopes⟩, activation, depth,
      admitted.visited _ List.mem_cons_self, rfl, ?_, finds.occurs, finds.encloses, ?_⟩
    · rw [← found, ← findIdx?_this regular.scopes, ← lexeme]
      rfl
    · rw [lexeme, receiver]
  · cases other

/-- Where `super` is evaluated, the method was made by the statement of a subclass, and its
superclass lies one scope out from the receiver. -/
theorem TracedExpr.super {name : Token}
    (traced : world.TracedExpr store env (.super id keyword name)) :
    ∃ (visit : Visit) (activation : Activation) (subclassing : Subclassing) (depth : Nat),
      world.visits visit ∧ visit.use = ⟨.super, id, keyword⟩ ∧ visit.depth? = some (depth + 1) ∧
      activation.Occurs world.moments ∧ activation.Encloses env visit.regions ∧
      subclassing.Makes world.moments activation.method ∧
      store.getAt? env depth "this" = some (.object activation.receiver) ∧
      store.getAt? env (depth + 1) "super" = some (.ofClass subclassing.parent) := by
  obtain ⟨site, enclosingClass, pending, lineage, regular, around, admitted, spelled⟩ := traced
  obtain same | ⟨_, _, other⟩ := around
  · have lexeme : keyword.lexeme = "super" := spelled.here.keyword keyword "super" rfl
    have subclass : classAt site.regions = .subclass := by
      rw [← regular.enclosingClass, ← same]
      have clean := admitted.clean
      cases enclosingClass <;> simp [Expr.resolve, Resolution.error] at clean ⊢
    obtain ⟨activation, methods, outer, finds⟩ := lineage.findsMethod (by simp [subclass])
    obtain ⟨depth, subclassing, found, receiver, makes, parent⟩ := finds.super_at subclass
    refine ⟨⟨⟨.super, id, keyword⟩, site.regions, site.scopes⟩, activation, subclassing, depth,
      admitted.visited _ List.mem_cons_self, rfl, ?_, finds.occurs, finds.encloses, makes, receiver,
      parent⟩
    rw [← found, ← findIdx?_super regular.scopes, ← lexeme]
    rfl
  · cases other

end Keywords

end World

end Lox
