import Lox.Proofs.Scoping.World

/-!
What single deeds do in a world. The store of scopes only grows, and everything in it stays sound if
what is put there is sound. A chain of scopes that stands for a point of the walk goes on doing so
when a name is declared where it is bound and when a scope is opened for a region.
-/

namespace Lox

structure Onward (before after : Machine) : Prop where
  kept : Kept before after
  grows : Grows before.scopes after.scopes

namespace World

variable {world : World} {machine : Machine}

theorem Holds.congr {other : Machine} (holds : world.Holds machine)
    (globals : other.globals = machine.globals) (depths : other.depths = machine.depths)
    (scopes : other.scopes = machine.scopes) (fields : other.fields = machine.fields) :
    world.Holds other :=
  holds.mono ⟨fun _ _ moment => moment, fun _ visited => visited, rfl⟩ globals
    (depths.trans holds.depths) scopes fields

/-- A value that is stored needs to be sound only once it is: a function may refer to itself. -/
theorem Holds.change {deed : Deed} (holds : world.Holds machine)
    (puts : deed.Puts (world.ValueSound (deed.change machine).scopes)) :
    world.Holds (deed.change machine) := by
  have kept := deed.kept machine
  have grows := deed.grows machine
  have stores : machine.StoresOnly (fun _ => True) (fun _ => True)
      (world.ValueSound (deed.change machine).scopes) :=
    ⟨fun ref name value _ bound => (holds.bound ref name value bound).grow grows,
      fun inst name value _ found => (holds.fields inst name value found).grow grows⟩
  obtain ⟨bound, fields⟩ := stores.change puts
  exact ⟨kept.globals.trans holds.globals, kept.depths.trans holds.depths,
    fun ref name value => bound ref name value trivial,
    fun inst name value => fields inst name value trivial⟩

theorem sound_getAt? (holds : world.Holds machine) {env : Env} {depth : Nat} {name : String}
    {value : Value} (found : machine.scopes.getAt? env depth name = some value) :
    world.ValueSound machine.scopes value := by
  unfold Scopes.getAt? at found
  split at found
  · cases found
  · exact holds.bound _ name value found

theorem sound_valueOf? (holds : world.Holds machine) {id : ExprId} {name : String} {value : Value}
    (found : machine.valueOf? id name = some value) : world.ValueSound machine.scopes value := by
  unfold Machine.valueOf? at found
  split at found
  · exact sound_getAt? holds found
  · obtain ⟨ref, _, bound⟩ := List.exists_of_findSome?_eq_some found
    exact holds.bound ref name value bound

theorem sound_of_plain {store : Scopes} {value : Value} (plain : value.Plain) :
    world.ValueSound store value := by
  unfold ValueSound
  split <;> first | exact plain.elim | trivial

def Bound (store : Scopes) (env : Env) (name : String) : Prop :=
  ∀ ref ∈ env.head?, ref.index < store.tables.size → (store.lookUp? ref name).isSome

theorem bound_define (store : Scopes) (env : Env) (name : String) (value : Value) :
    Bound (store.define env name value) env name := by
  intro ref first inStore
  cases env with
  | nil => cases first
  | cons innermost outer =>
      cases first
      rw [Scopes.size_define] at inStore
      rw [Scopes.lookUp?_define, if_pos ⟨rfl, rfl, inStore⟩]
      rfl

section Scopes

variable {store : Scopes} {env : Env} {regions : List Region} {scopes : List Scope}

theorem Stands.declare (stands : world.Stands store env regions scopes) {name : Token}
    (bound : Bound store env name.lexeme) :
    world.Stands store env regions (Resolution.declare scopes name).2 := by
  cases stands with
  | globals => exact .globals
  | inner activated inStore binds outer =>
      simp only [Resolution.declare]
      split
      · exact .inner activated inStore binds outer
      · refine .inner activated inStore ?_ outer
        rw [List.forall_mem_cons]
        exact ⟨bound _ rfl inStore, binds⟩

theorem Stands.pending (stands : world.Stands store env regions scopes) (name : Token) :
    world.Stands store env regions
      (boundScopes (Resolution.pendingName scopes name) (Resolution.declare scopes name).2) := by
  cases stands with
  | globals => exact .globals
  | inner activated inStore binds outer =>
      simp only [Resolution.declare, Resolution.pendingName]
      split
      · rw [boundScopes_none]
        exact .inner activated inStore binds outer
      · refine .inner activated inStore ?_ outer
        intro used member
        simp only [List.mem_filter, List.mem_cons] at member
        rcases member with ⟨rfl | member, different⟩
        · simp at different
        · exact binds used member

theorem Stands.enter (stands : world.Stands store env regions scopes) {region : Region}
    {bindings : Bindings} {names : Scope} (activated : world.Activates ⟨store.tables.size⟩ region)
    (bound : ∀ name ∈ names, (bindings[name]?).isSome) :
    world.Stands (store.enter env bindings).2 (store.enter env bindings).1 (region :: regions)
      (names :: scopes) := by
  refine .inner activated ?_ ?_ (stands.grow (store.grows_enter env bindings))
  · simp [Scopes.enter]
  · intro name member
    rw [Scopes.lookUp?_enter, if_pos rfl]
    exact bound name member

end Scopes

theorem AdmitsMethods.sound {site : Site} {methods : List FunctionDecl} {store : Scopes} {env : Env}
    (admitted : world.AdmitsMethods (site.enter (.this methods) ["this"]) methods)
    (stands : world.Stands store env site.regions site.scopes) :
    ∀ decl ∈ methods, ∀ isInitializer, world.MethodSound store ⟨decl, env, isInitializer⟩ :=
  fun decl member _ =>
    ⟨site.inFunction (.ofMethod decl.name), methods, stands, member, admitted.method decl member⟩

end World

end Lox
