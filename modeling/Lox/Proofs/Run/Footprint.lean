import Mathlib
import Lox.Proofs.Run.Territory

/-!
The footprint of a call. A call can come to what its callee, its arguments and the globals lead to.
It changes nothing else that existed before it, and it reads nothing else either: with other
contents there it ends in the same way, and leaves those contents as they are.
-/

namespace Lox

def Machine.callRoots (machine : Machine) (function : Value) (arguments : List Value) : List Item :=
  .value function :: .env machine.globals :: arguments.map .value

variable {machine : Machine} {fuel : Nat} {function : Value} {paren : Token}
  {arguments : List Value} {veil : Veil}

theorem leads_call (hides : veil.Hides machine (machine.callRoots function arguments)) :
    let realm := territory machine (machine.callRoots function arguments) (fun _ => True)
      (fun _ _ => trivial) hides
    realm.Leads (call fuel function paren arguments) machine fun value store =>
      realm.Value store value := by
  have root {item : Item} (member : item ∈ machine.callRoots function arguments) :
      machine.Accessible (machine.callRoots function arguments) item := .root member
  refine Realm.confines _ (.call fuel function paren arguments) machine trivial ⟨?_, ?_⟩ ?_
  · exact value_territory (fun _ _ _ _ => trivial) (root (by simp [Machine.callRoots])) _
  · intro value member
    exact value_territory (fun _ _ _ _ => trivial) (root (by simp [Machine.callRoots, member])) _
  · exact within_territory (fun _ _ _ _ => trivial) (by simp [Machine.callRoots])

namespace Veil

variable {hidden : Nat → Prop} {tables : Array Bindings}

open Classical in
noncomputable def keeping (hidden : Nat → Prop) (tables : Array Bindings) (index : Nat) :
    Option Bindings :=
  if hidden index then tables[index]? else .none

theorem of_isSome_keeping {index : Nat} (covered : (keeping hidden tables index).isSome) :
    index < tables.size ∧ hidden index := by
  unfold keeping at covered
  split at covered
  · rename_i isHidden
    exact ⟨by simpa using covered, isHidden⟩
  · cases covered

theorem cover_keeping : cover (keeping hidden tables) tables = tables := by
  apply Array.ext_getElem?
  intro index
  rw [getElem?_cover, keeping]
  split
  · cases found : tables[index]? <;> simp
  · simp

theorem getElem?_cover_keeping {after : Array Bindings} {index : Nat} (isHidden : hidden index)
    (inStore : index < tables.size) (grown : tables.size ≤ after.size) :
    (cover (keeping hidden tables) after)[index]? = tables[index]? := by
  rw [getElem?_cover, keeping, if_pos isHidden, Array.getElem?_eq_getElem (inStore.trans_le grown),
    Array.getElem?_eq_getElem inStore]
  rfl

end Veil

/-- Calls have a footprint. Of what existed before a call and cannot be come to from the callee, the
arguments or the globals, the call leaves the bindings of every scope and the fields of every
instance as they were; and with other contents there, it ends in the same way and leaves those
contents. -/
theorem calls_have_footprint (fuel : Nat) (machine : Machine) (function : Value) (paren : Token)
    (arguments : List Value) :
    (∀ ref : ScopeRef, ref.index < machine.scopes.tables.size →
      ¬ machine.AccessibleScope (machine.callRoots function arguments) ref →
      ((call fuel function paren arguments).final machine).scopes.tables[ref.index]? =
        machine.scopes.tables[ref.index]?) ∧
    (∀ index < machine.fields.size,
      ¬ machine.AccessibleObject (machine.callRoots function arguments) index →
      ((call fuel function paren arguments).final machine).fields[index]? =
        machine.fields[index]?) ∧
    ∀ veil : Veil, veil.Hides machine (machine.callRoots function arguments) →
      call fuel function paren arguments (machine.veiled veil) =
        veil.over (call fuel function paren arguments machine) := by
  -- under a veil that shows what is there anyway, the end of the call is the end under that veil
  let roots := machine.callRoots function arguments
  let lostScope (index : Nat) : Prop := ¬ machine.AccessibleScope roots ⟨index⟩
  let lostObject (index : Nat) : Prop := ¬ machine.AccessibleObject roots index
  let veil : Veil :=
    ⟨Veil.keeping lostScope machine.scopes.tables, Veil.keeping lostObject machine.fields⟩
  have hides : veil.Hides machine roots :=
    ⟨fun _ => @Veil.of_isSome_keeping lostScope _ _,
      fun _ => @Veil.of_isSome_keeping lostObject _ _⟩
  have leads : Realm.Leads _ (call fuel function paren arguments) machine _ := leads_call hides
  have final : (call fuel function paren arguments).final machine =
      ((call fuel function paren arguments).final machine).veiled veil := by
    have same : machine.veiled veil = machine := by
      simp only [Machine.veiled, veil, Veil.cover_keeping]
    exact (congrArg _ same.symm).trans leads.final_veiled
  have within := leads.extends_final.within
  refine ⟨fun ref old inaccessible => ?_, fun index old inaccessible => ?_,
    fun veil hides => (leads_call hides).blind⟩
  · rw [final]
    exact Veil.getElem?_cover_keeping inaccessible old within.scopes
  · rw [final]
    exact Veil.getElem?_cover_keeping inaccessible old within.objects

/-- A function that sets the global `x` is called where a local is called `x` too. The local keeps
its value, and the call would be the same if the scope of the local were empty. -/
theorem calls_have_footprint_beside_local :
    let name : Token := ⟨.identifier, "x", none, 1⟩
    let paren : Token := ⟨.rightParen, ")", none, 1⟩
    let setter : Closure :=
      ⟨⟨0, name, [], [.expression (.assign 0 name (.literal .nil))]⟩, [⟨0⟩], false⟩
    let table := ({} : Bindings).insert "x" (.bool true)
    let machine : Machine :=
      { scopes := ⟨#[table, table]⟩, fields := #[], nextClass := 0, globals := [⟨0⟩],
        env := [⟨1⟩, ⟨0⟩], depths := {}, callDepth := 0, maxCallDepth := 1, host := {} }
    let veil : Veil := ⟨fun index => if index = 1 then some {} else none, fun _ => none⟩
    let roots := machine.callRoots (.function setter) []
    let set := call 7 (.function setter) paren []
    ¬ machine.AccessibleScope roots ⟨1⟩ ∧ veil.Hides machine roots ∧
      (set.final machine).scopes.lookUp? ⟨0⟩ "x" = some .nil ∧
      (set.final machine).scopes.tables[1]? = some table ∧
      set (machine.veiled veil) = veil.over (set machine) := by
  intro name paren setter table machine veil roots set
  have outside : ¬ machine.AccessibleScope roots ⟨1⟩ := by
    -- all that is come to are the setter, its scope and the value in it
    let known : Item → Prop
      | .env env => env = [⟨0⟩] ∨ env = []
      | .value value => value = .function setter ∨ value = .bool true
      | .closure closure => closure = setter
    have all (item : Item) (accessible : machine.Accessible roots item) : known item := by
      induction accessible with
      | root member =>
          rcases List.mem_cons.mp member with rfl | member
          · exact .inl rfl
          · rcases List.mem_cons.mp member with rfl | member
            · exact .inl rfl
            · cases member
      | enclosing _ ih =>
          rcases ih with same | same
          · cases same
            exact .inr rfl
          · cases same
      | @bound _ _ used _ _ found ih =>
          rcases ih with same | same
          · cases same
            by_cases isName : "x" = used
            · subst isName
              exact .inr (by simpa [machine, table, Scopes.lookUp?] using found.symm)
            · simp [machine, table, Scopes.lookUp?, isName] at found
          · cases same
      | function _ ih =>
          rcases ih with same | same
          · cases same
            rfl
          · cases same
      | captured _ ih => exact .inl (congrArg Closure.env ih)
      | method _ _ _ ih | instanceClass _ ih | field _ _ ih =>
          rcases ih with same | same <;> cases same
    rintro ⟨outer, accessible⟩
    rcases all _ accessible with same | same <;> cases same
  have hides : veil.Hides machine roots := by
    constructor
    · intro index covered
      obtain rfl : index = 1 := by
        by_contra different
        simp [veil, different] at covered
      exact ⟨by decide, outside⟩
    · intro index covered
      cases covered
  obtain ⟨frame, -, blind⟩ := calls_have_footprint 7 machine (.function setter) paren []
  have changed : (set.final machine).scopes.lookUp? ⟨0⟩ "x" = some .nil := by
    simp only [set, machine, setter, table, name, paren]
    cbv
  exact ⟨outside, hides, changed, frame ⟨1⟩ (by decide) outside, blind veil hides⟩

end Lox
