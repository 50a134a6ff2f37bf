import Mathlib.Order.Bounds.Basic
import Lox.Proofs.Run.Law

/-!
Forests of scopes. Scopes are opened one inside another and shared by the chains that pass through them.
Looking for a name along a chain comes to the nearest scope that binds it, so it reads and writes what is
read and written at the depth of that scope. A write is seen along every chain that shares the scope, and
nothing else is changed. The chain of a scope stays as it was when the scope was opened.
-/

namespace Lox

namespace Scopes

variable {scopes changed : Scopes} {env : Env} {name : String} {value : Value} {depth : Nat}

def scopeAt? (env : Env) (distance : Nat) : Option ScopeRef := (ancestor? env distance).bind List.head?

theorem ancestor?_eq (env : Env) (distance : Nat) :
    ancestor? env distance = if env.drop distance = [] then none else some (env.drop distance) := by
  unfold ancestor?
  cases env.drop distance <;> rfl

theorem scopeAt?_eq (env : Env) (distance : Nat) : scopeAt? env distance = env[distance]? := by
  rw [scopeAt?, ancestor?, ← List.head?_drop]
  cases env.drop distance <;> rfl

theorem getAt?_eq_bind (scopes : Scopes) (env : Env) (distance : Nat) (name : String) :
    scopes.getAt? env distance name =
      (scopeAt? env distance).bind fun ref => scopes.lookUp? ref name := by
  rw [scopeAt?_eq, ← List.head?_drop, getAt?]
  cases env.drop distance <;> rfl

theorem ancestor?_ancestor? (env : Env) (steps more : Nat) :
    (ancestor? env steps).bind (ancestor? · more) = ancestor? env (steps + more) := by
  rw [ancestor?_eq env steps, ancestor?_eq env (steps + more), ← List.drop_drop]
  split
  · rename_i short
    simp [short]
  · exact ancestor?_eq _ _

/-- Along a chain, what binds a name nearest is found, or nothing binds it. -/
theorem search_cases (scopes : Scopes) (env : Env) (name : String) :
    (∃ depth, IsLeast { depth | (scopes.getAt? env depth name).isSome } depth ∧
        scopes.find? env name = scopes.getAt? env depth name ∧
        scopes.holder? env name = scopes.holderAt? env depth name) ∨
      (∀ depth, scopes.getAt? env depth name = none) ∧ scopes.find? env name = none ∧
        scopes.holder? env name = none := by
  induction env with
  | nil => exact .inr ⟨fun depth => by rw [getAt?, List.drop_nil], rfl, rfl⟩
  | cons ref outer ih =>
      cases bound : scopes.lookUp? ref name with
      | some value =>
          have here : scopes.getAt? (ref :: outer) 0 name = some value := bound
          refine .inl ⟨0, ⟨by simp [here], fun _ _ => Nat.zero_le _⟩, ?_, ?_⟩
          · rw [here, find?, List.findSome?_cons, bound]
          · simp [holder?, holderAt?, bound]
      | none =>
          have skips : scopes.find? (ref :: outer) name = scopes.find? outer name := by
            rw [find?, List.findSome?_cons, bound, find?]
          have passes : scopes.holder? (ref :: outer) name = scopes.holder? outer name := by
            simp [holder?, bound]
          have here : scopes.getAt? (ref :: outer) 0 name = none := bound
          rw [skips, passes]
          rcases ih with ⟨depth, least, found, holder⟩ | ⟨absent, none⟩
          · refine .inl ⟨depth + 1, ⟨least.1, fun other binds => ?_⟩, found, holder⟩
            cases other with
            | zero => simp [here] at binds
            | succ other => exact Nat.succ_le_succ (least.2 binds)
          · refine .inr ⟨fun depth => ?_, none⟩
            cases depth with
            | zero => exact here
            | succ depth => exact absent depth

theorem search_of_least
    (least : IsLeast { depth | (scopes.getAt? env depth name).isSome } depth) :
    scopes.find? env name = scopes.getAt? env depth name ∧
      scopes.holder? env name = scopes.holderAt? env depth name := by
  rcases search_cases scopes env name with ⟨nearest, least', agree⟩ | ⟨absent, -⟩
  · obtain rfl := least.unique least'
    exact agree
  · have bound := least.1
    simp [absent] at bound

theorem search_of_absent (absent : ∀ depth, scopes.getAt? env depth name = none) :
    scopes.find? env name = none ∧ scopes.holder? env name = none := by
  rcases search_cases scopes env name with ⟨nearest, least, -⟩ | ⟨-, agree⟩
  · have bound := least.1
    simp [absent] at bound
  · exact agree

theorem isSome_assignAt? :
    (scopes.assignAt? env depth name value).isSome = (scopes.getAt? env depth name).isSome := by
  unfold assignAt? holderAt? getAt?
  split
  · rfl
  · split <;> simp_all

theorem lookUp?_of_assignAt? (assigned : scopes.assignAt? env depth name value = some changed) :
    ∃ ref, scopeAt? env depth = some ref ∧ ∀ other used, changed.lookUp? other used =
      if other = ref ∧ used = name then some value else scopes.lookUp? other used := by
  obtain ⟨holder, held, rfl⟩ := Option.map_eq_some_iff.mp assigned
  unfold holderAt? at held
  cases reached : env.drop depth with
  | nil => simp [reached] at held
  | cons ref outer =>
      obtain ⟨bound, rfl⟩ : (scopes.lookUp? ref name).isSome ∧ ref :: outer = holder := by
        simpa [reached] using held
      have inStore : ref.index < scopes.tables.size := by
        obtain ⟨value, found⟩ := Option.isSome_iff_exists.mp bound
        obtain ⟨table, stored, -⟩ := Option.bind_eq_some_iff.mp found
        exact (Array.getElem?_eq_some_iff.mp stored).1
      refine ⟨ref, ?_, fun other used => ?_⟩
      · rw [scopeAt?_eq, ← List.head?_drop, reached, List.head?_cons]
      · rw [lookUp?_define]
        refine if_congr ⟨?_, ?_⟩ rfl rfl
        · rintro ⟨same, rfl, -⟩
          exact ⟨congrArg ScopeRef.mk same.symm, rfl⟩
        · rintro ⟨rfl, rfl⟩
          exact ⟨rfl, rfl, inStore⟩

theorem getAt?_of_assignAt? (assigned : scopes.assignAt? env depth name value = some changed) :
    ∃ ref, scopeAt? env depth = some ref ∧ ∀ chain distance used,
      changed.getAt? chain distance used =
        if scopeAt? chain distance = some ref ∧ used = name then some value
        else scopes.getAt? chain distance used := by
  obtain ⟨ref, reached, written⟩ := lookUp?_of_assignAt? assigned
  refine ⟨ref, reached, fun chain distance used => ?_⟩
  rw [getAt?_eq_bind, getAt?_eq_bind]
  cases scopeAt? chain distance with
  | none => rfl
  | some other => simpa using written other used

end Scopes

/-! Forests. -/

/-- What is done to the chains that are open, which are numbered in the order of their opening. -/
inductive Forest.Operation
  | root
  | child (number : Nat)
  | define (number : Nat) (name : String) (value : Value)
  | assign (number : Nat) (name : String) (value : Value)
  | assignAt (number distance : Nat) (name : String) (value : Value)

structure Forest where
  scopes : Scopes
  envs : List Env

namespace Forest

def enter (forest : Forest) (outer : Env) : Forest :=
  ⟨(forest.scopes.enter outer {}).2, forest.envs ++ [(forest.scopes.enter outer {}).1]⟩

def write (forest : Forest) (written : Option Scopes) : Forest :=
  { forest with scopes := written.getD forest.scopes }

def perform (forest : Forest) : Operation → Forest
  | .root => forest.enter []
  | .child number => (forest.envs[number]?.map forest.enter).getD forest
  | .define number name value =>
      forest.write (forest.envs[number]?.map (forest.scopes.define · name value))
  | .assign number name value =>
      forest.write (forest.envs[number]?.bind (forest.scopes.assign? · name value))
  | .assignAt number distance name value =>
      forest.write (forest.envs[number]?.bind (forest.scopes.assignAt? · distance name value))

def grow (forest : Forest) (operations : List Operation) : Forest := operations.foldl perform forest

def empty : Forest := ⟨.empty, []⟩

/-- A chain begins with the scope of its number, and what is around it was open before. -/
structure Linked (forest : Forest) : Prop where
  size : forest.scopes.tables.size = forest.envs.length
  links : ∀ (number : Nat) (env : Env), forest.envs[number]? = some env →
    ∃ outer : Env, env = ⟨number⟩ :: outer ∧
      (outer = [] ∨ ∃ earlier < number, forest.envs[earlier]? = some outer)

variable {forest : Forest}

theorem Linked.enter (linked : forest.Linked) {outer : Env}
    (known : outer = [] ∨ ∃ number : Nat, forest.envs[number]? = some outer) :
    (forest.enter outer).Linked where
  size := by simp [Forest.enter, Scopes.enter, linked.size]
  links := by
    intro number env found
    have before {earlier : Nat} {around : Env} (isOpen : forest.envs[earlier]? = some around) :
        earlier < forest.envs.length ∧ (forest.enter outer).envs[earlier]? = some around := by
      have lt := (List.getElem?_eq_some_iff.mp isOpen).1
      exact ⟨lt, (List.getElem?_append_left lt).trans isOpen⟩
    by_cases inside : number < forest.envs.length
    · rw [Forest.enter, List.getElem?_append_left inside] at found
      obtain ⟨around, rfl, earlier⟩ := linked.links number env found
      refine ⟨around, rfl, ?_⟩
      rcases earlier with none | ⟨other, lt, isOpen⟩
      · exact .inl none
      · exact .inr ⟨other, lt, (before isOpen).2⟩
    · rw [Forest.enter, List.getElem?_append_right (by omega), List.getElem?_singleton] at found
      split at found
      · obtain rfl : number = forest.envs.length := by omega
        cases found
        refine ⟨outer, by rw [Scopes.enter, linked.size], ?_⟩
        rcases known with none | ⟨other, isOpen⟩
        · exact .inl none
        · exact .inr ⟨other, before isOpen⟩
      · cases found

theorem size_of_assign? {scopes changed : Scopes} {holder : Option Env} {name : String} {value : Value}
    (written : holder.map (scopes.define · name value) = some changed) :
    changed.tables.size = scopes.tables.size := by
  obtain ⟨holder, -, rfl⟩ := Option.map_eq_some_iff.mp written
  exact Scopes.size_define ..

theorem Linked.write (linked : forest.Linked) {written : Option Scopes}
    (kept : ∀ changed, written = some changed →
      changed.tables.size = forest.scopes.tables.size) : (forest.write written).Linked := by
  refine ⟨?_, linked.links⟩
  cases written with
  | none => exact linked.size
  | some changed => exact (kept changed rfl).trans linked.size

theorem Linked.perform (linked : forest.Linked) (operation : Operation) :
    (forest.perform operation).Linked := by
  cases operation with
  | root => exact linked.enter (.inl rfl)
  | child number =>
      rw [Forest.perform]
      cases found : forest.envs[number]? with
      | none => exact linked
      | some outer => exact linked.enter (.inr ⟨number, found⟩)
  | define number name value => exact linked.write fun _ => size_of_assign?
  | assign number name value =>
      refine linked.write fun changed written => ?_
      obtain ⟨env, -, assigned⟩ := Option.bind_eq_some_iff.mp written
      exact size_of_assign? assigned
  | assignAt number distance name value =>
      refine linked.write fun changed written => ?_
      obtain ⟨env, -, assigned⟩ := Option.bind_eq_some_iff.mp written
      exact size_of_assign? assigned

theorem Linked.grow (linked : forest.Linked) (operations : List Operation) :
    (forest.grow operations).Linked := by
  induction operations generalizing forest with
  | nil => exact linked
  | cons operation operations ih => exact ih (linked.perform operation)

theorem linked_empty : empty.Linked := ⟨rfl, by simp [empty]⟩

theorem envs_perform (forest : Forest) (operation : Operation) :
    forest.envs <+: (forest.perform operation).envs := by
  cases operation with
  | root => exact List.prefix_append _ _
  | child number =>
      rw [perform]
      cases forest.envs[number]? with
      | none => exact List.prefix_rfl
      | some outer => exact List.prefix_append _ _
  | define | assign | assignAt => exact List.prefix_rfl

theorem envs_grow (forest : Forest) (operations : List Operation) :
    forest.envs <+: (forest.grow operations).envs := by
  induction operations generalizing forest with
  | nil => exact List.prefix_rfl
  | cons operation operations ih => exact (envs_perform forest operation).trans (ih _)

theorem Linked.older (linked : forest.Linked) {number : Nat} {env : Env}
    (opened : forest.envs[number]? = some env) :
    env.Pairwise fun inner outer => outer.index < inner.index := by
  induction number using Nat.strongRecOn generalizing env with
  | ind number ih =>
      obtain ⟨outer, rfl, around⟩ := linked.links number env opened
      rcases around with rfl | ⟨earlier, lt, found⟩
      · exact List.pairwise_singleton _ _
      · refine List.pairwise_cons.mpr ⟨fun ref member => ?_, ih earlier lt found⟩
        obtain ⟨further, rfl, -⟩ := linked.links earlier outer found
        rcases List.mem_cons.mp member with rfl | member
        · exact lt
        · exact (List.rel_of_pairwise_cons (ih earlier lt found) member).trans lt

theorem Linked.nodup (linked : forest.Linked) {number : Nat} {env : Env}
    (opened : forest.envs[number]? = some env) : env.Nodup :=
  (linked.older opened).imp fun {inner outer} older same => by
    subst same
    exact Nat.lt_irrefl _ older

theorem Linked.eq_of_head? (linked : forest.Linked) {number : Nat} {env chain : Env}
    (opened : forest.envs[number]? = some env) (member : chain ∈ forest.envs)
    (same : chain.head? = env.head?) : chain = env := by
  obtain ⟨other, opened'⟩ := List.mem_iff_getElem?.mp member
  obtain ⟨outer, rfl, -⟩ := linked.links number env opened
  obtain ⟨outer', rfl, -⟩ := linked.links other chain opened'
  obtain rfl : other = number := congrArg ScopeRef.index (Option.some.inj same)
  exact Option.some.inj (opened'.symm.trans opened)

end Forest

structure Machine.Searches (machine : Machine) (scopes : Scopes) (env : Env) (id : ExprId) : Prop where
  scopes : machine.scopes = scopes
  globals : machine.globals = env
  depths : machine.depths[id]? = none

namespace Machine.Searches

variable {machine : Machine} {scopes : Scopes} {env : Env} {id : ExprId}

theorem readVariable (searches : machine.Searches scopes env id) (name : Token) :
    Run.readVariable id name machine =
      match scopes.find? env name.lexeme with
      | some value => .ok value machine
      | none => .error (.error ⟨.undefinedVariable name.lexeme, some name⟩) machine := by
  have read : machine.valueOf? id name.lexeme = scopes.find? env name.lexeme := by
    rw [valueOf?, searches.depths, searches.scopes, searches.globals]
  rw [← read, Run.readVariable, Run.get_bind]
  cases machine.valueOf? id name.lexeme <;> rfl

theorem assignVariable (searches : machine.Searches scopes env id) (name : Token) (value : Value) :
    Run.assignVariable id name value machine =
      match scopes.assign? env name.lexeme value with
      | some changed => .ok () { machine with scopes := changed }
      | none => .error (.error ⟨.undefinedVariable name.lexeme, some name⟩) machine := by
  have held : machine.holderOf? id name.lexeme = scopes.holder? env name.lexeme := by
    rw [holderOf?, searches.depths, searches.scopes, searches.globals]
  rw [Scopes.assign?, ← held, ← searches.scopes]
  rw [Run.assignVariable, Run.get_bind]
  cases machine.holderOf? id name.lexeme <;> rfl

end Machine.Searches

/-- For every chain that a sequence of operations has opened, looking for a name along it agrees with
looking at the least depth at which the name is bound. If there is none, both ways of looking fail, and a
write that fails changes nothing. -/
theorem search_agrees_with_depth {operations : List Forest.Operation} {forest : Forest}
    (grown : Forest.empty.grow operations = forest) {number : Nat} {env : Env}
    (opened : forest.envs[number]? = some env) (name : Token) (value : Value) :
    (∀ depth, IsLeast { depth | (forest.scopes.getAt? env depth name.lexeme).isSome } depth →
      forest.scopes.find? env name.lexeme = forest.scopes.getAt? env depth name.lexeme ∧
      ∃ changed ref, forest.scopes.assign? env name.lexeme value = some changed ∧
        forest.scopes.assignAt? env depth name.lexeme value = some changed ∧
        forest.perform (.assign number name.lexeme value) = { forest with scopes := changed } ∧
        Scopes.scopeAt? env depth = some ref ∧
        (∀ chain distance used, changed.getAt? chain distance used =
          if Scopes.scopeAt? chain distance = some ref ∧ used = name.lexeme then some value
          else forest.scopes.getAt? chain distance used) ∧
        ∀ machine id, machine.Searches forest.scopes env id →
          (∃ found, forest.scopes.getAt? env depth name.lexeme = some found ∧
            Run.readVariable id name machine = .ok found machine) ∧
          Run.assignVariable id name value machine = .ok () { machine with scopes := changed }) ∧
    ((∀ depth, forest.scopes.getAt? env depth name.lexeme = none) →
      forest.scopes.find? env name.lexeme = none ∧
      forest.scopes.assign? env name.lexeme value = none ∧
      forest.perform (.assign number name.lexeme value) = forest ∧
      ∀ machine id, machine.Searches forest.scopes env id → ∃ error : RuntimeError,
        error.fault.message = "Undefined variable '" ++ name.lexeme ++ "'." ∧
        error.place = some name ∧
        Run.readVariable id name machine = .error (.error error) machine ∧
        Run.assignVariable id name value machine = .error (.error error) machine) ∧
    (∀ distance,
      (forest.scopes.assignAt? env distance name.lexeme value).isSome =
        (forest.scopes.getAt? env distance name.lexeme).isSome ∧
      (forest.scopes.getAt? env distance name.lexeme = none →
        forest.perform (.assignAt number distance name.lexeme value) = forest)) ∧
    (∀ steps more, (Scopes.ancestor? env steps).bind (Scopes.ancestor? · more) =
      Scopes.ancestor? env (steps + more)) ∧
    (∀ more, (forest.grow more).envs[number]? = some env ∧
      ∀ chain ∈ (forest.grow more).envs, chain.head? = env.head? → chain = env) ∧
    ∀ near far ref, Scopes.scopeAt? env near = some ref → Scopes.scopeAt? env far = some ref →
      near = far := by
  have linked : forest.Linked := grown ▸ Forest.linked_empty.grow operations
  refine ⟨fun depth least => ?_, fun absent => ?_, fun distance => ⟨Scopes.isSome_assignAt?, ?_⟩,
    Scopes.ancestor?_ancestor? env, fun more => ?_, fun near far ref => ?_⟩
  · obtain ⟨found, held⟩ := Scopes.search_of_least least
    obtain ⟨changed, assigned⟩ :=
      Option.isSome_iff_exists.mp (Scopes.isSome_assignAt?.trans least.1)
    obtain ⟨ref, reached, seen⟩ := Scopes.getAt?_of_assignAt? assigned
    have searched : forest.scopes.assign? env name.lexeme value = some changed := by
      rw [Scopes.assign?, held]
      exact assigned
    obtain ⟨present, bound⟩ := Option.isSome_iff_exists.mp least.1
    refine ⟨found, changed, ref, searched, assigned, ?_, reached, seen, fun machine id searches =>
      ⟨⟨present, bound, ?_⟩, ?_⟩⟩
    · rw [Forest.perform, opened, Option.bind_some, searched]
      rfl
    · rw [searches.readVariable, found, bound]
    · rw [searches.assignVariable, searched]
  · obtain ⟨unfound, unheld⟩ := Scopes.search_of_absent absent
    have unassigned : forest.scopes.assign? env name.lexeme value = none := by
      rw [Scopes.assign?, unheld, Option.map_none]
    refine ⟨unfound, unassigned, ?_, fun machine id searches =>
      ⟨⟨.undefinedVariable name.lexeme, some name⟩, rfl, rfl, ?_, ?_⟩⟩
    · rw [Forest.perform, opened, Option.bind_some, unassigned]
      rfl
    · rw [searches.readVariable, unfound]
    · rw [searches.assignVariable, unassigned]
  · intro absent
    have refused : forest.scopes.assignAt? env distance name.lexeme value = none := by
      rw [← Option.isNone_iff_eq_none, ← Option.not_isSome, Scopes.isSome_assignAt?, absent]
      rfl
    rw [Forest.perform, opened, Option.bind_some, refused]
    rfl
  · have still : (forest.grow more).envs[number]? = some env := by
      obtain ⟨added, same⟩ := forest.envs_grow more
      rw [← same, List.getElem?_append_left (List.getElem?_eq_some_iff.mp opened).1, opened]
    refine ⟨still, fun chain member same => ?_⟩
    exact (linked.grow more).eq_of_head? still member same
  · rw [Scopes.scopeAt?_eq, Scopes.scopeAt?_eq]
    intro here there
    have inside := (List.getElem?_eq_some_iff.mp here).1
    exact (List.getElem?_inj inside (linked.nodup opened)).mp (here.trans there.symm)

/-- Two chains share a scope: what is written along the one is read along the other. -/
theorem search_agrees_with_depth_of_siblings :
    let forest := Forest.empty.grow [.root, .define 0 "a" .nil, .child 0, .child 0]
    ∃ changed, forest.perform (.assign 1 "a" (.bool true)) = { forest with scopes := changed } ∧
      forest.scopes.getAt? [⟨2⟩, ⟨0⟩] 1 "a" = some .nil ∧
      changed.getAt? [⟨2⟩, ⟨0⟩] 1 "a" = some (.bool true) := by
  intro forest
  have least : IsLeast { depth | (forest.scopes.getAt? [⟨1⟩, ⟨0⟩] depth "a").isSome } 1 := by
    refine ⟨by decide +kernel, fun depth binds => ?_⟩
    cases depth with
    | zero => exact absurd binds (by decide +kernel)
    | succ depth => omega
  obtain ⟨-, changed, ref, -, -, performed, reached, seen, -⟩ :=
    (search_agrees_with_depth (show _ = forest from rfl)
      (show forest.envs[1]? = some [⟨1⟩, ⟨0⟩] from rfl) ⟨.identifier, "a", none, 1⟩ (.bool true)).1 1
      least
  cases reached
  refine ⟨changed, performed, rfl, ?_⟩
  rw [seen]
  rfl

end Lox
