import Mathlib
import Lox.Proofs.Parse.Complete
import Lox.Proofs.Run.ForLoop
import Lox.Proofs.Session.Creations
import Lox.Proofs.Session.Receiver

/-!
What a `for` statement means. Wherever a session comes to execute the expansion of such a statement, it
might as well run the loop that the clauses stand for, with the names of the clauses looked up where
they stand.
-/

namespace Lox

open Grammar

/-! The clauses of a statement. -/

namespace ForLoop

inductive Derives (nearest isOpen : Bool) (start : Supply) : List Token → ForLoop → Supply → Prop
  | intro {keyword opening initWords initializer atCondition conditionWords condition atIncrement
        semicolon incrementWords increment atBody closing words body after} :
      keyword.kind = .forWord → opening.kind = .leftParen →
      ForInitializer start initWords initializer atCondition →
      OptionalExpr atCondition conditionWords condition atIncrement →
      semicolon.kind = .semicolon →
      OptionalExpr atIncrement incrementWords increment atBody → closing.kind = .rightParen →
      StmtDerives nearest (.statement isOpen) atBody words body after →
      Derives nearest isOpen start
        (keyword :: opening :: (initWords ++ (conditionWords ++
          semicolon :: (incrementWords ++ closing :: words))))
        ⟨initializer, condition, increment, body⟩ after

variable {nearest isOpen : Bool} {start after : Supply} {words : List Token} {loop : ForLoop}

theorem derives_of_keyword {keyword : Token} {stmt : Stmt} (isFor : keyword.kind = .forWord)
    (derived : StmtDerives nearest (.statement isOpen) start (keyword :: words) stmt after) :
    ∃ loop : ForLoop, Derives nearest isOpen start (keyword :: words) loop after ∧
      stmt = loop.expanded := by
  generalize same : keyword :: words = all at derived
  have other {found : Token} {rest : List Token} (same : keyword :: words = found :: rest) :
      found.kind = .forWord := (List.cons.inj same).1 ▸ isFor
  cases derived with
  | exprStmt derived =>
      obtain ⟨found, rest, rfl, begins⟩ := Parse.exprStmt_begins derived
      rw [other same] at begins
      cases begins
  | forLoop kind opens initialized conditioned ends incremented closes derived =>
      exact ⟨_, .intro kind opens initialized conditioned ends incremented closes derived,
        expansion_eq_forLoop ..⟩
  | ifThen kind | ifElse kind | print kind | returnStmt kind | whileLoop kind | block kind =>
      cases kind.symm.trans (other same)

namespace Derives

variable (derives : Derives nearest isOpen start words loop after)
include derives

theorem bare : loop.body.declared? = none := by
  cases derives with
  | @intro _ _ _ initializer _ _ condition _ _ _ increment _ _ _ body _ _ _ _ _ _ _ _ derived =>
      show body.declared? = none
      cases derived with
      | exprStmt derived => cases derived with | intro => rfl
      | @forLoop _ _ _ _ first =>
          rw [expansion_eq_forLoop]
          cases first <;> rfl
      | ifThen | ifElse | print | returnStmt | whileLoop | block => rfl

theorem plain : loop.Plain := by
  cases derives with
  | intro _ _ initialized =>
      intro first given
      cases initialized with
      | absent => cases given
      | declared derived =>
          cases given
          cases derived with
          | bare | initialized => exact .inl ⟨_, _, rfl⟩
      | expression derived =>
          cases given
          cases derived with
          | intro => exact .inr ⟨_, rfl⟩

theorem nodup (around : Site) : ((loop.visits around).map Visit.id).Nodup := by
  cases derives with
  | @intro _ _ _ initializer _ _ condition _ _ _ increment _ _ _ body _ _ _ initialized conditioned _
      incremented _ derived =>
      have issued := initialized.issued.append
        (conditioned.issued.append (incremented.issued.append derived.issued))
      refine (List.Perm.nodup_iff ?_).mpr issued.nodup
      unfold ForLoop.visits
      simp only [List.map_append, Site.visits_ids]
      refine .append ?_ ((Expr.usesAll_ids _).append ((Expr.usesAll_ids _).append (body.visits_ids _)))
      cases initializer with
      | none => exact .nil
      | some first =>
          rw [Option.toList_some, Stmt.idsAll, Stmt.idsAll, List.append_nil]
          exact first.visits_ids _

end Derives

end ForLoop

/-! A machine and the same machine with other depths on record. -/

def Roster.all (machine : Machine) : Roster := (List.range machine.age).map ScopeRef.mk

theorem Roster.link_all {machine : Machine} {ref ref' : ScopeRef} :
    (Roster.all machine).Link ref ref' ↔ ref' = ref ∧ ref.index < machine.age := by
  unfold Roster.Link Roster.all
  rw [List.getElem?_map, Option.map_eq_some_iff]
  constructor
  · rintro ⟨index, found, rfl⟩
    obtain ⟨bound, same⟩ := List.getElem?_eq_some_iff.mp found
    rw [List.getElem_range] at same
    subst same
    exact ⟨rfl, by simpa using bound⟩
  · rintro ⟨rfl, bound⟩
    exact ⟨ref'.index, List.getElem?_range bound, rfl⟩

theorem Env.trims_self {machine : Machine} {env : Env}
    (inStore : ∀ ref ∈ env, ref.index < machine.age) :
    Env.Trims (Roster.all machine) [] env env :=
  .level (List.forall₂_same.mpr fun ref member => Roster.link_all.mpr ⟨rfl, inStore ref member⟩)

namespace World

variable {world : World} {machine : Machine} {tables : Tables}

theorem Stands.index_lt {env : Env} {regions : List Region} {scopes : List Scope}
    (stands : world.Stands machine.scopes env regions scopes)
    (globals : ∀ ref ∈ world.globals, ref.index < machine.age) :
    ∀ ref ∈ env, ref.index < machine.age := by
  induction stands with
  | globals => exact globals
  | inner _ inStore _ _ ih => exact List.forall_mem_cons.mpr ⟨inStore, ih⟩

section Self

variable (globals : ∀ ref ∈ world.globals, ref.index < machine.age)
  (known : ∀ visit, world.visits visit → tables.full[visit.id]? = visit.depth?)
  (known' : ∀ visit, world.visits visit → tables.trimmed[visit.id]? = visit.depth?)
include globals known known'

theorem closure_trims_self {closure : Closure} (sound : world.FunctionSound machine.scopes closure)
    (traced : world.TracedFunction machine.scopes closure) :
    closure.Trims tables (Roster.all machine) closure := by
  obtain ⟨_, stands, -⟩ := sound
  obtain ⟨site, -, -, admitted, spelled⟩ := traced
  refine ⟨⟨[], by simp [Mask.Open], Env.trims_self (stands.index_lt globals), ?_⟩, rfl⟩
  exact FunctionDecl.trims_self (.level site.scopes) admitted.formed spelled
    (fun visit member => known visit (admitted.visited visit member))
    (fun visit member => known' visit (admitted.visited visit member))

theorem method_trims_self {method : Closure} (sound : world.MethodSound machine.scopes method)
    (traced : world.TracedMethod machine.scopes method) :
    method.TrimsUnbound tables (Roster.all machine) method := by
  obtain ⟨_, _, stands, -, -⟩ := sound
  obtain ⟨site, methods, regions, own, -, regular, admitted, spelled⟩ := traced
  have aligned : Aligned [false] site.scopes site.scopes := by
    obtain ⟨names, scopes, -, -, same⟩ := List.forall₂_cons_left_iff.mp (own ▸ regular.scopes)
    rw [same]
    exact .shared names (.level scopes)
  refine ⟨⟨[], Env.trims_self (stands.index_lt globals), ?_⟩, rfl⟩
  exact FunctionDecl.trims_self aligned admitted.formed spelled
    (fun visit member => known visit (admitted.visited visit member))
    (fun visit member => known' visit (admitted.visited visit member))

theorem class_trims_self {cls : ClassObject} (sound : world.ClassSound machine.scopes cls)
    (traced : world.lineages.Class machine.scopes cls) :
    cls.Trims tables (Roster.all machine) cls := by
  refine List.forall₂_same.mpr fun body member => ⟨rfl, rfl, fun name => ?_⟩
  cases found : body.methods[name]? with
  | none => exact .none
  | some method =>
      exact .some (method_trims_self globals known known' (sound body member name method found)
        (traced body member name method found))

theorem value_trims_self {value : Value} (sound : world.ValueSound machine.scopes value)
    (traced : world.lineages.Value machine.scopes value) :
    value.Trims tables (Roster.all machine) value := by
  match value with
  | .nil => exact .nil
  | .bool value => exact .bool value
  | .number value => exact .number value
  | .string value => exact .string value
  | .callable (.native builtin) => exact .callable (.native builtin)
  | .callable (.function closure) =>
      exact .callable (.function (closure_trims_self globals known known' sound traced))
  | .callable (.constructor cls) =>
      exact .callable (.constructor (class_trims_self globals known known' sound traced))
  | .object inst => exact .object ⟨rfl, class_trims_self globals known known' sound traced.2⟩

end Self

theorem trims_self (holds : world.Holds machine) (within : world.lineages.Within machine)
    (globals : ∀ ref ∈ world.globals, ref.index < machine.age)
    (inStore : ∀ ref ∈ machine.env, ref.index < machine.age)
    (known : ∀ visit, world.visits visit → machine.depths[visit.id]? = visit.depth?)
    (depths : Std.TreeMap ExprId Nat)
    (known' : ∀ visit, world.visits visit → depths[visit.id]? = visit.depth?) :
    machine.Trims ⟨machine.depths, depths⟩ (Roster.all machine) [] { machine with depths } := by
  have self (value : Option Value)
      (stored : ∀ stored ∈ value, world.ValueSound machine.scopes stored ∧
        world.lineages.Value machine.scopes stored) :
      Option.Rel (Value.Trims ⟨machine.depths, depths⟩ (Roster.all machine)) value value := by
    cases value with
    | none => exact .none
    | some value =>
        obtain ⟨sound, traced⟩ := stored value rfl
        exact .some (value_trims_self globals known known' sound traced)
  constructor
  case nodup => exact List.nodup_range.map fun _ _ same => congrArg ScopeRef.index same
  case inStore => simp [Roster.all, Machine.age]
  case size => simp [Roster.all, Machine.age]
  case scopes =>
    intro ref ref' link name
    obtain ⟨rfl, -⟩ := Roster.link_all.mp link
    exact self _ fun value found =>
      ⟨holds.bound _ name value found, within.bound _ name value trivial found⟩
  case fields =>
    intro index name
    let inst : Instance := ⟨index, ⟨⟨0, "", {}⟩, []⟩⟩
    exact self (machine.field? inst name) fun value found =>
      ⟨holds.fields inst name value found, within.fields inst name value trivial found⟩
  case globals =>
    rw [holds.globals]
    exact List.forall₂_same.mpr fun ref member => Roster.link_all.mpr ⟨rfl, globals ref member⟩
  case env => exact Env.trims_self inStore
  all_goals rfl

end World

/-! The loop with identities of its own. -/

namespace ForLoop

variable {loop : ForLoop} {offset : Nat} {around : Site}

theorem offset_le_of_renumbered {visit : Visit}
    (visited : visit ∈ (loop.renumbered offset).visits around) : offset ≤ visit.id := by
  have used := List.mem_map_of_mem (f := Visit.use) visited
  rw [uses_renumbered] at used
  obtain ⟨use, -, same⟩ := List.mem_map.mp used
  rw [Visit.id, ← same]
  exact Nat.le_add_left _ _

theorem nodup_renumbered (distinct : ((loop.visits around).map Visit.id).Nodup) :
    (((loop.renumbered offset).visits around).map Visit.id).Nodup := by
  have shifted : ((loop.visits around).map Visit.id).map (· + offset) =
      ((loop.renumbered offset).visits around).map Visit.id := by
    have uses := congrArg (List.map Use.id) (loop.uses_renumbered offset around)
    simpa [Function.comp_def, Use.shift, Visit.id] using uses.symm
  rw [← shifted]
  exact distinct.map (add_left_injective offset)

/-- The machine with the depths on record that the names of the clauses have where they stand. -/
def informed (loop : ForLoop) (around : Site) (machine : Machine) : Machine :=
  machine.record ((loop.visits around).filterMap Visit.record?)

section Informed

variable {machine : Machine}

theorem informed_of_lt {id : ExprId} (early : id < offset) :
    ((loop.renumbered offset).informed around machine).depths[id]? = machine.depths[id]? := by
  refine Machine.depths_record_of_absent fun pair listed same => ?_
  obtain ⟨visit, visited, record⟩ := List.mem_filterMap.mp listed
  obtain ⟨depth, -, rfl⟩ := Option.map_eq_some_iff.mp record
  obtain rfl : visit.id = id := same
  exact (offset_le_of_renumbered visited).not_gt early

theorem knows_informed (distinct : ((loop.visits around).map Visit.id).Nodup)
    (fresh : ∀ id, offset ≤ id → machine.depths[id]? = none) :
    Knows ((loop.renumbered offset).informed around machine).depths
      ((loop.renumbered offset).visits around) :=
  fun _ visited => History.depths_record_visits (nodup_renumbered distinct)
    (fun _ visited => fresh _ (offset_le_of_renumbered visited)) visited

end Informed

end ForLoop

theorem World.Lineage.apart {world : World} {store : Scopes} {env : Env} {site : Site}
    (lineage : world.Lineage store env site.regions) (regular : site.Regular) :
    ∀ names ∈ site.scopes.head?, "super" ∉ names := by
  have notSuper := lineage.not_super
  have declares := regular.scopes
  generalize site.regions = regions at notSuper declares
  generalize site.scopes = scopes at declares ⊢
  cases declares with
  | nil => simp
  | cons declares _ =>
      rintro names ⟨⟩ member
      have isSuper := declares.super.mp member
      rw [notSuper _ rfl] at isSuper
      cases isSuper

namespace History

variable {history : History} {session : Session} {launch : Launch}
  (driven : history.Driven session) (starts : session.Starts launch) {machine : Machine}
include driven starts

section Reached

variable {task : Task} (reaches : Reaches launch.task launch.session.machine task machine)
include reaches

theorem Driven.knows : Knows machine.depths (history.add launch).visits := by
  intro visit visited
  rw [(driven.ready starts reaches).2.depths]
  exact (driven.launches starts).coheres.recorded visit visited

theorem Driven.unrecorded {id : ExprId} (late : launch.session.supply.nextExpr ≤ id) :
    machine.depths[id]? = none := by
  rw [(driven.ready starts reaches).2.depths]
  exact (driven.launches starts).coheres.fresh id late

theorem Driven.globals_inStore :
    ∀ ref ∈ launch.session.machine.globals, ref.index < machine.age := by
  obtain ⟨pairs, same⟩ := starts.checks.machine
  have globals : launch.session.machine.globals = [⟨0⟩] := by
    rw [same]
    exact driven.coheres.atGlobals.symm.trans driven.awaits.env
  have age : 0 < launch.session.machine.age := by
    rw [same]
    exact driven.awaits.age
  rw [globals, List.forall_mem_singleton]
  exact age.trans_le reaches.age_le

/-- Depths that are recorded under new identities change nothing for the rest of the session. -/
theorem Driven.trims_self {depths : Std.TreeMap ExprId Nat}
    (inStore : ∀ ref ∈ machine.env, ref.index < machine.age)
    (kept : ∀ id < launch.session.supply.nextExpr, depths[id]? = machine.depths[id]?) :
    machine.Trims ⟨machine.depths, depths⟩ (Roster.all machine) [] { machine with depths } := by
  obtain ⟨-, within⟩ := driven.admitted starts reaches
  obtain ⟨-, holds⟩ := driven.ready starts reaches
  have known := driven.knows starts reaches
  refine World.trims_self holds within (driven.globals_inStore starts reaches) inStore known depths ?_
  intro visit visited
  rw [kept visit.id ((driven.launches starts).coheres.given visit visited)]
  exact known visit visited

end Reached

/-- The expansion of the clauses and the loop that they stand for, when the expansion is executed. -/
theorem Driven.loop_agrees {loop : ForLoop} {fuel : Nat}
    (reaches : Reaches launch.task launch.session.machine (.execute fuel loop.expanded) machine)
    (plain : loop.Plain) (bare : loop.body.declared? = none)
    (distinct : ∀ around : Site, ((loop.visits around).map Visit.id).Nodup) :
    ∃ around : Site, loop.expanded.visits around ⊆ (history.add launch).visits ∧
      (∀ ref ∈ machine.env, ref.index < machine.age) ∧
      ∀ offset, launch.session.supply.nextExpr ≤ offset →
        let copy := loop.renumbered offset
        let informed := copy.informed around machine
        Knows informed.depths (copy.visits around) ∧
          Run.Agree ⟨machine.depths, informed.depths⟩ (Roster.all machine) machine informed
            (execute · loop.expanded) copy.run := by
  obtain ⟨⟨around, lineage, regular, admitted, spelled⟩, -⟩ := driven.admitted starts reaches
  obtain ⟨⟨_, stands, -⟩, -⟩ := driven.ready starts reaches
  have inStore := stands.index_lt (driven.globals_inStore starts reaches)
  have known := driven.knows starts reaches
  refine ⟨around, admitted.visited, inStore, fun offset late => ?_⟩
  have known' : Knows ((loop.renumbered offset).informed around machine).depths
      ((loop.renumbered offset).visits around) :=
    ForLoop.knows_informed (distinct around) fun id bound =>
      driven.unrecorded starts reaches (late.trans bound)
  have clauses : loop.Trims
      ⟨machine.depths, ((loop.renumbered offset).informed around machine).depths⟩
      (loop.renumbered offset) :=
    ForLoop.trims_renumbered admitted.formed bare spelled (lineage.apart regular)
      (fun visit visited => known visit (admitted.visited visit visited)) known'
  exact ⟨known', clauses.agree plain (driven.trims_self starts reaches inStore fun id early =>
    ForLoop.informed_of_lt (early.trans_le late))⟩

end History

/-- In a session that is driven by its inputs, at every moment of the execution of an input at which a
`for` statement is executed: the tree is the expansion of the clauses. The names in it were looked up
with the scope of the initializer, and at the increment with nothing that the body declares, inside the
scopes around the statement, which the statement leaves as they are. And the execution of the tree agrees
with the loop itself, in which the names of the clauses, under identities of their own, are looked up
where the clauses stand: the initializer is executed once in a new scope; in this scope the condition is
tested and the body executed, and unless the body returns or fails the increment is evaluated, until the
condition is false. From either of them the other comes to the same end, with the same effects and
values, functions included, or both go on and write the same. Afterwards neither has a scope that was
opened for the statement. -/
theorem for_statement_agrees_with_loop {history : History} {session : Session} {fuel : Nat}
    {source : String} {launch : Launch} (driven : history.Driven session)
    (launched : session.launchProgram? fuel source = some launch ∨
      session.launchExpr? fuel source = some launch)
    {nearest isOpen : Bool} {start after : Supply} {keyword : Token} {words : List Token}
    {stmt : Stmt} (isFor : keyword.kind = .forWord)
    (plain : ∀ token ∈ keyword :: words, token.Plain)
    (derived : StmtDerives nearest (.statement isOpen) start (keyword :: words) stmt after)
    {fuelLeft : Nat} {machine : Machine}
    (reaches : Reaches launch.task launch.session.machine (.execute fuelLeft stmt) machine) :
    ∃ (loop : ForLoop) (around : Site),
      ForLoop.Derives nearest isOpen start (keyword :: words) loop after ∧ stmt = loop.expanded ∧
      stmt.visits around ⊆ (history.add launch).visits ∧
      Knows machine.depths (stmt.visits around) ∧ loop.Scoped around (stmt.visits around) ∧
      around.after stmt = around ∧ (∀ ref ∈ machine.env, ref.index < machine.age) ∧
      ∀ offset, launch.session.supply.nextExpr ≤ offset →
        let copy := loop.renumbered offset
        let informed := copy.informed around machine
        Knows informed.depths (copy.visits around) ∧
          Run.Agree ⟨machine.depths, informed.depths⟩ (Roster.all machine) machine informed
            (execute · stmt) copy.run := by
  have starts : session.Starts launch := ⟨fuel, source, launched⟩
  obtain ⟨undeclared, formed⟩ := derived.formed plain
  obtain ⟨loop, derives, rfl⟩ := ForLoop.derives_of_keyword isFor derived
  obtain ⟨around, visited, inStore, agrees⟩ :=
    driven.loop_agrees starts reaches derives.plain derives.bare derives.nodup
  refine ⟨loop, around, derives, rfl, visited, ?_, loop.expanded_scoped formed derives.bare, ?_,
    inStore, agrees⟩
  · exact fun visit member => driven.knows starts reaches visit (visited member)
  · exact Site.after_eq formed undeclared

/-! A loop of one round. -/
namespace OneRound

def token (kind : TokenKind) (lexeme : String) : Token := ⟨kind, lexeme, none, 1⟩

def go : Token := token .identifier "go"

def keyword : Token := token .forWord "for"

def words : List Token :=
  [token .leftParen "(", token .varWord "var", go, token .equal "=", token .trueWord "true",
    token .semicolon ";", go, token .semicolon ";", go, token .equal "=", token .falseWord "false",
    token .rightParen ")", token .printWord "print", go, token .semicolon ";"]

def source : String := "for (var go = true; go; go = false) print go;"

def stmt : Stmt :=
  .forLoop (some (.varDecl go (some (.literal (.bool true))))) (some (.var 0 go))
    (some (.assign 1 go (.literal (.bool false)))) (.print (token .printWord "print") (.var 2 go))

def resolved : Session :=
  ({ Session.new {} 8 with supply := ⟨3, 0⟩ } : Session).resolve (.ofProgram [stmt])

def launch : Launch :=
  ⟨.executeProgram 12 [stmt], Stmt.visitsAll .topLevel [stmt], resolved⟩

theorem parsed : (Session.new {} 8).parse source =
    ([stmt], { Session.new {} 8 with supply := ⟨3, 0⟩ }) := by cbv

theorem launched : (Session.new {} 8).launchProgram? 12 source = some launch := by
  simp only [Session.launchProgram?, parsed]
  rfl

theorem scanned : Parse.words (Token.split (Token.scan source)).1 = keyword :: words := by cbv

theorem derived : ∃ isOpen,
    StmtDerives true (.statement isOpen) ⟨0, 0⟩ (keyword :: words) stmt ⟨3, 0⟩ := by
  have clean : ((Session.new {} 8).parse source).2.hadError = false := by
    rw [parsed]
    rfl
  have derived := Session.parse_derives clean
  rw [parsed, scanned] at derived
  generalize keyword :: words = all at derived ⊢
  cases derived with
  | next first rest =>
      cases rest
      rw [List.append_nil]
      cases first with
      | statement derived => exact ⟨_, derived⟩
      | varDecl declared => cases declared

theorem executed : ∃ after, execute 12 stmt resolved.machine = .ok .normal after ∧
    after.output = ["true"] := ⟨_, by rfl, by rfl⟩

theorem reached :
    Reaches launch.task launch.session.machine (.execute 12 stmt) resolved.machine :=
  Reaches.here.begun .firstOfProgram

/-- The loop writes what the statement writes. -/
theorem loop_writes_once :
    History.Driven {} (.new {} 8) ∧
      (Session.new {} 8).launchProgram? 12 source = some launch ∧
      Reaches launch.task launch.session.machine (.execute 12 stmt) resolved.machine ∧
      ∃ (loop : ForLoop) (around : Site), stmt = loop.expanded ∧
        ∃ more after, (loop.renumbered 3).run more
            ((loop.renumbered 3).informed around resolved.machine) = .ok .normal after ∧
          after.output = ["true"] := by
  refine ⟨.new {} 8, launched, reached, ?_⟩
  obtain ⟨isOpen, derived⟩ := derived
  have plain : ∀ token ∈ keyword :: words, token.Plain := by
    rw [← scanned]
    exact Session.plain_of_mem_words
  obtain ⟨loop, around, -, same, -, -, -, -, -, agrees⟩ :=
    for_statement_agrees_with_loop (.new {} 8) (.inl launched) rfl plain derived reached
  refine ⟨loop, around, same, ?_⟩
  obtain ⟨after, ran, written⟩ := executed
  have ended (other : Machine) : execute 12 stmt resolved.machine ≠ .error .outOfFuel other := by
    rw [ran]
    simp
  obtain ⟨-, agree⟩ := agrees 3 le_rfl
  obtain ⟨more, ends⟩ := agree.ends 12 ended
  rw [ran] at ends
  generalize loop' : (loop.renumbered 3).run more _ = result at ends
  cases ends with
  | ok _ flow machines =>
      cases flow
      refine ⟨more, _, loop', ?_⟩
      rw [← written]
      exact congrArg (·.sink.lines.toList) machines.host

end OneRound

end Lox
