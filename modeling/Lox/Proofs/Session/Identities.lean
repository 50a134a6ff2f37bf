import Mathlib
import Lox.Proofs.Session.Verdict

/-!
Identities and depths over the inputs of a session. The identities in the trees that an input builds are
new, whether or not it has faults, and it records depths for no others. So the depths of what earlier
inputs have built stay as they were recorded, and with them the functions that the machine stores.
-/

namespace Lox

inductive Input
  | parse (source : String)
  | parseExpression (source : String)
  | run (fuel : Nat) (source : String)
  | evaluate (fuel : Nat) (source : String)

def Input.source : Input → String
  | parse source | parseExpression source | run _ source | evaluate _ source => source

namespace Session

def take? (session : Session) : Input → Option Session
  | .parse source => some (session.parse source).2
  | .parseExpression source => some (session.parseExpression source).2
  | .run fuel source => session.run fuel source
  | .evaluate fuel source => (session.evaluate fuel source).map Prod.snd

/-- The identities in the trees that are built for an input, and the session once it has been read. -/
def read (session : Session) : Input → List ExprId × Session
  | .parse source | .run _ source =>
      (Stmt.idsAll (session.parse source).1, (session.parse source).2)
  | .parseExpression source | .evaluate _ source =>
      (Expr.idsAll (session.parseExpression source).1.toList, (session.parseExpression source).2)

def ReadsCleanly (session : Session) (input : Input) : Prop :=
  (session.read input).2.diagnostics.errors = session.diagnostics.errors

variable {session after : Session} {input : Input}

theorem read_issued (session : Session) (input : Input) :
    Issued session.supply.nextExpr (session.read input).2.supply.nextExpr (session.read input).1
      (session.ReadsCleanly input) := by
  cases input with
  | parse source | run fuel source =>
      apply (Parse.program_issued (Token.split (Token.scan source)).1 session.supply).imp
      intro clean
      have errors := (session.errors_parse source).symm.trans clean
      simp only [List.append_right_eq_self, List.append_eq_nil_iff, List.map_eq_nil_iff] at errors
      exact errors.2
  | parseExpression source | evaluate fuel source =>
      apply (Parse.expression_issued (Token.split (Token.scan source)).1 session.supply).imp
      intro clean
      have errors := (session.errors_parseExpression source).symm.trans clean
      simp only [List.append_right_eq_self, List.append_eq_nil_iff, List.map_eq_nil_iff] at errors
      exact errors.2

structure Adds (session : Session) (input : Input) (after : Session) : Prop where
  supply : after.supply = (session.read input).2.supply
  depths : ∃ pairs : List (ExprId × Nat), (∀ pair ∈ pairs, pair.1 ∈ (session.read input).1) ∧
    after.machine.depths = (session.machine.record pairs).depths

theorem supply_of_performReporting {α : Type} {step : Run α} {result : Option α}
    (performed : session.performReporting step = some (result, after)) :
    after.supply = session.supply := by
  obtain ⟨value, machine, -, -, rfl⟩ | ⟨error, machine, -, -, rfl⟩ :=
    performReporting_cases performed
  · rfl
  · rfl

theorem adds_run {fuel : Nat} {source : String} (ran : session.run fuel source = some after) :
    session.Adds (.run fuel source) after := by
  have found := (Stmt.followsAll .topLevel (session.parse source).1).ids
    (Stmt.visitsAll_ids .topLevel _)
  simp only [run] at ran
  split at ran
  · cases ran
    exact ⟨rfl, [], by simp, rfl⟩
  · split at ran
    · cases ran
      exact ⟨rfl, _, found, rfl⟩
    · simp only [Option.map_eq_some_iff] at ran
      obtain ⟨⟨result, last⟩, performed, rfl⟩ := ran
      have kept := performReporting_kept (interpret_keeps fuel _) performed
      have supply := supply_of_performReporting performed
      exact ⟨supply, _, found, kept.depths⟩

theorem adds_evaluate {fuel : Nat} {source : String} {value : Option Value}
    (evaluated : session.evaluate fuel source = some (value, after)) :
    session.Adds (.evaluate fuel source) after := by
  rcases read : session.parseExpression source with ⟨tree, parsed⟩
  obtain rfl : (session.parseExpression source).2 = parsed := by rw [read]
  simp only [evaluate] at evaluated
  rw [read] at evaluated
  cases tree with
  | none =>
      cases evaluated
      exact ⟨rfl, [], by simp, rfl⟩
  | some expr =>
      have ids : (session.read (.evaluate fuel source)).1 = expr.ids := by
        have first : (session.parseExpression source).1 = some expr := by rw [read]
        show Expr.idsAll (session.parseExpression source).1.toList = expr.ids
        rw [first, Option.toList_some, Expr.idsAll_single]
      have found : ∀ pair ∈ (Resolution.ofExpr expr).depths,
          pair.1 ∈ (session.read (.evaluate fuel source)).1 := by
        rw [ids]
        refine (expr.follows .topLevel .outside none).ids ?_
        rw [Site.visits_ids]
        exact expr.uses_ids
      dsimp only at evaluated
      split at evaluated
      · cases evaluated
        exact ⟨rfl, [], by simp, rfl⟩
      · split at evaluated
        · cases evaluated
          exact ⟨rfl, _, found, rfl⟩
        · have kept := performReporting_kept (evaluate_keeps fuel expr) evaluated
          have supply := supply_of_performReporting evaluated
          exact ⟨supply, _, found, kept.depths⟩

theorem adds_of_take (taken : session.take? input = some after) : session.Adds input after := by
  cases input with
  | parse source | parseExpression source =>
      cases taken
      exact ⟨rfl, [], by simp, rfl⟩
  | run fuel source => exact adds_run taken
  | evaluate fuel source =>
      obtain ⟨⟨value, last⟩, evaluated, rfl⟩ := Option.map_eq_some_iff.mp taken
      exact adds_evaluate evaluated

theorem take_issued (taken : session.take? input = some after) :
    Issued session.supply.nextExpr after.supply.nextExpr (session.read input).1
      (session.ReadsCleanly input) := by
  rw [(adds_of_take taken).supply]
  exact session.read_issued input

theorem take_depthOf? (taken : session.take? input = some after) {id : ExprId}
    (old : id < session.supply.nextExpr) : after.depthOf? id = session.depthOf? id := by
  obtain ⟨pairs, listed, depths⟩ := (adds_of_take taken).depths
  simp only [depthOf?, depths]
  apply Machine.depths_record_of_absent
  intro pair member same
  have new := (session.read_issued input).bounds pair.1 (listed pair member)
  exact absurd (same ▸ new.1) (Nat.not_le_of_lt old)

inductive Takes : Session → List ExprId → Session → Prop
  | none (session : Session) : Takes session [] session
  | next {session middle after : Session} {ids : List ExprId} (input : Input) :
      session.take? input = some middle → Takes middle ids after →
      Takes session ((session.read input).1 ++ ids) after

theorem Takes.issued {ids : List ExprId} (takes : Takes session ids after) :
    Issued session.supply.nextExpr after.supply.nextExpr ids False := by
  induction takes with
  | none session => exact .nil _ _
  | next input taken _ ih => exact ((take_issued taken).imp False.elim).append ih

theorem Takes.depthOf? {ids : List ExprId} (takes : Takes session ids after) {id : ExprId}
    (old : id < session.supply.nextExpr) : after.depthOf? id = session.depthOf? id := by
  induction takes with
  | none session => rfl
  | next input taken _ ih =>
      have le := (take_issued taken).le
      exact (ih (Nat.lt_of_lt_of_le old le)).trans (take_depthOf? taken old)

/-- The sessions that a host comes to by giving these sources as inputs, one after the other; in between
it may forget the faults or what programs have defined. -/
inductive Given : List String → Session → Prop
  | new (host : Host) (maxCallDepth : Nat) : Given [] (.new host maxCallDepth)
  | take {sources : List String} {session after : Session} (input : Input) :
      Given sources session → session.take? input = some after →
      Given (sources ++ [input.source]) after
  | clear {sources : List String} {session : Session} :
      Given sources session → Given sources session.clear
  | reset {sources : List String} {session : Session} :
      Given sources session → Given sources session.reset

theorem Given.coheres {sources : List String} (given : Given sources session) :
    ∃ history : History, history.Coheres session := by
  induction given with
  | new host maxCallDepth => exact ⟨{}, History.coheres_fresh rfl⟩
  | reset => exact ⟨{}, History.coheres_fresh rfl⟩
  | clear _ ih =>
      obtain ⟨history, coheres⟩ := ih
      exact ⟨history, coheres.advance rfl le_rfl⟩
  | @take sources session after input _ taken ih =>
      obtain ⟨history, coheres⟩ := ih
      cases input with
      | parse source =>
          cases taken
          exact ⟨history, coheres.advance rfl (Parse.program_issued _ _).le⟩
      | parseExpression source =>
          cases taken
          exact ⟨history, coheres.advance rfl (Parse.expression_issued _ _).le⟩
      | run fuel source => exact ⟨_, coheres.run taken⟩
      | evaluate fuel source =>
          obtain ⟨⟨value, last⟩, evaluated, rfl⟩ := Option.map_eq_some_iff.mp taken
          exact ⟨_, coheres.evaluate evaluated⟩

end Session

/-- The functions that a value has in it: itself, or the methods of its class and of the classes that
this inherits from. -/
def Value.Has (value : Value) (closure : Closure) : Prop :=
  match value with
  | .callable (.function own) => own = closure
  | .callable (.constructor cls) | .object ⟨_, cls⟩ =>
      ∃ body ∈ cls.chain, ∃ name : String, body.methods[name]? = some closure
  | _ => False

def Machine.Stores (machine : Machine) (closure : Closure) : Prop :=
  ∃ value : Value, value.Has closure ∧
    ((∃ ref name, machine.scopes.lookUp? ref name = some value) ∨
      ∃ inst name, machine.field? inst name = some value)

namespace World

variable {world : World} {store : Scopes}

theorem ValueSound.visited {value : Value} {closure : Closure}
    (sound : world.ValueSound store value) (has : value.Has closure) :
    ∀ id ∈ closure.decl.ids, ∃ visit, world.visits visit ∧ visit.id = id := by
  have admitted : ∃ site, world.AdmitsFunction site closure.decl := by
    have method {cls : ClassObject} (sound : world.ClassSound store cls)
        (has : ∃ body ∈ cls.chain, ∃ name : String, body.methods[name]? = some closure) :
        ∃ site, world.AdmitsFunction site closure.decl := by
      obtain ⟨body, member, name, found⟩ := has
      obtain ⟨site, methods, -, -, admitted⟩ := sound body member name closure found
      exact ⟨_, admitted⟩
    match value with
    | .callable (.function own) =>
        obtain rfl : own = closure := has
        obtain ⟨site, -, admitted⟩ := sound
        exact ⟨site, admitted⟩
    | .callable (.constructor cls) => exact method sound has
    | .object ⟨_, cls⟩ => exact method sound has
    | .nil | .bool _ | .number _ | .string _ | .callable (.native _) => exact has.elim
  obtain ⟨site, admitted⟩ := admitted
  intro id member
  obtain ⟨visit, visited, same⟩ :=
    List.mem_map.mp ((closure.decl.visits_ids site).mem_iff.mpr member)
  exact ⟨visit, admitted.visited visit visited, same⟩

end World

theorem History.Coheres.old {history : History} {session : Session} {closure : Closure}
    (coheres : history.Coheres session) (stored : session.machine.Stores closure) :
    ∀ id ∈ closure.decl.ids, id < session.supply.nextExpr := by
  obtain ⟨value, has, origin⟩ := stored
  have sound : (history.world session.machine).ValueSound session.machine.scopes value := by
    rcases origin with ⟨ref, name, bound⟩ | ⟨inst, name, found⟩
    · exact coheres.holds.bound ref name value bound
    · exact coheres.holds.fields inst name value found
  intro id member
  obtain ⟨visit, visited, rfl⟩ := sound.visited has id member
  exact coheres.given visit visited

/-- The identities in the trees that an input builds, with or without faults, lie between the next
identity before it and the next after it, each at most once, and if it is read without an error they are
all of these; no depth changes that belongs to an older one. Over many inputs no identity is used twice.
So the depths of all the names in a function that the machine stores stay as they are, whatever inputs
follow. -/
theorem identities_are_used_once :
    (∀ (session after : Session) (input : Input), session.take? input = some after →
      (session.read input).1.Nodup ∧
        (∀ id ∈ (session.read input).1,
          session.supply.nextExpr ≤ id ∧ id < after.supply.nextExpr) ∧
        (session.ReadsCleanly input → (session.read input).1.Perm
          (List.range' session.supply.nextExpr
            (after.supply.nextExpr - session.supply.nextExpr))) ∧
        ∀ id < session.supply.nextExpr, after.depthOf? id = session.depthOf? id) ∧
    (∀ (session after : Session) (ids : List ExprId), session.Takes ids after →
      ids.Nodup ∧
        (∀ id ∈ ids, session.supply.nextExpr ≤ id ∧ id < after.supply.nextExpr) ∧
        ∀ id < session.supply.nextExpr, after.depthOf? id = session.depthOf? id) ∧
    ∀ (sources : List String) (session : Session) (closure : Closure),
      Session.Given sources session → session.machine.Stores closure →
      ∀ (ids : List ExprId) (after : Session), session.Takes ids after →
        ∀ id ∈ closure.decl.ids, id ∉ ids ∧ after.depthOf? id = session.depthOf? id := by
  refine ⟨?_, ?_, ?_⟩
  · intro session after input taken
    have issued := Session.take_issued taken
    exact ⟨issued.nodup, issued.bounds, issued.range, fun id old => Session.take_depthOf? taken old⟩
  · intro session after ids takes
    exact ⟨takes.issued.nodup, takes.issued.bounds, fun id old => takes.depthOf? old⟩
  · intro sources session closure given stored ids after takes id member
    obtain ⟨history, coheres⟩ := given.coheres
    have old := coheres.old stored id member
    refine ⟨fun reused => ?_, takes.depthOf? old⟩
    have new := takes.issued.bounds id reused
    exact absurd new.1 (Nat.not_le_of_lt old)

/-- A function is declared; then an input with a fault in it takes two identities and keeps one. -/
theorem identities_are_used_once_after_fault :
    ∃ session after closure,
      (Session.new {} 8).take? (.run 12 "fun f(a) { { print a; } }") = some session ∧
      session.machine.Stores closure ∧ closure.decl.ids = [0] ∧
      session.Takes [1] after ∧ after.supply.nextExpr = 3 ∧
      0 ∉ [1] ∧ after.depthOf? 0 = some 1 := by
  let start := Session.new {} 8
  let a : Token := ⟨.identifier, "a", none, 1⟩
  let f : Token := ⟨.identifier, "f", none, 1⟩
  let printed : Stmt := .print ⟨.printWord, "print", none, 1⟩ (.var 0 a)
  let closure : Closure := ⟨⟨0, f, [a], [.block [printed]]⟩, [⟨0⟩], false⟩
  let program : List Stmt := [.functionDecl closure.decl]
  have parsed : start.parse "fun f(a) { { print a; } }" =
      (program, { start with supply := ⟨1, 1⟩ }) := by cbv
  let resolved := ({ start with supply := ⟨1, 1⟩ } : Session).resolve (.ofProgram program)
  let session : Session := { resolved with
    machine.scopes := resolved.machine.scopes.define [⟨0⟩] "f" (.function closure)
    machine.host.sink := resolved.machine.host.sink.flush.2 }
  have ran : start.take? (.run 12 "fun f(a) { { print a; } }") = some session := by
    simp only [Session.take?, Session.run, parsed]
    rfl
  have stored : session.machine.Stores closure := by
    have bound := resolved.machine.scopes.lookUp?_define ⟨0⟩ [] "f" (.function closure) ⟨0⟩ "f"
    rw [if_pos ⟨rfl, rfl, by decide⟩] at bound
    exact ⟨.function closure, rfl, .inl ⟨⟨0⟩, "f", bound⟩⟩
  have depths : session.machine.depths = (start.machine.record [(0, 1)]).depths := rfl
  have recorded : session.depthOf? 0 = some 1 := by
    rw [Session.depthOf?, depths]
    exact Machine.depths_record_of_mem (by decide) (by simp)
  -- the second input has a statement and then a block that is cut short
  let tokens : List Token := [a, ⟨.semicolon, ";", none, 1⟩, ⟨.leftBrace, "\x7b", none, 1⟩, a,
    ⟨.equal, "=", none, 1⟩, .ending 1]
  have scanned : Token.split (Token.scan "a; \x7b a =") = (tokens, []) := by cbv
  have supply : session.supply = ⟨1, 1⟩ := rfl
  obtain ⟨errors, reread⟩ : ∃ errors, Parse.program tokens ⟨1, 1⟩ =
      ⟨[.expression (.var 1 a)], errors, ⟨3, 1⟩⟩ := ⟨_, by cbv⟩
  have read : session.read (.parse "a; \x7b a =") = ([1], (session.parse "a; \x7b a =").2) ∧
      (session.parse "a; \x7b a =").2.supply = ⟨3, 1⟩ := by
    simp only [Session.read, Session.parse, Session.tokenize, scanned, Session.report, supply,
      reread]
    exact ⟨rfl, trivial⟩
  have takes := Session.Takes.next (.parse "a; \x7b a =") rfl
    (.none (session.parse "a; \x7b a =").2)
  rw [read.1] at takes
  have ids : closure.decl.ids = [0] := rfl
  have kept := identities_are_used_once.2.2 _ session closure
    (.take _ (.new {} 8) ran) stored _ _ takes 0 (by rw [ids]; exact List.mem_singleton_self 0)
  exact ⟨session, _, closure, ran, stored, ids, takes, congrArg Supply.nextExpr read.2, kept.1,
    kept.2.trans recorded⟩

end Lox
