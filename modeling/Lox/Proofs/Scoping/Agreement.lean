import Mathlib
import Lox.Proofs.Session.Receiver

/-!
The resolver and the evaluator agree. Whenever a variable or `this` is read, the scopes of the machine
are those that were open when the resolver came to the expression, one for one, and the depth that was
recorded for it leads to the scope that had declared the name, where the name has a value.
-/

namespace Lox

def Expr.read? : Expr → Option Use
  | .var id name => some ⟨.read, id, name⟩
  | .this id keyword => some ⟨.this, id, keyword⟩
  | _ => none

theorem mem_boundScopes {pending : Option String} {scopes : List Scope} {depth : Nat}
    {names : Scope} {name : String} (found : scopes[depth]? = some names) (member : name ∈ names)
    (settled : pending ≠ some name) :
    ∃ bound, (boundScopes pending scopes)[depth]? = some bound ∧ name ∈ bound := by
  cases scopes with
  | nil => simp at found
  | cons first outer =>
      cases depth with
      | zero =>
          obtain rfl : first = names := by simpa using found
          exact ⟨_, rfl, by simp [member, settled]⟩
      | succ depth => exact ⟨names, found, member⟩

theorem length_boundScopes (pending : Option String) (scopes : List Scope) :
    (boundScopes pending scopes).length = scopes.length := by
  cases scopes <;> simp [boundScopes]

theorem Visit.depth?_eq_some {visit : Visit} {depth : Nat} (found : visit.depth? = some depth) :
    (∃ names, visit.scopes[depth]? = some names ∧ visit.name.lexeme ∈ names) ∧
      ∀ nearer < depth, ∀ names ∈ visit.scopes[nearer]?, visit.name.lexeme ∉ names := by
  obtain ⟨bound, declared, undeclared⟩ := List.findIdx?_eq_some_iff_getElem.mp found
  refine ⟨⟨visit.scopes[depth], List.getElem?_eq_getElem bound, by simpa using declared⟩, ?_⟩
  intro nearer less names member
  obtain ⟨inside, rfl⟩ := List.getElem?_eq_some_iff.mp member
  simpa using undeclared nearer less

theorem Visit.depth?_eq_none {visit : Visit} :
    visit.depth? = none ↔ ∀ names ∈ visit.scopes, visit.name.lexeme ∉ names := by
  simp [Visit.depth?]

namespace World

variable {world : World} {machine : Machine}

section Stands

variable {store : Scopes} {env : Env} {regions : List Region} {scopes : List Scope}

theorem Stands.chain (stands : world.Stands store env regions scopes) :
    ∃ refs, env = refs ++ world.globals ∧ refs.length = scopes.length ∧
      List.Forall₂ world.Activates refs regions := by
  induction stands with
  | globals => exact ⟨[], rfl, rfl, .nil⟩
  | @inner ref env region regions names scopes activated _ _ _ ih =>
      obtain ⟨refs, rfl, same, activations⟩ := ih
      exact ⟨ref :: refs, rfl, by simp [same], .cons activated activations⟩

theorem Stands.isSome_getAt? (stands : world.Stands store env regions scopes) {depth : Nat}
    {names : Scope} {name : String} (found : scopes[depth]? = some names)
    (member : name ∈ names) : (store.getAt? env depth name).isSome := by
  induction stands generalizing depth with
  | globals => simp at found
  | inner _ _ bound _ ih =>
      cases depth with
      | zero =>
          obtain rfl := Option.some.inj found
          exact bound name member
      | succ depth => exact ih found

end Stands

theorem ReadyExpr.visited {expr : Expr} {use : Use} (ready : world.ReadyExpr machine expr)
    (reads : expr.read? = some use)
    (spelled : (Node.expr expr).Spelled) :
    ∃ visit pending, world.visits visit ∧ visit.use = use ∧ pending ≠ some use.name.lexeme ∧
      world.Stands machine.scopes machine.env visit.regions
        (boundScopes pending visit.scopes) := by
  obtain ⟨site, enclosingClass, pending, stands, notThis, clean, visited⟩ := ready
  cases expr with
  | var id name =>
      cases reads
      refine ⟨_, pending, visited _ List.mem_cons_self, rfl, ?_, stands⟩
      intro same
      simp [Expr.resolve, same, Resolution.error] at clean
  | this id keyword =>
      cases reads
      have found := visited _ List.mem_cons_self
      refine ⟨_, pending, found, rfl, ?_, stands⟩
      have lexeme : keyword.lexeme = "this" := spelled.here.keyword keyword "this" rfl
      rwa [lexeme]
  | _ => cases reads

end World

theorem evaluate_read {fuel : Nat} {expr : Expr} {use : Use} (machine : Machine)
    (reads : expr.read? = some use) :
    evaluate (fuel + 1) expr machine = Run.readVariable use.id use.name machine := by
  cases expr with
  | var id name | this id name =>
      cases reads
      rfl
  | _ => cases reads

/-- In a session that is driven by its inputs, at every moment of the execution of an input without
static faults at which a variable or `this` is read: the walk of the resolver has come to this
expression once; the scopes from the innermost out to the globals are as many as were open then, each
opened for the region at its place; and a depth is recorded exactly if one of them had declared the
name. It is then the distance to the innermost that had, and the name has a value there, which is what
the expression yields. -/
theorem resolver_agrees_with_evaluator {history : History} {session : Session} {fuel : Nat}
    {source : String} {launch : Launch} (driven : history.Driven session)
    (launched : session.launchProgram? fuel source = some launch ∨
      session.launchExpr? fuel source = some launch)
    {fuelLeft : Nat} {expr : Expr} {use : Use} {machine : Machine}
    (reads : expr.read? = some use)
    (reaches : Reaches launch.task launch.session.machine
      (.evaluate (fuelLeft + 1) expr) machine) :
    ∃ visit ∈ (history.add launch).visits, visit.use = use ∧
      (∀ other ∈ (history.add launch).visits, other.id = use.id → other = visit) ∧
      (∃ refs, machine.env = refs ++ machine.globals ∧ refs.length = visit.scopes.length ∧
        List.Forall₂ (history.add launch).Activates refs visit.regions) ∧
      (machine.depths[use.id]? = none ↔ ∀ names ∈ visit.scopes, use.name.lexeme ∉ names) ∧
      ∀ depth, machine.depths[use.id]? = some depth →
        (∃ names, visit.scopes[depth]? = some names ∧ use.name.lexeme ∈ names) ∧
        (∀ nearer < depth, ∀ names ∈ visit.scopes[nearer]?, use.name.lexeme ∉ names) ∧
        ∃ value, machine.scopes.getAt? machine.env depth use.name.lexeme = some value ∧
          evaluate (fuelLeft + 1) expr machine = .ok value machine := by
  have starts : session.Starts launch := ⟨fuel, source, launched⟩
  have coheres := (driven.launches starts).coheres
  obtain ⟨ready, holds⟩ := driven.ready starts reaches
  obtain ⟨⟨_, _, _, _, _, _, _, spelled⟩, -⟩ := driven.admitted starts reaches
  obtain ⟨visit, pending, visited, rfl, settled, stands⟩ :=
    World.ReadyExpr.visited ready reads spelled
  have recorded : machine.depths[visit.id]? = visit.depth? := by
    rw [holds.depths]
    exact coheres.recorded visit visited
  refine ⟨visit, visited, rfl, ?_, ?_, ?_, ?_⟩
  · intro other member same
    exact List.inj_on_of_nodup_map coheres.nodup member visited same
  · obtain ⟨refs, env, length, activations⟩ := stands.chain
    rw [length_boundScopes] at length
    refine ⟨refs, ?_, length, activations⟩
    rw [env, holds.globals]
  · rw [recorded]
    exact Visit.depth?_eq_none
  · intro depth found
    have declared := Visit.depth?_eq_some (recorded.symm.trans found)
    obtain ⟨⟨names, inScope, member⟩, undeclared⟩ := declared
    obtain ⟨bound, inBound, member'⟩ := mem_boundScopes inScope member settled
    obtain ⟨value, read⟩ := Option.isSome_iff_exists.mp (stands.isSome_getAt? inBound member')
    refine ⟨⟨names, inScope, member⟩, undeclared, value, read, ?_⟩
    rw [evaluate_read machine reads]
    refine readVariable_eq ?_
    simp only [Machine.valueOf?, found, read]

/-- A function of an earlier input is called; its parameter is read in a block of its body. -/
theorem resolver_agrees_with_evaluator_across_inputs :
    let a : Token := ⟨.identifier, "a", none, 1⟩
    ∃ history session launch machine, History.Driven history session ∧
      session.launchExpr? 12 "f(nil)" = some launch ∧
      Reaches launch.task launch.session.machine (.evaluate 4 (.var 0 a)) machine ∧
      machine.depths[0]? = some 1 ∧
      (∃ refs, machine.env = refs ++ machine.globals ∧ refs.length = 2) ∧
      ∃ value, machine.scopes.getAt? machine.env 1 "a" = some value ∧
        evaluate 4 (.var 0 a) machine = .ok value machine := by
  intro a
  let start := Session.new {} 8
  let f : Token := ⟨.identifier, "f", none, 1⟩
  let opening : Token := ⟨.leftParen, "(", none, 1⟩
  let closing : Token := ⟨.rightParen, ")", none, 1⟩
  let printed : Stmt := .print ⟨.printWord, "print", none, 1⟩ (.var 0 a)
  let closure : Closure := ⟨⟨0, f, [a], [.block [printed]]⟩, [⟨0⟩], false⟩
  let program : List Stmt := [.functionDecl closure.decl]
  let expr : Expr := .call (.var 1 f) closing [.literal .nil]
  -- the first input declares the function
  have parsed : start.parse "fun f(a) { { print a; } }" =
      (program, { start with supply := ⟨1, 1⟩ }) := by cbv
  let resolved := ({ start with supply := ⟨1, 1⟩ } : Session).resolve (.ofProgram program)
  have launched : start.launchProgram? 12 "fun f(a) { { print a; } }" =
      some ⟨.executeProgram 12 program, Stmt.visitsAll .topLevel program, resolved⟩ := by
    simp only [Session.launchProgram?, parsed]
    rfl
  let session : Session := { resolved with
    machine.scopes := resolved.machine.scopes.define [⟨0⟩] "f" (.function closure)
    machine.host.sink := resolved.machine.host.sink.flush.2 }
  have ran : start.run 12 "fun f(a) { { print a; } }" = some session := by
    simp only [Session.run, parsed]
    rfl
  have driven := History.Driven.run 12 _ (.new {} 8) ran
  rw [launched] at driven
  have depths : session.machine.depths = (start.machine.record [(0, 1)]).depths := rfl
  have recorded : session.machine.depths[0]? = some 1 := by
    rw [depths]
    exact Machine.depths_record_of_mem (by decide) (by simp)
  have unrecorded : session.machine.depths[1]? = none := by
    rw [depths, Machine.depths_record_of_absent (by simp)]
    rfl
  -- the second calls it
  have read : session.parseExpression "f(nil)" =
      (some expr, { session with supply := ⟨2, 1⟩ }) := by
    have tokens : Token.split (Token.scan "f(nil)") =
        ([f, opening, ⟨.nilWord, "nil", none, 1⟩, closing, .ending 1], []) := by cbv
    have supply : session.supply = ⟨1, 1⟩ := rfl
    have parsed : Parse.expression
        [f, opening, ⟨.nilWord, "nil", none, 1⟩, closing, .ending 1] ⟨1, 1⟩ =
          ⟨some expr, [], ⟨2, 1⟩⟩ := by cbv
    simp only [Session.parseExpression, Session.tokenize, tokens, Session.report, supply, parsed]
    rfl
  have launched' : session.launchExpr? 12 "f(nil)" = some ⟨.evaluate 12 expr,
      Site.topLevel.visits expr.uses, { session with supply := ⟨2, 1⟩ }⟩ := by
    simp only [Session.launchExpr?, read]
    rfl
  have callee : evaluate 11 (.var 1 f) session.machine =
      .ok (.function closure) session.machine := by
    have bound := resolved.machine.scopes.lookUp?_define ⟨0⟩ [] "f" (.function closure) ⟨0⟩ "f"
    rw [if_pos ⟨rfl, rfl, by decide⟩] at bound
    have globals : session.machine.globals = [⟨0⟩] := rfl
    refine (evaluate_read _ rfl).trans (readVariable_eq ?_)
    simp only [Machine.valueOf?, unrecorded, Scopes.find?, globals, List.findSome?_cons]
    rw [bound]
  have called : Reaches (.evaluate 12 expr) session.machine _ _ :=
    (Reaches.here.begun (.call callee rfl)).begun (.invoke rfl rfl (by decide))
  have executed := ((called.begun .function).begun .functionBody).begun .firstStmt
  have reaches := ((executed.begun .block).begun .firstStmt).begun .printed
  refine ⟨_, session, _, _, driven, launched', reaches, recorded, ?_⟩
  obtain ⟨visit, -, -, unique, ⟨refs, env, length, -⟩, -, found⟩ :=
    resolver_agrees_with_evaluator driven (.inr launched') rfl reaches
  have same := unique ⟨⟨.read, 0, a⟩, [.block [printed], .function closure.decl], [[], ["a"]]⟩
    (List.mem_append_left _ List.mem_cons_self) rfl
  refine ⟨⟨refs, env, ?_⟩, (found 1 recorded).2.2⟩
  rw [length, ← same]
  rfl

end Lox
