import Lox.CommandLine
import Lox.Proofs.Scoping.Shift
import Lox.Proofs.Session.Sourced

/-!
A session that is reset behaves like a new one. Its machine is as good as new; what is left of its past
is how many identities were given out, how much was written and how often the output was flushed. Two
sessions that differ only in this go in step, and nobody who gives them inputs can tell them apart.
-/

namespace Lox

/-- From now on both sinks fail at the same lines and at the same times when they are flushed. -/
structure Sink.Alike (sink sink' : Sink) : Prop where
  refusal : ∀ count, sink'.refusal (sink'.offered + count) = sink.refusal (sink.offered + count)
  flushFault : ∀ count,
    sink'.flushFault (sink'.flushed + count) = sink.flushFault (sink.flushed + count)

def Clock.Alike (clock clock' : Clock) : Prop :=
  ∀ count, clock'.time (clock'.consulted + count) = clock.time (clock.consulted + count)

structure Host.Alike (host host' : Host) : Prop where
  sink : host.sink.Alike host'.sink
  input : host'.input = host.input
  files : host'.files = host.files
  clock : host.clock.Alike host'.clock

theorem Clock.Alike.read {clock clock' : Clock} (alike : clock.Alike clock') :
    clock'.read.1 = clock.read.1 ∧ clock.read.2.Alike clock'.read.2 := by
  have next (count : Nat) := alike (1 + count)
  simp only [← Nat.add_assoc] at next
  exact ⟨alike 0, next⟩

/-- The same lines have been written after those that stood there before. -/
def Sink.Extends (before before' : Array String) (sink sink' : Sink) : Prop :=
  ∃ written, sink.lines = before ++ written ∧ sink'.lines = before' ++ written

section Sinks

variable {before before' : Array String} {sink sink' : Sink}

theorem Sink.Alike.writeLine (alike : sink.Alike sink') (text : String) :
    (sink'.writeLine text).1 = (sink.writeLine text).1 ∧
      (sink.writeLine text).2.Alike (sink'.writeLine text).2 := by
  have next (count : Nat) := alike.refusal (1 + count)
  simp only [← Nat.add_assoc] at next
  have now : sink'.refusal sink'.offered = sink.refusal sink.offered := alike.refusal 0
  simp only [Sink.writeLine, now]
  cases sink.refusal sink.offered <;> exact ⟨rfl, next, alike.flushFault⟩

theorem Sink.Extends.writeLine (lines : Sink.Extends before before' sink sink')
    (alike : sink.Alike sink') (text : String) :
    Sink.Extends before before' (sink.writeLine text).2 (sink'.writeLine text).2 := by
  obtain ⟨written, lines, lines'⟩ := lines
  have now : sink'.refusal sink'.offered = sink.refusal sink.offered := alike.refusal 0
  simp only [Sink.writeLine, now]
  cases sink.refusal sink.offered with
  | some fault => exact ⟨written, lines, lines'⟩
  | none => exact ⟨written.push text, by simp [lines], by simp [lines']⟩

theorem Sink.Alike.flush (alike : sink.Alike sink') :
    sink'.flush.1 = sink.flush.1 ∧ sink.flush.2.Alike sink'.flush.2 := by
  have next (count : Nat) := alike.flushFault (1 + count)
  simp only [← Nat.add_assoc] at next
  have now : sink'.flushFault sink'.flushed = sink.flushFault sink.flushed := alike.flushFault 0
  refine ⟨?_, alike.refusal, next⟩
  simp only [Sink.flush, now]

end Sinks

section Shifted

variable {offset : Supply}

theorem Expr.forall₂_shiftAll (exprs : List Expr) :
    List.Forall₂ (fun expr expr' => expr' = expr.shift offset) exprs
      (Expr.shiftAll offset exprs) := by
  induction exprs with
  | nil => exact .nil
  | cons first rest ih => exact .cons rfl ih

theorem Stmt.forall₂_shiftAll (stmts : List Stmt) :
    List.Forall₂ (fun stmt stmt' => stmt' = stmt.shift offset) stmts
      (Stmt.shiftAll offset stmts) := by
  induction stmts with
  | nil => exact .nil
  | cons first rest ih => exact .cons rfl ih

theorem FunctionDecl.forall₂_shiftAll (decls : List FunctionDecl) :
    List.Forall₂ (fun decl decl' => decl' = decl.shift offset) decls
      (FunctionDecl.shiftAll offset decls) := by
  induction decls with
  | nil => exact .nil
  | cons first rest ih => exact .cons rfl ih

theorem Expr.rel_shift (expr : Option Expr) :
    Option.Rel (fun expr expr' => expr' = expr.shift offset) expr
      (expr.map (Expr.shift offset)) := by
  cases expr with
  | none => exact .none
  | some expr => exact .some rfl

def Supply.pairing (offset : Supply) (before before' : Array String) : Pairing where
  Tokens token token' := token' = token
  Ids id id' := id' = id + offset.nextExpr
  Exprs expr expr' := expr' = expr.shift offset
  Stmts stmt stmt' := stmt' = stmt.shift offset
  Decls decl decl' := decl' = decl.shift offset
  Hosts host host' := host.Alike host' ∧ Sink.Extends before before' host.sink host'.sink
  kind := congrArg Token.kind
  lexeme := congrArg Token.lexeme
  expr := by
    rintro expr _ rfl
    cases expr with
    | literal value => exact .literal value
    | grouping inner => exact .grouping rfl
    | unary operator operand => exact .unary rfl rfl
    | binary left operator right => exact .binary rfl rfl rfl
    | logical left operator right => exact .logical rfl rfl rfl
    | comma left operator right => exact .comma rfl rfl
    | conditional condition thenBranch elseBranch => exact .conditional rfl rfl rfl
    | var id name => exact .var rfl rfl
    | assign id name value => exact .assign rfl rfl rfl
    | call callee paren arguments => exact .call rfl rfl (Expr.forall₂_shiftAll arguments)
    | get object name => exact .get rfl rfl
    | set object name value => exact .set rfl rfl rfl
    | this id keyword => exact .this rfl rfl
    | super id keyword method => exact .super rfl rfl rfl
  stmt := by
    rintro stmt _ rfl
    cases stmt with
    | expression value => exact .expression rfl
    | print keyword value => exact .print rfl rfl
    | varDecl name initializer => exact .varDecl trivial rfl (Expr.rel_shift initializer)
    | block body => exact .block (Stmt.forall₂_shiftAll body)
    | ifThen condition thenBranch => exact .ifThen rfl rfl
    | ifElse condition thenBranch elseBranch => exact .ifElse rfl rfl rfl
    | whileLoop condition body => exact .whileLoop rfl rfl
    | functionDecl decl => exact .functionDecl trivial rfl
    | returnStmt keyword value => exact .returnStmt (Expr.rel_shift value)
    | classDecl name superclass methods =>
        exact .classDecl trivial rfl (Expr.rel_shift superclass)
          (FunctionDecl.forall₂_shiftAll methods)
  decl := by
    rintro ⟨id, name, params, body⟩ _ rfl
    exact ⟨rfl, List.forall₂_same.mpr fun _ _ => rfl, Stmt.forall₂_shiftAll body⟩
  identity := by
    rintro ⟨id, _, _, _⟩ _ ⟨other, _, _, _⟩ _ rfl rfl
    exact Nat.add_right_cancel_iff
  files hosts := hosts.1.files
  clock := by
    rintro host host' ⟨alike, lines⟩
    obtain ⟨same, clock⟩ := alike.clock.read
    exact ⟨same, { alike with clock }, lines⟩
  written files hosts := ⟨{ hosts.1 with files := rfl }, hosts.2⟩
  takeLine := by
    rintro host host' ⟨alike, lines⟩
    unfold Host.takeLine
    rw [alike.input]
    split
    · exact ⟨rfl, alike, lines⟩
    · dsimp only
      split <;> exact ⟨rfl, { alike with input := rfl }, lines⟩
  writeLine := by
    rintro host host' text ⟨alike, lines⟩
    obtain ⟨same, sink⟩ := alike.sink.writeLine text
    exact ⟨same, { alike with sink }, lines.writeLine alike.sink text⟩

variable {before before' : Array String} {machine machine' : Machine}

theorem Supply.flushes {host host' : Host}
    (hosts : (offset.pairing before before').Hosts host host') :
    host'.sink.flush.1 = host.sink.flush.1 ∧
      (offset.pairing before before').Hosts { host with sink := host.sink.flush.2 }
        { host' with sink := host'.sink.flush.2 } := by
  obtain ⟨alike, lines⟩ := hosts
  obtain ⟨same, sink⟩ := alike.sink.flush
  exact ⟨same, { alike with sink }, lines⟩

theorem Machine.Pairs.recorded (paired : machine.Pairs (offset.pairing before before') machine')
    (resolution : Resolution) :
    (machine.record resolution.depths).Pairs (offset.pairing before before')
      (machine'.record (resolution.shift offset).depths) := by
  refine { paired with depths := ?_ }
  rintro id _ rfl
  have start := paired.depths id _ rfl
  simp only [Machine.record, Resolution.shift]
  generalize machine.depths = table at start
  generalize machine'.depths = table' at start
  induction resolution.depths generalizing table table' with
  | nil => exact start
  | cons pair rest ih =>
      apply ih
      simp only [Std.TreeMap.getElem?_insert, start, Prod.map_fst, Prod.map_snd,
        Nat.compare_eq_eq, Nat.add_right_cancel_iff, id_eq]

end Shifted

namespace Session

structure Shifted (offset : Supply) (before before' : Array String) (session session' : Session) :
    Prop where
  machine : session.machine.Pairs (offset.pairing before before') session'.machine
  supply : session'.supply = session.supply.plus offset
  diagnostics : session'.diagnostics = session.diagnostics

namespace Shifted

variable {offset : Supply} {before before' : Array String} {session session' : Session}

theorem hadError (shifted : Shifted offset before before' session session') :
    session'.hadError = session.hadError :=
  congrArg Diagnostics.hadError shifted.diagnostics

theorem report (shifted : Shifted offset before before' session session')
    (found : List Diagnostic) :
    Shifted offset before before' (session.report found) (session'.report found) :=
  { shifted with diagnostics := congrArg (·.report found) shifted.diagnostics }

theorem parse (shifted : Shifted offset before before' session session') (source : String) :
    (session'.parse source).1 = Stmt.shiftAll offset (session.parse source).1 ∧
      Shifted offset before before' (session.parse source).2 (session'.parse source).2 := by
  have read := Parse.program_shift offset (Token.split (Token.scan source)).1 session.supply
  rw [← shifted.supply] at read
  refine ⟨congrArg Reading.tree read, shifted.machine, congrArg Reading.supply read, ?_⟩
  simp only [Session.parse, Session.tokenize, Session.report, read, shifted.diagnostics]

theorem parseExpression (shifted : Shifted offset before before' session session')
    (source : String) :
    (session'.parseExpression source).1 =
        (session.parseExpression source).1.map (Expr.shift offset) ∧
      Shifted offset before before' (session.parseExpression source).2
        (session'.parseExpression source).2 := by
  have read := Parse.expression_shift offset (Token.split (Token.scan source)).1 session.supply
  rw [← shifted.supply] at read
  refine ⟨congrArg Reading.tree read, shifted.machine, congrArg Reading.supply read, ?_⟩
  simp only [Session.parseExpression, Session.tokenize, Session.report, read, shifted.diagnostics]

theorem resolve (shifted : Shifted offset before before' session session')
    (resolution : Resolution) :
    Shifted offset before before' (session.resolve resolution)
      (session'.resolve (resolution.shift offset)) :=
  { shifted.report (resolution.errors.map .scoping) with
    machine := shifted.machine.recorded resolution }

theorem performReporting {α : Type} {R : α → α → Prop} {step step' : Run α}
    (shifted : Shifted offset before before' session session')
    (ended : Ended (offset.pairing before before') R (step session.machine)
      (step' session'.machine)) :
    Option.Rel
      (fun result result' => Option.Rel R result.1 result'.1 ∧
        Shifted offset before before' result.2 result'.2)
      (session.performReporting step) (session'.performReporting step') := by
  unfold Session.performReporting perform
  generalize step session.machine = result at ended
  generalize step' session'.machine = result' at ended
  cases ended with
  | ok related machine => exact .some ⟨.some related, { shifted with machine }⟩
  | error raised machine =>
      cases raised with
      | outOfFuel => exact .none
      | error same =>
          obtain rfl := same.eq fun _ _ => id
          have left : Shifted offset before before' { session with machine := _ }
            { session' with machine := _ } := { shifted with machine }
          exact .some ⟨.none, left.report _⟩

theorem run (shifted : Shifted offset before before' session session') (fuel : Nat)
    (source : String) :
    Option.Rel (Shifted offset before before') (session.run fuel source)
      (session'.run fuel source) := by
  obtain ⟨tree, parsed⟩ := shifted.parse source
  have resolved := parsed.resolve (.ofProgram (session.parse source).1)
  rw [← Resolution.ofProgram_shift, ← tree] at resolved
  simp only [Session.run, parsed.hadError, resolved.hadError]
  split
  · exact .some parsed
  · split
    · exact .some resolved
    · have ended := executeProgram_pairs fuel (Stmt.forall₂_shiftAll (session.parse source).1) _ _
        resolved.machine
      rw [← tree] at ended
      exact relMap (fun _ _ related => related.2)
        (resolved.performReporting (interpret_ended Supply.flushes ended))

theorem evaluate (shifted : Shifted offset before before' session session') (fuel : Nat)
    (source : String) :
    Option.Rel
      (fun result result' => result'.1.map Value.text = result.1.map Value.text ∧
        Shifted offset before before' result.2 result'.2)
      (session.evaluate fuel source) (session'.evaluate fuel source) := by
  obtain ⟨tree, parsed⟩ := shifted.parseExpression source
  unfold Session.evaluate
  generalize session.parseExpression source = read at tree parsed
  generalize session'.parseExpression source = read' at tree parsed
  obtain ⟨expr, first⟩ := read
  obtain ⟨expr', first'⟩ := read'
  dsimp only at tree parsed
  subst tree
  cases expr with
  | none => exact .some ⟨rfl, parsed⟩
  | some expr =>
      have resolved := parsed.resolve (.ofExpr expr)
      rw [← Resolution.ofExpr_shift] at resolved
      simp only [Option.map_some, parsed.hadError, resolved.hadError]
      split
      · exact .some ⟨rfl, parsed⟩
      · split
        · exact .some ⟨rfl, resolved⟩
        · have trees : (offset.pairing before before').Exprs expr (expr.shift offset) := rfl
          have ended := evaluate_pairs fuel trees _ _ resolved.machine
          refine relImp (fun result result' related => ⟨?_, related.2⟩)
            (resolved.performReporting ended)
          rcases relCases related.1 with ⟨none, none'⟩ | ⟨value, value', found, found', same⟩
          · rw [none, none']
          · rw [found, found', Option.map_some, Option.map_some, same.text]

end Shifted

end Session

inductive Request
  | input (input : Input)
  | clear
  | reset

/-- What is seen of a session when it has been asked: the lines that were written on the way, the text of
a value, the faults reported so far and the files. -/
structure Observation where
  written : List String
  shown : Option String
  diagnostics : Diagnostics
  files : Files

namespace Session

def answer? (session : Session) : Request → Option (Option String × Session)
  | .input (.evaluate fuel source) =>
      (session.evaluate fuel source).map (Prod.map (Option.map Value.text) id)
  | .input input => (session.take? input).map (none, ·)
  | .clear => some (none, session.clear)
  | .reset => some (none, session.reset)

def seen (session : Session) (shown : Option String) (after : Session) : Observation where
  written := (CommandLine.written after).drop (CommandLine.written session).length
  shown := shown
  diagnostics := after.diagnostics
  files := after.machine.host.files

/-- What is seen when a session is asked one thing after the other. Nothing more is seen once the fuel
does not suffice. -/
def observe (session : Session) : List Request → List (Option Observation)
  | [] => []
  | request :: rest =>
      match session.answer? request with
      | none => [none]
      | some (shown, after) => some (session.seen shown after) :: after.observe rest

namespace Shifted

variable {offset : Supply} {before before' : Array String} {session session' : Session}

theorem answer? (shifted : Shifted offset before before' session session') (request : Request) :
    Option.Rel
      (fun result result' => result'.1 = result.1 ∧
        Shifted offset before before' result.2 result'.2)
      (session.answer? request) (session'.answer? request) := by
  cases request with
  | clear => exact .some ⟨rfl, { shifted with diagnostics := rfl }⟩
  | reset =>
      have machine : session.machine.reset.Pairs (offset.pairing before before')
          session'.machine.reset := by
        rw [Machine.reset, Machine.reset, shifted.machine.maxCallDepth]
        exact .fresh _ shifted.machine.host
      exact .some ⟨rfl, { shifted with machine }⟩
  | input input =>
      cases input with
      | parse source => exact .some ⟨rfl, (shifted.parse source).2⟩
      | parseExpression source => exact .some ⟨rfl, (shifted.parseExpression source).2⟩
      | run fuel source => exact relMap (fun _ _ after => ⟨rfl, after⟩) (shifted.run fuel source)
      | evaluate fuel source =>
          simp only [Session.answer?]
          exact relMap (fun _ _ related => ⟨related.1, related.2⟩) (shifted.evaluate fuel source)

theorem seen {after after' : Session} (shifted : Shifted offset before before' session session')
    (later : Shifted offset before before' after after') (shown : Option String) :
    session'.seen shown after' = session.seen shown after := by
  obtain ⟨first, lines, lines'⟩ := shifted.machine.host.2
  obtain ⟨second, more, more'⟩ := later.machine.host.2
  unfold Session.seen CommandLine.written
  rw [lines, lines', more, more', later.diagnostics, later.machine.host.1.files]
  simp only [Array.toList_append, List.length_append, List.drop_length_add_append]

theorem observe (shifted : Shifted offset before before' session session')
    (requests : List Request) : session'.observe requests = session.observe requests := by
  induction requests generalizing session session' with
  | nil => rfl
  | cons request rest ih =>
      simp only [Session.observe]
      rcases relCases (shifted.answer? request) with
        ⟨none, none'⟩ | ⟨result, result', found, found', shown, after⟩
      · rw [none, none']
      · rw [found, found']
        dsimp only
        rw [ih after, shown, shifted.seen after]

end Shifted

end Session

theorem Host.Alike.refl (host : Host) : host.Alike host :=
  ⟨⟨fun _ => rfl, fun _ => rfl⟩, rfl, rfl, fun _ => rfl⟩

theorem Session.shifted_new {host host' : Host} (alike : host.Alike host') (maxCallDepth : Nat)
    (supply : Supply) :
    Shifted supply host.sink.lines host'.sink.lines (.new host maxCallDepth)
      { Session.new host' maxCallDepth with supply } where
  machine := .fresh maxCallDepth ⟨alike, #[], by simp, by simp⟩
  supply := by simp only [Session.new, Supply.plus, Nat.zero_add]
  diagnostics := rfl

/-- When a session has been reset and its faults have been cleared, it is seen doing what a new session
does, whatever it is asked, though it goes on counting identities from where it was. Nor does it matter
at which identities the new session begins. -/
theorem reset_forgets_everything (session : Session) {host : Host}
    (alike : session.machine.host.Alike host) (first : Supply) (requests : List Request) :
    session.reset.clear.supply = session.supply ∧
      session.reset.clear.observe requests =
        ({ Session.new host session.machine.maxCallDepth with supply := first } : Session).observe
          requests := by
  have old := Session.shifted_new (.refl session.machine.host) session.machine.maxCallDepth
    session.supply
  have new := Session.shifted_new alike session.machine.maxCallDepth first
  exact ⟨rfl, (old.observe requests).trans (new.observe requests).symm⟩

/-- A session has written a line, defined a variable and ended with an error. -/
theorem reset_forgets_everything_after_error :
    let requests : List Request :=
      [.input (.run 12 "print b;"), .clear, .input (.evaluate 12 "\"c\"")]
    ∃ session,
      (Session.new {} 8).run 12 "print \"a\"; var b = nil; b();" = some session ∧
      session.hadRuntimeError = true ∧ session.supply = ⟨1, 0⟩ ∧
      session.reset.clear.observe requests = [
        some ⟨[], none, ⟨[.runtime ⟨.undefinedVariable "b", some ⟨.identifier, "b", none, 1⟩⟩],
          false, true⟩, .empty []⟩,
        some ⟨[], none, {}, .empty []⟩, some ⟨[], some "c", {}, .empty []⟩] := by
  intro requests
  have parsed : (Session.new {} 8).parse "print \"a\"; var b = nil; b();" =
      ([.print ⟨.printWord, "print", none, 1⟩ (.literal (.string "a")),
        .varDecl ⟨.identifier, "b", none, 1⟩ (some (.literal .nil)),
        .expression (.call (.var 0 ⟨.identifier, "b", none, 1⟩) ⟨.rightParen, ")", none, 1⟩ [])],
        { Session.new {} 8 with supply := ⟨1, 0⟩ }) := by cbv
  obtain ⟨session, ran, failed, supply, alike, limit⟩ : ∃ session,
      (Session.new {} 8).run 12 "print \"a\"; var b = nil; b();" = some session ∧
        session.hadRuntimeError = true ∧ session.supply = ⟨1, 0⟩ ∧
        session.machine.host.Alike {} ∧ session.machine.maxCallDepth = 8 := by
    simp only [Session.run, parsed]
    exact ⟨_, rfl, rfl, rfl, ⟨⟨fun _ => rfl, fun _ => rfl⟩, rfl, rfl, fun _ => rfl⟩, rfl⟩
  obtain ⟨-, forgotten⟩ := reset_forgets_everything session alike {} requests
  refine ⟨session, ran, failed, supply, forgotten.trans ?_⟩
  rw [limit]
  cbv

end Lox
