import Lox.Proofs.Parse.Moved
import Lox.Proofs.Run.Pairing
import Lox.Proofs.Session.Identities

/-!
Every tree that is stored in a session comes from a source that the session was given, and its
identities are below the next one. So the machine of the session matches itself, in the sense that no
run tells apart machines that differ in depths for later identities only.
-/

namespace Lox

open Grammar

def Token.From (sources : List String) (token : Token) : Prop :=
  ∃ source ∈ sources, token ∈ Token.ofSource source

def Matching.same (sources : List String) (bound : ExprId) (flushFault : Nat → Option HostFault) :
    Matching where
  Tokens token token' := token' = token ∧ token.From sources
  Ids id := id < bound
  flushFault := flushFault
  kind := by
    rintro token token' ⟨rfl, -⟩
    rfl
  lexeme := by
    rintro token token' ⟨rfl, -⟩
    rfl

theorem Matching.same_weakens {sources sources' : List String} {bound bound' : ExprId}
    {flushFault flushFault' : Nat → Option HostFault} (more : sources ⊆ sources') :
    (same sources bound flushFault).Weakens (same sources' bound' flushFault') := by
  rintro token token' ⟨rfl, source, listed, member⟩
  exact ⟨rfl, source, more listed, member⟩

section Sourced

variable {sources : List String} {flushFault : Nat → Option HostFault} {start after : Supply}
  {words : List Token}

theorem Grammar.StmtDerives.matches_self {stmts : List Stmt}
    (derived : StmtDerives true .declarations start words stmts after)
    (known : ∀ token ∈ words, token.From sources) :
    Stmt.MatchesAll (.same sources after.nextExpr flushFault) stmts stmts := by
  let unbounded : Matching := { Matching.same sources 0 flushFault with Ids := fun _ => True }
  have unmoved : ∀ token ∈ words, unbounded.Tokens token (token.down 0) :=
    fun token member => ⟨rfl, known token member⟩
  have again : StmtDerives true .declarations start (words.map (Token.down 0)) stmts after := by
    rw [show words.map (Token.down 0) = words from List.map_id words]
    exact derived
  have matched := derived.matches again (fun _ => trivial) unmoved
  have issued := Parse.declarations_issued ⟨words, start⟩
  rw [Parse.declarations_eq_iff.mpr derived] at issued
  exact matched.imp (fun _ _ related => related) fun id member _ => (issued.bounds id member).2

theorem Grammar.ExprDerives.matches_self {expr : Expr}
    (derived : ExprDerives .expression start words expr after)
    (known : ∀ token ∈ words, token.From sources) :
    expr.Matches (.same sources after.nextExpr flushFault) expr := by
  let unbounded : Matching := { Matching.same sources 0 flushFault with Ids := fun _ => True }
  have same : ∀ token ∈ words, unbounded.Tokens token token :=
    fun token member => ⟨rfl, known token member⟩
  have matched := derived.matches (fun _ => trivial) same
  have issued := Parse.lone_issued ⟨words, start⟩
  rw [Parse.lone_eq_iff.mpr derived, Parse.clauseIds, Option.toList_some, Expr.idsAll_single] at issued
  exact matched.imp (fun _ _ related => related) fun id member _ => (issued.bounds id member).2

end Sourced

theorem executeProgram_append (fuel : Nat) (stmts stmts' : List Stmt) :
    executeProgram fuel (stmts ++ stmts') =
      (do executeProgram fuel stmts; executeProgram fuel stmts') := by
  induction stmts with
  | nil => rfl
  | cons first rest ih => simp only [List.cons_append, executeProgram, ih, bind_assoc]

section Interpreted

theorem interpret_ended {pairing : Pairing}
    (flushes : ∀ {host host' : Host}, pairing.Hosts host host' →
      host'.sink.flush.1 = host.sink.flush.1 ∧ pairing.Hosts { host with sink := host.sink.flush.2 }
        { host' with sink := host'.sink.flush.2 })
    {machine machine' : Machine} {fuel fuel' : Nat} {stmts stmts' : List Stmt}
    (ended : Ended pairing (fun _ _ => True) (executeProgram fuel stmts machine)
      (executeProgram fuel' stmts' machine')) :
    Ended pairing (fun _ _ => True) (interpret fuel stmts machine)
      (interpret fuel' stmts' machine') := by
  have flushed {after after' : Machine} (paired : after.Pairs pairing after') :
      after.flushed.Pairs pairing after'.flushed := { paired with host := (flushes paired.host).2 }
  rw [interpret_eq, interpret_eq]
  generalize executeProgram fuel stmts machine = result at ended
  generalize executeProgram fuel' stmts' machine' = result' at ended
  cases ended with
  | error raised paired => exact .error raised (flushed paired)
  | @ok _ _ after after' _ paired =>
      dsimp only
      rw [(flushes paired.host).1]
      split
      · exact .ok trivial (flushed paired)
      · exact .error (.error ⟨rfl, .none⟩) (flushed paired)

variable {matching : Matching} {machine machine' : Machine}

theorem Matching.flushes (reliable : ∀ count, matching.flushFault count = none) {host host' : Host}
    (hosts : matching.pairing.Hosts host host') :
    host'.sink.flush.1 = host.sink.flush.1 ∧
      matching.pairing.Hosts { host with sink := host.sink.flush.2 }
        { host' with sink := host'.sink.flush.2 } := by
  obtain ⟨⟨count, rfl⟩, fault⟩ := hosts
  refine ⟨?_, ⟨count + 1, rfl⟩, fault⟩
  simp only [Sink.flush, fault, reliable]

theorem Machine.Pairs.flushed (matched : machine.Pairs matching.pairing machine') :
    machine.flushed.Pairs matching.pairing machine'.flushed := by
  obtain ⟨⟨count, same⟩, fault⟩ := matched.host
  exact { matched with
    host := ⟨⟨count + 1, by simp only [Machine.flushed, Sink.flush, same]⟩, fault⟩ }

theorem Machine.Pairs.flushedOnce (matched : machine.Pairs matching.pairing machine') :
    machine.flushed.Pairs matching.pairing machine' := by
  obtain ⟨⟨count, same⟩, fault⟩ := matched.host
  exact { matched with
    host := ⟨⟨count, by simp only [Machine.flushed, Sink.flush, same]⟩, fault⟩ }

end Interpreted

/-- All trees in the machine come from these sources. -/
def Session.Sourced (sources : List String) (session : Session) : Prop :=
  session.machine.Pairs (Matching.same sources session.supply.nextExpr
    session.machine.host.sink.flushFault).pairing session.machine

namespace Session

variable {sources : List String} {session after : Session}

theorem sourced_fresh {host : Host} {maxCallDepth : Nat}
    (fresh : session.machine = .fresh maxCallDepth host) : Sourced sources session := by
  unfold Sourced
  rw [fresh]
  exact Machine.Pairs.fresh maxCallDepth ⟨⟨_, rfl⟩, rfl⟩

theorem Sourced.record {sources' : List String} (sourced : Sourced sources session)
    (pairs : List (ExprId × Nat)) (more : sources ⊆ sources')
    (le : session.supply.nextExpr ≤ after.supply.nextExpr)
    (recorded : after.machine = session.machine.record pairs) : Sourced sources' after := by
  unfold Sourced
  rw [recorded]
  exact Machine.Pairs.withDepths sourced (Matching.same_weakens more)
    (fun id small => Nat.lt_of_lt_of_le small le) rfl fun _ _ => rfl

theorem machine_of_performReporting {α : Type} {step : Run α} {result : Option α}
    (performed : session.performReporting step = some (result, after)) :
    after.machine = step.final session.machine := by
  unfold Run.final
  obtain ⟨value, machine, ended, -, rfl⟩ | ⟨error, machine, ended, -, rfl⟩ :=
    performReporting_cases performed
  · rw [ended]
  · rw [ended]
    rfl

theorem Sourced.performed {α : Type} {step : Run α} {result : Option α}
    (performed : session.performReporting step = some (result, after))
    (matched : (step.final session.machine).Pairs
      (Matching.same sources session.supply.nextExpr session.machine.host.sink.flushFault).pairing
      (step.final session.machine)) : Sourced sources after := by
  rw [← machine_of_performReporting performed] at matched
  unfold Sourced
  rw [supply_of_performReporting performed, matched.host.2]
  exact matched

theorem from_of_mem_words {source : String} {token : Token}
    (member : token ∈ Parse.words (Token.ofSource source)) :
    token.From (sources ++ [source]) :=
  ⟨source, by simp, List.takeWhile_subset _ member⟩

theorem Sourced.run {fuel : Nat} {source : String} (sourced : Sourced sources session)
    (ran : session.run fuel source = some after) : Sourced (sources ++ [source]) after := by
  have le := (Parse.program_issued (Token.ofSource source) session.supply).le
  have more := List.subset_append_left sources [source]
  simp only [Session.run] at ran
  split at ran
  · cases ran
    exact sourced.record [] more le rfl
  · rename_i read
    split at ran
    · cases ran
      exact sourced.record _ more le rfl
    · simp only [Option.map_eq_some_iff] at ran
      obtain ⟨⟨result, last⟩, performed, rfl⟩ := ran
      refine Sourced.performed performed ?_
      rw [final_interpret]
      have loaded : Sourced (sources ++ [source])
          ((session.parse source).2.resolve (.ofProgram (session.parse source).1)) :=
        sourced.record _ more le rfl
      have derived := parse_derives (Bool.not_eq_true _ ▸ read)
      apply ((executeProgram_pairs fuel ?_).final loaded).flushed
      exact (derived.matches_self fun _ => from_of_mem_words).forall₂

theorem Sourced.evaluate {fuel : Nat} {source : String} {value : Option Value}
    (sourced : Sourced sources session)
    (evaluated : session.evaluate fuel source = some (value, after)) :
    Sourced (sources ++ [source]) after := by
  have le := (Parse.expression_issued (Token.ofSource source) session.supply).le
  have more := List.subset_append_left sources [source]
  have unchanged : Sourced (sources ++ [source]) (session.parseExpression source).2 :=
    sourced.record [] more le rfl
  rcases read : session.parseExpression source with ⟨tree, parsed⟩
  obtain rfl : (session.parseExpression source).2 = parsed := by rw [read]
  simp only [Session.evaluate] at evaluated
  rw [read] at evaluated
  cases tree with
  | none =>
      cases evaluated
      exact unchanged
  | some expr =>
      dsimp only at evaluated
      split at evaluated
      · cases evaluated
        exact unchanged
      · have loaded : Sourced (sources ++ [source])
            ((session.parseExpression source).2.resolve (.ofExpr expr)) :=
          sourced.record _ more le rfl
        split at evaluated
        · cases evaluated
          exact loaded
        · refine Sourced.performed evaluated ((evaluate_pairs fuel ?_).final loaded)
          have derived := parseExpression_derives (congrArg Prod.fst read)
          exact derived.matches_self fun _ => from_of_mem_words

theorem Given.sourced (given : Given sources session) : Sourced sources session := by
  induction given with
  | new host maxCallDepth => exact sourced_fresh rfl
  | reset => exact sourced_fresh rfl
  | clear _ ih => exact ih
  | @take sources session after input _ taken ih =>
      have more := List.subset_append_left sources [input.source]
      cases input with
      | parse source =>
          cases taken
          exact ih.record [] more (Parse.program_issued _ _).le rfl
      | parseExpression source =>
          cases taken
          exact ih.record [] more (Parse.expression_issued _ _).le rfl
      | run fuel source => exact ih.run taken
      | evaluate fuel source =>
          obtain ⟨⟨value, last⟩, evaluated, rfl⟩ := Option.map_eq_some_iff.mp taken
          exact ih.evaluate evaluated

end Session

end Lox
