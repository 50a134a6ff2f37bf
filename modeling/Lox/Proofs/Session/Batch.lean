import Lox.Proofs.Scoping.Moved
import Lox.Proofs.Session.Sourced

/-!
Two programs run one after the other, or as one program with newlines between them. Up to the end of the
first the two runs match because no name in it has a depth that the second adds; after it they match
because the second differs only in the lines of its tokens.
-/

namespace Lox

open Grammar

/-- The tokens of earlier sources stand where they stood; those of the last one are so many lines down
on one side and so many on the other. -/
inductive Token.Placed (sources : List String) (source : String) (above below : Nat) :
    Token → Token → Prop
  | kept {token : Token} : token.From sources → Placed sources source above below token token
  | moved {token : Token} : token ∈ Token.ofSource source →
      Placed sources source above below (token.down above) (token.down below)

def Matching.placed (sources : List String) (source : String) (above below : Nat)
    (flushFault : Nat → Option HostFault) : Matching where
  Tokens := Token.Placed sources source above below
  Ids _ := True
  flushFault := flushFault
  kind := by
    rintro token token' (_ | _) <;> rfl
  lexeme := by
    rintro token token' (_ | _) <;> rfl

theorem Matching.same_weakens_placed {sources sources' : List String} {source : String}
    {above below : Nat} {bound : ExprId} {flushFault : Nat → Option HostFault}
    (more : sources ⊆ sources') :
    (same sources bound flushFault).Weakens (placed sources' source above below flushFault) := by
  rintro token token' ⟨rfl, source, listed, member⟩
  exact .kept ⟨source, more listed, member⟩

namespace Session

variable {sources : List String} {session middle after : Session} {first second source : String}
  {fuel lines : Nat} {stmts : List Stmt}

structure Accepts (session : Session) (source : String) : Prop where
  scanned : (Token.split (Token.scan source)).2 = []
  parsed : (Parse.program (Token.ofSource source) session.supply).errors = []
  resolved : (Resolution.ofProgram (session.parse source).1).errors = []

def loaded (session : Session) (source : String) : Session :=
  { session with
    supply := (session.parse source).2.supply
    machine := session.machine.record (Resolution.ofProgram (session.parse source).1).depths }

theorem Accepts.parse (accepted : session.Accepts source) :
    (session.parse source).2 = { session with supply := (session.parse source).2.supply } := by
  have parsed := accepted.parsed
  unfold Token.ofSource at parsed
  simp only [Session.parse, tokenize, accepted.scanned, report, parsed]
  rfl

theorem Accepts.resolve (accepted : session.Accepts source) :
    (session.parse source).2.resolve (.ofProgram (session.parse source).1) =
      session.loaded source := by
  rw [accepted.parse]
  simp only [Session.resolve, report, accepted.resolved]
  rfl

theorem run_accepted (quiet : session.hadError = false)
    (accepted : session.Accepts source) (fuel : Nat) :
    session.run fuel source =
      ((session.loaded source).performReporting (interpret fuel (session.parse source).1)).map
        Prod.snd := by
  have parsed : (session.parse source).2.hadError = false := by
    rw [accepted.parse]
    exact quiet
  have resolved : (session.loaded source).hadError = false := quiet
  simp only [Session.run, parsed, accepted.resolve, resolved]
  rfl

theorem hadError_of_report {found : List Diagnostic} (clean : (session.report found).hadError = false) :
    session.hadError = false := by
  simp only [hadError, report, Diagnostics.hadError_report, Bool.or_eq_false_iff] at clean
  exact clean.1

theorem accepts_of_run (ran : session.run fuel source = some after)
    (clean : after.hadError = false) : session.Accepts source := by
  simp only [Session.run] at ran
  split at ran
  · rename_i faulty
    cases ran
    rw [clean] at faulty
    cases faulty
  · rename_i read
    rw [Bool.not_eq_true] at read
    have reported : ((session.tokenize source).2.report
        ((Parse.program (Token.ofSource source) session.supply).errors.map
          .syntactic)).hadError = false := read
    split at ran
    · rename_i faulty
      cases ran
      rw [clean] at faulty
      cases faulty
    · rename_i resolved
      exact {
        scanned := unreported (fun _ => rfl) (hadError_of_report reported)
        parsed := unreported (fun _ => rfl) reported
        resolved := errors_of_resolve (Bool.not_eq_true _ ▸ resolved) }

theorem Accepts.derives (accepted : session.Accepts source) :
    StmtDerives true .declarations session.supply (Parse.words (Token.ofSource source))
      (session.parse source).1 (session.parse source).2.supply := by
  apply Parse.program_eq_iff.mp
  rw [← accepted.parsed]
  rfl

def placing (session : Session) (sources : List String) (first second : String)
    (above below : Nat) : Matching :=
  .placed (sources ++ [first]) second above below session.machine.host.sink.flushFault

structure Joins (session : Session) (first : String) (middle : Session) (second : String)
    (lines : Nat) (source : String) (stmts : List Stmt) : Prop where
  accepted : session.Accepts source
  derived : StmtDerives true .declarations middle.supply
    ((Parse.words (Token.ofSource second)).map (Token.down lines)) stmts
    (middle.parse second).2.supply
  tree : (session.parse source).1 = (session.parse first).1 ++ stmts
  supply : (session.parse source).2.supply = (middle.parse second).2.supply
  depths : (Resolution.ofProgram (session.parse source).1).depths =
    (Resolution.ofProgram (session.parse first).1).depths ++
      (Resolution.ofProgram (middle.parse second).1).depths

theorem joins (accepted : session.Accepts first) (accepted' : middle.Accepts second)
    (supply : middle.supply = (session.parse first).2.supply)
    (scanned : (Token.split (Token.scan source)).2 = [])
    (words : Parse.words (Token.ofSource source) = Parse.words (Token.ofSource first) ++
      (Parse.words (Token.ofSource second)).map (Token.down lines)) :
    ∃ stmts, Joins session first middle second lines source stmts := by
  have placed : ∀ token ∈ Parse.words (Token.ofSource second),
      (Matching.placed [] second 0 lines fun _ => none).Tokens token (token.down lines) :=
    fun token member => .moved (List.takeWhile_subset _ member)
  obtain ⟨stmts, derived, moved⟩ := StmtDerives.moved (fun _ => trivial) accepted'.derives placed
  have joined := accepted.derives.append (supply ▸ derived)
  rw [← words] at joined
  have read := Parse.program_eq_iff.mpr joined
  have tree : (session.parse source).1 = (session.parse first).1 ++ stmts :=
    congrArg Reading.tree read
  have issued := congrArg Reading.supply read
  -- no scope is open at the join, so the second is resolved as if it stood alone
  have alone := Stmt.resolveAll_matches .topLevel [] _ moved
  refine ⟨stmts, ⟨scanned, congrArg Reading.errors read, ?_⟩, derived, tree, issued, ?_⟩
  · rw [tree, Resolution.ofProgram_append, Resolution.errors_append, accepted.resolved]
    exact alone.clean accepted'.resolved
  · rw [tree, Resolution.ofProgram_append, Resolution.depths_append]
    exact congrArg _ alone.depths

theorem Joins.loaded (joined : Joins session first middle second lines source stmts) :
    (session.loaded source).machine = (session.loaded first).machine.record
      (Resolution.ofProgram (middle.parse second).1).depths := by
  simp only [Session.loaded, joined.depths, Machine.record, List.foldl_append]

theorem finished_of_run (quiet : session.hadError = false)
    (accepted : session.Accepts source) (ran : session.run fuel source = some after)
    (finished : after.diagnostics = session.diagnostics) :
    ∃ machine, executeProgram fuel (session.parse source).1 (session.loaded source).machine =
        .ok () machine ∧ after.machine = machine.flushed ∧
      after.supply = (session.parse source).2.supply := by
  rw [run_accepted quiet accepted, Option.map_eq_some_iff] at ran
  obtain ⟨⟨result, last⟩, performed, rfl⟩ := ran
  obtain ⟨value, last, ended, -, rfl⟩ | ⟨error, last, -, -, rfl⟩ := performReporting_cases performed
  · rw [interpret_eq] at ended
    split at ended
    · rename_i machine executed
      split at ended
      · cases ended
        exact ⟨machine, executed, rfl, rfl⟩
      · cases ended
    · cases ended
  · -- a run that has failed has reported its error
    have errors := congrArg Diagnostics.errors finished
    simp [report, loaded] at errors

theorem Joins.matches (joined : Joins session first middle second lines source stmts)
    (sourced : Sourced sources session)
    (supply : middle.supply = (session.parse first).2.supply) :
    (session.loaded first).machine.Pairs
      (Matching.same (sources ++ [first]) middle.supply.nextExpr
        session.machine.host.sink.flushFault).pairing
      (session.loaded source).machine := by
  have more := List.subset_append_left sources [first]
  have le := (Parse.program_issued (Token.ofSource first) session.supply).le
  have bounded : session.supply.nextExpr ≤ middle.supply.nextExpr := supply ▸ le
  have new := (Parse.program_issued (Token.ofSource second) middle.supply).bounds
  have listed := (Stmt.followsAll .topLevel (middle.parse second).1).ids
    (Stmt.visitsAll_ids .topLevel _)
  have unused (id : ExprId) (old : id < middle.supply.nextExpr) :
      (session.loaded source).machine.depths[id]? =
        (session.loaded first).machine.depths[id]? := by
    rw [joined.loaded]
    apply Machine.depths_record_of_absent
    intro pair member same
    exact absurd (same ▸ (new pair.1 (listed pair member)).1) (Nat.not_le_of_lt old)
  exact sourced.withDepths (Matching.same_weakens more)
    (fun id small => Nat.lt_of_lt_of_le small bounded) rfl unused

theorem Joins.reached {machine : Machine}
    (joined : Joins session first middle second lines source stmts)
    (sourced : Sourced sources session) (accepted : session.Accepts first)
    (supply : middle.supply = (session.parse first).2.supply)
    (finished : executeProgram fuel (session.parse first).1 (session.loaded first).machine =
      .ok () machine)
    (left : middle.machine = machine.flushed) :
    ∃ machine', executeProgram fuel (session.parse first).1 (session.loaded source).machine =
        .ok () machine' ∧
      (middle.loaded second).machine.Pairs (session.placing sources first second 0 lines).pairing
        machine' := by
  have self : Stmt.MatchesAll (.same (sources ++ [first]) middle.supply.nextExpr
      session.machine.host.sink.flushFault) (session.parse first).1 (session.parse first).1 := by
    rw [supply]
    exact accepted.derives.matches_self fun _ => from_of_mem_words
  have through := executeProgram_pairs fuel self.forall₂ _ _ (joined.matches sourced supply)
  rw [finished] at through
  generalize reached : executeProgram fuel (session.parse first).1
    (session.loaded source).machine = result at through
  cases through with
  | @ok _ _ _ machine' _ matched =>
      have kept := (executeProgram_keeps fuel _).of_ok finished
      have kept' := (executeProgram_keeps fuel _).of_ok reached
      have start : (middle.loaded second).machine =
          { machine.flushed with depths := (middle.loaded second).machine.depths } := by
        simp only [Session.loaded, Machine.record, left]
      have same : machine'.depths = (middle.loaded second).machine.depths := by
        have before : middle.machine.depths = (session.loaded first).machine.depths := by
          rw [left]
          exact kept.depths
        rw [kept'.depths, joined.loaded]
        simp only [Session.loaded, Machine.record] at before ⊢
        rw [before]
      refine ⟨machine', rfl, ?_⟩
      rw [start]
      exact matched.flushedOnce.withDepths (Matching.same_weakens_placed (List.Subset.refl _))
        (fun _ _ => trivial) rfl fun id _ => congrArg (·[id]?) same

theorem Joins.ended {machine : Machine}
    (joined : Joins session first middle second lines source stmts)
    (sourced : Sourced sources session) (accepted : session.Accepts first)
    (accepted' : middle.Accepts second)
    (supply : middle.supply = (session.parse first).2.supply)
    (finished : executeProgram fuel (session.parse first).1 (session.loaded first).machine =
      .ok () machine)
    (left : middle.machine = machine.flushed) :
    Ended (session.placing sources first second 0 lines).pairing (fun _ _ => True)
      (executeProgram fuel (middle.parse second).1 (middle.loaded second).machine)
      (executeProgram fuel (session.parse source).1 (session.loaded source).machine) := by
  obtain ⟨machine', reached, placed⟩ := joined.reached sourced accepted supply finished left
  rw [joined.tree, executeProgram_append]
  simp only [bind, EStateM.bind, reached]
  refine executeProgram_pairs fuel (Stmt.MatchesAll.forall₂ ?_) _ _ placed
  exact accepted'.derives.matches joined.derived (fun _ => trivial)
    fun token member => .moved (List.takeWhile_subset _ member)

theorem Joins.ended_between {source' : String} {stmts' : List Stmt} {more : Nat}
    (joined : Joins session first middle second lines source stmts)
    (joined' : Joins session first middle second (lines + more) source' stmts')
    (sourced : Sourced sources session) (accepted : session.Accepts first) (fuel : Nat) :
    Ended (session.placing sources first second lines (lines + more)).pairing (fun _ _ => True)
      (executeProgram fuel (session.parse source).1 (session.loaded source).machine)
      (executeProgram fuel (session.parse source').1 (session.loaded source').machine) := by
  have self : Stmt.MatchesAll (session.placing sources first second lines (lines + more))
      (session.parse first).1 (session.parse first).1 :=
    (accepted.derives.matches_self fun _ => from_of_mem_words).imp
      (Matching.same_weakens_placed (List.Subset.refl _)) fun _ _ _ => trivial
  have rest : Stmt.MatchesAll (session.placing sources first second lines (lines + more))
      stmts stmts' := by
    have derived := joined'.derived
    rw [← Token.map_down_down] at derived
    refine joined.derived.matches derived (fun _ => trivial) fun token member => ?_
    obtain ⟨original, listed, rfl⟩ := List.mem_map.mp member
    rw [Token.down_down]
    exact .moved (List.takeWhile_subset _ listed)
  have machines : (session.loaded source).machine.Pairs
      (session.placing sources first second lines (lines + more)).pairing
      (session.loaded source').machine := by
    have same : (session.loaded source').machine = (session.loaded source).machine := by
      rw [joined.loaded, joined'.loaded]
    rw [same]
    exact sourced.withDepths (Matching.same_weakens_placed (List.subset_append_left _ _))
      (fun _ _ => trivial) rfl fun _ _ => rfl
  rw [joined.tree, joined'.tree]
  exact executeProgram_pairs fuel (List.rel_append self.forall₂ rest.forall₂) _ _ machines

/-- Two sessions are left alike: what the globals hold matches, down to the variables of functions and the
fields of objects, and the program has raised errors that are related, or none. -/
structure Agrees (matching : Matching) (related : RuntimeError → RuntimeError → Prop)
    (earlier : Diagnostics) (after after' : Session) : Prop where
  output : after'.machine.host.sink.lines = after.machine.host.sink.lines
  supply : after'.supply = after.supply
  depths : ∀ id, after'.depthOf? id = after.depthOf? id
  globals : ∀ name, Option.Rel (Value.Matches matching)
    (after.machine.scopes.find? after.machine.globals name)
    (after'.machine.scopes.find? after'.machine.globals name)
  scopes : ∀ ref name, Option.Rel (Value.Matches matching)
    (after.machine.scopes.lookUp? ref name) (after'.machine.scopes.lookUp? ref name)
  fields : ∀ (index : Nat) (name : String), Option.Rel (Value.Matches matching)
    (after.machine.fields[index]?.bind (·[name]?)) (after'.machine.fields[index]?.bind (·[name]?))
  errors : ∃ error error' : Option RuntimeError, Option.Rel related error error' ∧
    after.diagnostics = earlier.report (error.toList.map .runtime) ∧
    after'.diagnostics = earlier.report (error'.toList.map .runtime)

theorem agrees_report {matching : Matching} {machine machine' : Machine}
    (numbered : ∀ id, matching.Ids id) (matched : machine.Pairs matching.pairing machine')
    {related : RuntimeError → RuntimeError → Prop} {error error' : Option RuntimeError}
    (raised : Option.Rel related error error') (supply : Supply) (earlier : Diagnostics) :
    Agrees matching related earlier
      ({ machine, supply, diagnostics := earlier : Session }.report (error.toList.map .runtime))
      ({ machine := machine', supply, diagnostics := earlier : Session }.report
        (error'.toList.map .runtime)) where
  output := by
    obtain ⟨⟨count, host⟩, -⟩ := matched.host
    exact congrArg (·.sink.lines) host
  supply := rfl
  depths id := matched.depths id id ⟨rfl, numbered id⟩
  globals name := by
    show Option.Rel (Value.Matches matching) (machine.scopes.find? machine.globals name)
      (machine'.scopes.find? machine'.globals name)
    rw [matched.globals]
    exact relImp (fun _ _ => Value.matches_of_alike) (matched.store.find? (List.forall₂_refl _) name)
  scopes ref name := relImp (fun _ _ => Value.matches_of_alike) (matched.scopes ref name)
  fields index name :=
    relImp (fun _ _ => Value.matches_of_alike) (matched.fields.stored index name)
  errors := ⟨error, error', raised, rfl, rfl⟩

theorem agrees_of_ended {matching : Matching} {stmts' : List Stmt} {session' : Session}
    (numbered : ∀ id, matching.Ids id)
    (reliable : ∀ count, matching.flushFault count = none)
    (ended : Ended matching.pairing (fun _ _ => True) (executeProgram fuel stmts session.machine)
      (executeProgram fuel stmts' session'.machine))
    (supply : session'.supply = session.supply)
    (diagnostics : session'.diagnostics = session.diagnostics) :
    Option.Rel (Agrees matching (RuntimeError.Matches matching) session.diagnostics)
      ((session.performReporting (interpret fuel stmts)).map Prod.snd)
      ((session'.performReporting (interpret fuel stmts')).map Prod.snd) := by
  have interpreted := interpret_ended (Matching.flushes reliable) ended
  obtain ⟨machine, issued, earlier⟩ := session
  obtain ⟨machine', issued', earlier'⟩ := session'
  dsimp only at supply diagnostics interpreted
  subst supply diagnostics
  unfold performReporting perform
  dsimp only
  generalize interpret fuel stmts machine = result at interpreted
  generalize interpret fuel stmts' machine' = result' at interpreted
  cases interpreted with
  | ok _ matched => exact .some (agrees_report numbered matched .none _ _)
  | error raised matched =>
      cases raised with
      | outOfFuel => exact .none
      | error related =>
          have raised : Option.Rel (RuntimeError.Matches matching) (some _) (some _) :=
            .some ⟨related.fault, related.place⟩
          exact .some (agrees_report numbered matched raised _ _)

end Session

section Uniform

variable {sources : List String} {source : String} {lines more : Nat}
  {flushFault : Nat → Option HostFault}

theorem Token.Placed.alone {below : Nat} {token token' : Token}
    (placed : Placed sources source 0 below token token') :
    token' = token ∨ token' = token.down below := by
  cases placed with
  | kept _ => exact .inl rfl
  | moved _ => exact .inr rfl

theorem Token.Placed.line_cases {above below : Nat} {token token' : Token}
    (placed : Placed sources source above below token token') :
    token' = token ∨ ∃ original : Token,
      token = original.down above ∧ token' = original.down below := by
  cases placed with
  | kept _ => exact .inl rfl
  | moved _ => exact .inr ⟨_, rfl, rfl⟩

theorem Token.Placed.uniform {token near far : Token} (positive : 0 < lines)
    (toNear : Placed sources source 0 lines token near)
    (toFar : Placed sources source 0 (lines + more) token far)
    (between : Placed sources source lines (lines + more) near far) :
    far = if near = token then token else token.down (lines + more) := by
  have further : 0 < lines + more := by omega
  rcases toNear.alone with rfl | rfl
  · rw [if_pos rfl]
    rcases toFar.alone with same | rfl
    · exact same
    · exfalso
      rcases between.line_cases with same | ⟨original, up, down⟩
      · exact down_ne further _ same
      · -- the near token would be below itself
        obtain rfl := down_injective _ down
        exact down_ne positive _ up.symm
  · rw [if_neg (down_ne positive token)]
    rcases toFar.alone with rfl | same
    · exfalso
      rcases between.line_cases with same | ⟨original, up, down⟩
      · exact down_ne positive _ same.symm
      · obtain rfl := down_injective _ up
        exact down_ne further _ down.symm
    · exact same

def RuntimeError.below (moves : Bool) (lines : Nat) (error : RuntimeError) : RuntimeError :=
  { error with place := if moves then error.place.map (Token.down lines) else error.place }

theorem RuntimeError.Matches.uniform {error near far : RuntimeError} (positive : 0 < lines)
    (toNear : error.Matches (.placed sources source 0 lines flushFault) near)
    (toFar : error.Matches (.placed sources source 0 (lines + more) flushFault) far)
    (between : near.Matches (.placed sources source lines (lines + more) flushFault) far) :
    far = error.below (near ≠ error) (lines + more) := by
  obtain ⟨fault, place⟩ := error
  obtain ⟨nearFault, nearPlace⟩ := near
  obtain ⟨farFault, farPlace⟩ := far
  obtain ⟨nearSame, toNear⟩ := toNear
  obtain ⟨farSame, toFar⟩ := toFar
  obtain ⟨-, between⟩ := between
  dsimp only at nearSame farSame toNear toFar between
  subst nearSame farSame
  cases toNear with
  | none =>
      cases toFar
      simp [below]
  | @some token nearToken placed =>
      cases toFar with
      | some placedFar =>
          cases between with
          | some placedBetween =>
              rw [placed.uniform positive placedFar placedBetween]
              by_cases same : nearToken = token
              · simp [below, same]
              · simp [below, same]

theorem Diagnostics.report_inj {earlier : Diagnostics} {error error' : Option RuntimeError}
    (same : earlier.report (error.toList.map .runtime) =
      earlier.report (error'.toList.map .runtime)) : error = error' := by
  have errors := congrArg Diagnostics.errors same
  rw [errors_report, errors_report, List.append_cancel_left_eq] at errors
  cases error with
  | none =>
      cases error' with
      | none => rfl
      | some error' => cases errors
  | some error =>
      cases error' with
      | none => cases errors
      | some error' =>
          cases errors
          rfl

theorem Session.Agrees.uniform {earlier : Diagnostics} {after near far : Session}
    (positive : 0 < lines)
    (toNear : Agrees (.placed sources source 0 lines flushFault)
      (RuntimeError.Matches (.placed sources source 0 lines flushFault)) earlier after near)
    (toFar : Agrees (.placed sources source 0 (lines + more) flushFault)
      (RuntimeError.Matches (.placed sources source 0 (lines + more) flushFault)) earlier after far)
    (between : Agrees (.placed sources source lines (lines + more) flushFault)
      (RuntimeError.Matches (.placed sources source lines (lines + more) flushFault)) earlier
      near far) :
    Agrees (.placed sources source 0 (lines + more) flushFault)
      (fun error error' =>
        error.Matches (.placed sources source 0 (lines + more) flushFault) error' ∧
          error' = error.below (near.diagnostics.errors ≠ after.diagnostics.errors) (lines + more))
      earlier after far := by
  obtain ⟨error, nearError, nearRelated, reported, nearReported⟩ := toNear.errors
  obtain ⟨error', farError, farRelated, reported', farReported⟩ := toFar.errors
  obtain ⟨nearError', farError', related, nearReported', farReported'⟩ := between.errors
  obtain rfl := Diagnostics.report_inj (reported'.symm.trans reported)
  obtain rfl := Diagnostics.report_inj (nearReported'.symm.trans nearReported)
  obtain rfl := Diagnostics.report_inj (farReported'.symm.trans farReported)
  refine { toFar with errors := ⟨error', farError', ?_, reported, farReported⟩ }
  cases nearRelated with
  | none =>
      cases farRelated
      exact .none
  | @some error nearError nearRelated =>
      cases farRelated with
      | some farRelated =>
          cases related with
          | some related =>
              have far := nearRelated.uniform positive farRelated related
              have same : (near.diagnostics.errors ≠ after.diagnostics.errors) =
                  (nearError ≠ error) := by
                rw [reported, nearReported]
                simp
              simp only [same]
              exact .some ⟨farRelated, far⟩

end Uniform

namespace Session

variable {sources : List String} {session middle : Session} {first second source source' : String}
  {fuel lines more : Nat} {stmts stmts' : List Stmt}

theorem Joins.agrees (joined : Joins session first middle second lines source stmts)
    (given : Given sources session) (quiet : session.hadError = false)
    (reliable : ∀ count, session.machine.host.sink.flushFault count = none)
    (ran : session.run fuel first = some middle)
    (finished : middle.diagnostics = session.diagnostics) (accepted : session.Accepts first)
    (accepted' : middle.Accepts second) :
    Option.Rel
      (Agrees (session.placing sources first second 0 lines)
        (RuntimeError.Matches (session.placing sources first second 0 lines)) session.diagnostics)
      (middle.run fuel second) (session.run fuel source) := by
  have still : middle.hadError = false := by
    rw [hadError, finished]
    exact quiet
  obtain ⟨machine, ended, left, supply⟩ := finished_of_run quiet accepted ran finished
  have alike := joined.ended given.sourced accepted accepted' supply ended left
  rw [run_accepted still accepted', run_accepted quiet joined.accepted, ← finished]
  exact agrees_of_ended (fun _ => trivial) reliable alike joined.supply finished.symm

theorem Joins.agrees_between (joined : Joins session first middle second lines source stmts)
    (joined' : Joins session first middle second (lines + more) source' stmts')
    (given : Given sources session) (quiet : session.hadError = false)
    (reliable : ∀ count, session.machine.host.sink.flushFault count = none)
    (accepted : session.Accepts first) (fuel : Nat) :
    Option.Rel
      (Agrees (session.placing sources first second lines (lines + more))
        (RuntimeError.Matches (session.placing sources first second lines (lines + more)))
        session.diagnostics)
      (session.run fuel source) (session.run fuel source') := by
  have alike := joined.ended_between joined' given.sourced accepted fuel
  rw [run_accepted quiet joined.accepted, run_accepted quiet joined'.accepted]
  exact agrees_of_ended (fun _ => trivial) reliable alike
    (joined'.supply.trans joined.supply.symm) rfl

end Session

/-- Running two programs one after the other, or as one program with newlines between them, comes to the
same. The place of an error that the second ends with is in the second program and moves with it, however
far down that is put, or it is in an earlier one and stays where it is. -/
theorem incremental_and_batch_agree {sources : List String} {session middle : Session} {fuel : Nat}
    {first second : String} (given : Session.Given sources session)
    (quiet : session.hadError = false)
    (reliable : ∀ count, session.machine.host.sink.flushFault count = none)
    (ran : session.run fuel first = some middle)
    (finished : middle.diagnostics = session.diagnostics) (accepted : middle.Accepts second) :
    ∃ moves : Bool, ∀ gap : Nat,
      let source := first ++ Token.newlines (gap + 1) ++ second
      let lines := first.toList.count '\n' + 1 + gap
      Parse.words (Token.ofSource source) = Parse.words (Token.ofSource first) ++
          (Parse.words (Token.ofSource second)).map (Token.down lines) ∧
        Option.Rel
          (Session.Agrees (session.placing sources first second 0 lines)
            (fun error error' =>
              error.Matches (session.placing sources first second 0 lines) error' ∧
                error' = error.below moves lines)
            session.diagnostics)
          (middle.run fuel second) (session.run fuel source) := by
  have read : session.Accepts first := by
    apply Session.accepts_of_run ran
    rw [Session.hadError, finished]
    exact quiet
  obtain ⟨-, -, -, supply⟩ := Session.finished_of_run quiet read ran finished
  have words (gap : Nat) := Token.words_below read.scanned gap second
  have joins (gap : Nat) :=
    Session.joins read accepted supply ((words gap).2.mpr accepted.scanned) (words gap).1
  obtain ⟨_, near⟩ := joins 0
  have toNear := near.agrees given quiet reliable ran finished read accepted
  cases ended : middle.run fuel second with
  | none =>
      refine ⟨false, fun gap => ⟨(words gap).1, ?_⟩⟩
      obtain ⟨_, far⟩ := joins gap
      have toFar := far.agrees given quiet reliable ran finished read accepted
      rw [ended] at toFar
      generalize session.run fuel _ = result at toFar ⊢
      cases toFar
      exact .none
  | some after =>
      rw [ended] at toNear
      generalize nearRun : session.run fuel _ = result at toNear
      cases toNear with
      | @some _ nearAfter toNear =>
          refine ⟨nearAfter.diagnostics.errors ≠ after.diagnostics.errors,
            fun gap => ⟨(words gap).1, ?_⟩⟩
          obtain ⟨_, far⟩ := joins gap
          have toFar := far.agrees given quiet reliable ran finished read accepted
          have between := near.agrees_between far given quiet reliable read fuel
          rw [ended] at toFar
          rw [nearRun] at between
          generalize session.run fuel _ = result at toFar between ⊢
          cases toFar with
          | some toFar =>
              cases between with
              | some between => exact .some (toNear.uniform (by omega) toFar between)

/-- The second program calls what is no function. The place of the error moves with the program, though a
token like the one there also stands in the first line of the first program. -/
theorem incremental_and_batch_agree_at_call :
    let placing := (Session.new {} 8).placing [] "clock();\nvar a = nil;" "a();" 0 2
    ∃ middle last after,
      (Session.new {} 8).run 12 "clock();\nvar a = nil;" = some middle ∧
      middle.diagnostics = {} ∧ middle.Accepts "a();" ∧
      middle.run 12 "a();" = some last ∧
      last.diagnostics.errors = [.runtime ⟨.notCallable, some ⟨.rightParen, ")", none, 1⟩⟩] ∧
      (Session.new {} 8).run 12 "clock();\nvar a = nil;\na();" = some after ∧
      after.diagnostics.errors = [.runtime ⟨.notCallable, some ⟨.rightParen, ")", none, 3⟩⟩] ∧
      Session.Agrees placing
        (fun error error' => error.Matches placing error' ∧ error' = error.below true 2) {}
        last after := by
  intro placing
  let start := Session.new {} 8
  let paren (line : Nat) : Token := ⟨.rightParen, ")", none, line⟩
  let called (id : ExprId) (line : Nat) : Stmt :=
    .expression (.call (.var id ⟨.identifier, "a", none, line⟩) (paren line) [])
  let program : List Stmt := [
    .expression (.call (.var 0 ⟨.identifier, "clock", none, 1⟩) (paren 1) []),
    .varDecl ⟨.identifier, "a", none, 2⟩ (some (.literal .nil))]
  have parsed : start.parse "clock();\nvar a = nil;" =
      (program, { start with supply := ⟨1, 0⟩ }) := by cbv
  have joined : start.parse "clock();\nvar a = nil;\na();" =
      (program ++ [called 1 3], { start with supply := ⟨2, 0⟩ }) := by cbv
  have scanned : (Token.split (Token.scan "a();")).2 = [] := by cbv
  have read : Parse.program (Token.ofSource "a();") ⟨1, 0⟩ = ⟨[called 1 1], [], ⟨2, 0⟩⟩ := by cbv
  obtain ⟨middle, last, ran, diagnostics, supply, performed, raised⟩ : ∃ middle last,
      start.run 12 "clock();\nvar a = nil;" = some middle ∧ middle.diagnostics = {} ∧
        middle.supply = ⟨1, 0⟩ ∧
        (({ middle with
            supply := ⟨2, 0⟩
            machine := middle.machine.record (Resolution.ofProgram [called 1 1]).depths } :
            Session).performReporting (interpret 12 [called 1 1])).map Prod.snd = some last ∧
        last.diagnostics.errors = [.runtime ⟨.notCallable, some (paren 1)⟩] := by
    simp only [Session.run, parsed]
    exact ⟨_, _, rfl, rfl, rfl, rfl, rfl⟩
  rw [← supply] at read
  have tree : (middle.parse "a();").1 = [called 1 1] := congrArg Reading.tree read
  have issued : (middle.parse "a();").2.supply = ⟨2, 0⟩ := congrArg Reading.supply read
  have accepted : middle.Accepts "a();" := by
    refine ⟨scanned, congrArg Reading.errors read, ?_⟩
    rw [tree]
    rfl
  have still : middle.hadError = false := by
    rw [Session.hadError, diagnostics]
  have ran' : middle.run 12 "a();" = some last := by
    rw [Session.run_accepted still accepted, Session.loaded, tree, issued]
    exact performed
  obtain ⟨after, ended, errors⟩ : ∃ after,
      start.run 12 "clock();\nvar a = nil;\na();" = some after ∧
        after.diagnostics.errors = [.runtime ⟨.notCallable, some (paren 3)⟩] := by
    simp only [Session.run, joined]
    exact ⟨_, rfl, rfl⟩
  obtain ⟨moves, agrees⟩ := incremental_and_batch_agree (.new {} 8) rfl (fun _ => rfl) ran diagnostics
    accepted
  have agree : Option.Rel
      (Session.Agrees placing
        (fun error error' => error.Matches placing error' ∧ error' = error.below moves 2) {})
      (middle.run 12 "a();") (start.run 12 "clock();\nvar a = nil;\na();") := (agrees 0).2
  rw [ran', ended] at agree
  cases agree with
  | some agree =>
      cases moves with
      | true =>
          exact ⟨middle, last, after, ran, diagnostics, accepted, ran', raised, ended, errors, agree⟩
      | false =>
          -- an error that stays would be on the same line in both runs
          exfalso
          obtain ⟨error, error', related, reported, reported'⟩ := agree.errors
          rw [reported, Diagnostics.errors_report] at raised
          rw [reported', Diagnostics.errors_report] at errors
          cases related with
          | none => cases raised
          | some related =>
              cases raised
              cases errors
              cases related.2

end Lox
