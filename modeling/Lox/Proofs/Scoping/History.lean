import Lox.Proofs.Parse.Program
import Lox.Proofs.Parse.Supply
import Lox.Proofs.Scoping.Preservation

/-!
The history of a session. An input that passes all static checks is launched: the history notes the task
that it starts and the uses of names that the resolver has visited in it. Between the inputs the session
and its history cohere: identities are used once, the depths of the machine are those of the visits, and
all that the machine stores is sound in the world of the history.
-/

namespace Lox

/-- An input without static faults: the task it starts, what the resolver has visited in it, and the
session in which the task is performed. -/
structure Launch where
  task : Task
  visits : List Visit
  session : Session

namespace Session

def launchProgram? (fuel : Nat) (session : Session) (source : String) : Option Launch :=
  let (stmts, parsed) := session.parse source
  if parsed.hadError then none
  else
    let resolved := parsed.resolve (.ofProgram stmts)
    if resolved.hadError then none
    else some ⟨.executeProgram fuel stmts, Stmt.visitsAll .topLevel stmts, resolved⟩

def launchExpr? (fuel : Nat) (session : Session) (source : String) : Option Launch :=
  match session.parseExpression source with
  | (none, _) => none
  | (some expr, parsed) =>
      if parsed.hadError then none
      else
        let resolved := parsed.resolve (.ofExpr expr)
        if resolved.hadError then none
        else some ⟨.evaluate fuel expr, Site.topLevel.visits expr.uses, resolved⟩

end Session

/-- The uses of names that were visited and the tasks that were started since the machine was new. -/
structure History where
  visits : List Visit := []
  starts : List (Task × Machine) := []

namespace History

def add (history : History) (launch : Launch) : History :=
  ⟨history.visits ++ launch.visits, history.starts ++ [(launch.task, launch.session.machine)]⟩

def extend (history : History) : Option Launch → History
  | some launch => history.add launch
  | none => history

/-- The task was begun, in this state of the machine, while one of the inputs was executed. -/
def Moment (history : History) (task : Task) (machine : Machine) : Prop :=
  ∃ start ∈ history.starts, Reaches start.1 start.2 task machine

def Activates (history : History) (ref : ScopeRef) (region : Region) : Prop :=
  ∃ task machine, history.Moment task machine ∧ task.Opens region ∧
    ref = ⟨machine.scopes.tables.size⟩

inductive Driven : History → Session → Prop
  | new (host : Host) (maxCallDepth : Nat) : Driven {} (.new host maxCallDepth)
  | run {history : History} {session after : Session} (fuel : Nat) (source : String) :
      Driven history session → session.run fuel source = some after →
      Driven (history.extend (session.launchProgram? fuel source)) after
  | evaluate {history : History} {session after : Session} {value : Option Value} (fuel : Nat)
      (source : String) : Driven history session →
      session.evaluate fuel source = some (value, after) →
      Driven (history.extend (session.launchExpr? fuel source)) after
  | clear {history : History} {session : Session} :
      Driven history session → Driven history session.clear
  | reset {history : History} {session : Session} :
      Driven history session → Driven {} session.reset

def world (history : History) (machine : Machine) : World where
  moments := history.Moment
  begun := by
    rintro task machine other later ⟨start, member, reaches⟩ step
    exact ⟨start, member, reaches.begun step⟩
  visits := (· ∈ history.visits)
  depths := machine.depths
  globals := machine.globals

/-- What the inputs of a session may rely on. -/
structure Coheres (history : History) (session : Session) : Prop where
  nodup : (history.visits.map Visit.id).Nodup
  given : ∀ visit ∈ history.visits, visit.id < session.supply.nextExpr
  recorded : ∀ visit ∈ history.visits, session.machine.depths[visit.id]? = visit.depth?
  fresh : ∀ id, session.supply.nextExpr ≤ id → session.machine.depths[id]? = none
  atGlobals : session.machine.env = session.machine.globals
  holds : (history.world session.machine).Holds session.machine

end History

theorem Resolution.Follows.ids {resolution : Resolution} {visits : List Visit} {ids : List ExprId}
    (follows : resolution.Follows visits) (same : (visits.map Visit.id).Perm ids) :
    ∀ pair ∈ resolution.depths, pair.1 ∈ ids := by
  intro pair member
  obtain ⟨visit, visited, found⟩ := List.mem_filterMap.mp (follows.sublist.subset member)
  obtain ⟨depth, -, rfl⟩ := Option.map_eq_some_iff.mp found
  exact same.mem_iff.mp (List.mem_map_of_mem visited)

namespace Machine

theorem depths_record_of_absent {machine : Machine} {pairs : List (ExprId × Nat)} {id : ExprId}
    (absent : ∀ pair ∈ pairs, pair.1 ≠ id) :
    (machine.record pairs).depths[id]? = machine.depths[id]? := by
  simp only [record]
  generalize machine.depths = table
  induction pairs generalizing table with
  | nil => rfl
  | cons pair rest ih =>
      rw [List.forall_mem_cons] at absent
      rw [List.foldl_cons, ih absent.2, Std.TreeMap.getElem?_insert, if_neg]
      simpa using absent.1

theorem depths_record_of_mem {machine : Machine} {pairs : List (ExprId × Nat)} {id : ExprId}
    {depth : Nat} (nodup : (pairs.map Prod.fst).Nodup) (member : (id, depth) ∈ pairs) :
    (machine.record pairs).depths[id]? = some depth := by
  induction pairs generalizing machine with
  | nil => cases member
  | cons pair rest ih =>
      rw [List.map_cons, List.nodup_cons] at nodup
      have step : machine.record (pair :: rest) = (machine.record [pair]).record rest := rfl
      rcases List.mem_cons.mp member with rfl | member
      · rw [step, depths_record_of_absent]
        · simp [record]
        · intro other listed same
          exact nodup.1 (List.mem_map.mpr ⟨other, listed, same⟩)
      · rw [step]
        exact ih nodup.2 member

end Machine

namespace History

variable {history : History} {session : Session}

theorem le_world {larger : History} {machine other : Machine}
    (visits : ∀ visit ∈ history.visits, visit ∈ larger.visits)
    (starts : ∀ start ∈ history.starts, start ∈ larger.starts)
    (globals : other.globals = machine.globals) :
    World.Le (history.world machine) (larger.world other) where
  moments := by
    rintro task present ⟨start, member, reaches⟩
    exact ⟨start, starts start member, reaches⟩
  visits := visits
  globals := globals

theorem Coheres.advance (coheres : history.Coheres session) {after : Session}
    (machine : after.machine = session.machine)
    (le : session.supply.nextExpr ≤ after.supply.nextExpr) : history.Coheres after where
  nodup := coheres.nodup
  given := fun visit member => (coheres.given visit member).trans_le le
  recorded := machine ▸ coheres.recorded
  fresh := fun id bound => machine ▸ coheres.fresh id (le.trans bound)
  atGlobals := machine ▸ coheres.atGlobals
  holds := machine ▸ coheres.holds

theorem Coheres.extends (coheres : history.Coheres session) {after : Session}
    (kept : Kept session.machine after.machine)
    (holds : (history.world session.machine).Holds after.machine)
    (supply : after.supply = session.supply) : history.Coheres after := by
  have same : history.world after.machine = history.world session.machine := by
    simp only [world, kept.depths, kept.globals]
  refine ⟨coheres.nodup, ?_, ?_, ?_, ?_, same ▸ holds⟩
  · rw [supply]
    exact coheres.given
  · rw [kept.depths]
    exact coheres.recorded
  · rw [kept.depths, supply]
    exact coheres.fresh
  · rw [kept.env, kept.globals]
    exact coheres.atGlobals

section Record

variable {resolution : Resolution} {visits : List Visit} {after : Session} {clean : Prop}

theorem Coheres.rejected (coheres : history.Coheres session)
    (follows : resolution.Follows visits)
    (issued : Issued session.supply.nextExpr after.supply.nextExpr (visits.map Visit.id) clean)
    (machine : after.machine = session.machine.record resolution.depths) :
    history.Coheres after := by
  have bounds : ∀ pair ∈ resolution.depths, _ :=
    fun pair member => issued.bounds pair.1 (follows.ids (.refl _) pair member)
  refine ⟨coheres.nodup, ?_, ?_, ?_, ?_, ?_⟩
  · exact fun visit member => (coheres.given visit member).trans_le issued.le
  · intro visit member
    rw [machine, Machine.depths_record_of_absent, coheres.recorded visit member]
    intro pair listed same
    exact (coheres.given visit member).not_ge (same ▸ (bounds pair listed).1)
  · intro id bound
    rw [machine, Machine.depths_record_of_absent]
    · exact coheres.fresh id (issued.le.trans bound)
    · intro pair listed same
      exact (bounds pair listed).2.not_ge (same ▸ bound)
  · rw [machine]
    exact coheres.atGlobals
  · rw [machine]
    have le : World.Le (history.world session.machine)
        (history.world (session.machine.record resolution.depths)) :=
      le_world (fun _ member => member) (fun _ member => member) rfl
    exact coheres.holds.mono le rfl rfl rfl rfl

theorem ids_sublist (visits : List Visit) :
    ((visits.filterMap Visit.record?).map Prod.fst).Sublist (visits.map Visit.id) := by
  induction visits with
  | nil => exact .slnil
  | cons visit rest ih =>
      cases found : visit.depth? with
      | none => simpa [Visit.record?, found] using ih.cons visit.id
      | some depth => simpa [Visit.record?, found] using ih

/-- The depths of new visits are those that are recorded for them. -/
theorem depths_record_visits {machine : Machine} {visits : List Visit}
    (nodup : (visits.map Visit.id).Nodup)
    (fresh : ∀ visit ∈ visits, machine.depths[visit.id]? = none) {visit : Visit}
    (member : visit ∈ visits) :
    (machine.record (visits.filterMap Visit.record?)).depths[visit.id]? = visit.depth? := by
  cases found : visit.depth? with
  | some depth =>
      refine Machine.depths_record_of_mem ?_ ?_
      · exact nodup.sublist (ids_sublist visits)
      · exact List.mem_filterMap.mpr ⟨visit, member, by simp [Visit.record?, found]⟩
  | none =>
      rw [Machine.depths_record_of_absent]
      · exact fresh visit member
      · intro pair listed equal
        obtain ⟨other, visited, record⟩ := List.mem_filterMap.mp listed
        obtain ⟨depth, recorded, rfl⟩ := Option.map_eq_some_iff.mp record
        obtain rfl := List.inj_on_of_nodup_map nodup visited member equal
        rw [found] at recorded
        cases recorded

theorem depths_of_visit (coheres : history.Coheres session)
    (same : resolution.depths = visits.filterMap Visit.record?) {last : Nat}
    (issued : Issued session.supply.nextExpr last (visits.map Visit.id) clean) {visit : Visit}
    (member : visit ∈ visits) :
    (session.machine.record resolution.depths).depths[visit.id]? = visit.depth? := by
  rw [same]
  exact depths_record_visits issued.nodup (fun other visited =>
    coheres.fresh _ (issued.bounds other.id (List.mem_map_of_mem visited)).1) member

theorem Coheres.launched (coheres : history.Coheres session) {launch : Launch}
    (same : resolution.depths = launch.visits.filterMap Visit.record?)
    (issued : Issued session.supply.nextExpr launch.session.supply.nextExpr
      (launch.visits.map Visit.id) clean)
    (machine : launch.session.machine = session.machine.record resolution.depths) :
    (history.add launch).Coheres launch.session := by
  have follows : resolution.Follows launch.visits := ⟨same ▸ .refl _, fun _ => same⟩
  have before := coheres.rejected follows issued machine
  have le : World.Le (history.world launch.session.machine)
      ((history.add launch).world launch.session.machine) :=
    le_world (fun _ member => List.mem_append_left _ member)
      (fun _ member => List.mem_append_left _ member) rfl
  refine ⟨?_, ?_, ?_, before.fresh, before.atGlobals, before.holds.mono le rfl rfl rfl rfl⟩
  · simp only [add, List.map_append]
    refine List.Nodup.append before.nodup issued.nodup ?_
    intro id earlier later
    obtain ⟨visit, member, rfl⟩ := List.mem_map.mp earlier
    exact (coheres.given visit member).not_ge (issued.bounds _ later).1
  · intro visit member
    rcases List.mem_append.mp member with member | member
    · exact before.given visit member
    · exact (issued.bounds visit.id (List.mem_map_of_mem member)).2
  · intro visit member
    rcases List.mem_append.mp member with member | member
    · exact before.recorded visit member
    · rw [machine]
      exact depths_of_visit coheres same issued member

end Record

end History

namespace Session

open Grammar

variable {session : Session}

theorem unreported {α : Type} {errors : List α} {diagnostic : α → Diagnostic}
    (static : ∀ error, (diagnostic error).isStatic = true)
    (clean : (session.report (errors.map diagnostic)).hadError = false) : errors = [] := by
  simp only [hadError, report, Diagnostics.hadError_report, Bool.or_eq_false_iff,
    List.any_eq_false] at clean
  refine List.eq_nil_iff_forall_not_mem.mpr fun error member => ?_
  exact clean.2 (diagnostic error) (List.mem_map_of_mem member) (static error)

theorem errors_of_resolve {resolution : Resolution}
    (clean : (session.resolve resolution).hadError = false) : resolution.errors = [] := by
  have reported : (session.report (resolution.errors.map .scoping)).hadError = false := clean
  exact unreported (fun _ => rfl) reported

theorem plain_of_mem_words {source : String} :
    ∀ token ∈ Parse.words (Token.split (Token.scan source)).1, token.Plain :=
  fun _ member => Token.plain_of_mem_scan (List.takeWhile_subset _ member)

theorem parse_derives {source : String} (clean : (session.parse source).2.hadError = false) :
    StmtDerives true .declarations session.supply
      (Parse.words (Token.split (Token.scan source)).1) (session.parse source).1
      (session.parse source).2.supply := by
  have reported : ((session.tokenize source).2.report
      ((Parse.program (Token.split (Token.scan source)).1 session.supply).errors.map
        .syntactic)).hadError = false := clean
  refine Parse.program_eq_iff.mp ?_
  rw [← unreported (fun _ => rfl) reported]
  rfl

theorem parseExpression_derives {source : String} {expr : Expr}
    (read : (session.parseExpression source).1 = some expr) :
    ExprDerives .expression session.supply (Parse.words (Token.split (Token.scan source)).1) expr
      (session.parseExpression source).2.supply := by
  have reading : (Parse.lone ⟨Parse.words (Token.split (Token.scan source)).1,
      session.supply⟩).1 = some expr := read
  obtain ⟨after, -, found⟩ := Parse.lone_eq_some reading
  have supply : (session.parseExpression source).2.supply = after := congrArg (·.2.2) found
  rw [supply]
  exact Parse.lone_eq_iff.mp found

theorem run_of_launch {fuel : Nat} {source : String} {launch : Launch}
    (launched : session.launchProgram? fuel source = some launch) :
    ∃ stmts, launch.task = .executeProgram fuel stmts ∧
      session.run fuel source =
        (launch.session.performReporting (interpret fuel stmts)).map Prod.snd := by
  simp only [launchProgram?] at launched
  simp only [run]
  split at launched
  · cases launched
  · rename_i clean
    rw [if_neg clean]
    split at launched
    · cases launched
    · rename_i resolved
      cases launched
      rw [if_neg resolved]
      exact ⟨_, rfl, rfl⟩

theorem evaluate_of_launch {fuel : Nat} {source : String} {launch : Launch}
    (launched : session.launchExpr? fuel source = some launch) :
    ∃ expr, launch.task = .evaluate fuel expr ∧
      session.evaluate fuel source = launch.session.performReporting (Lox.evaluate fuel expr) := by
  rcases read : session.parseExpression source with ⟨tree, parsed⟩
  simp only [launchExpr?, read] at launched
  simp only [evaluate, read]
  cases tree with
  | none => cases launched
  | some expr =>
      dsimp only at launched ⊢
      split at launched
      · cases launched
      · rename_i clean
        rw [if_neg clean]
        split at launched
        · cases launched
        · rename_i resolved
          cases launched
          rw [if_neg resolved]
          exact ⟨_, rfl, rfl⟩

end Session

namespace History

variable {history : History} {session after : Session} {fuel : Nat} {source : String}

theorem sound_natives {world : World} {store : Scopes} :
    Bindings.All (world.ValueSound store) Machine.natives := by
  have inserted {natives : List Native} {table : Bindings}
      (sound : Bindings.All (world.ValueSound store) table) : Bindings.All (world.ValueSound store)
        (natives.foldl (fun table native => table.insert native.name (.ofNative native)) table) := by
    induction natives generalizing table with
    | nil => exact sound
    | cons native rest ih => exact ih (sound.insert trivial)
  exact inserted .empty

theorem coheres_fresh {host : Host} {maxCallDepth : Nat}
    (fresh : session.machine = .fresh maxCallDepth host) : Coheres {} session where
  nodup := .nil
  given := by simp
  recorded := by simp
  fresh := by simp [fresh, Machine.fresh]
  atGlobals := by rw [fresh]; rfl
  holds := by
    rw [fresh]
    refine ⟨rfl, rfl, fun ref name value bound => ?_, fun inst name value found => ?_⟩
    · simp only [Machine.fresh, Scopes.lookUp?_enter] at bound
      split at bound
      · exact sound_natives name value bound
      · simp [Scopes.lookUp?, Scopes.empty] at bound
    · simp [Machine.field?, Machine.fresh] at found

theorem issued_expr {expr : Expr} (read : (session.parseExpression source).1 = some expr) :
    Issued session.supply.nextExpr (session.parseExpression source).2.supply.nextExpr
      ((Site.topLevel.visits expr.uses).map Visit.id)
      ((Parse.expression (Token.split (Token.scan source)).1 session.supply).errors = []) := by
  have issued := Parse.expression_issued (Token.split (Token.scan source)).1 session.supply
  have tree : (Parse.expression (Token.split (Token.scan source)).1 session.supply).tree = some expr := read
  rw [tree, Parse.clauseIds, Option.toList_some, Expr.idsAll_single] at issued
  rw [Site.visits_ids]
  exact issued.perm expr.uses_ids.symm

structure Launches (history : History) (launch : Launch) : Prop where
  coheres : (history.add launch).Coheres launch.session
  ready : ((history.add launch).world launch.session.machine).Ready launch.session.machine
    launch.task

theorem Coheres.launchProgram (coheres : history.Coheres session) {launch : Launch}
    (launched : session.launchProgram? fuel source = some launch) : history.Launches launch := by
  simp only [Session.launchProgram?] at launched
  split at launched
  · cases launched
  · rename_i parsed
    split at launched
    · cases launched
    · rename_i resolved
      cases launched
      have clean : (session.parse source).2.hadError = false := by simpa using parsed
      have errors := Session.errors_of_resolve (by simpa using resolved)
      have follows := Stmt.followsAll .topLevel (session.parse source).1
      have derived := Session.parse_derives clean
      constructor
      · exact coheres.launched (follows.eq_of_clean errors) ((Parse.program_issued _ _).perm (Stmt.visitsAll_ids .topLevel _).symm) rfl
      · refine ⟨.topLevel, coheres.atGlobals, errors, ?_, ?_⟩
        · exact derived.formed Session.plain_of_mem_words
        · exact fun visit member => List.mem_append_right _ member

theorem Coheres.launchExpr (coheres : history.Coheres session) {launch : Launch}
    (launched : session.launchExpr? fuel source = some launch) : history.Launches launch := by
  rcases read : session.parseExpression source with ⟨tree, parsed⟩
  obtain rfl : (session.parseExpression source).2 = parsed := by rw [read]
  simp only [Session.launchExpr?] at launched
  rw [read] at launched
  cases tree with
  | none => cases launched
  | some expr =>
      dsimp only at launched
      split at launched
      · cases launched
      · split at launched
        · cases launched
        · rename_i resolved
          cases launched
          have errors := Session.errors_of_resolve (by simpa using resolved)
          have follows := expr.follows .topLevel .outside none
          have issued := issued_expr (congrArg Prod.fst read)
          constructor
          · exact coheres.launched (follows.eq_of_clean errors) issued rfl
          · refine ⟨.topLevel, .outside, none, ?_, nofun, errors, ?_⟩
            · show World.Stands _ _ session.machine.env [] []
              rw [coheres.atGlobals]
              exact .globals
            · exact fun visit member => List.mem_append_right _ member

theorem moment_of_launch (history : History) (launch : Launch) :
    (history.add launch).Moment launch.task launch.session.machine :=
  ⟨(launch.task, launch.session.machine), List.mem_append_right _ List.mem_cons_self, .here⟩

theorem Launches.ends {launch : Launch} (launches : history.Launches launch) :
    Kept launch.session.machine (launch.task.run.final launch.session.machine) ∧
      ((history.add launch).world launch.session.machine).Holds
        (launch.task.run.final launch.session.machine) := by
  obtain ⟨onward, holds, -⟩ := World.ends (moment_of_launch history launch) launches.ready
    launches.coheres.holds
  exact ⟨onward.kept, holds⟩

theorem Coheres.run (coheres : history.Coheres session)
    (ran : session.run fuel source = some after) :
    (history.extend (session.launchProgram? fuel source)).Coheres after := by
  cases launched : session.launchProgram? fuel source with
  | some launch =>
      have launches := coheres.launchProgram launched
      obtain ⟨-, holds⟩ := launches.ends
      obtain ⟨stmts, task, equation⟩ := Session.run_of_launch launched
      rw [equation, Option.map_eq_some_iff] at ran
      obtain ⟨⟨result, last⟩, performed, rfl⟩ := ran
      rw [task] at holds
      obtain ⟨machine, supply⟩ := Session.final_of_performReporting performed
      refine launches.coheres.extends ?_ ?_ supply
      · exact Session.performReporting_kept (interpret_keeps fuel stmts) performed
      · rw [machine, final_interpret]
        exact holds.congr rfl rfl rfl rfl
  | none =>
      simp only [Session.launchProgram?] at launched
      simp only [Session.run] at ran
      split at ran
      · cases ran
        exact coheres.advance rfl (Parse.program_issued _ _).le
      · rename_i parsed
        rw [if_neg parsed] at launched
        split at ran
        · cases ran
          have clean : (session.parse source).2.hadError = false := by simpa using parsed
          exact coheres.rejected (Stmt.followsAll .topLevel _) ((Parse.program_issued _ _).perm (Stmt.visitsAll_ids .topLevel _).symm) rfl
        · rename_i resolved
          rw [if_neg resolved] at launched
          cases launched

theorem Coheres.evaluate (coheres : history.Coheres session) {value : Option Value}
    (evaluated : session.evaluate fuel source = some (value, after)) :
    (history.extend (session.launchExpr? fuel source)).Coheres after := by
  cases launched : session.launchExpr? fuel source with
  | some launch =>
      have launches := coheres.launchExpr launched
      obtain ⟨kept, holds⟩ := launches.ends
      obtain ⟨expr, task, equation⟩ := Session.evaluate_of_launch launched
      rw [equation] at evaluated
      rw [task] at kept holds
      obtain ⟨machine, supply⟩ := Session.final_of_performReporting evaluated
      exact launches.coheres.extends (machine ▸ kept) (machine ▸ holds) supply
  | none =>
      have parsed : history.Coheres (session.parseExpression source).2 :=
        coheres.advance rfl (Parse.expression_issued _ _).le
      rcases read : session.parseExpression source with ⟨tree, rest⟩
      obtain rfl : (session.parseExpression source).2 = rest := by rw [read]
      simp only [Session.launchExpr?] at launched
      simp only [Session.evaluate] at evaluated
      rw [read] at launched evaluated
      cases tree with
      | none =>
          cases evaluated
          exact parsed
      | some expr =>
          dsimp only at launched evaluated
          split at evaluated
          · cases evaluated
            exact parsed
          · rename_i clean
            rw [if_neg clean] at launched
            split at evaluated
            · cases evaluated
              have issued := issued_expr (congrArg Prod.fst read)
              exact coheres.rejected (expr.follows .topLevel .outside none) issued rfl
            · rename_i resolved
              rw [if_neg resolved] at launched
              cases launched

theorem Driven.coheres (driven : history.Driven session) : history.Coheres session := by
  induction driven with
  | new host maxCallDepth => exact coheres_fresh rfl
  | run fuel source _ ran ih => exact ih.run ran
  | evaluate fuel source _ evaluated ih => exact ih.evaluate evaluated
  | clear _ ih => exact ih.advance rfl le_rfl
  | reset => exact coheres_fresh rfl

end History

end Lox
