import Mathlib
import Lox.Proofs.Run.Journal
import Lox.Proofs.Session.Creations

/-!
The classes of a session and its journal. A class that is a value was made by a class statement, and
its superclasses by earlier ones; so there are only finitely many of them. The journal of a session
is that of its inputs, and it leads from a new machine to each state that the session comes to.
-/

namespace Lox

open Run

theorem ClassStatement.getElem?_table (methods : List FunctionDecl) (env : Env) (name : String) :
    (methods.foldl (fun table decl => table.insert decl.name.lexeme
      ⟨decl, env, decl.name.lexeme = "init"⟩) ({} : Std.TreeMap String Closure))[name]? =
      (⟨methods, env⟩ : ClassStatement).method? name := by
  induction methods using List.reverseRecOn with
  | nil => simp [method?]
  | append_singleton early last ih =>
      rw [List.foldl_append, List.foldl_cons, List.foldl_nil, Std.TreeMap.getElem?_insert, ih]
      by_cases same : last.name.lexeme = name
      · simp [method?, same]
      · simp [method?, same]

namespace Descends

variable {moment : Task → Machine → Prop} {cls : ClassObject} {statements : List ClassStatement}

theorem declares (descends : Descends moment cls statements) :
    cls.chain.Forall₂ (fun body statement => ∀ name, body.methods[name]? = statement.method? name)
      statements := by
  induction descends with
  | base => exact .cons (ClassStatement.getElem?_table _ _) .nil
  | derived _ _ _ ih => exact .cons (ClassStatement.getElem?_table _ _) ih

theorem findMethod? (descends : Descends moment cls statements) (name : String) :
    cls.findMethod? name = statements.findSome? (·.method? name) := by
  have declared := descends.declares
  clear descends
  unfold ClassObject.findMethod?
  generalize cls.chain = bodies at declared
  induction declared with
  | nil => rfl
  | cons same _ ih => rw [List.findSome?_cons, List.findSome?_cons, same, ih]

theorem decreasing (descends : Descends moment cls statements) :
    (cls.chain.map ClassBody.id).Pairwise (· > ·) ∧ cls.chain.length ≤ cls.own.id + 1 := by
  induction descends with
  | base => exact ⟨List.pairwise_singleton _ _, Nat.le_add_left _ _⟩
  | @derived _ parent methods machine _ _ earlier _ ih =>
      obtain ⟨ordered, short⟩ := ih
      constructor
      · refine List.pairwise_cons.mpr ⟨fun id listed => ?_, ordered⟩
        rcases List.mem_cons.mp listed with rfl | listed
        · exact earlier
        · exact ((List.pairwise_cons.mp ordered).1 id listed).trans earlier
      · exact Nat.succ_le_succ (short.trans earlier)

end Descends

theorem Tracks.mono {moment more : Task → Machine → Prop}
    (implies : ∀ task machine, moment task machine → more task machine) {first last : Machine}
    {events : List Event} (tracks : Tracks moment first events last) :
    Tracks more first events last := by
  induction tracks with
  | idle steady => exact .idle steady
  | next follows _ ih =>
      exact .next ⟨follows.toTurns, fun value shows => (follows.shown value shows).mono implies⟩ ih

namespace History

variable {history : History} {session : Session} {launch : Launch} {machine : Machine}

def journal (history : History) : List Event :=
  history.starts.flatMap fun start => start.1.journal start.2

theorem journal_add (history : History) (launch : Launch) :
    (history.add launch).journal =
      history.journal ++ launch.task.journal launch.session.machine := by
  simp [journal, add]

theorem Moment.mem_journal {task : Task} (moment : history.Moment task machine) :
    .begun task machine ∈ history.journal ∧ .ended task machine ∈ history.journal := by
  obtain ⟨start, member, reaches⟩ := moment
  obtain ⟨begun, ended⟩ := reaches.mem_journal
  exact ⟨List.mem_flatMap.mpr ⟨start, member, begun⟩, List.mem_flatMap.mpr ⟨start, member, ended⟩⟩

def Reports (history : History) (machine : Machine) : Prop :=
  ∃ limit host, Tracks history.Moment (.fresh limit host) history.journal machine

theorem Reports.perform (reports : history.Reports launch.session.machine)
    (equipped : Equipped (history.add launch).Moment launch.task launch.session.machine) :
    (history.add launch).Reports (launch.task.run.final launch.session.machine) := by
  obtain ⟨limit, host, tracks⟩ := reports
  rw [Reports, journal_add]
  exact ⟨limit, host, (tracks.mono fun _ _ moment => moment.add launch).append
    (tracks_journal Moment.of_reaches equipped)⟩

theorem Reports.before {later : Machine} (reports : history.Reports machine)
    (steady : machine.Steady later) : history.Reports later := by
  obtain ⟨limit, host, tracks⟩ := reports
  exact ⟨limit, host, tracks.before steady⟩

theorem Driven.equipped (driven : history.Driven session) (starts : session.Starts launch) :
    Equipped (history.add launch).Moment launch.task launch.session.machine := by
  have started : ∀ input ∈ some launch, session.Starts input := by
    rintro _ ⟨⟩
    exact starts
  exact (driven.accounts started).equipped _ (mem_starts_add history launch)

theorem Driven.reports (driven : history.Driven session) : history.Reports session.machine := by
  refine driven.machine_induction ?_ ?_ ?_
  · exact fun limit host => ⟨limit, host, .idle (.refl _)⟩
  · exact fun pairs reports => reports.before (.of_eq rfl le_rfl)
  · intro history session launch host driven starts reports
    exact (reports.perform (driven.equipped starts)).before (.of_eq rfl le_rfl)

/-- A state of the session, between two inputs or while one of them runs, and what has happened
until then. -/
inductive Stands (history : History) (session : Session) (launch? : Option Launch) :
    List Event → Machine → Prop
  | between : Stands history session launch? history.journal session.machine
  | during {past event future} : (history.extend launch?).journal = past ++ event :: future →
      Stands history session launch? (past ++ [event]) event.state

def Known (past : List Event) (machine : Machine) (value : Value) : Prop :=
  machine.Contains value ∨ ∃ event ∈ past, event.Shows value

section Standing

variable {launch? : Option Launch} (driven : history.Driven session)
  (starts : ∀ launch ∈ launch?, session.Starts launch) {past : List Event}
  (stands : history.Stands session launch? past machine)

include driven starts

theorem Driven.tracks_extended : ∃ limit host last,
    Tracks (history.extend launch?).Moment (.fresh limit host) (history.extend launch?).journal
      last := by
  cases launch? with
  | none =>
      obtain ⟨limit, host, tracks⟩ := driven.reports
      exact ⟨limit, host, _, tracks⟩
  | some launch =>
      have started := starts launch rfl
      obtain ⟨pairs, recorded⟩ := started.checks.machine
      have reports : history.Reports launch.session.machine := by
        rw [recorded]
        exact driven.reports.before (.of_eq rfl le_rfl)
      obtain ⟨limit, host, tracks⟩ := reports.perform (driven.equipped started)
      exact ⟨limit, host, _, tracks⟩

include stands

theorem Driven.tracks : ∃ limit host,
    Tracks (history.extend launch?).Moment (.fresh limit host) past machine := by
  cases stands with
  | between =>
      obtain ⟨limit, host, tracks⟩ := driven.reports
      exact ⟨limit, host, tracks.mono fun _ _ moment => moment.extend launch?⟩
  | during split =>
      obtain ⟨limit, host, last, tracks⟩ := driven.tracks_extended starts
      rw [split] at tracks
      exact ⟨limit, host, tracks.upTo⟩

theorem Driven.fieldAt_eq (index : Nat) (name : String) :
    machine.fieldAt index name = latest past index name := by
  obtain ⟨limit, host, tracks⟩ := driven.tracks starts stands
  have none : (Machine.fresh limit host).fieldAt index name = none := by
    simp [Machine.fieldAt, Machine.fresh]
  rw [tracks.fields, none, Option.or_none]

theorem Driven.present {value : Value} (known : Known past machine value) :
    value.Present (history.extend launch?).Moment machine := by
  rcases known with contained | ⟨event, member, shows⟩
  · cases stands with
    | between =>
        have present := driven.awaits.stocked value contained
        exact present.mono fun _ _ moment => moment.extend launch?
    | @during past event future split =>
        obtain ⟨limit, host, tracks⟩ := driven.tracks starts (.during split)
        exact tracks.shown (List.mem_append_right past List.mem_cons_self) (.stored contained)
  · obtain ⟨limit, host, tracks⟩ := driven.tracks starts stands
    exact tracks.shown member shows

end Standing

end History

end Lox
