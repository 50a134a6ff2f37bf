import Mathlib
import Lox.Proofs.Parse.Shift
import Lox.Proofs.Run.Holdings
import Lox.Proofs.Session.Chronicle

/-!
The functions of a session. Whatever its inputs are, each function that is a value in the session
was created at a moment of its history, and `==` tells functions of different moments apart: the
scopes that a run opens are new ones, and what is declared side by side, in one input or in several,
has different identities.
-/

namespace Lox

namespace Parse

theorem nextDecl_le_program (tokens : List Token) (supply : Supply) :
    supply.nextDecl ≤ (program tokens supply).supply.nextDecl := by
  have shifted := program_shift supply tokens {}
  rw [Supply.first_plus] at shifted
  rw [shifted]
  exact Nat.le_add_left _ _

theorem nextDecl_le_expression (tokens : List Token) (supply : Supply) :
    supply.nextDecl ≤ (expression tokens supply).supply.nextDecl := by
  have shifted := expression_shift supply tokens {}
  rw [Supply.first_plus] at shifted
  rw [shifted]
  exact Nat.le_add_left _ _

end Parse

namespace Session

variable {session : Session} {launch : Launch}

structure Tidies (session : Session) (launch : Launch) : Prop where
  admits : tidiness.Admits launch.session.machine launch.task
  distinct : launch.task.declares.Nodup
  given : ∀ id ∈ launch.task.declares,
    session.supply.nextDecl ≤ id ∧ id < launch.session.supply.nextDecl
  le : session.supply.nextDecl ≤ launch.session.supply.nextDecl
  bare : launch.task.carries = []

theorem Starts.tidies (starts : session.Starts launch) : session.Tidies launch := by
  obtain ⟨fuel, source, launched | launched⟩ := starts
  · obtain ⟨stmts, parsed, read, clean, -, rfl⟩ := launchProgram?_eq_some launched
    obtain ⟨rfl, rfl⟩ := Prod.mk.inj read
    obtain ⟨tidy, ordered, given⟩ := (parse_derives clean).tidy
    exact ⟨tidy, ordered.imp Nat.ne_of_lt, given, Parse.nextDecl_le_program _ _, rfl⟩
  · obtain ⟨expr, parsed, read, -, rfl⟩ := launchExpr?_eq_some launched
    obtain rfl : (session.parseExpression source).2 = parsed := congrArg Prod.snd read
    exact ⟨Node.tidy_expr expr, .nil, List.forall_mem_nil _, Parse.nextDecl_le_expression _ _, rfl⟩

end Session

namespace History

noncomputable def trace (history : History) : List (Task × Machine) :=
  history.starts.flatMap fun start => start.1.trace start.2

def Makes (history : History) (closure : Closure) : Prop :=
  ∃ task machine, history.Moment task machine ∧ Creates task machine closure

def MakesAt (history : History) (index : Nat) (closure : Closure) : Prop :=
  ∃ task machine, history.trace[index]? = some (task, machine) ∧ Creates task machine closure

inductive Occurs (history : History) (machine : Machine) (value : Value) : Prop
  | stored : machine.Contains value → Occurs history machine value
  | met {task present} : history.Moment task present → task.Meets present value →
      Occurs history machine value

variable {history : History} {session : Session} {launch : Launch} {machine : Machine}

theorem mem_trace {task : Task} :
    (task, machine) ∈ history.trace ↔ history.Moment task machine := by
  simp only [trace, List.mem_flatMap, Task.mem_trace]
  rfl

theorem makes_iff {closure : Closure} :
    history.Makes closure ↔ ∃ index, history.MakesAt index closure := by
  constructor
  · rintro ⟨task, machine, moment, creates⟩
    obtain ⟨index, found⟩ := List.mem_iff_getElem?.mp (mem_trace.mpr moment)
    exact ⟨index, task, machine, found, creates⟩
  · rintro ⟨index, task, machine, found, creates⟩
    exact ⟨task, machine, mem_trace.mp (List.mem_of_getElem? found), creates⟩

structure Declares (history : History) (supply : Supply) : Prop where
  disjoint : history.starts.Pairwise fun first second =>
    ∀ id ∈ first.1.declares, id ∉ second.1.declares
  used : ∀ start ∈ history.starts, ∀ id ∈ start.1.declares, id < supply.nextDecl

theorem Declares.later {supply supply' : Supply} (declares : history.Declares supply)
    (le : supply.nextDecl ≤ supply'.nextDecl) : history.Declares supply' :=
  ⟨declares.disjoint, fun start member id listed =>
    (declares.used start member id listed).trans_le le⟩

theorem Declares.add (declares : history.Declares session.supply) (starts : session.Starts launch) :
    (history.add launch).Declares launch.session.supply := by
  have given := starts.tidies.given
  have le := starts.tidies.le
  constructor
  · refine List.pairwise_append.mpr ⟨declares.disjoint, List.pairwise_singleton _ _, ?_⟩
    intro start member new last id listed listed'
    cases List.mem_singleton.mp last
    exact absurd (declares.used start member id listed) (Nat.not_lt.mpr (given id listed').1)
  · refine List.forall_mem_append.mpr ⟨(declares.later le).used, List.forall_mem_singleton.mpr ?_⟩
    exact fun id listed => (given id listed).2

theorem Driven.declares (driven : history.Driven session) : history.Declares session.supply := by
  induction driven with
  | new | reset => exact ⟨.nil, by simp⟩
  | clear _ ih => exact ih
  | @run history session after fuel source before ran ih =>
      cases launched : session.launchProgram? fuel source with
      | none =>
          have supply := (Session.adds_run ran).supply
          exact ih.later (supply ▸ Parse.nextDecl_le_program _ _)
      | some launch =>
          obtain ⟨stmts, -, equation⟩ := Session.run_of_launch launched
          rw [equation, Option.map_eq_some_iff] at ran
          obtain ⟨⟨result, last⟩, performed, rfl⟩ := ran
          rw [Session.supply_of_performReporting performed]
          exact ih.add ⟨fuel, source, .inl launched⟩
  | @evaluate history session after value fuel source before evaluated ih =>
      cases launched : session.launchExpr? fuel source with
      | none =>
          have supply := (Session.adds_evaluate evaluated).supply
          exact ih.later (supply ▸ Parse.nextDecl_le_expression _ _)
      | some launch =>
          obtain ⟨expr, -, equation⟩ := Session.evaluate_of_launch launched
          rw [equation] at evaluated
          rw [Session.supply_of_performReporting evaluated]
          exact ih.add ⟨fuel, source, .inr launched⟩

structure Accounts (history : History) : Prop where
  settled : ∀ start ∈ history.starts, Settled start.1 start.2
  equipped : ∀ start ∈ history.starts, Equipped history.Moment start.1 start.2
  atGlobals : ∀ start ∈ history.starts, start.2.env = [⟨0⟩]

structure Awaits (history : History) (machine : Machine) : Prop extends history.Accounts where
  tidy : tidiness.Within machine
  stocked : machine.Stocked history.Moment
  env : machine.env = [⟨0⟩]
  age : 0 < machine.age

theorem mem_starts_add (history : History) (launch : Launch) :
    (launch.task, launch.session.machine) ∈ (history.add launch).starts :=
  List.mem_append_right _ List.mem_cons_self

theorem Moment.add {task : Task} (moment : history.Moment task machine) (launch : Launch) :
    (history.add launch).Moment task machine := by
  obtain ⟨start, member, reaches⟩ := moment
  exact ⟨start, List.mem_append_left _ member, reaches⟩

theorem Moment.extend {task : Task} (moment : history.Moment task machine)
    (launch? : Option Launch) : (history.extend launch?).Moment task machine := by
  cases launch? with
  | none => exact moment
  | some launch => exact moment.add launch

theorem Moment.of_reaches {task : Task}
    (reaches : Reaches launch.task launch.session.machine task machine) :
    (history.add launch).Moment task machine := ⟨_, mem_starts_add history launch, reaches⟩

theorem Awaits.add (awaits : history.Awaits launch.session.machine)
    (starts : session.Starts launch) : (history.add launch).Accounts := by
  have tidies := starts.tidies
  have opened : ∃ ref, launch.session.machine.env.head? = some ref ∧
      ref.index < launch.session.machine.age := ⟨⟨0⟩, by rw [awaits.env]; rfl, awaits.age⟩
  have stocked : launch.session.machine.Stocked (history.add launch).Moment :=
    awaits.stocked.mono fun _ _ moment => moment.add launch
  refine ⟨?_, ?_, ?_⟩
  · refine List.forall_mem_append.mpr ⟨awaits.settled, List.forall_mem_singleton.mpr ?_⟩
    exact ⟨tidies.admits, awaits.tidy, tidies.distinct, opened⟩
  · refine List.forall_mem_append.mpr ⟨?_, List.forall_mem_singleton.mpr ?_⟩
    · exact fun start member => (awaits.equipped start member).mono fun _ _ moment =>
        moment.add launch
    · exact .bare tidies.bare stocked
  · exact List.forall_mem_append.mpr ⟨awaits.atGlobals, List.forall_mem_singleton.mpr awaits.env⟩

theorem awaits_fresh (limit : Nat) (host : Host) : Awaits {} (.fresh limit host) where
  settled := by simp
  equipped := by simp
  atGlobals := by simp
  tidy := Realm.within_fresh limit host (fun _ _ => trivial) rfl rfl
  stocked := stocked_fresh _ limit host
  env := rfl
  age := Nat.one_pos

theorem Awaits.record (awaits : history.Awaits machine) (pairs : List (ExprId × Nat)) :
    history.Awaits (machine.record pairs) where
  toAccounts := awaits.toAccounts
  tidy := awaits.tidy.congr rfl rfl rfl
  stocked := awaits.stocked.congr rfl rfl le_rfl
  env := awaits.env
  age := awaits.age

theorem Awaits.perform (awaits : history.Awaits launch.session.machine)
    (starts : session.Starts launch) (host : Host) :
    (history.add launch).Awaits { launch.task.run.final launch.session.machine with host } := by
  have accounts := awaits.add starts
  have tidy := tidiness.confines launch.task _ trivial starts.tidies.admits awaits.tidy
  have ends := (accounts.equipped _ (mem_starts_add history launch)).ends Moment.of_reaches
  have kept := launch.task.keeps launch.session.machine
  refine ⟨accounts, ?_, ?_, ?_, ?_⟩
  · exact tidy.extends_final.within.congr rfl rfl rfl
  · exact ends.holds.congr rfl rfl le_rfl
  · exact kept.env.trans awaits.env
  · exact awaits.age.trans_le (launch.task.age_le _)

theorem Driven.awaits (driven : history.Driven session) : history.Awaits session.machine :=
  driven.machine_induction awaits_fresh (fun pairs awaits => awaits.record pairs)
    (fun host _ starts awaits => awaits.perform starts host)

section Extended

variable {launch? : Option Launch} (driven : history.Driven session)
  (starts : ∀ launch ∈ launch?, session.Starts launch)

include driven starts

theorem Driven.accounts : (history.extend launch?).Accounts := by
  cases launch? with
  | none => exact driven.awaits.toAccounts
  | some launch =>
      have started := starts launch rfl
      obtain ⟨pairs, recorded⟩ := started.checks.machine
      have awaits : history.Awaits launch.session.machine := recorded ▸ driven.awaits.record pairs
      exact awaits.add started

theorem Driven.pairwise_starts :
    (history.extend launch?).starts.Pairwise fun first second =>
      first.1.EndsBy first.2 second.2 ∧ ∀ id ∈ first.1.declares, id ∉ second.1.declares := by
  cases launch? with
  | none => exact driven.chronicles.ordered.and driven.declares.disjoint
  | some launch =>
      have started := starts launch rfl
      obtain ⟨pairs, recorded⟩ := started.checks.machine
      have chronicles : history.Chronicles launch.session.machine := by
        rw [recorded]
        exact driven.chronicles.later le_rfl
      exact chronicles.add.and (driven.declares.add started).disjoint

theorem Driven.apart_trace : (history.extend launch?).trace.Pairwise CreateApart := by
  have accounts := driven.accounts starts
  refine List.pairwise_flatMap.mpr ⟨fun start member => ?_, ?_⟩
  · exact (accounts.settled start member).apart_trace
  · refine (driven.pairwise_starts starts).imp_of_mem ?_
    rintro first second member member' ⟨before, disjoint⟩ moment inner moment' inner'
    have settled := accounts.settled first member
    have env : second.2.env = first.2.env :=
      (accounts.atGlobals second member').trans (accounts.atGlobals first member).symm
    intro closure closure' creates creates'
    have dated := (Task.mem_trace.mp inner).dated settled creates
    have dated' := (Task.mem_trace.mp inner').dated (accounts.settled second member') creates'
    refine settled.same_eq_false before (fun ref found le => ?_) disjoint dated dated'
    -- the scope of the globals is older than all that an input opens
    exact absurd (env ▸ found) (settled.head_ne le)

theorem Driven.makes {closure : Closure}
    (occurs : (history.extend launch?).Occurs session.machine (.function closure)) :
    (history.extend launch?).Makes closure := by
  cases occurs with
  | stored contained =>
      exact (driven.awaits.stocked _ contained).mono fun _ _ moment => moment.extend launch?
  | met moment meets =>
      obtain ⟨start, member, reaches⟩ := moment
      have begun {task : Task} {machine : Machine} (reached : Reaches start.1 start.2 task machine) :
          (history.extend launch?).Moment task machine := ⟨start, member, reached⟩
      have equipped := ((driven.accounts starts).equipped start member).reaches begun reaches
      exact equipped.present_of_meets (fun reached => begun (reaches.trans reached)) meets

theorem Driven.same_eq {i j : Nat} {one other : Closure}
    (makes : (history.extend launch?).MakesAt i one)
    (makes' : (history.extend launch?).MakesAt j other) : one.same other = decide (i = j) := by
  obtain ⟨task, machine, found, creates⟩ := makes
  obtain ⟨task', machine', found', creates'⟩ := makes'
  have differ {i j : Nat} {first second : Task × Machine} (lt : i < j)
      (found : (history.extend launch?).trace[i]? = some first)
      (found' : (history.extend launch?).trace[j]? = some second) : CreateApart first second := by
    obtain ⟨bound, rfl⟩ := List.getElem?_eq_some_iff.mp found
    obtain ⟨bound', rfl⟩ := List.getElem?_eq_some_iff.mp found'
    exact List.pairwise_iff_getElem.mp (driven.apart_trace starts) i j bound bound' lt
  rcases Nat.lt_trichotomy i j with lt | rfl | gt
  · have apart := differ lt found found' one other creates creates'
    rw [apart, decide_eq_false lt.ne]
  · cases found.symm.trans found'
    rw [creates.unique creates', Closure.same_self, decide_eq_true rfl]
  · have apart := differ gt found' found other one creates' creates
    rw [Closure.same_comm, apart, decide_eq_false gt.ne']

end Extended

end History

def Session.globalFunction? (session : Session) (name : String) : Option Closure :=
  match session.machine.scopes.lookUp? ⟨0⟩ name with
  | some (.callable (.function closure)) => some closure
  | _ => none

theorem Session.contains_globalFunction {session : Session} {name : String} {closure : Closure}
    (found : session.globalFunction? name = some closure) :
    session.machine.Contains (.function closure) := by
  unfold globalFunction? at found
  split at found
  · rename_i bound
    cases found
    exact .bound bound
  · cases found

/-- Whatever the inputs of a session are, and also while one of them runs: a function that is
created is there when its task ends; functions that are created at two moments of the history are
equal if and only if the moments are one; and functions that are values anywhere in the history are
equal if and only if one moment has created both. So each execution of a declaration, and each
retrieval of a method, gives a function of its own. -/
theorem functions_are_equal_by_creation {history : History} {session : Session}
    {launch? : Option Launch} (driven : history.Driven session)
    (starts : ∀ launch ∈ launch?, session.Starts launch) :
    (∀ task machine closure, (history.extend launch?).Moment task machine →
      Creates task machine closure → task.Meets machine (.function closure)) ∧
    (∀ i j one other, (history.extend launch?).MakesAt i one →
      (history.extend launch?).MakesAt j other →
      Operator.binary .equalEqual (.function one) (.function other) =
        .ok (.bool (decide (i = j)))) ∧
    ∀ one other, (history.extend launch?).Occurs session.machine (.function one) →
      (history.extend launch?).Occurs session.machine (.function other) →
      ∃ same, Operator.binary .equalEqual (.function one) (.function other) = .ok (.bool same) ∧
        (same = true ↔ ∃ index, (history.extend launch?).MakesAt index one ∧
          (history.extend launch?).MakesAt index other) := by
  refine ⟨?_, ?_, ?_⟩
  · rintro task machine closure ⟨start, member, reaches⟩ creates
    have settled := (driven.accounts starts).settled start member
    exact creates.meets (settled.reaches reaches)
  · intro i j one other makes makes'
    exact congrArg (Except.ok ∘ Value.bool) (driven.same_eq starts makes makes')
  · intro one other occurs occurs'
    refine ⟨one.same other, rfl, ?_⟩
    obtain ⟨i, makes⟩ := History.makes_iff.mp (driven.makes starts occurs)
    obtain ⟨j, makes'⟩ := History.makes_iff.mp (driven.makes starts occurs')
    constructor
    · intro same
      rw [driven.same_eq starts makes makes'] at same
      cases of_decide_eq_true same
      exact ⟨i, makes, makes'⟩
    · rintro ⟨index, creates, creates'⟩
      rw [driven.same_eq starts creates creates', decide_eq_true rfl]

/-- A method that is retrieved twice, and a copy of the first of the two. -/
theorem functions_are_equal_by_creation_of_method :
    ∃ (history : History) (session : Session) (launch : Launch) (p q r : Closure),
      history.Driven session ∧ session.Starts launch ∧
      session.globalFunction? "p" = some p ∧ session.globalFunction? "q" = some q ∧
      session.globalFunction? "r" = some r ∧
      (∃ index, (history.add launch).MakesAt index p ∧ (history.add launch).MakesAt index r) ∧
      ¬ ∃ index, (history.add launch).MakesAt index p ∧ (history.add launch).MakesAt index q := by
  have computed : ((Session.new {} 4).run 24
      "class A { m() {} } var a = A(); var p = a.m; var q = a.m; var r = p;").map
      (fun session => ((session.launchExpr? 9 "p == q").isSome,
        (session.globalFunction? "p").bind fun p => (session.globalFunction? "q").bind fun q =>
          (session.globalFunction? "r").map fun r => (p.same q, p.same r))) =
      some (true, some (false, true)) := by cbv
  obtain ⟨session, ran, found⟩ := Option.map_eq_some_iff.mp computed
  obtain ⟨started, compared⟩ := Prod.mk.inj found
  obtain ⟨launch, launched⟩ := Option.isSome_iff_exists.mp started
  obtain ⟨p, first, compared⟩ := Option.bind_eq_some_iff.mp compared
  obtain ⟨q, second, compared⟩ := Option.bind_eq_some_iff.mp compared
  obtain ⟨r, third, compared⟩ := Option.map_eq_some_iff.mp compared
  obtain ⟨differ, equal⟩ := Prod.mk.inj compared
  have driven := History.Driven.run 24 _ (.new {} 4) ran
  have starts : session.Starts launch := ⟨9, "p == q", .inr launched⟩
  have started : ∀ input ∈ some launch, session.Starts input := by
    rintro _ ⟨⟩
    exact starts
  have equality := (functions_are_equal_by_creation driven started).2.2
  obtain ⟨_, ⟨⟩, copies⟩ := equality p r (.stored (Session.contains_globalFunction first))
    (.stored (Session.contains_globalFunction third))
  obtain ⟨_, ⟨⟩, others⟩ := equality p q (.stored (Session.contains_globalFunction first))
    (.stored (Session.contains_globalFunction second))
  refine ⟨_, session, launch, p, q, r, driven, starts, first, second, third, copies.mp equal, ?_⟩
  exact fun both => absurd (others.mpr both) (Bool.eq_false_iff.mp differ)

end Lox
