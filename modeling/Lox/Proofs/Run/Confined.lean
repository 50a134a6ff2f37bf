import Lox.Proofs.Run.Realm

/-!
A run that begins in a realm stays in it. A task is admitted if its code may run where the machine
is and if the values that it is given belong to the realm. Every admitted task leads on within the
realm, and begins only tasks that are admitted in their turn.
-/

namespace Lox

namespace Realm

section Admitted

variable (realm : Realm)

def Runs (machine : Machine) (node : Node) : Prop := realm.code machine.scopes machine.env node

def Admits (machine : Machine) : Task → Prop
  | .evaluate _ expr => realm.Runs machine (.expr expr)
  | .evaluateAll _ exprs => ∀ expr ∈ exprs, realm.Runs machine (.expr expr)
  | .evaluateOr _ expr => ∀ value ∈ expr, realm.Runs machine (.expr value)
  | .call _ function _ arguments =>
      realm.Value machine.scopes function ∧ ∀ value ∈ arguments, realm.Value machine.scopes value
  | .invoke _ callee arguments =>
      realm.Value machine.scopes (.callable callee) ∧
        ∀ value ∈ arguments, realm.Value machine.scopes value
  | .invokeFunction _ closure arguments =>
      realm.function machine.scopes closure ∧
        ∀ value ∈ arguments, realm.Value machine.scopes value
  | .bindMethod method inst =>
      realm.method machine.scopes method ∧ realm.Value machine.scopes (.object inst)
  | .execute _ stmt => realm.Runs machine (.stmt stmt)
  | .executeAll _ stmts | .executeProgram _ stmts =>
      ∀ stmt ∈ stmts, realm.Runs machine (.stmt stmt)
  | .repeatWhile _ condition body => realm.Runs machine (.stmt (.whileLoop condition body))
  | .declareClass name superclass methods =>
      (∃ expr : Option Expr, expr.isSome = superclass.isSome ∧
        realm.Runs machine (.stmt (.classDecl name expr methods))) ∧
        ∀ parent ∈ superclass, realm.Class machine.scopes parent

def Post : (task : Task) → task.Result → Scopes → Prop
  | .evaluate _ _ | .evaluateOr _ _ | .call _ _ _ _ | .invoke _ _ _ | .invokeFunction _ _ _ =>
      fun value store => realm.Value store value
  | .evaluateAll _ _ => fun values store => ∀ value ∈ values, realm.Value store value
  | .bindMethod _ _ => fun bound store => realm.function store bound
  | .execute _ _ | .executeAll _ _ | .repeatWhile _ _ _ => fun flow store =>
      ∀ value, flow = .returned value → realm.Value store value
  | .declareClass _ _ _ | .executeProgram _ _ => fun _ _ => True

def law : Law where
  admits task machine := realm.Admits machine task
  permits deed machine := realm.Permits machine deed
  holds := realm.Within
  later before after := Kept before after ∧ realm.later before.scopes after.scopes
  yields task _ result after := realm.Post task result after.scopes
  later_refl machine := ⟨.refl machine, realm.later_refl _⟩
  later_trans early late := ⟨early.1.trans late.1, realm.later_trans early.2 late.2⟩
  change permitted within :=
    have extended := within.change permitted
    ⟨⟨extended.kept, extended.later⟩, extended.within⟩
  enter entered within := by
    obtain ⟨_, _, rfl⟩ := Setting.eq_of_enter entered
    exact within.congr rfl rfl rfl
  leave {setting machine present after} entered later within := by
    have kept := lasting_kept.leave setting machine entered later.1
    obtain ⟨_, _, rfl⟩ := Setting.eq_of_enter entered
    obtain ⟨_, _, same⟩ := setting.leave_eq machine after
    rw [same] at kept ⊢
    exact ⟨⟨kept, later.2⟩, within.congr rfl rfl rfl⟩

end Admitted

variable {realm : Realm} {machine : Machine}

theorem Runs.later {after : Machine} {node : Node} (runs : realm.Runs machine node)
    (later : realm.law.later machine after) : realm.Runs after node := by
  unfold Runs
  rw [later.1.env]
  exact realm.code_later runs later.2

theorem Runs.part {expr part : Expr} (runs : realm.Runs machine (.expr expr))
    (member : part ∈ expr.parts) : realm.Runs machine (.expr part) :=
  realm.code_part runs (List.mem_map_of_mem member)

/-! The plan of an admitted task keeps to the realm. -/

section Plans

variable {fuel bound : Nat}

open Plan

theorem value_of_plain {store : Scopes} {value : Lox.Value} (plain : value.Plain) :
    realm.Value store value := by
  cases value with
  | object => exact plain.elim
  | callable callee =>
      cases callee with
      | native => trivial
      | function | constructor => exact plain.elim
  | _ => trivial

theorem obeys_readVariable (within : realm.Within machine)
    (seen : ∀ ref ∈ machine.env, realm.scope ref) (id : ExprId) (name : Token) :
    (readVariable id name : Plan bound Lox.Value).Obeys realm.law
      (fun value after => realm.Value after.scopes value) machine := by
  refine .act seen fun answer found _ _ => ?_
  cases answer with
  | none => trivial
  | some value =>
      have found : machine.valueOf? id name.lexeme = some value := found
      unfold Machine.valueOf? at found
      split at found
      · exact value_getAt? seen within found
      · exact value_find? within.globals within found

theorem obeys_retrieve {method : Closure} {inst : Instance}
    (belongs : realm.method machine.scopes method)
    (bound : realm.Value machine.scopes (.object inst)) :
    (retrieve fuel method inst).Obeys realm.law (fun value after => realm.Value after.scopes value)
      machine :=
  .here ⟨belongs, bound⟩ fun _ _ _ _ _ function => function

theorem obeys_ofExpr {expr : Expr} (runs : realm.Runs machine (.expr expr))
    (within : realm.Within machine) :
    (ofExpr fuel expr).Obeys realm.law (fun value after => realm.Value after.scopes value)
      machine := by
  have seen := realm.code_scope runs
  cases expr with
  | literal constant => exact value_of_plain (Value.plain_ofConstant constant)
  | grouping => exact .last (runs.part (by simp [Expr.parts])) fun _ _ _ belongs => belongs
  | unary =>
      refine .here (runs.part (by simp [Expr.parts])) fun _ _ _ _ _ _ => ?_
      exact .orFailAt fun _ applied => value_of_plain (Operator.plain_unary applied)
  | binary =>
      refine .here (runs.part (by simp [Expr.parts])) fun _ _ _ later _ _ => ?_
      refine .here ((runs.part (by simp [Expr.parts])).later later) fun _ _ _ _ _ _ => ?_
      exact .orFailAt fun _ applied => value_of_plain (Operator.plain_binary applied)
  | logical =>
      refine .here (runs.part (by simp [Expr.parts])) fun first _ _ later _ belongs => ?_
      split
      · exact belongs
      · exact .last ((runs.part (by simp [Expr.parts])).later later) fun _ _ _ belongs => belongs
  | comma =>
      refine .here (runs.part (by simp [Expr.parts])) fun _ _ _ later _ _ => ?_
      exact .last ((runs.part (by simp [Expr.parts])).later later) fun _ _ _ belongs => belongs
  | conditional =>
      refine .here (runs.part (by simp [Expr.parts])) fun value _ _ later _ _ => ?_
      split <;>
        exact .last ((runs.part (by simp [Expr.parts])).later later) fun _ _ _ belongs => belongs
  | var id name => exact obeys_readVariable within seen id name
  | this id keyword => exact obeys_readVariable within seen id keyword
  | assign id name value =>
      refine .here (runs.part (by simp [Expr.parts])) fun result after _ later _ belongs => ?_
      have seen' : ∀ ref ∈ after.env, realm.scope ref := later.1.env ▸ seen
      refine .act ⟨seen', realm.code_assigns runs, belongs⟩ fun answer _ later' _ => ?_
      cases answer with
      | true => exact Value.later belongs later'.2
      | false => trivial
  | call callee paren arguments =>
      refine .here (runs.part List.mem_cons_self) fun function _ _ later _ belongs => ?_
      refine .here (fun argument member =>
        (runs.part (List.mem_cons_of_mem _ member)).later later) fun values _ _ later' _ given => ?_
      exact .last ⟨Value.later belongs later'.2, given⟩ fun _ _ _ belongs => belongs
  | get object name =>
      refine .here (runs.part (by simp [Expr.parts])) fun target after _ _ within belongs => ?_
      cases target with
      | object inst =>
          refine .act belongs.1 fun answer found _ _ => ?_
          cases answer with
          | some value => exact within.fields inst _ value belongs.1 found
          | none =>
              dsimp only
              split
              · exact obeys_retrieve (belongs.2.findMethod? ‹_›) belongs
              · trivial
      | _ => trivial
  | set object name value =>
      refine .here (runs.part (by simp [Expr.parts])) fun target _ _ later _ owned => ?_
      cases target with
      | object inst =>
          refine .here ((runs.part (by simp [Expr.parts])).later later)
            fun result _ _ _ _ belongs => ?_
          exact .act ⟨owned.1, belongs⟩ fun _ _ later _ => Value.later belongs later.2
      | _ => trivial
  | super id keyword method =>
      refine .act seen fun answer found _ _ => ?_
      cases answer with
      | none => trivial
      | some pair =>
          obtain ⟨superclass, inst⟩ := pair
          obtain ⟨depth, -, parent, receiver⟩ := Deed.inherited_eq_some.mp found
          have inherited : realm.Class machine.scopes superclass := value_getAt? seen within parent
          dsimp only
          split
          · exact obeys_retrieve (inherited.findMethod? ‹_›) (value_getAt? seen within receiver)
          · trivial

theorem obeys_ofCall {function : Lox.Value} {arguments : List Lox.Value} (paren : Token)
    (belongs : realm.Value machine.scopes function)
    (given : ∀ value ∈ arguments, realm.Value machine.scopes value) :
    (ofCall fuel function paren arguments).Obeys realm.law
      (fun value after => realm.Value after.scopes value) machine := by
  unfold ofCall
  split
  · trivial
  · rename_i callee callable
    have invoked : function = .callable callee := by
      cases function <;> cases callable
      rfl
    subst invoked
    split
    · trivial
    · intro present entered
      obtain ⟨_, _, rfl⟩ := Setting.eq_of_enter entered
      exact ⟨⟨belongs, given⟩, fun _ _ _ _ _ belongs => belongs⟩

theorem obeys_ofCallable {callee : Callable} {arguments : List Lox.Value}
    (belongs : realm.Value machine.scopes (.callable callee))
    (given : ∀ value ∈ arguments, realm.Value machine.scopes value)
    (within : realm.Within machine) :
    (ofCallable fuel arguments callee).Obeys realm.law
      (fun value after => realm.Value after.scopes value) machine := by
  cases callee with
  | native builtin =>
      refine obeys_ofNative (fun deed _ hosted => ?_) (fun _ _ plain => value_of_plain plain) _ _ _
      cases deed with
      | writeLine | readLine | readFile | writeFile | clock => trivial
      | _ => exact hosted.elim
  | function closure => exact .last ⟨belongs, given⟩ fun _ _ _ belongs => belongs
  | constructor cls =>
      refine .act trivial fun inst made _ _ => ?_
      have new : realm.Value machine.scopes (.object inst) :=
        made ▸ ⟨realm.object_new _ within.objects, belongs⟩
      have same : inst.cls = cls := made ▸ rfl
      split
      · rename_i found
        refine .here ⟨new.2.findMethod? (same ▸ found), new⟩ fun bound _ _ later _ function => ?_
        refine .here ⟨function, fun value member => (given value member).later later.2⟩ ?_
        exact fun _ _ _ later' _ _ => (new.later later.2).later later'.2
      · exact new

theorem obeys_ofFunction {closure : Closure} {arguments : List Lox.Value}
    (moment : realm.moments (.invokeFunction (fuel + 1) closure arguments) machine)
    (belongs : realm.function machine.scopes closure)
    (given : ∀ value ∈ arguments, realm.Value machine.scopes value)
    (within : realm.Within machine) :
    (ofFunction fuel closure arguments).Obeys realm.law
      (fun value after => realm.Value after.scopes value) machine := by
  refine .act (Bindings.All.parameters closure.decl.params given) fun env opened later _ => ?_
  subst opened
  rintro _ ⟨⟩
  refine ⟨realm.code_body moment within.scopes belongs _, fun flow after _ _ within returned => ?_⟩
  unfold functionResult
  split
  · refine .act (realm.function_scope belongs) fun answer found _ _ => ?_
    cases answer with
    | none => trivial
    | some value => exact value_getAt? (realm.function_scope belongs) within found
  · cases flow with
    | normal => trivial
    | returned value => exact returned value rfl

theorem obeys_ofStmt {stmt : Stmt} (moment : realm.moments (.execute (fuel + 1) stmt) machine)
    (runs : realm.Runs machine (.stmt stmt)) (within : realm.Within machine) :
    (ofStmt fuel stmt).Obeys realm.law
      (fun flow after => ∀ value, flow = .returned value → realm.Value after.scopes value)
      machine := by
  have seen := realm.code_scope runs
  have part {node : Node} (member : node ∈ (Node.stmt stmt).inPlace) : realm.Runs machine node :=
    realm.code_part runs member
  cases stmt with
  | expression =>
      exact .here (part (by simp [Node.inPlace, Node.parts])) fun _ _ _ _ _ _ => by rintro _ ⟨⟩
  | print =>
      refine .here (part (by simp [Node.inPlace, Node.parts])) fun _ _ _ _ _ _ => ?_
      refine .act trivial fun answer _ _ _ => ?_
      cases answer with
      | ok => rintro _ ⟨⟩
      | error => trivial
  | varDecl name initializer =>
      refine .here (fun value member => part ?_) fun value after _ later _ belongs => ?_
      · simpa [Node.inPlace, Node.parts] using member
      · have seen' : ∀ ref ∈ after.env, realm.scope ref := later.1.env ▸ seen
        exact .act ⟨seen', realm.code_declares runs name rfl, belongs⟩ fun _ _ _ _ => by rintro _ ⟨⟩
  | block body =>
      refine .act trivial fun outer same _ _ => ?_
      subst same
      refine .act Bindings.All.empty fun env opened _ _ => ?_
      subst opened
      rintro _ ⟨⟩
      exact ⟨realm.code_block moment within.scopes runs, fun _ _ _ _ _ returned => returned⟩
  | ifThen =>
      refine .here (part (by simp [Node.inPlace, Node.parts])) fun value _ _ later _ _ => ?_
      split
      · exact .last ((part (by simp [Node.inPlace, Node.parts])).later later)
          fun _ _ _ returned => returned
      · rintro _ ⟨⟩
  | ifElse =>
      refine .here (part (by simp [Node.inPlace, Node.parts])) fun value _ _ later _ _ => ?_
      split <;>
        exact .last ((part (by simp [Node.inPlace, Node.parts])).later later)
          fun _ _ _ returned => returned
  | whileLoop => exact .last runs fun _ _ _ returned => returned
  | functionDecl decl =>
      refine .act trivial fun env same _ _ => ?_
      subst same
      have new : realm.Value machine.scopes (.function ⟨decl, machine.env, false⟩) :=
        realm.function_declared moment runs
      exact .act ⟨seen, realm.code_declares runs decl.name rfl, new⟩ fun _ _ _ _ => by rintro _ ⟨⟩
  | returnStmt =>
      refine .here (fun value member => part ?_) fun result _ _ _ _ belongs => ?_
      · simpa [Node.inPlace, Node.parts] using member
      · rintro value ⟨⟩
        exact belongs
  | classDecl name superclass methods =>
      cases superclass with
      | none => exact .here ⟨⟨none, rfl, runs⟩, by simp⟩ fun _ _ _ _ _ _ => by rintro _ ⟨⟩
      | some parent =>
          refine .here (part (by simp [Node.inPlace])) fun value _ _ later _ belongs => ?_
          split
          · refine .here ⟨⟨some parent, rfl, runs.later later⟩, ?_⟩ fun _ _ _ _ _ _ => by rintro _ ⟨⟩
            rintro cls ⟨⟩
            exact belongs
          · trivial

theorem obeys_ofClass {name : Token} {superclass : Option ClassObject}
    {methods : List FunctionDecl} {expr : Option Expr}
    (moment : realm.moments (.declareClass name superclass methods) machine)
    (alike : expr.isSome = superclass.isSome)
    (runs : realm.Runs machine (.stmt (.classDecl name expr methods)))
    (inherited : ∀ parent ∈ superclass, realm.Class machine.scopes parent)
    (within : realm.Within machine) :
    (ofClass name superclass methods : Plan bound Unit).Obeys realm.law (fun _ _ => True)
      machine := by
  have seen := realm.code_scope runs
  have free : realm.declarable name.lexeme := realm.code_declares runs name rfl
  -- what remains once the scope is known
  have made {env : Env} {after : Machine} (later : realm.law.later machine after)
      (belongs : ∀ decl ∈ methods,
        realm.method after.scopes ⟨decl, env, decl.name.lexeme = "init"⟩) :
      (act (.makeClass name.lexeme superclass env methods) fun cls =>
        act (.define name.lexeme (.ofClass cls)) fun _ => done () : Plan bound Unit).Obeys realm.law
        (fun _ _ => True) after := by
    refine .act trivial fun cls made later' _ => ?_
    have new : realm.Class after.scopes cls := by
      subst made
      intro body member used method found
      rcases Deed.method_of_makeClass member found with ⟨decl, listed, rfl⟩ | ⟨parent, known, member⟩
      · exact belongs decl listed
      · exact (inherited parent known).later later.2 body member used method found
    exact .act ⟨(later'.1.env.trans later.1.env) ▸ seen, free, new⟩ fun _ _ _ _ => trivial
  refine .act ⟨seen, free, trivial⟩ fun _ _ later _ => .act trivial fun env same _ _ => ?_
  subst same
  cases superclass with
  | none =>
      obtain rfl : expr = none := by simpa using alike
      refine made later fun decl member => ?_
      exact realm.method_later (realm.method_declared moment runs decl member) later.2
  | some parent =>
      obtain ⟨written, rfl⟩ := Option.isSome_iff_exists.mp alike
      refine .act (Bindings.All.empty.insert ((inherited parent rfl).later later.2))
        fun env opened later' _ => ?_
      subst opened
      refine made (realm.law.later_trans later later') fun decl member => ?_
      have size := machine.scopes.size_define machine.env name.lexeme .nil
      have rule := realm.method_inherited moment within.scopes runs _ size later.2 decl member
      rw [← size] at rule
      exact rule

theorem binds {task : Task} (moment : realm.moments task machine) : realm.law.Binds task machine := by
  intro admitted within
  cases task using Task.cases_plan with
  | exhausted task spent =>
      rw [spent]
      trivial
  | evaluate fuel expr => exact obeys_ofExpr admitted within
  | evaluateAll fuel exprs =>
      cases exprs with
      | nil => exact List.forall_mem_nil _
      | cons =>
          obtain ⟨first, rest⟩ := List.forall_mem_cons.mp admitted
          refine .here first fun value _ _ later _ belongs => ?_
          refine .here (fun expr member => (rest expr member).later later)
            fun values _ _ later' _ given => ?_
          exact List.forall_mem_cons.mpr ⟨Value.later belongs later'.2, given⟩
  | evaluateOr fuel expr =>
      cases expr with
      | none => trivial
      | some expr => exact .last (admitted expr rfl) fun _ _ _ belongs => belongs
  | call => exact obeys_ofCall _ admitted.1 admitted.2
  | invoke => exact obeys_ofCallable admitted.1 admitted.2 within
  | invokeFunction => exact obeys_ofFunction moment admitted.1 admitted.2 within
  | bindMethod method inst =>
      refine .act (Bindings.All.empty.insert admitted.2) fun env opened _ _ => ?_
      subst opened
      exact realm.function_bound moment within.scopes admitted.1
  | execute => exact obeys_ofStmt moment admitted within
  | executeAll fuel stmts =>
      cases stmts with
      | nil => rintro _ ⟨⟩
      | cons =>
          obtain ⟨first, rest⟩ := List.forall_mem_cons.mp admitted
          refine .here first fun flow _ _ later _ returned => ?_
          cases flow with
          | normal =>
              exact .last (fun stmt member => (rest stmt member).later later)
                fun _ _ _ returned => returned
          | returned => exact returned
  | repeatWhile fuel condition body =>
      have part {node : Node} (member : node ∈ (Node.stmt (.whileLoop condition body)).inPlace) :
          realm.Runs machine node := realm.code_part admitted member
      refine .here (part (by simp [Node.inPlace, Node.parts])) fun value _ _ later _ _ => ?_
      split
      · refine .here ((part (by simp [Node.inPlace, Node.parts])).later later)
          fun flow _ _ later' _ returned => ?_
        cases flow with
        | normal =>
            exact .last ((Runs.later admitted later).later later') fun _ _ _ returned => returned
        | returned => exact returned
      · rintro _ ⟨⟩
  | declareClass =>
      obtain ⟨⟨expr, alike, runs⟩, inherited⟩ := admitted
      exact obeys_ofClass moment alike runs inherited within
  | executeProgram fuel stmts =>
      cases stmts with
      | nil => trivial
      | cons =>
          obtain ⟨first, rest⟩ := List.forall_mem_cons.mp admitted
          refine .here first fun _ _ _ later _ _ => ?_
          exact .last (fun stmt member => (rest stmt member).later later) fun _ _ _ _ => trivial

end Plans

/-! What follows for the runs. -/

variable {task other : Task} {later : Machine}

theorem moment_of_reaches (moment : realm.moments task machine)
    (reaches : Reaches task machine other later) : realm.moments other later := by
  induction reaches with
  | here => exact moment
  | begun _ step ih => exact realm.begun ih step

/-- A plan that keeps to the realm does the same behind the veil. -/
theorem blind_play {α : Type} {bound : Nat} {plan : Plan bound α} {post : α → Machine → Prop}
    (inner : plan.Begins Task.run (fun task machine => realm.Admits machine task → realm.Within machine →
      realm.law.Ends task.run machine (realm.law.yields task machine) ∧
        task.run (machine.veiled realm.veil) = realm.veil.over (task.run machine)) machine)
    (obeys : plan.Obeys realm.law post machine) (within : realm.Within machine) :
    plan.play Task.run (machine.veiled realm.veil) =
      realm.veil.over (plan.play Task.run machine) := by
  induction plan generalizing machine with
  | done | stop => rfl
  | act deed next ih =>
      obtain ⟨answer, change⟩ := within.blind obeys.1
      obtain ⟨kept, grown, within'⟩ := within.change obeys.1
      simp only [Plan.play, answer, change]
      exact ih _ inner (obeys.2 ⟨kept, grown⟩ within') within'
  | start setting task next less ih =>
      obtain ⟨first, rest⟩ := Plan.begins_start.mp inner
      have around : setting.around task.run (machine.veiled realm.veil) =
          realm.veil.over (setting.around task.run machine) := by
        refine around_veiled fun present entered => ?_
        exact (first present entered (obeys present entered).1 (realm.law.enter entered within)).2
      simp only [Plan.play, Bind.bind, EStateM.bind, around]
      cases ended : setting.around task.run machine with
      | error abort after => rfl
      | ok result after =>
          obtain ⟨present, last, entered, ran, rfl⟩ := Setting.ok_of_around ended
          obtain ⟨admitted, goesOn⟩ := obeys present entered
          obtain ⟨ends, -⟩ := first present entered admitted (realm.law.enter entered within)
          obtain ⟨later, kept, yields⟩ := ends.of_ok ran
          exact ih result (rest _ _ ended) (goesOn result last ran later kept yields)
            (realm.law.leave entered later kept).2

theorem confines (realm : Realm) (task : Task) (machine : Machine)
    (moment : realm.moments task machine) (admitted : realm.Admits machine task)
    (within : realm.Within machine) : realm.Leads task.run machine (realm.Post task) := by
  induction task using Task.induction generalizing machine with
  | step task shorter =>
      have ends {other : Task} {later : Machine} (moment : realm.moments other later)
          (admitted : realm.Admits later other) (within : realm.Within later) :
          realm.law.Ends other.run later (realm.law.yields other later) :=
        Law.ends (fun reaches => binds (moment_of_reaches moment reaches)) admitted within
      constructor
      · have ended := ends moment admitted within
        split
        · rename_i value after ran
          obtain ⟨later, within, yields⟩ := ended.of_ok ran
          exact ⟨⟨later.1, later.2, within⟩, yields⟩
        · rename_i abort after ran
          obtain ⟨later, within⟩ := ended.of_error ran
          exact ⟨later.1, later.2, within⟩
      · rw [← task.play_plan]
        refine blind_play (fun stage member admitted within => ?_) (binds moment admitted within)
          within
        have step := Task.mem_stages.mp member
        have moment := realm.begun moment step
        exact ⟨ends moment admitted within,
          (shorter _ (Task.bound_lt step) _ moment admitted within).blind⟩

theorem admits_of_substep (moment : realm.moments task machine)
    (admitted : realm.Admits machine task) (within : realm.Within machine)
    (begun : Substep task machine other later) :
    realm.Admits later other ∧ realm.Within later :=
  Law.admits_of_substep (fun reaches => binds (moment_of_reaches moment reaches)) admitted within
    begun

theorem admits_of_reaches (moment : realm.moments task machine)
    (admitted : realm.Admits machine task) (within : realm.Within machine)
    (reached : Reaches task machine other later) :
    realm.moments other later ∧ realm.Admits later other ∧ realm.Within later :=
  ⟨moment_of_reaches moment reached,
    Law.admits_of_reaches (fun reaches => binds (moment_of_reaches moment reaches)) admitted within
      reached⟩

end Realm

end Lox
