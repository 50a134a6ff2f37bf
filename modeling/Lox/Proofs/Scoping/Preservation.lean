import Lox.Proofs.Scoping.Ready

/-!
Every task that begins ready ends as it should: what it leaves in the store is sound, and so is its
result; and it begins only tasks that are ready in their turn. For this the plans of ready tasks obey
the law of the world, with one theorem for each function of the evaluator.
-/

namespace Lox

namespace World

variable {world : World} {machine : Machine} {fuel bound : Nat}

open Plan

section Evaluate

theorem obeys_readVariable (holds : world.Holds machine) (id : ExprId) (name : Token) :
    (readVariable id name : Plan bound Value).Obeys world.law
      (fun value after => world.ValueSound after.scopes value) machine := by
  refine .act trivial fun answer found _ _ => ?_
  cases answer with
  | none => trivial
  | some value => exact sound_valueOf? holds found

theorem obeys_retrieve {method : Closure} {inst : Instance}
    (sound : world.MethodSound machine.scopes method)
    (current : world.ClassSound machine.scopes inst.cls) :
    (retrieve fuel method inst).Obeys world.law
      (fun value after => world.ValueSound after.scopes value) machine :=
  .here ⟨sound, current⟩ fun _ _ _ _ _ function => function.1

theorem obeys_ofExpr {expr : Expr} (ready : world.ReadyExpr machine expr)
    (holds : world.Holds machine) :
    (ofExpr fuel expr).Obeys world.law (fun value after => world.ValueSound after.scopes value)
      machine := by
  cases expr with
  | literal constant => exact sound_of_plain (Value.plain_ofConstant constant)
  | grouping => exact .last (ready.part (by simp [Expr.parts])) fun _ _ _ sound => sound
  | unary =>
      refine .here (ready.part (by simp [Expr.parts])) fun _ _ _ _ _ _ => ?_
      exact .orFailAt fun _ applied => sound_of_plain (Operator.plain_unary applied)
  | binary =>
      refine .here (ready.part (by simp [Expr.parts])) fun _ _ _ onward _ _ => ?_
      refine .here ((ready.part (by simp [Expr.parts])).later onward) fun _ _ _ _ _ _ => ?_
      exact .orFailAt fun _ applied => sound_of_plain (Operator.plain_binary applied)
  | logical =>
      refine .here (ready.part (by simp [Expr.parts])) fun first _ _ onward _ sound => ?_
      split
      · exact sound
      · exact .last ((ready.part (by simp [Expr.parts])).later onward) fun _ _ _ sound => sound
  | comma =>
      refine .here (ready.part (by simp [Expr.parts])) fun _ _ _ onward _ _ => ?_
      exact .last ((ready.part (by simp [Expr.parts])).later onward) fun _ _ _ sound => sound
  | conditional =>
      refine .here (ready.part (by simp [Expr.parts])) fun value _ _ onward _ _ => ?_
      split <;>
        exact .last ((ready.part (by simp [Expr.parts])).later onward) fun _ _ _ sound => sound
  | var id name => exact obeys_readVariable holds id name
  | this id keyword => exact obeys_readVariable holds id keyword
  | assign id name value =>
      refine .here (ready.part (by simp [Expr.parts])) fun result after _ _ _ sound => ?_
      have kept : world.ValueSound _ result :=
        ValueSound.grow sound ((Deed.assign id name.lexeme result).grows after)
      refine .act kept fun answer _ _ _ => ?_
      cases answer with
      | true => exact kept
      | false => trivial
  | call callee paren arguments =>
      refine .here (ready.part List.mem_cons_self) fun function _ _ onward _ sound => ?_
      refine .here (fun argument member =>
        (ready.part (List.mem_cons_of_mem _ member)).later onward) fun values _ _ onward' _ given => ?_
      exact .last ⟨ValueSound.grow sound onward'.grows, given⟩ fun _ _ _ sound => sound
  | get object name =>
      refine .here (ready.part (by simp [Expr.parts])) fun target after _ _ holds sound => ?_
      cases target with
      | object inst =>
          refine .act trivial fun answer found _ _ => ?_
          cases answer with
          | some value => exact holds.fields inst _ value found
          | none =>
              dsimp only
              split
              · exact obeys_retrieve (ClassSound.findMethod? sound ‹_›) sound
              · trivial
      | _ => trivial
  | set object name value =>
      refine .here (ready.part (by simp [Expr.parts])) fun target _ _ onward _ _ => ?_
      cases target with
      | object inst =>
          refine .here ((ready.part (by simp [Expr.parts])).later onward)
            fun result _ _ _ _ sound => ?_
          exact .act sound fun _ _ _ _ => sound
      | _ => trivial
  | super id keyword method =>
      refine .act trivial fun answer found _ _ => ?_
      cases answer with
      | none => trivial
      | some pair =>
          obtain ⟨superclass, inst⟩ := pair
          obtain ⟨depth, -, parent, receiver⟩ := Deed.inherited_eq_some.mp found
          have inherited : world.ClassSound machine.scopes superclass := sound_getAt? holds parent
          dsimp only
          split
          · exact obeys_retrieve (inherited.findMethod? ‹_›) (sound_getAt? holds receiver)
          · trivial

end Evaluate

section Calls

variable {arguments : List Value}
  (given : ∀ value ∈ arguments, world.ValueSound machine.scopes value)
include given

theorem obeys_ofCall {function : Value} (paren : Token)
    (sound : world.ValueSound machine.scopes function) :
    (ofCall fuel function paren arguments).Obeys world.law
      (fun value after => world.ValueSound after.scopes value) machine := by
  unfold ofCall
  split
  · trivial
  · rename_i callee callable
    have invoked : function = .callable callee := by
      cases function <;> cases callable
      rfl
    subst invoked
    split
    · trivial
    · rename_i enough
      intro present entered
      obtain ⟨_, _, rfl⟩ := Setting.eq_of_enter entered
      exact ⟨⟨sound, given, not_not.mp enough⟩, fun _ _ _ _ _ sound => sound⟩

theorem obeys_ofCallable {callee : Callable}
    (sound : world.ValueSound machine.scopes (.callable callee))
    (enough : arguments.length = callee.arity) :
    (ofCallable fuel arguments callee).Obeys world.law
      (fun value after => world.ValueSound after.scopes value) machine := by
  cases callee with
  | native builtin =>
      refine obeys_ofNative (fun deed _ hosted => ?_) (fun _ _ plain => sound_of_plain plain) _ _ _
      cases deed with
      | writeLine | readLine | readFile | writeFile | clock => trivial
      | _ => exact hosted.elim
  | function closure => exact .last ⟨sound, given, enough⟩ fun _ _ _ sound => sound
  | constructor cls =>
      refine .act trivial fun inst made _ _ => ?_
      obtain rfl : _ = inst := made
      split
      · rename_i found
        refine .here ⟨ClassSound.findMethod? sound found, sound⟩
          fun bound _ _ onward _ function => ?_
        refine .here ⟨function.1, fun value member => (given value member).grow onward.grows, ?_⟩ ?_
        · rw [enough, Callable.arity, ClassObject.arity, found]
          simp only [Closure.arity, function.2]
        · exact fun _ _ _ onward' _ _ =>
            ClassSound.grow sound (onward.grows.trans onward'.grows)
      · exact sound

theorem obeys_ofFunction {closure : Closure}
    (moment : world.moments (.invokeFunction (fuel + 1) closure arguments) machine)
    (sound : world.FunctionSound machine.scopes closure)
    (enough : arguments.length = closure.arity) :
    (ofFunction fuel closure arguments).Obeys world.law
      (fun value after => world.ValueSound after.scopes value) machine := by
  refine .act (Bindings.All.parameters _ fun value member => ?_) fun env opened _ _ => ?_
  · exact (given value member).grow (Deed.grows _ machine)
  · subst opened
    rintro _ ⟨⟩
    refine ⟨sound.entering enough moment, fun flow after _ _ holds returned => ?_⟩
    unfold functionResult
    split
    · refine .act trivial fun answer found _ _ => ?_
      cases answer with
      | none => trivial
      | some value => exact sound_getAt? holds found
    · cases flow with
      | normal => trivial
      | returned value => exact returned value rfl

end Calls

section Statements

theorem post_of_returned {stmt : Stmt} {flow : Flow} {store : Scopes}
    (undeclared : stmt.declared? = none)
    (sound : ∀ value, flow = .returned value → world.ValueSound store value) :
    world.Post machine (.execute fuel stmt) flow store := by
  cases flow with
  | normal => simp [Post, undeclared]
  | returned value => exact sound value rfl

theorem bound_declared {stmt : Stmt} {name : Token} {store : Scopes} {env : Env}
    (declares : stmt.declared? = some name) (bound : Bound store env name.lexeme) :
    ∀ used ∈ stmt.declared?, Bound store env used.lexeme := by
  rw [declares]
  rintro _ ⟨⟩
  exact bound

theorem obeys_ofStmt {stmt : Stmt} (moment : world.moments (.execute (fuel + 1) stmt) machine)
    (ready : world.ReadyStmt machine stmt) :
    (ofStmt fuel stmt).Obeys world.law
      (fun flow after => world.Post machine (.execute (fuel + 1) stmt) flow after.scopes)
      machine := by
  have branch {branch : Stmt} {after : Machine} (undeclared : stmt.declared? = none)
      (member : branch ∈ stmt.branches) (onward : Onward machine after) :
      (start .here (.execute fuel branch) done : Plan (fuel + 1) Flow).Obeys world.law
        (fun flow after => world.Post machine (.execute (fuel + 1) stmt) flow after.scopes) after :=
    .last ((ready.branch member).later onward) fun _ _ _ post =>
      post_of_returned undeclared fun _ returned => by cases returned; exact post
  cases stmt with
  | expression =>
      exact .here (ready.part (by simp [Stmt.parts])) fun _ _ _ _ _ _ => by rintro _ ⟨⟩
  | print =>
      refine .here (ready.part (by simp [Stmt.parts])) fun _ _ _ _ _ _ => ?_
      refine .act trivial fun answer _ _ _ => ?_
      cases answer with
      | ok => rintro _ ⟨⟩
      | error => trivial
  | varDecl name initializer =>
      refine .here ready.initializer fun value after _ onward _ sound => ?_
      refine .act (ValueSound.grow sound (Deed.grows _ after)) fun _ _ _ _ => ?_
      refine bound_declared rfl ?_
      rw [← onward.kept.env]
      exact bound_define _ _ _ _
  | block body =>
      refine .act trivial fun outer same _ _ => ?_
      subst same
      refine .act Bindings.All.empty fun env opened _ _ => ?_
      subst opened
      rintro _ ⟨⟩
      obtain ⟨site, stands, admitted⟩ := ready
      refine ⟨⟨site.enter (.block body) [], ?_, admitted.block⟩,
        fun _ _ _ _ _ returned => post_of_returned rfl returned⟩
      exact stands.enter ⟨_, machine, moment, .block, rfl⟩ (by simp)
  | ifThen =>
      refine .here (ready.part (by simp [Stmt.parts])) fun value _ _ onward _ _ => ?_
      split
      · exact branch rfl (by simp [Stmt.branches]) onward
      · rintro _ ⟨⟩
  | ifElse =>
      refine .here (ready.part (by simp [Stmt.parts])) fun value _ _ onward _ _ => ?_
      split <;> exact branch rfl (by simp [Stmt.branches]) onward
  | whileLoop => exact .last ready fun _ _ _ returned => post_of_returned rfl returned
  | functionDecl decl =>
      obtain ⟨site, stands, admitted⟩ := ready
      refine .act trivial fun env same _ _ => ?_
      subst same
      -- the function is bound in the innermost of its scopes, so its body may use its name
      have bound := bound_define machine.scopes machine.env decl.name.lexeme
        (.function ⟨decl, machine.env, false⟩)
      refine .act ⟨(site.declare decl.name).inFunction .function, ?_, admitted.function⟩
        fun _ _ _ _ => bound_declared rfl bound
      exact (stands.grow (Scopes.grows_define _ _ _ _)).declare bound
  | returnStmt =>
      exact .here (fun value member => ready.part (by simpa [Stmt.parts] using member))
        fun _ _ _ _ _ sound => sound
  | classDecl name superclass methods =>
      cases superclass with
      | none =>
          exact .here ⟨ready.class, by simp⟩ fun _ _ _ _ _ bound => bound_declared rfl bound
      | some parent =>
          refine .here ready.superclass fun value _ _ onward _ sound => ?_
          split
          · refine .here ⟨ready.class.later onward, ?_⟩ fun _ _ _ _ _ bound => ?_
            · rintro cls ⟨⟩
              exact sound
            · exact bound_declared rfl (onward.kept.env ▸ bound)
          · trivial

theorem obeys_ofClass {name : Token} {superclass : Option ClassObject}
    {methods : List FunctionDecl}
    (moment : world.moments (.declareClass name superclass methods) machine)
    (ready : world.ReadyClass machine name superclass.isSome methods)
    (inherited : ∀ parent ∈ superclass, world.ClassSound machine.scopes parent) :
    (ofClass name superclass methods : Plan bound Unit).Obeys world.law
      (fun _ after => Bound after.scopes machine.env name.lexeme) machine := by
  obtain ⟨site, stands, admitted⟩ := ready
  -- what remains once the scope is known
  have made {env : Env} {after : Machine} (onward : Onward machine after)
      (sound : ∀ decl ∈ methods, ∀ isInitializer,
        world.MethodSound after.scopes ⟨decl, env, isInitializer⟩) :
      (act (.makeClass name.lexeme superclass env methods) fun cls =>
        act (.define name.lexeme (.ofClass cls)) fun _ => done () : Plan bound Unit).Obeys world.law
        (fun _ after => Bound after.scopes machine.env name.lexeme) after := by
    refine .act trivial fun cls made _ _ => ?_
    have whole : world.ClassSound after.scopes cls := by
      subst made
      intro body member used method found
      rcases Deed.method_of_makeClass member found with ⟨decl, listed, rfl⟩ | ⟨parent, known, member⟩
      · exact sound decl listed _
      · exact (inherited parent known).grow onward.grows body member used method found
    refine .act (ClassSound.grow whole (Scopes.grows_define _ _ _ _)) fun _ _ _ _ => ?_
    show Bound _ machine.env _
    rw [← onward.kept.env]
    exact bound_define _ _ _ _
  refine .act trivial fun _ _ onward _ => .act trivial fun env same _ _ => ?_
  subst same
  have declared : world.Stands (machine.scopes.define machine.env name.lexeme .nil) machine.env
      site.regions (site.declare name).scopes :=
    (stands.grow onward.grows).declare (bound_define _ _ _ _)
  cases superclass with
  | none => exact made onward (admitted.sound declared)
  | some parent =>
      have whole := (inherited parent rfl).grow onward.grows
      refine .act (Bindings.All.empty.insert (ClassSound.grow whole (Deed.grows _ _)))
        fun env opened onward' _ => ?_
      subst opened
      refine made (world.law.later_trans onward onward') (admitted.sound ?_)
      refine declared.enter ⟨_, machine, moment, .super, ?_⟩ (by simp)
      rw [Scopes.size_define]

end Statements

theorem binds {task : Task} (moment : world.moments task machine) :
    world.law.Binds task machine := by
  intro ready holds
  cases task using Task.cases_plan with
  | exhausted task spent =>
      rw [spent]
      trivial
  | evaluate => exact obeys_ofExpr ready holds
  | evaluateAll fuel exprs =>
      cases exprs with
      | nil => exact List.forall_mem_nil _
      | cons =>
          obtain ⟨first, rest⟩ := List.forall_mem_cons.mp ready
          refine .here first fun value _ _ onward _ sound => ?_
          refine .here (fun expr member => (rest expr member).later onward)
            fun values _ _ onward' _ given => ?_
          exact List.forall_mem_cons.mpr ⟨ValueSound.grow sound onward'.grows, given⟩
  | evaluateOr fuel expr =>
      cases expr with
      | none => trivial
      | some expr => exact .last (ready expr rfl) fun _ _ _ sound => sound
  | call => exact obeys_ofCall ready.2 _ ready.1
  | invoke => exact obeys_ofCallable ready.2.1 ready.1 ready.2.2
  | invokeFunction => exact obeys_ofFunction ready.2.1 moment ready.1 ready.2.2
  | bindMethod method inst =>
      obtain ⟨⟨site, methods, stands, member, admitted⟩, current⟩ := ready
      refine .act (Bindings.All.empty.insert (ClassSound.grow current (Deed.grows _ _)))
        fun env opened _ _ => ?_
      subst opened
      -- a bound method has the scope of `this` around it
      refine ⟨⟨site.enter (.this methods) ["this"], ?_, admitted⟩, rfl⟩
      exact stands.enter ⟨_, machine, moment, .this member, rfl⟩ (by simp)
  | execute => exact obeys_ofStmt moment ready
  | executeAll fuel stmts =>
      cases stmts with
      | nil => rintro _ ⟨⟩
      | cons =>
          obtain ⟨site, stands, admitted⟩ := ready
          refine .here ⟨site, stands, admitted.first⟩ fun flow _ _ onward _ post => ?_
          cases flow with
          | normal =>
              exact .last (ReadyAll.rest ⟨site, stands, admitted⟩ onward post)
                fun _ _ _ returned => returned
          | returned =>
              rintro value ⟨⟩
              exact post
  | repeatWhile fuel condition body =>
      have round : world.ReadyStmt machine body :=
        ReadyStmt.branch ready (by simp [Stmt.branches])
      refine .here (ReadyStmt.part ready (by simp [Stmt.parts])) fun value _ _ onward _ _ => ?_
      split
      · refine .here (round.later onward) fun flow _ _ onward' _ post => ?_
        cases flow with
        | normal =>
            exact .last (ReadyStmt.later ready (world.law.later_trans onward onward'))
              fun _ _ _ returned => returned
        | returned =>
            rintro value ⟨⟩
            exact post
      · rintro _ ⟨⟩
  | declareClass => exact obeys_ofClass moment ready.1 ready.2
  | executeProgram fuel stmts =>
      cases stmts with
      | nil => trivial
      | cons stmt rest =>
          -- at top level no scope records what a statement declares
          obtain ⟨around, top, admitted⟩ := ready
          have scopes := stmt.resolve_scopes around [] admitted.first.formed
          have same : Site.after ⟨around, [], []⟩ stmt = ⟨around, [], []⟩ := by
            simp only [Site.after, scopes]
            cases stmt.declared? <;> rfl
          refine .here ⟨⟨around, [], []⟩, top ▸ .globals, admitted.first⟩ fun _ _ _ onward _ _ => ?_
          exact .last ⟨around, onward.kept.env.trans top, same ▸ admitted.rest⟩
            fun _ _ _ _ => trivial

variable {task other : Task} {later : Machine}

theorem moment_of_reaches (moment : world.moments task machine)
    (reaches : Reaches task machine other later) : world.moments other later := by
  induction reaches with
  | here => exact moment
  | begun _ step ih => exact world.begun ih step

section Reached

variable (moment : world.moments task machine) (ready : world.Ready machine task)
  (holds : world.Holds machine)
include moment ready holds

theorem ends : world.law.Ends task.run machine (world.law.yields task machine) :=
  Law.ends (fun reaches => binds (moment_of_reaches moment reaches)) ready holds

theorem ready_of_reaches (reaches : Reaches task machine other later) :
    world.moments other later ∧ world.Ready later other ∧ world.Holds later :=
  ⟨moment_of_reaches moment reaches,
    Law.admits_of_reaches (fun reaches => binds (moment_of_reaches moment reaches)) ready holds
      reaches⟩

end Reached

end World

end Lox
