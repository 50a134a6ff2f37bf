import Lox.Proofs.Run.Task
import Lox.Proofs.Scoping.Rules

/-!
Where a return comes from. If statements end with a return, there is a return statement among them
that belongs to no function inside, and without an expression it returns `nil`. So in a well-scoped
program no statement of the program itself returns, and no initializer returns a value of its own.
-/

namespace Lox

/-- A return with this expression occurs in the statement, and in no function that it declares. -/
def Stmt.Returns (stmt : Stmt) (value : Option Expr) : Prop :=
  ∃ keyword path, (Node.stmt stmt).Contains [] (.stmt (.returnStmt keyword value)) path ∧
    path.find? Node.isFunction = none

def Stmt.Yields (stmt : Stmt) (result : Value) : Prop :=
  ∃ value, stmt.Returns value ∧ (value = none → result = .nil)

theorem Stmt.Yields.part {whole part : Stmt} {result : Value} (yields : part.Yields result)
    (member : .stmt part ∈ (Node.stmt whole).parts) : whole.Yields result := by
  obtain ⟨value, ⟨keyword, path, contained, none⟩, bare⟩ := yields
  refine ⟨value, ⟨keyword, path ++ [.stmt whole], (contained.append _).whole member, ?_⟩, bare⟩
  simp [List.find?_append, none, Node.isFunction]

namespace Run

variable {α : Type} {result : Value → Prop} {step rest : Run Flow}

def Gives (step : Run Flow) (result : Value → Prop) : Prop :=
  ∀ machine value after, step machine = .ok (.returned value) after → result value

namespace Gives

theorem mono {weaker : Value → Prop} (gives : step.Gives result)
    (implies : ∀ value, result value → weaker value) : step.Gives weaker :=
  fun machine value after ended => implies value (gives machine value after ended)

theorem normal : Gives (pure .normal) result := by
  rintro machine value after ⟨⟩

theorem outOfFuel : Gives (throw .outOfFuel) result := by
  rintro machine value after ⟨⟩

theorem bind {first : Run α} {next : α → Run Flow} (gives : ∀ value, (next value).Gives result) :
    (first >>= next).Gives result := by
  intro machine value after ended
  simp only [Bind.bind, EStateM.bind] at ended
  split at ended
  · exact gives _ _ value after ended
  · cases ended

theorem inside (env : Env) (gives : step.Gives result) : (inside env step).Gives result := by
  intro machine value after ended
  simp only [Run.inside] at ended
  split at ended <;> cases ended
  exact gives _ value _ ‹_›

theorem andThen (gives : step.Gives result) (gives' : rest.Gives result) :
    Gives (do match ← step with
      | .returned value => pure (.returned value)
      | .normal => rest) result := by
  intro machine value after ended
  simp only [Bind.bind, EStateM.bind] at ended
  split at ended
  · rename_i flow middle stepped
    cases flow with
    | returned early =>
        cases ended
        exact gives machine value _ stepped
    | normal => exact gives' middle value after ended
  · cases ended

theorem ite {condition : Prop} [Decidable condition] (gives : step.Gives result)
    (gives' : rest.Gives result) : Gives (if condition then step else rest) result := by
  split
  · exact gives
  · exact gives'

end Gives

structure GivesYield (fuel : Nat) : Prop where
  execute : ∀ stmt, (execute fuel stmt).Gives stmt.Yields
  executeAll : ∀ stmts, (executeAll fuel stmts).Gives fun value => ∃ stmt ∈ stmts, stmt.Yields value
  repeatWhile : ∀ condition body, (repeatWhile fuel condition body).Gives body.Yields

theorem gives_return (fuel : Nat) (keyword : Token) (value : Option Expr) :
    Gives (do let result ← evaluateOr fuel value; pure (.returned result))
      (Stmt.returnStmt keyword value).Yields := by
  intro machine result after ended
  refine ⟨value, ⟨keyword, [], .here, rfl⟩, ?_⟩
  rintro rfl
  cases fuel with
  | zero => cases ended
  | succ fuel =>
      cases ended
      rfl

theorem gives_execute {fuel : Nat} (given : GivesYield fuel) (stmt : Stmt) :
    (execute (fuel + 1) stmt).Gives stmt.Yields := by
  unfold Lox.execute
  cases stmt with
  | expression => exact .bind fun _ => .normal
  | print | varDecl | functionDecl => exact .bind fun _ => .bind fun _ => .normal
  | classDecl name superclass methods =>
      cases superclass with
      | none => exact .bind fun _ => .normal
      | some parent => exact .bind fun _ => .bind fun _ => .bind fun _ => .normal
  | returnStmt keyword value => exact gives_return fuel keyword value
  | block body =>
      refine .bind fun _ => .bind fun env => .inside env ((given.executeAll body).mono ?_)
      rintro value ⟨stmt, member, yields⟩
      exact yields.part (List.mem_map_of_mem member)
  | ifThen condition thenBranch =>
      refine .bind fun _ => .ite ((given.execute thenBranch).mono fun _ yields => ?_) .normal
      exact yields.part (by simp [Node.parts])
  | ifElse condition thenBranch elseBranch =>
      refine .bind fun _ => .ite ((given.execute thenBranch).mono fun _ yields => ?_)
        ((given.execute elseBranch).mono fun _ yields => ?_)
      · exact yields.part (by simp [Node.parts])
      · exact yields.part (by simp [Node.parts])
  | whileLoop condition body =>
      refine (given.repeatWhile condition body).mono fun _ yields => ?_
      exact yields.part (by simp [Node.parts])

theorem gives_executeAll {fuel : Nat} (given : GivesYield fuel) (stmts : List Stmt) :
    (executeAll (fuel + 1) stmts).Gives fun value => ∃ stmt ∈ stmts, stmt.Yields value := by
  unfold Lox.executeAll
  cases stmts with
  | nil => exact .normal
  | cons first rest =>
      refine .andThen ((given.execute first).mono fun _ yields => ?_)
        ((given.executeAll rest).mono ?_)
      · exact ⟨first, List.mem_cons_self, yields⟩
      · rintro value ⟨stmt, member, yields⟩
        exact ⟨stmt, List.mem_cons_of_mem _ member, yields⟩

theorem givesYield (fuel : Nat) : GivesYield fuel := by
  induction fuel with
  | zero => exact ⟨fun _ => .outOfFuel, fun _ => .outOfFuel, fun _ _ => .outOfFuel⟩
  | succ fuel ih =>
      refine ⟨gives_execute ih, gives_executeAll ih, fun condition body => ?_⟩
      unfold Lox.repeatWhile
      exact .bind fun _ => .ite (.andThen (ih.execute body) (ih.repeatWhile condition body)) .normal

end Run

/-! The rules for returns. -/

/-- No return in the body of a method that initializes has an expression. -/
def FunctionDecl.ReturnsBare (decl : FunctionDecl) : Prop :=
  ∀ stmt ∈ decl.body, ∀ value, ¬ stmt.Returns (some value)

theorem FunctionDecl.ReturnsBare.eq_nil {decl : FunctionDecl} (bare : decl.ReturnsBare) {fuel : Nat}
    {machine after : Machine} {value : Value}
    (ended : executeAll fuel decl.body machine = .ok (.returned value) after) : value = .nil := by
  obtain ⟨stmt, member, expr, returns, nil⟩ := (Run.givesYield fuel).executeAll _ _ _ _ ended
  cases expr with
  | none => exact nil rfl
  | some expr => exact absurd returns (bare stmt member expr)

namespace Node

theorem WellScoped.not_returns {whole : Stmt} (rules : (stmt whole).WellScoped [])
    {value : Option Expr} : ¬ whole.Returns value := by
  rintro ⟨keyword, path, contained, none⟩
  exact rules _ path contained (.returnOutside none)

theorem WellScoped.returnsBare {top : Node} {around path : List Node}
    (rules : top.WellScoped around) {decl : FunctionDecl}
    (contained : top.Contains around (method decl) path)
    (initializes : decl.name.lexeme = "init") : decl.ReturnsBare := by
  rintro inner member value ⟨keyword, below, inside, none⟩
  have within := (inside.append (method decl :: path)).whole (List.mem_map_of_mem member)
  refine rules _ _ (contained.trans within) (.initializerValue ?_ initializes)
  simp [List.find?_append, none, isFunction]

end Node

end Lox
