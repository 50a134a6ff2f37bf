import Lox.Proofs.Node

/-!
The scoping rules, said of where a node stands and not of how a program is walked: which nodes are
around it decides whether it is ill-scoped. The resolver reports no error exactly for the programs
in which no node is ill-scoped.
-/

namespace Lox

mutual
def Stmt.names : Stmt → List String
  | .varDecl name _ | .classDecl name _ _ => [name.lexeme]
  | .functionDecl decl => [decl.name.lexeme]
  | .ifThen _ branch | .whileLoop _ branch => branch.names
  | .ifElse _ thenBranch elseBranch => thenBranch.names ++ elseBranch.names
  | .expression _ | .print _ _ | .block _ | .returnStmt _ _ => []

def Stmt.namesAll : List Stmt → List String
  | [] => []
  | first :: rest => first.names ++ Stmt.namesAll rest
end

namespace Node

/-- The names declared in the local scope that a node opens, if it opens one. -/
def scope? : Node → Option (List String)
  | stmt (.block body) => some (Stmt.namesAll body)
  | function decl | method decl => some (decl.params.map Token.lexeme ++ Stmt.namesAll decl.body)
  | _ => none

def isStmt : Node → Bool
  | stmt _ => true
  | _ => false

def isFunction : Node → Bool
  | function _ | method _ => true
  | _ => false

def isClass : Node → Bool
  | stmt (.classDecl ..) => true
  | _ => false

/-- A node breaks a scoping rule where it stands; `around` begins with the innermost node. -/
inductive IllScoped : Node → List Node → Prop
  | redeclaration {node : Node} {around : List Node} {names : List String} :
      node.scope? = some names → ¬ names.Nodup → IllScoped node around
  | ownInitializer {id : ExprId} {used name : Token} {value : Option Expr} {around : List Node} :
      around.find? isStmt = some (stmt (.varDecl name value)) → used.lexeme = name.lexeme →
      (around.any fun node => node.scope?.isSome) → IllScoped (expr (.var id used)) around
  | returnOutside {keyword : Token} {value : Option Expr} {around : List Node} :
      around.find? isFunction = none → IllScoped (stmt (.returnStmt keyword value)) around
  | initializerValue {keyword : Token} {value : Expr} {decl : FunctionDecl} {around : List Node} :
      around.find? isFunction = some (method decl) → decl.name.lexeme = "init" →
      IllScoped (stmt (.returnStmt keyword (some value))) around
  | thisOutside {id : ExprId} {keyword : Token} {around : List Node} :
      around.find? isClass = none → IllScoped (expr (.this id keyword)) around
  | superOutside {id : ExprId} {keyword name : Token} {around : List Node} :
      around.find? isClass = none → IllScoped (expr (.super id keyword name)) around
  | superWithout {id : ExprId} {keyword name className : Token} {methods : List FunctionDecl}
      {around : List Node} :
      around.find? isClass = some (stmt (.classDecl className none methods)) →
      IllScoped (expr (.super id keyword name)) around
  | inheritsItself {id : ExprId} {name used : Token} {methods : List FunctionDecl}
      {around : List Node} :
      used.lexeme = name.lexeme →
      IllScoped (stmt (.classDecl name (some (.var id used)) methods)) around

def WellScoped (top : Node) (around : List Node) : Prop :=
  ∀ node path, top.Contains around node path → ¬ IllScoped node path

theorem wellScoped_iff {top : Node} {around : List Node} :
    top.WellScoped around ↔
      ¬ IllScoped top around ∧ ∀ child ∈ top.parts, child.WellScoped (top :: around) :=
  forall_contains

end Node

open Node

/-! What the resolver knows of the nodes around the point it has reached. -/

def classAround (around : List Node) : ClassContext :=
  match around.find? isClass with
  | some (.stmt (.classDecl _ superclass _)) => if superclass.isSome then .subclass else .plain
  | _ => .outside

def functionAround (around : List Node) : FunctionContext :=
  match around.find? isFunction with
  | some (.function _) => .function
  | some (.method decl) => .ofMethod decl.name
  | _ => .topLevel

def surroundings (around : List Node) : Surroundings := ⟨functionAround around, classAround around⟩

def isLocal (around : List Node) : Bool := around.any fun node => node.scope?.isSome

def pendingAround (around : List Node) : Option String :=
  match around.find? isStmt with
  | some (.stmt (.varDecl name _)) => if isLocal around then some name.lexeme else none
  | _ => none

theorem classAround_eq_outside_iff {around : List Node} :
    classAround around = .outside ↔ around.find? isClass = none := by
  unfold classAround
  cases found : around.find? isClass with
  | none => simp
  | some node =>
      have shape := List.find?_some found
      fun_cases isClass node with
      | case1 => simp; split <;> simp
      | case2 => simp [isClass] at shape

theorem classAround_eq_plain_iff {around : List Node} :
    classAround around = .plain ↔
      ∃ name methods, around.find? isClass = some (.stmt (.classDecl name none methods)) := by
  unfold classAround
  cases found : around.find? isClass with
  | none => simp
  | some node =>
      have shape := List.find?_some found
      fun_cases isClass node with
      | case1 name superclass methods => cases superclass <;> simp
      | case2 => simp [isClass] at shape

theorem functionAround_eq_topLevel_iff {around : List Node} :
    functionAround around = .topLevel ↔ around.find? isFunction = none := by
  unfold functionAround
  cases found : around.find? isFunction with
  | none => simp
  | some node =>
      have shape := List.find?_some found
      cases node with
      | expr | stmt => cases shape
      | function => simp
      | method decl => simp [FunctionContext.ofMethod]; split <;> simp

theorem functionAround_eq_initializer_iff {around : List Node} :
    functionAround around = .initializer ↔
      ∃ decl, around.find? isFunction = some (.method decl) ∧ decl.name.lexeme = "init" := by
  unfold functionAround
  cases found : around.find? isFunction with
  | none => simp
  | some node => cases node <;> simp [FunctionContext.ofMethod]

theorem pendingAround_eq_some_iff {around : List Node} {used : String} :
    pendingAround around = some used ↔
      ∃ name value, around.find? isStmt = some (.stmt (.varDecl name value)) ∧
        used = name.lexeme ∧ isLocal around := by
  unfold pendingAround
  split
  case h_1 name value found => rw [found]; simp; grind
  case h_2 other =>
      simp only [reduceCtorEq, false_iff]
      rintro ⟨name, value, found, -⟩
      exact other name value found

/-! Declaring names in the innermost scope. -/

def Fresh : List Scope → List String → Prop
  | [], _ => True
  | scope :: _, names => names.Nodup ∧ ∀ name ∈ names, name ∉ scope

def Declared (names : List String) : List Scope → List Scope → Prop
  | [], after => after = []
  | scope :: outer, after =>
      ∃ larger, after = larger :: outer ∧ ∀ name, name ∈ larger ↔ name ∈ scope ∨ name ∈ names

theorem Declared.refl (scopes : List Scope) : Declared [] scopes scopes := by
  cases scopes with
  | nil => rfl
  | cons scope outer => exact ⟨scope, rfl, by simp⟩

theorem Declared.trans {first second : List String} {before middle after : List Scope}
    (early : Declared first before middle) (late : Declared second middle after) :
    Declared (first ++ second) before after := by
  cases before with
  | nil => cases early; exact late
  | cons scope outer =>
      obtain ⟨larger, rfl, members⟩ := early
      obtain ⟨largest, rfl, members'⟩ := late
      exact ⟨largest, rfl, fun name => by rw [members', members, List.mem_append, or_assoc]⟩

theorem Declared.eq_nil_iff {names : List String} {before after : List Scope}
    (declared : Declared names before after) : after = [] ↔ before = [] := by
  cases before with
  | nil => exact iff_of_true declared rfl
  | cons scope outer => obtain ⟨larger, rfl, -⟩ := declared; simp

theorem Declared.fresh_append {first second : List String} {before after : List Scope}
    (declared : Declared first before after) :
    Fresh before (first ++ second) ↔ Fresh before first ∧ Fresh after second := by
  cases before with
  | nil => cases declared; simp [Fresh]
  | cons scope outer =>
      obtain ⟨larger, rfl, members⟩ := declared
      simp only [Fresh, List.nodup_append, List.mem_append, members]
      grind

@[simp] theorem fresh_nil (scopes : List Scope) : Fresh scopes [] := by
  cases scopes <;> simp [Fresh]

@[simp] theorem fresh_empty_scope (scopes : List Scope) (names : List String) :
    Fresh ([] :: scopes) names ↔ names.Nodup := by
  simp [Fresh]

namespace Resolution

theorem declared_declare (scopes : List Scope) (name : Token) :
    Declared [name.lexeme] scopes (declare scopes name).2 := by
  cases scopes with
  | nil => rfl
  | cons scope outer =>
      simp only [declare]
      split
      case isTrue known =>
          have present : name.lexeme ∈ scope := by simpa using known
          exact ⟨scope, rfl, by grind⟩
      case isFalse => exact ⟨name.lexeme :: scope, rfl, by grind⟩

theorem errors_declare_iff (scopes : List Scope) (name : Token) :
    (declare scopes name).1.errors = [] ↔ Fresh scopes [name.lexeme] := by
  cases scopes with
  | nil => simp [declare, Fresh, none]
  | cons scope outer =>
      simp only [declare]
      split <;> simp_all [Fresh, none, error]

theorem declared_declareAll (scopes : List Scope) (names : List Token) :
    Declared (names.map Token.lexeme) scopes (declareAll scopes names).2 := by
  induction names generalizing scopes with
  | nil => exact .refl scopes
  | cons name names ih => exact (declared_declare scopes name).trans (ih _)

theorem errors_declareAll_iff (scopes : List Scope) (names : List Token) :
    (declareAll scopes names).1.errors = [] ↔ Fresh scopes (names.map Token.lexeme) := by
  induction names generalizing scopes with
  | nil => simp [declareAll, none]
  | cons name names ih =>
      have split : Fresh scopes (name.lexeme :: names.map Token.lexeme) ↔ _ :=
        (declared_declare scopes name).fresh_append
      simp [declareAll, split, errors_declare_iff, ih]

end Resolution

open Resolution (declare pendingName declared_declare declared_declareAll errors_declare_iff
  errors_declareAll_iff)

theorem Stmt.declared_resolve (around : Surroundings) (scopes : List Scope) (stmt : Stmt) :
    Declared stmt.names scopes (stmt.resolve around scopes).2 := by
  match stmt with
  | .expression _ | .print _ _ | .block _ | .returnStmt _ _ => exact .refl scopes
  | .varDecl name _ => exact declared_declare scopes name
  | .functionDecl decl => exact declared_declare scopes decl.name
  | .classDecl name superclass _ => cases superclass <;> exact declared_declare scopes name
  | .ifThen _ branch | .whileLoop _ branch => exact branch.declared_resolve around scopes
  | .ifElse _ thenBranch elseBranch =>
      exact (thenBranch.declared_resolve around scopes).trans (elseBranch.declared_resolve around _)

/-! Expressions. -/

theorem illScoped_var_iff {around : List Node} {id : ExprId} {used : Token} :
    IllScoped (.expr (.var id used)) around ↔ pendingAround around = some used.lexeme := by
  rw [pendingAround_eq_some_iff]
  constructor
  · intro ill
    cases ill with
    | redeclaration opens => cases opens
    | ownInitializer found same within => exact ⟨_, _, found, same, within⟩
  · rintro ⟨name, value, found, same, within⟩
    exact .ownInitializer found same within

theorem illScoped_this_iff {around : List Node} {id : ExprId} {keyword : Token} :
    IllScoped (.expr (.this id keyword)) around ↔ classAround around = .outside := by
  rw [classAround_eq_outside_iff]
  constructor
  · intro ill
    cases ill with
    | redeclaration opens => cases opens
    | thisOutside outside => exact outside
  · exact .thisOutside

theorem illScoped_super_iff {around : List Node} {id : ExprId} {keyword name : Token} :
    IllScoped (.expr (.super id keyword name)) around ↔ classAround around ≠ .subclass := by
  constructor
  · intro ill
    cases ill with
    | redeclaration opens => cases opens
    | superOutside outside => simp [classAround_eq_outside_iff.mpr outside]
    | superWithout found => simp [classAround_eq_plain_iff.mpr ⟨_, _, found⟩]
  · intro other
    cases context : classAround around with
    | outside => exact .superOutside (classAround_eq_outside_iff.mp context)
    | plain =>
        obtain ⟨className, methods, found⟩ := classAround_eq_plain_iff.mp context
        exact .superWithout found
    | subclass => exact absurd context other

def Expr.isUse : Expr → Bool
  | .var .. | .this .. | .super .. => true
  | _ => false

theorem wellScoped_expr_iff {expr : Expr} {around : List Node} (compound : expr.isUse = false) :
    (Node.expr expr).WellScoped around ↔
      ∀ part ∈ expr.parts, (Node.expr part).WellScoped (.expr expr :: around) := by
  have fine : ¬ IllScoped (.expr expr) around := by
    intro ill
    cases ill with
    | redeclaration opens => cases opens
    | ownInitializer | thisOutside | superOutside | superWithout => cases compound
  rw [wellScoped_iff]
  simp [fine, Node.parts]

theorem Expr.errors_resolveAll_iff_forall {context : ClassContext} {scopes : List Scope}
    {pending : Option String} {exprs : List Expr} :
    (Expr.resolveAll context scopes pending exprs).errors = [] ↔
      ∀ expr ∈ exprs, (expr.resolve context scopes pending).errors = [] := by
  induction exprs with
  | nil => simp [Expr.resolveAll, Resolution.none]
  | cons first rest ih => simp [Expr.resolveAll, ih]

theorem Expr.errors_resolve_iff_parts {context : ClassContext} {scopes : List Scope}
    {pending : Option String} {expr : Expr} (compound : expr.isUse = false) :
    (expr.resolve context scopes pending).errors = [] ↔
      ∀ part ∈ expr.parts, (part.resolve context scopes pending).errors = [] := by
  cases expr with
  | var | this | super => cases compound
  | call => simp [resolve, parts, errors_resolveAll_iff_forall]
  | conditional => simp [resolve, parts]
  | _ => simp [resolve, parts, Resolution.none]

theorem Expr.errors_resolve_iff (expr : Expr) (around : List Node) (scopes : List Scope) :
    (expr.resolve (classAround around) scopes (pendingAround around)).errors = [] ↔
      (Node.expr expr).WellScoped around := by
  induction expr using Expr.induction_parts generalizing around with
  | step expr ih =>
      cases shape : expr.isUse with
      | false =>
          rw [errors_resolve_iff_parts shape, wellScoped_expr_iff shape]
          exact forall₂_congr fun part member => ih part member (.expr expr :: around)
      | true =>
          cases expr with
          | var id name =>
              rw [wellScoped_iff, illScoped_var_iff]
              by_cases same : pendingAround around = some name.lexeme <;>
                simp [resolve, Node.parts, parts, same, Resolution.none, Resolution.error]
          | this id keyword =>
              rw [wellScoped_iff, illScoped_this_iff]
              cases classAround around <;> simp [resolve, Node.parts, parts, Resolution.error]
          | super id keyword name =>
              rw [wellScoped_iff, illScoped_super_iff]
              cases classAround around <;>
                simp [resolve, Node.parts, parts, Resolution.none, Resolution.error]
          | _ => cases shape

/-! Statements. -/

theorem wellScoped_scope_iff {node : Node} {names : List String} {around : List Node}
    (opens : node.scope? = some names) :
    node.WellScoped around ↔
      names.Nodup ∧ ∀ child ∈ node.parts, child.WellScoped (node :: around) := by
  have ill : IllScoped node around ↔ ¬ names.Nodup := by
    constructor
    · intro ill
      cases ill with
      | redeclaration opens' repeated => rwa [Option.some.inj (opens.symm.trans opens')]
      | _ => cases opens
    · exact .redeclaration opens
  rw [wellScoped_iff, ill, not_not]

theorem illScoped_return_iff {keyword : Token} {value : Option Expr} {around : List Node} :
    IllScoped (.stmt (.returnStmt keyword value)) around ↔
      functionAround around = .topLevel ∨
        value.isSome ∧ functionAround around = .initializer := by
  rw [functionAround_eq_topLevel_iff, functionAround_eq_initializer_iff]
  constructor
  · intro ill
    cases ill with
    | redeclaration opens => cases opens
    | returnOutside outside => exact .inl outside
    | initializerValue found named => exact .inr ⟨rfl, _, found, named⟩
  · rintro (outside | ⟨valued, decl, found, named⟩)
    · exact .returnOutside outside
    · obtain ⟨value, rfl⟩ := Option.isSome_iff_exists.mp valued
      exact .initializerValue found named

theorem illScoped_class_iff {name : Token} {superclass : Option Expr} {methods : List FunctionDecl}
    {around : List Node} :
    IllScoped (.stmt (.classDecl name superclass methods)) around ↔
      ∃ parent ∈ superclass, (parent.useOf? name).isSome := by
  constructor
  · intro ill
    cases ill with
    | redeclaration opens => cases opens
    | inheritsItself same => exact ⟨_, rfl, by simp [Expr.useOf?, same]⟩
  · rintro ⟨parent, rfl, used⟩
    cases parent with
    | var id other =>
        by_cases same : other.lexeme = name.lexeme
        · exact .inheritsItself same
        · simp [Expr.useOf?, same] at used
    | _ => cases used

/-- A rule stands for the statement itself, not only for what is below it. -/
def Stmt.isRuled : Stmt → Bool
  | .block _ | .returnStmt .. | .classDecl .. => true
  | _ => false

theorem wellScoped_stmt_iff {stmt : Stmt} {around : List Node} (free : stmt.isRuled = false) :
    (Node.stmt stmt).WellScoped around ↔
      ∀ child ∈ (Node.stmt stmt).parts, child.WellScoped (.stmt stmt :: around) := by
  have fine : ¬ IllScoped (.stmt stmt) around := by
    intro ill
    cases ill with
    | redeclaration opens =>
        cases stmt with
        | block => cases free
        | _ => cases opens
    | returnOutside | initializerValue | inheritsItself => cases free
  rw [wellScoped_iff]
  simp [fine]

def Placed (scopes : List Scope) (around : List Node) : Prop := scopes = [] ↔ isLocal around = false

theorem Placed.declared {names : List String} {before after : List Scope} {around : List Node}
    (placed : Placed before around) (declared : Declared names before after) :
    Placed after around :=
  declared.eq_nil_iff.trans placed

theorem pendingName_eq {scopes : List Scope} {name : Token} {value : Option Expr}
    {around : List Node} (placed : Placed scopes around) (fresh : Fresh scopes [name.lexeme]) :
    pendingName scopes name = pendingAround (.stmt (.varDecl name value) :: around) := by
  have reads : pendingAround (.stmt (.varDecl name value) :: around) =
      if isLocal around then some name.lexeme else none := rfl
  rw [reads]
  cases scopes with
  | nil => simp [placed.mp rfl, pendingName]
  | cons scope outer =>
      have inside : isLocal around = true := by simpa [Placed] using placed
      have new : name.lexeme ∉ scope := fresh.2 _ (by simp)
      simp [pendingName, inside, new]

mutual
theorem Stmt.errors_resolve_iff (stmt : Stmt) (around : List Node) (scopes : List Scope)
    (placed : Placed scopes around) :
    (stmt.resolve (surroundings around) scopes).1.errors = [] ↔
      Fresh scopes stmt.names ∧ (Node.stmt stmt).WellScoped around := by
  match stmt with
  | .expression value =>
      have clean : (value.resolve (classAround around) scopes none).errors = [] ↔ _ :=
        value.errors_resolve_iff (.stmt (.expression value) :: around) scopes
      rw [wellScoped_stmt_iff rfl]
      simp [Stmt.resolve, surroundings, Stmt.names, Node.parts, clean]
  | .print keyword value =>
      have clean : (value.resolve (classAround around) scopes none).errors = [] ↔ _ :=
        value.errors_resolve_iff (.stmt (.print keyword value) :: around) scopes
      rw [wellScoped_stmt_iff rfl]
      simp [Stmt.resolve, surroundings, Stmt.names, Node.parts, clean]
  | .varDecl name initializer =>
      have clean (pending : Option String)
          (same : pending = pendingAround (.stmt (.varDecl name initializer) :: around))
          (value : Expr) :
          (value.resolve (classAround around) (declare scopes name).2 pending).errors = [] ↔ _ :=
        same ▸ value.errors_resolve_iff (.stmt (.varDecl name initializer) :: around) _
      rw [wellScoped_stmt_iff rfl]
      simp only [Stmt.resolve, surroundings, Stmt.names, Node.parts, Resolution.errors_append,
        List.append_eq_nil_iff, errors_declare_iff, Expr.errors_resolveAll_iff_forall,
        List.forall_mem_map]
      exact and_congr_right fun fresh => forall₂_congr fun value _ =>
        clean _ (pendingName_eq placed fresh) value
  | .block body =>
      have clean := Stmt.errors_resolveAll_iff body (.stmt (.block body) :: around) ([] :: scopes)
        (by simp [Placed, isLocal, Node.scope?])
      have walk : (Stmt.resolve (surroundings around) scopes (.block body)).1 =
        Stmt.resolveAll (surroundings (.stmt (.block body) :: around)) ([] :: scopes) body := rfl
      rw [wellScoped_scope_iff rfl]
      simp [walk, clean, Node.parts, Stmt.names]
  | .ifThen condition thenBranch =>
      let inside := Node.stmt (.ifThen condition thenBranch) :: around
      have clean : (condition.resolve (classAround around) scopes none).errors = [] ↔ _ :=
        condition.errors_resolve_iff inside scopes
      have cleanThen : (thenBranch.resolve (surroundings around) scopes).1.errors = [] ↔ _ :=
        thenBranch.errors_resolve_iff inside scopes placed
      rw [wellScoped_stmt_iff rfl]
      simp only [Stmt.resolve, surroundings, Stmt.names, Node.parts, Resolution.errors_append,
        List.append_eq_nil_iff, List.forall_mem_cons]
      rw [clean]
      tauto
  | .ifElse condition thenBranch elseBranch =>
      let inside := Node.stmt (.ifElse condition thenBranch elseBranch) :: around
      have declared := thenBranch.declared_resolve (surroundings around) scopes
      have clean : (condition.resolve (classAround around) scopes none).errors = [] ↔ _ :=
        condition.errors_resolve_iff inside scopes
      have cleanThen : (thenBranch.resolve (surroundings around) scopes).1.errors = [] ↔ _ :=
        thenBranch.errors_resolve_iff inside scopes placed
      have cleanElse : (elseBranch.resolve (surroundings around)
          (thenBranch.resolve (surroundings around) scopes).2).1.errors = [] ↔ _ :=
        elseBranch.errors_resolve_iff inside _ (placed.declared declared)
      rw [wellScoped_stmt_iff rfl]
      simp only [Stmt.resolve, Stmt.names, Node.parts, Resolution.errors_append,
        List.append_eq_nil_iff, List.forall_mem_cons, cleanThen, cleanElse, declared.fresh_append]
      rw [show (surroundings around).enclosingClass = classAround around from rfl, clean]
      tauto
  | .whileLoop condition body =>
      let inside := Node.stmt (.whileLoop condition body) :: around
      have clean : (condition.resolve (classAround around) scopes none).errors = [] ↔ _ :=
        condition.errors_resolve_iff inside scopes
      have cleanBody : (body.resolve (surroundings around) scopes).1.errors = [] ↔ _ :=
        body.errors_resolve_iff inside scopes placed
      rw [wellScoped_stmt_iff rfl]
      simp only [Stmt.resolve, surroundings, Stmt.names, Node.parts, Resolution.errors_append,
        List.append_eq_nil_iff, List.forall_mem_cons]
      rw [clean]
      tauto
  | .functionDecl decl =>
      have clean : (decl.resolve ⟨.function, classAround around⟩
          (declare scopes decl.name).2).errors = [] ↔ _ :=
        decl.errors_resolve_iff (.function decl) (.stmt (.functionDecl decl) :: around) _ rfl rfl
      rw [wellScoped_stmt_iff rfl]
      simp [Stmt.resolve, surroundings, Stmt.names, Node.parts, errors_declare_iff, clean]
  | .returnStmt keyword value =>
      have clean (expr : Expr) : (expr.resolve (classAround around) scopes none).errors = [] ↔ _ :=
        expr.errors_resolve_iff (.stmt (.returnStmt keyword value) :: around) scopes
      rw [wellScoped_iff, illScoped_return_iff]
      by_cases top : functionAround around = .topLevel <;>
        by_cases valued : value.isSome ∧ functionAround around = .initializer <;>
        simp [Stmt.resolve, surroundings, Stmt.names, Node.parts, Expr.errors_resolveAll_iff_forall,
          Resolution.none, Resolution.error, top, valued, clean]
  | .classDecl name none methods =>
      let inside := Node.stmt (.classDecl name none methods) :: around
      have clean : (FunctionDecl.resolveMethods ⟨functionAround around, .plain⟩
          (["this"] :: (declare scopes name).2) methods).errors = [] ↔ _ :=
        FunctionDecl.errors_resolveMethods_iff methods inside _ _
      rw [wellScoped_iff, illScoped_class_iff]
      simp [Stmt.resolve, surroundings, Stmt.names, Node.parts, errors_declare_iff, clean, inside]
  | .classDecl name (some parent) methods =>
      let inside := Node.stmt (.classDecl name (some parent) methods) :: around
      have clean : (FunctionDecl.resolveMethods ⟨functionAround around, .subclass⟩
          (["this"] :: ["super"] :: (declare scopes name).2) methods).errors = [] ↔ _ :=
        FunctionDecl.errors_resolveMethods_iff methods inside _ _
      have cleanParent : (parent.resolve .subclass (declare scopes name).2 none).errors = [] ↔ _ :=
        parent.errors_resolve_iff inside _
      rw [wellScoped_iff, illScoped_class_iff]
      cases used : parent.useOf? name <;>
        simp [Stmt.resolve, surroundings, Stmt.names, Node.parts, errors_declare_iff,
          Resolution.none, Resolution.error, clean, cleanParent, inside, used]

theorem Stmt.errors_resolveAll_iff (stmts : List Stmt) (around : List Node) (scopes : List Scope)
    (placed : Placed scopes around) :
    (Stmt.resolveAll (surroundings around) scopes stmts).errors = [] ↔
      Fresh scopes (Stmt.namesAll stmts) ∧ ∀ stmt ∈ stmts, (Node.stmt stmt).WellScoped around := by
  match stmts with
  | [] => simp [Stmt.resolveAll, Stmt.namesAll, Resolution.none]
  | first :: rest =>
      have declared := first.declared_resolve (surroundings around) scopes
      have clean := first.errors_resolve_iff around scopes placed
      have cleanRest := Stmt.errors_resolveAll_iff rest around _ (placed.declared declared)
      simp only [Stmt.resolveAll, Stmt.namesAll, Resolution.errors_append, List.append_eq_nil_iff,
        List.forall_mem_cons, declared.fresh_append, clean, cleanRest]
      tauto

theorem FunctionDecl.errors_resolve_iff (decl : FunctionDecl) (node : Node) (around : List Node)
    (scopes : List Scope)
    (opens : node.scope? = some (decl.params.map Token.lexeme ++ Stmt.namesAll decl.body))
    (below : node.parts = decl.body.map .stmt) :
    (decl.resolve (surroundings (node :: around)) scopes).errors = [] ↔ node.WellScoped around := by
  match decl with
  | ⟨id, name, params, body⟩ =>
      have declared := declared_declareAll ([] :: scopes) params
      have placed : Placed ([] :: scopes) (node :: around) := by simp [Placed, isLocal, opens]
      have clean := Stmt.errors_resolveAll_iff body (node :: around) _ (placed.declared declared)
      rw [wellScoped_scope_iff opens, below, ← fresh_empty_scope scopes, declared.fresh_append]
      simp only [FunctionDecl.resolve, Resolution.errors_append, List.append_eq_nil_iff,
        errors_declareAll_iff, clean, List.forall_mem_map]
      tauto

theorem FunctionDecl.errors_resolveMethods_iff (methods : List FunctionDecl) (around : List Node)
    (context : FunctionContext) (scopes : List Scope) :
    (FunctionDecl.resolveMethods ⟨context, classAround around⟩ scopes methods).errors = [] ↔
      ∀ decl ∈ methods, (Node.method decl).WellScoped around := by
  match methods with
  | [] => simp [FunctionDecl.resolveMethods, Resolution.none]
  | first :: rest =>
      have clean : (first.resolve ⟨.ofMethod first.name, classAround around⟩ scopes).errors = [] ↔
          (Node.method first).WellScoped around :=
        first.errors_resolve_iff (.method first) around scopes rfl rfl
      have cleanRest := FunctionDecl.errors_resolveMethods_iff rest around context scopes
      simp [FunctionDecl.resolveMethods, clean, cleanRest]
end

/-- The resolver reports no error exactly for the programs in which no node is ill-scoped. -/
theorem errors_ofProgram_eq_nil_iff (stmts : List Stmt) :
    (Resolution.ofProgram stmts).errors = [] ↔
      ∀ stmt ∈ stmts, ∀ node around, (Node.stmt stmt).Contains [] node around →
        ¬ IllScoped node around := by
  have clean := Stmt.errors_resolveAll_iff stmts [] [] (iff_of_true rfl rfl)
  exact clean.trans (and_iff_right trivial)

end Lox
