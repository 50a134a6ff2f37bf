import Lox.Parse.Stmt

/-!
The grammar of the language as derivations, apart from any way of reading it. A derivation goes from
a list of tokens to a tree; the identities that the tree gives out are counted from one supply to the
next.

    expression   assignment
    assignment   conditional ( "=" assignment )?
    conditional  comma ( "?" expression ":" conditional )?
    comma        logic_or ( "," logic_or )*            and so on down to factor
    unary        ( "!" | "-" ) unary | call
    call         primary ( "(" arguments? ")" | "." IDENT )*
    arguments    expression ( "," expression )*        without the comma operator

    declaration  classDecl | funDecl | varDecl | statement
    classDecl    "class" IDENT ( "<" IDENT )? "{" function* "}"
    function     IDENT "(" parameters? ")" block
    varDecl      "var" IDENT ( "=" expression )? ";"
    forStmt      "for" "(" ( varDecl | exprStmt | ";" ) expression? ";" expression? ")" statement
    block        "{" declaration* "}"
-/

namespace Lox

namespace Supply

def afterExpr (supply : Supply) : Supply := { supply with nextExpr := supply.nextExpr + 1 }

def afterDecl (supply : Supply) : Supply := { supply with nextDecl := supply.nextDecl + 1 }

end Supply

namespace Grammar

def operatorLevel? : TokenKind → Option Level
  | .comma => some .comma
  | .orWord => some .disjunction
  | .andWord => some .conjunction
  | .bangEqual | .equalEqual => some .equality
  | .greater | .greaterEqual | .less | .lessEqual => some .comparison
  | .minus | .plus => some .term
  | .slash | .star => some .factor
  | _ => none

def operandLevel? : Level → Option Level
  | .comma => some .disjunction
  | .disjunction => some .conjunction
  | .conjunction => some .equality
  | .equality => some .comparison
  | .comparison => some .term
  | .term => some .factor
  | .factor => none

def conditionLevel (comma : Bool) : Level := if comma then .comma else .disjunction

/-- The nonterminals of the grammar of expressions. Whether the comma operator is available is part
of the two loosest ones. -/
inductive Phrase
  | assignment (comma : Bool)
  | conditional (comma : Bool)
  | chain (level : Option Level)
  | call
  | primary
  | arguments

namespace Phrase

abbrev expression : Phrase := assignment true

abbrev level (level : Level) : Phrase := chain (some level)

abbrev unary : Phrase := chain none

@[reducible] def Tree : Phrase → Type
  | arguments => List Expr
  | _ => Expr

end Phrase

/-- The tree of two operands: the comma, `or` and `and` have trees of their own. -/
def joined : Level → Expr → Token → Expr → Expr
  | .comma => .comma
  | .disjunction | .conjunction => .logical
  | _ => .binary

/-- The derivations of expressions. Repeated operators, calls and property reads group to the left,
assignments and conditionals to the right. -/
inductive ExprDerives : (phrase : Phrase) → Supply → List Token → phrase.Tree → Supply → Prop
  | plain {comma start words expr after} :
      ExprDerives (.conditional comma) start words expr after →
      ExprDerives (.assignment comma) start words expr after
  | assign {comma start words id name middle equals others value after} :
      ExprDerives (.conditional comma) start words (Expr.var id name) middle →
      equals.kind = .equal →
      ExprDerives (.assignment comma) middle others value after →
      ExprDerives (.assignment comma) start (words ++ equals :: others)
        (Expr.assign id name value) after
  | set {comma start words object name middle equals others value after} :
      ExprDerives (.conditional comma) start words (Expr.get object name) middle →
      equals.kind = .equal →
      ExprDerives (.assignment comma) middle others value after →
      ExprDerives (.assignment comma) start (words ++ equals :: others)
        (Expr.set object name value) after
  | unconditional {comma start words expr after} :
      ExprDerives (.level (conditionLevel comma)) start words expr after →
      ExprDerives (.conditional comma) start words expr after
  | choice {comma start words condition atThen question thenWords thenBranch atElse colon elseWords
        elseBranch after} :
      ExprDerives (.level (conditionLevel comma)) start words condition atThen →
      question.kind = .question →
      ExprDerives .expression atThen thenWords thenBranch atElse →
      colon.kind = .colon →
      ExprDerives (.conditional comma) atElse elseWords elseBranch after →
      ExprDerives (.conditional comma) start
        (words ++ question :: (thenWords ++ colon :: elseWords))
        (Expr.conditional condition thenBranch elseBranch) after
  | single {level start words expr after} :
      ExprDerives (.chain (operandLevel? level)) start words expr after →
      ExprDerives (.level level) start words expr after
  | operation {level start words left middle operator others right after} :
      ExprDerives (.level level) start words left middle →
      operatorLevel? operator.kind = some level →
      ExprDerives (.chain (operandLevel? level)) middle others right after →
      ExprDerives (.level level) start (words ++ operator :: others)
        (joined level left operator right) after
  | negation {start operator words operand after} :
      operator.kind = .bang ∨ operator.kind = .minus →
      ExprDerives .unary start words operand after →
      ExprDerives .unary start (operator :: words) (Expr.unary operator operand) after
  | unsigned {start words expr after} :
      ExprDerives .call start words expr after →
      ExprDerives .unary start words expr after
  | uncalled {start words expr after} :
      ExprDerives .primary start words expr after →
      ExprDerives .call start words expr after
  | callEmpty {start words callee after opening closing} :
      ExprDerives .call start words callee after →
      opening.kind = .leftParen → closing.kind = .rightParen →
      ExprDerives .call start (words ++ [opening, closing]) (Expr.call callee closing []) after
  | call {start words callee middle opening others arguments after closing} :
      ExprDerives .call start words callee middle →
      opening.kind = .leftParen →
      ExprDerives .arguments middle others arguments after →
      List.length arguments ≤ 255 → closing.kind = .rightParen →
      ExprDerives .call start (words ++ opening :: (others ++ [closing]))
        (Expr.call callee closing arguments) after
  | get {start words object after dot name} :
      ExprDerives .call start words object after →
      dot.kind = .dot → name.kind = .identifier →
      ExprDerives .call start (words ++ [dot, name]) (Expr.get object name) after
  | argument {start words expr after} :
      ExprDerives (.assignment false) start words expr after →
      ExprDerives .arguments start words [expr] after
  | nextArgument {start words expr middle comma others exprs after} :
      ExprDerives (.assignment false) start words expr middle →
      comma.kind = .comma →
      ExprDerives .arguments middle others exprs after →
      ExprDerives .arguments start (words ++ comma :: others) (List.cons expr exprs) after
  | falseWord {start token} : token.kind = .falseWord →
      ExprDerives .primary start [token] (Expr.literal (.bool false)) start
  | trueWord {start token} : token.kind = .trueWord →
      ExprDerives .primary start [token] (Expr.literal (.bool true)) start
  | nilWord {start token} : token.kind = .nilWord →
      ExprDerives .primary start [token] (Expr.literal .nil) start
  | literal {start token value} : token.kind = .number ∨ token.kind = .string →
      token.literal = some value →
      ExprDerives .primary start [token] (Expr.literal (.ofLiteral value)) start
  | this {start keyword} : keyword.kind = .thisWord →
      ExprDerives .primary start [keyword] (Expr.this start.nextExpr keyword) start.afterExpr
  | super {start keyword dot method} : keyword.kind = .superWord → dot.kind = .dot →
      method.kind = .identifier →
      ExprDerives .primary start [keyword, dot, method]
        (Expr.super start.nextExpr keyword method) start.afterExpr
  | var {start name} : name.kind = .identifier →
      ExprDerives .primary start [name] (Expr.var start.nextExpr name) start.afterExpr
  | grouping {start opening words inner after closing} : opening.kind = .leftParen →
      ExprDerives .expression start words inner after → closing.kind = .rightParen →
      ExprDerives .primary start (opening :: (words ++ [closing])) (Expr.grouping inner) after

/-! Declarations and statements. -/

inductive OptionalExpr : Supply → List Token → Option Expr → Supply → Prop
  | absent {start} : OptionalExpr start [] none start
  | present {start words expr after} : ExprDerives .expression start words expr after →
      OptionalExpr start words (some expr) after

inductive ExprStmt : Supply → List Token → Stmt → Supply → Prop
  | intro {start words expr after semicolon} :
      ExprDerives .expression start words expr after → semicolon.kind = .semicolon →
      ExprStmt start (words ++ [semicolon]) (.expression expr) after

inductive VarDecl : Supply → List Token → Stmt → Supply → Prop
  | bare {start keyword name semicolon} : keyword.kind = .varWord → name.kind = .identifier →
      semicolon.kind = .semicolon →
      VarDecl start [keyword, name, semicolon] (.varDecl name none) start
  | initialized {start keyword name equals words expr after semicolon} :
      keyword.kind = .varWord → name.kind = .identifier → equals.kind = .equal →
      ExprDerives .expression start words expr after → semicolon.kind = .semicolon →
      VarDecl start (keyword :: name :: equals :: (words ++ [semicolon]))
        (.varDecl name (some expr)) after

inductive ForInitializer : Supply → List Token → Option Stmt → Supply → Prop
  | absent {start semicolon} : semicolon.kind = .semicolon →
      ForInitializer start [semicolon] none start
  | declared {start words stmt after} : VarDecl start words stmt after →
      ForInitializer start words (some stmt) after
  | expression {start words stmt after} : ExprStmt start words stmt after →
      ForInitializer start words (some stmt) after

inductive Names : List Token → List Token → Prop
  | last {name} : name.kind = .identifier → Names [name] [name]
  | more {name comma words names} : name.kind = .identifier → comma.kind = .comma →
      Names words names → Names (name :: comma :: words) (name :: names)

inductive Parameters : List Token → List Token → Prop
  | absent : Parameters [] []
  | present {words names} : Names words names → names.length ≤ 255 → Parameters words names

/-- The loop that a `for` statement stands for. Without a condition it goes on forever. The increment
follows the body in a block, and the initializer has a block around itself and the loop. -/
def expansion : Option Stmt → Option Expr → Option Expr → Stmt → Stmt
  | none, condition, none, body => .whileLoop (condition.getD (.literal (.bool true))) body
  | none, condition, some step, body =>
      .whileLoop (condition.getD (.literal (.bool true))) (.block [body, .expression step])
  | some first, condition, none, body =>
      .block [first, .whileLoop (condition.getD (.literal (.bool true))) body]
  | some first, condition, some step, body =>
      .block [first, .whileLoop (condition.getD (.literal (.bool true)))
        (.block [body, .expression step])]

theorem expansion_eq_forLoop (initializer : Option Stmt) (condition increment : Option Expr)
    (body : Stmt) :
    expansion initializer condition increment body =
      Stmt.forLoop initializer condition increment body := by
  cases initializer <;> cases increment <;> rfl

/-- The nonterminals of declarations and statements. A statement is open if it ends in an `if` that
has no `else`. -/
inductive Clause
  | declarations
  | declaration (isOpen : Bool)
  | statement (isOpen : Bool)
  | function
  | functions

@[reducible] def Clause.Tree : Clause → Type
  | declarations => List Stmt
  | declaration _ | statement _ => Stmt
  | function => FunctionDecl
  | functions => List FunctionDecl

/-- The derivations of declarations and statements. With `nearest`, an `else` belongs to the nearest
`if` that can take it: what stands between them is not open. -/
inductive StmtDerives (nearest : Bool) :
    (clause : Clause) → Supply → List Token → clause.Tree → Supply → Prop
  | none {start} : StmtDerives nearest .declarations start [] [] start
  | next {start words isOpen stmt middle others stmts after} :
      StmtDerives nearest (.declaration isOpen) start words stmt middle →
      StmtDerives nearest .declarations middle others stmts after →
      StmtDerives nearest .declarations start (words ++ others) (List.cons stmt stmts) after
  | classDecl {start keyword name opening words methods after closing} :
      keyword.kind = .classWord → name.kind = .identifier → opening.kind = .leftBrace →
      StmtDerives nearest .functions start words methods after → closing.kind = .rightBrace →
      StmtDerives nearest (.declaration false) start
        (keyword :: name :: opening :: (words ++ [closing]))
        (Stmt.classDecl name Option.none methods) after
  | subclassDecl {start keyword name less parent opening words methods after closing} :
      keyword.kind = .classWord → name.kind = .identifier → less.kind = .less →
      parent.kind = .identifier → opening.kind = .leftBrace →
      StmtDerives nearest .functions start.afterExpr words methods after →
      closing.kind = .rightBrace →
      StmtDerives nearest (.declaration false) start
        (keyword :: name :: less :: parent :: opening :: (words ++ [closing]))
        (Stmt.classDecl name (some (.var start.nextExpr parent)) methods) after
  | funDecl {start keyword words decl after} : keyword.kind = .funWord →
      StmtDerives nearest .function start words decl after →
      StmtDerives nearest (.declaration false) start (keyword :: words)
        (Stmt.functionDecl decl) after
  | varDecl {start words stmt after} : VarDecl start words stmt after →
      StmtDerives nearest (.declaration false) start words stmt after
  | statement {isOpen start words stmt after} :
      StmtDerives nearest (.statement isOpen) start words stmt after →
      StmtDerives nearest (.declaration isOpen) start words stmt after
  | noMethod {start} : StmtDerives nearest .functions start [] [] start
  | nextMethod {start words decl middle others decls after} :
      StmtDerives nearest .function start words decl middle →
      StmtDerives nearest .functions middle others decls after →
      StmtDerives nearest .functions start (words ++ others) (List.cons decl decls) after
  | function {start name openingParen paramWords params closingParen opening words body after
        closing} :
      name.kind = .identifier → openingParen.kind = .leftParen → Parameters paramWords params →
      closingParen.kind = .rightParen → opening.kind = .leftBrace →
      StmtDerives nearest .declarations start words body after → closing.kind = .rightBrace →
      StmtDerives nearest .function start
        (name :: openingParen ::
          (paramWords ++ closingParen :: opening :: (words ++ [closing])))
        (FunctionDecl.mk after.nextDecl name params body) after.afterDecl
  | exprStmt {start words stmt after} : ExprStmt start words stmt after →
      StmtDerives nearest (.statement false) start words stmt after
  | forLoop {start keyword opening initWords initializer atCondition conditionWords condition
        atIncrement semicolon incrementWords increment atBody closing words isOpen body after} :
      keyword.kind = .forWord → opening.kind = .leftParen →
      ForInitializer start initWords initializer atCondition →
      OptionalExpr atCondition conditionWords condition atIncrement →
      semicolon.kind = .semicolon →
      OptionalExpr atIncrement incrementWords increment atBody → closing.kind = .rightParen →
      StmtDerives nearest (.statement isOpen) atBody words body after →
      StmtDerives nearest (.statement isOpen) start
        (keyword :: opening :: (initWords ++ (conditionWords ++
          semicolon :: (incrementWords ++ closing :: words))))
        (expansion initializer condition increment body) after
  | ifThen {start keyword opening conditionWords condition atThen closing words isOpen thenBranch
        after} :
      keyword.kind = .ifWord → opening.kind = .leftParen →
      ExprDerives .expression start conditionWords condition atThen → closing.kind = .rightParen →
      StmtDerives nearest (.statement isOpen) atThen words thenBranch after →
      StmtDerives nearest (.statement true) start
        (keyword :: opening :: (conditionWords ++ closing :: words))
        (Stmt.ifThen condition thenBranch) after
  | ifElse {start keyword opening conditionWords condition atThen closing thenWords thenOpen
        thenBranch atElse elseWord elseWords isOpen elseBranch after} :
      keyword.kind = .ifWord → opening.kind = .leftParen →
      ExprDerives .expression start conditionWords condition atThen → closing.kind = .rightParen →
      StmtDerives nearest (.statement thenOpen) atThen thenWords thenBranch atElse →
      (nearest = true → thenOpen = false) → elseWord.kind = .elseWord →
      StmtDerives nearest (.statement isOpen) atElse elseWords elseBranch after →
      StmtDerives nearest (.statement isOpen) start
        (keyword :: opening :: (conditionWords ++
          closing :: (thenWords ++ elseWord :: elseWords)))
        (Stmt.ifElse condition thenBranch elseBranch) after
  | print {start keyword words expr after semicolon} : keyword.kind = .printWord →
      ExprDerives .expression start words expr after → semicolon.kind = .semicolon →
      StmtDerives nearest (.statement false) start (keyword :: (words ++ [semicolon]))
        (Stmt.print keyword expr) after
  | returnStmt {start keyword words expr after semicolon} : keyword.kind = .returnWord →
      OptionalExpr start words expr after → semicolon.kind = .semicolon →
      StmtDerives nearest (.statement false) start (keyword :: (words ++ [semicolon]))
        (Stmt.returnStmt keyword expr) after
  | whileLoop {start keyword opening conditionWords condition atBody closing words isOpen body
        after} :
      keyword.kind = .whileWord → opening.kind = .leftParen →
      ExprDerives .expression start conditionWords condition atBody → closing.kind = .rightParen →
      StmtDerives nearest (.statement isOpen) atBody words body after →
      StmtDerives nearest (.statement isOpen) start
        (keyword :: opening :: (conditionWords ++ closing :: words))
        (Stmt.whileLoop condition body) after
  | block {start opening words body after closing} : opening.kind = .leftBrace →
      StmtDerives nearest .declarations start words body after → closing.kind = .rightBrace →
      StmtDerives nearest (.statement false) start (opening :: (words ++ [closing]))
        (Stmt.block body) after

end Grammar

end Lox
