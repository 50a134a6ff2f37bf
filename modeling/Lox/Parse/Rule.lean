import Lox.Stmt

/-!
What all parsing rules share. A rule starts at a position, the tokens still to be read and the
identities still to be given out, and ends with a tree or with the fault that stopped it. Faults that
do not stop a rule are noted and handed on. The outcome carries a bound on the tokens that are left:
a rule that succeeds has read at least one token, and none gives tokens back.
-/

namespace Lox

inductive FunctionKind
  | function
  | method
deriving DecidableEq

def FunctionKind.text : FunctionKind → String
  | function => "function"
  | method => "method"

inductive Expected
  | expression
  | endOfExpression
  | colon
  | propertyName
  | argumentsEnd
  | superDot
  | superMethod
  | groupingEnd
  | className
  | superclassName
  | classStart
  | classEnd
  | functionName (kind : FunctionKind)
  | parametersStart (kind : FunctionKind)
  | parameterName
  | parametersEnd
  | bodyStart (kind : FunctionKind)
  | variableName
  | variableEnd
  | forStart
  | forConditionEnd
  | forEnd
  | ifStart
  | ifEnd
  | printEnd
  | returnEnd
  | whileStart
  | whileEnd
  | expressionEnd
  | blockEnd
deriving DecidableEq

def Expected.text : Expected → String
  | expression => "expression"
  | endOfExpression => "end of expression"
  | colon => "':' after then branch of conditional expression"
  | propertyName => "property name after '.'"
  | argumentsEnd => "')' after arguments"
  | superDot => "'.' after 'super'"
  | superMethod => "superclass method name"
  | groupingEnd => "')' after expression"
  | className => "class name"
  | superclassName => "superclass name"
  | classStart => "'\x7b' before class body"
  | classEnd => "'\x7d' after class body"
  | functionName kind => kind.text ++ " name"
  | parametersStart kind => "'(' after " ++ kind.text ++ " name"
  | parameterName => "parameter name"
  | parametersEnd => "')' after parameters"
  | bodyStart kind => "'\x7b' before " ++ kind.text ++ " body"
  | variableName => "variable name"
  | variableEnd => "';' after variable declaration"
  | forStart => "'(' after 'for'"
  | forConditionEnd => "';' after loop condition"
  | forEnd => "')' after for clauses"
  | ifStart => "'(' after 'if'"
  | ifEnd => "')' after if condition"
  | printEnd => "';' after value"
  | returnEnd => "';' after return value"
  | whileStart => "'(' after 'while'"
  | whileEnd => "')' after condition"
  | expressionEnd => "';' after expression"
  | blockEnd => "'\x7d' after block"

inductive SyntaxFault
  | expected (what : Expected)
  | invalidAssignmentTarget
  | tooManyArguments
  | tooManyParameters
  | worded (message : String)
deriving DecidableEq

def SyntaxFault.message : SyntaxFault → String
  | expected what => "Expect " ++ what.text ++ "."
  | invalidAssignmentTarget => "Invalid assignment target."
  | tooManyArguments => "Can't have more than 255 arguments."
  | tooManyParameters => "Can't have more than 255 parameters."
  | worded message => message

/-- The most parameters and arguments that are accepted without a fault. -/
def maxArity : Nat := 255

/-- A fault and the token at which it was found; `none` is the end of the input. -/
structure Complaint where
  place : Option Token
  fault : SyntaxFault
deriving DecidableEq

structure Supply where
  nextExpr : ExprId := 0
  nextDecl : DeclId := 0
deriving DecidableEq

structure Position where
  rest : List Token
  supply : Supply

namespace Position

def size (position : Position) : Nat := position.rest.length

def place (position : Position) : Option Token := position.rest.head?

def isAt (position : Position) (kind : TokenKind) : Bool :=
  (position.place.map Token.kind) = some kind

def complain (position : Position) (what : Expected) : Complaint :=
  ⟨position.place, .expected what⟩

def skipExprId (position : Position) : Position :=
  { position with supply.nextExpr := position.supply.nextExpr + 1 }

def skipDeclId (position : Position) : Position :=
  { position with supply.nextDecl := position.supply.nextDecl + 1 }

@[simp] theorem size_skipExprId (position : Position) : position.skipExprId.size = position.size :=
  rfl

@[simp] theorem size_skipDeclId (position : Position) : position.skipDeclId.size = position.size :=
  rfl

def accept? (position : Position) (accepted : TokenKind → Bool) :
    Option (Token × { after : Position // after.size < position.size }) :=
  match position with
  | ⟨[], _⟩ => none
  | ⟨token :: rest, supply⟩ =>
      if accepted token.kind then some (token, ⟨⟨rest, supply⟩, by simp [size]⟩) else none

end Position

/-- The outcome of a rule applied where `bound` tokens were left. -/
inductive Parsed (α : Type) (bound : Nat)
  | done (value : α) (notes : List Complaint) (after : Position)
      (shorter : after.size < bound)
  | stuck (cause : Complaint) (notes : List Complaint) (after : Position)
      (fits : after.size ≤ bound)

namespace Parsed

variable {α β : Type} {bound small : Nat}

def noting (earlier : List Complaint) : Parsed α bound → Parsed α bound
  | done value notes after shorter => done value (earlier ++ notes) after shorter
  | stuck cause notes after fits => stuck cause (earlier ++ notes) after fits

/-- Goes on from the position that a successful rule has reached. The proof that no tokens were given
back is put together from the steps that led to where the rule was applied. -/
@[inline] def andThen (parsed : Parsed α small)
    (next : (value : α) → (after : Position) → after.size < small → Parsed β bound)
    (weaker : small ≤ bound := by
      repeat
        first
        | exact Nat.le_refl _
        | exact Nat.le_succ _
        | refine Nat.le_trans (Nat.le_of_lt (by assumption)) ?_) : Parsed β bound :=
  match parsed with
  | done value notes after shorter => (next value after shorter).noting notes
  | stuck cause notes after fits => stuck cause notes after (Nat.le_trans fits weaker)

@[inline] def map (parsed : Parsed α small) (change : α → β)
    (weaker : small ≤ bound := by
      repeat
        first
        | exact Nat.le_refl _
        | exact Nat.le_succ _
        | refine Nat.le_trans (Nat.le_of_lt (by assumption)) ?_) : Parsed β bound :=
  match parsed with
  | done value notes after shorter =>
      done (change value) notes after (Nat.lt_of_lt_of_le shorter weaker)
  | stuck cause notes after fits => stuck cause notes after (Nat.le_trans fits weaker)

def within (parsed : Parsed α small)
    (weaker : small ≤ bound := by
      repeat
        first
        | exact Nat.le_refl _
        | exact Nat.le_succ _
        | refine Nat.le_trans (Nat.le_of_lt (by assumption)) ?_) : Parsed α bound :=
  match parsed with
  | done value notes after shorter => done value notes after (Nat.lt_of_lt_of_le shorter weaker)
  | stuck cause notes after fits => stuck cause notes after (Nat.le_trans fits weaker)

end Parsed

end Lox
