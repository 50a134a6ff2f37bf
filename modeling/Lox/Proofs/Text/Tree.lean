import Lox.Proofs.Grammar
import Lox.Proofs.Written
import Lox.Proofs.Text.Form

/-!
The text of a tree says all that is in the tree, apart from identities and from the lines of tokens.
A tree is read back from the forms that its text is made of; so trees that come from sources have the
same text only if they are the same up to that. Strings are left out, because they are written without
their quotes, and so are numbers that are not finite.
-/

namespace Lox

namespace Form

/-- The expression that is written as a word. -/
noncomputable def leaf (text : String) : Expr :=
  let token := Token.read text
  match token.kind with
  | .nilWord => .literal .nil
  | .trueWord => .literal (.bool true)
  | .falseWord => .literal (.bool false)
  | .thisWord => .this 0 token
  | .identifier => .var 0 token
  | _ => .literal (.number (.ofText text))

def name : Form → Token
  | word text => Token.read text
  | group _ => .ending 0

def joined (operator : Token) (left right : Expr) : Expr :=
  Grammar.joined ((Grammar.operatorLevel? operator.kind).getD .term) left operator right

mutual
/-- The expression that is read from a form. -/
noncomputable def expr : Form → Expr
  | word text => leaf text
  | group [word "group", inner] => .grouping inner.expr
  | group (word "call" :: callee :: arguments) =>
      .call callee.expr (.read ")") (exprs arguments)
  | group [word "?:", condition, thenBranch, elseBranch] =>
      .conditional condition.expr thenBranch.expr elseBranch.expr
  | group [word "=", target, value] => (target.expr.assigned? value.expr).getD target.expr
  | group [word ".", object, selected] => .get object.expr selected.name
  | group [word "super", method] => .super 0 (.read "super") method.name
  | group [word operator, operand] => .unary (.read operator) operand.expr
  | group [word operator, left, right] => joined (.read operator) left.expr right.expr
  | _ => .literal .nil

noncomputable def exprs : List Form → List Expr
  | [] => []
  | first :: rest => first.expr :: exprs rest
end

mutual
/-- The statement that is read from a form. -/
noncomputable def stmt : Form → Stmt
  | group [word ";", value] => .expression value.expr
  | group [word "print", value] => .print (.read "print") value.expr
  | group (word "var" :: declared :: initializer) => .varDecl declared.name (exprs initializer).head?
  | group (word "block" :: body) => .block (stmts body)
  | group [word "if", condition, thenBranch] => .ifThen condition.expr thenBranch.stmt
  | group [word "if-else", condition, thenBranch, elseBranch] =>
      .ifElse condition.expr thenBranch.stmt elseBranch.stmt
  | group [word "while", condition, body] => .whileLoop condition.expr body.stmt
  | group (word "fun" :: parts) => .functionDecl (decl parts)
  | group (word "return" :: value) => .returnStmt (.read "return") (exprs value).head?
  | group (word "class" :: declared :: word "<" :: parent :: methods) =>
      .classDecl declared.name parent.expr (decls methods)
  | group (word "class" :: declared :: methods) => .classDecl declared.name none (decls methods)
  | _ => .block []

noncomputable def stmts : List Form → List Stmt
  | [] => []
  | first :: rest => first.stmt :: stmts rest

noncomputable def decl : List Form → FunctionDecl
  | declared :: group params :: body => ⟨0, declared.name, params.map name, stmts body⟩
  | _ => ⟨0, .ending 0, [], []⟩

noncomputable def decls : List Form → List FunctionDecl
  | group (word "method" :: parts) :: rest => decl parts :: decls rest
  | _ => []
end

end Form

namespace Expr

mutual
/-- The tree without identities and lines. -/
def bare : Expr → Expr
  | literal value => literal value
  | grouping inner => grouping inner.bare
  | unary operator operand => unary operator.bare operand.bare
  | binary left operator right => binary left.bare operator.bare right.bare
  | logical left operator right => logical left.bare operator.bare right.bare
  | comma left operator right => comma left.bare operator.bare right.bare
  | conditional condition thenBranch elseBranch =>
      conditional condition.bare thenBranch.bare elseBranch.bare
  | var _ name => var 0 name.bare
  | assign _ name value => assign 0 name.bare value.bare
  | call callee paren arguments => call callee.bare paren.bare (bareAll arguments)
  | get object name => get object.bare name.bare
  | set object name value => set object.bare name.bare value.bare
  | this _ keyword => this 0 keyword.bare
  | super _ keyword method => super 0 keyword.bare method.bare

def bareAll : List Expr → List Expr
  | [] => []
  | first :: rest => first.bare :: bareAll rest
end

mutual
theorem text_bare (expr : Expr) : expr.bare.text = expr.text := by
  cases expr <;> simp [bare, text, Token.bare, text_bare, texts_bareAll]

theorem texts_bareAll (exprs : List Expr) : texts (bareAll exprs) = texts exprs := by
  cases exprs <;> simp [bareAll, texts, text_bare, texts_bareAll]
end

end Expr

mutual
def Stmt.bare : Stmt → Stmt
  | .expression value => .expression value.bare
  | .print keyword value => .print keyword.bare value.bare
  | .varDecl name initializer => .varDecl name.bare (initializer.map Expr.bare)
  | .block body => .block (Stmt.bareAll body)
  | .ifThen condition thenBranch => .ifThen condition.bare thenBranch.bare
  | .ifElse condition thenBranch elseBranch =>
      .ifElse condition.bare thenBranch.bare elseBranch.bare
  | .whileLoop condition body => .whileLoop condition.bare body.bare
  | .functionDecl decl => .functionDecl decl.bare
  | .returnStmt keyword value => .returnStmt keyword.bare (value.map Expr.bare)
  | .classDecl name superclass methods =>
      .classDecl name.bare (superclass.map Expr.bare) (FunctionDecl.bareAll methods)

def Stmt.bareAll : List Stmt → List Stmt
  | [] => []
  | first :: rest => first.bare :: Stmt.bareAll rest

def FunctionDecl.bare : FunctionDecl → FunctionDecl
  | ⟨_, name, params, body⟩ => ⟨0, name.bare, params.map Token.bare, Stmt.bareAll body⟩

def FunctionDecl.bareAll : List FunctionDecl → List FunctionDecl
  | [] => []
  | first :: rest => first.bare :: FunctionDecl.bareAll rest
end

theorem Expr.texts_map_bare (value : Option Expr) :
    texts (value.map bare).toList = texts value.toList := by
  cases value <;> simp [texts, text_bare]

mutual
theorem Stmt.text_bare (stmt : Stmt) : stmt.bare.text = stmt.text := by
  cases stmt with
  | classDecl name superclass methods =>
      cases superclass <;>
        simp [Stmt.bare, Stmt.text, Token.bare, Expr.text_bare, FunctionDecl.methodTexts_bareAll methods]
  | functionDecl decl => simp [Stmt.bare, Stmt.text, FunctionDecl.text_bare decl]
  | _ =>
      simp [Stmt.bare, Stmt.text, Token.bare, Expr.text_bare, Expr.texts_map_bare, Stmt.text_bare,
        Stmt.texts_bareAll]

theorem Stmt.texts_bareAll (stmts : List Stmt) : Stmt.texts (Stmt.bareAll stmts) = Stmt.texts stmts := by
  cases stmts <;> simp [Stmt.bareAll, Stmt.texts, Stmt.text_bare, Stmt.texts_bareAll]

theorem FunctionDecl.text_bare (decl : FunctionDecl) : decl.bare.text = decl.text := by
  obtain ⟨id, name, params, body⟩ := decl
  have lexemes : Token.lexeme ∘ Token.bare = Token.lexeme := rfl
  simp [FunctionDecl.bare, FunctionDecl.text, Token.bare, lexemes, Stmt.texts_bareAll body]

theorem FunctionDecl.methodTexts_bareAll (decls : List FunctionDecl) :
    FunctionDecl.methodTexts (FunctionDecl.bareAll decls) = FunctionDecl.methodTexts decls := by
  cases decls <;> simp [FunctionDecl.bareAll, FunctionDecl.methodTexts, FunctionDecl.text_bare,
    FunctionDecl.methodTexts_bareAll]
end

/-- Literals are no strings, and numbers are finite. -/
def Constant.Printable : Constant → Prop
  | .string _ => False
  | .number value => value.isFinite
  | _ => True

namespace Node

def PrintableHere : Node → Prop
  | expr (.literal value) => value.Printable
  | _ => True

/-- No literal in the node is a string, and all numbers in it are finite. -/
def Printable (node : Node) : Prop := node.Everywhere PrintableHere

def Legible (node : Node) : Prop :=
  node.Everywhere fun inner => inner.WrittenHere Token.Stands ∧ inner.PrintableHere

theorem Written.legible {node : Node} (written : node.Written Token.Stands)
    (printable : node.Printable) : node.Legible :=
  fun inner path contains => ⟨written inner path contains, printable inner path contains⟩

variable {node : Node} (legible : node.Legible)
include legible

theorem Legible.part {child : Node} (member : child ∈ node.parts) : child.Legible :=
  Everywhere.part legible member

omit legible in
theorem Legible.function {decl : FunctionDecl} (legible : (method decl).Legible) :
    (function decl).Legible := by
  rw [Legible, everywhere_iff] at legible ⊢
  exact legible

theorem Legible.mark {mark : Token} {kinds : List TokenKind} (member : (mark, kinds) ∈ node.marks) :
    mark.Stands ∧ mark.kind ∈ kinds :=
  (everywhere_iff.mp legible).1.1 _ member

theorem Legible.name {mark : Token} (member : (mark, [.identifier]) ∈ node.marks) :
    ReadAs mark.lexeme.toList [.word mark.lexeme] ∧ Token.read mark.lexeme = mark.bare ∧
      mark.bare.kind = .identifier := by
  obtain ⟨stands, kind⟩ := legible.mark member
  have kind : mark.kind = .identifier := List.mem_singleton.mp kind
  exact ⟨.word (stands.lexeme_of_kind.clean (by simp [kind])), stands.read_eq, kind⟩

theorem Legible.fixed {mark : Token} {kind : TokenKind} (member : (mark, [kind]) ∈ node.marks)
    (word : String) (spelling : (word, kind) ∈ operators ++ keywords) :
    Token.read word = mark.bare ∧ mark.bare.kind = kind := by
  obtain ⟨stands, same⟩ := legible.mark member
  have same : mark.kind = kind := List.mem_singleton.mp same
  exact ⟨stands.read_of_mem (same ▸ spelling), same⟩

end Node

namespace Expr

/-- A form is read from the text of the tree, and the tree from the form. -/
def Told (expr : Expr) : Prop := ∃ form, ReadAs expr.text.toList [form] ∧ form.expr = expr.bare

def ToldAll (exprs : List Expr) : Prop :=
  ∃ forms, ReadAs (texts exprs).toList forms ∧ Form.exprs forms = bareAll exprs

theorem ends_texts (exprs : List Expr) :
    ∀ character ∈ (texts exprs).toList.head?, Bracketing.Ends character := by
  cases exprs <;> simp [texts, Bracketing.Ends]

theorem toldAll {exprs : List Expr} (told : ∀ expr ∈ exprs, expr.Told) : ToldAll exprs := by
  induction exprs with
  | nil => exact ⟨[], .nil, rfl⟩
  | cons first rest ih =>
      obtain ⟨told, others⟩ := List.forall_mem_cons.mp told
      obtain ⟨form, reads, eq⟩ := told
      obtain ⟨forms, reads', eq'⟩ := ih others
      refine ⟨form :: forms, ?_, by rw [Form.exprs, eq, eq', bareAll]⟩
      simpa [texts] using ReadAs.nil.next (reads.append reads' (ends_texts rest))

theorem told_of_literal {value : Constant} (printable : value.Printable) : (literal value).Told := by
  refine ⟨.word value.text, ?_⟩
  rw [Form.expr, Form.leaf]
  match value with
  | .nil | .bool true | .bool false => exact ⟨ReadAs.word (by decide), by cbv⟩
  | .number value =>
      have finite : value.isFinite := printable
      refine ⟨ReadAs.word (Number.clean_literal finite), ?_⟩
      rcases Number.kind_read_literal finite with kind | kind <;>
        simp [Constant.text, kind, Number.ofText_literal finite, bare]

theorem told_of_operator {expr left right : Expr} {operator : Token} (told : left.Told)
    (told' : right.Told) (stands : operator.Stands)
    (level : (Grammar.operatorLevel? operator.kind).isSome)
    (same : expr.text = (binary left operator right).text)
    (joined : Form.joined operator.bare left.bare right.bare = expr.bare) : expr.Told := by
  obtain ⟨form, reads, eq⟩ := told
  obtain ⟨form', reads', eq'⟩ := told'
  have other {kind : TokenKind} (none : Grammar.operatorLevel? kind = none) : operator.kind ≠ kind := by
    rintro rfl
    simp [none] at level
  -- calls, property reads and assignments have words in front that no such operator is spelled as
  have notCall := stands.ne_of_kind (show (Token.read "call").kind = .identifier by cbv) (other rfl)
  have notGet := stands.ne_of_kind (show (Token.read ".").kind = .dot by cbv) (other rfl)
  have notAssign := stands.ne_of_kind (show (Token.read "=").kind = .equal by cbv) (other rfl)
  refine ⟨.group [.word operator.lexeme, form, form'], ?_, ?_⟩
  · have clean := stands.lexeme_of_kind.clean ⟨other rfl, other rfl, other rfl⟩
    simpa [same, text] using (reads.next reads').node _ clean
  · simp [Form.expr, stands.read_eq, eq, eq', joined]

theorem told_of_get {object : Expr} {name : Token} (told : object.Told)
    (reads : ReadAs name.lexeme.toList [.word name.lexeme])
    (read : Token.read name.lexeme = name.bare) : (get object name).Told := by
  obtain ⟨form, reads', eq⟩ := told
  refine ⟨.group [.word ".", form, .word name.lexeme], ?_, ?_⟩
  · simpa [text] using (reads'.next reads).node "." (by decide)
  · simp [Form.expr, Form.name, read, eq, bare]

theorem told (expr : Expr) (legible : (Node.expr expr).Legible) : expr.Told := by
  induction expr using Expr.induction_parts with
  | step expr ih =>
  have told {inner : Expr} (member : inner ∈ expr.parts) : inner.Told :=
    ih inner member (legible.part (List.mem_map_of_mem member))
  cases expr with
  | literal value => exact told_of_literal (Node.everywhere_iff.mp legible).1.2
  | grouping inner =>
      obtain ⟨form, reads, eq⟩ := told List.mem_cons_self
      refine ⟨.group [.word "group", form], ?_, by simp [Form.expr, eq, bare]⟩
      simpa [text] using reads.node "group" (by decide)
  | unary operator operand =>
      obtain ⟨form, reads, eq⟩ := told List.mem_cons_self
      obtain ⟨stands, kind⟩ := legible.mark List.mem_cons_self
      have other {head : String} {front : TokenKind} (read : (Token.read head).kind = front)
          (differs : front ∉ [.bang, .minus]) : operator.lexeme ≠ head :=
        stands.ne_of_kind read fun same => differs (same ▸ kind)
      have notGroup := other (show (Token.read "group").kind = .identifier by cbv) (by decide)
      have notCall := other (show (Token.read "call").kind = .identifier by cbv) (by decide)
      have notSuper := other (show (Token.read "super").kind = .superWord by cbv) (by decide)
      refine ⟨.group [.word operator.lexeme, form], ?_, ?_⟩
      · simpa [text] using reads.node _ (stands.lexeme_of_kind.clean (by grind))
      · simp [Form.expr, stands.read_eq, eq, bare]
  | binary left operator right | logical left operator right | comma left operator right =>
      obtain ⟨stands, kind⟩ := legible.mark List.mem_cons_self
      refine told_of_operator (@told left (by simp [parts])) (@told right (by simp [parts])) stands
        ?_ (by simp [text]) ?_ <;> cases operator <;> fin_cases kind <;> rfl
  | conditional condition thenBranch elseBranch =>
      obtain ⟨form, reads, eq⟩ := @told condition (by simp [parts])
      obtain ⟨form', reads', eq'⟩ := @told thenBranch (by simp [parts])
      obtain ⟨form'', reads'', eq''⟩ := @told elseBranch (by simp [parts])
      refine ⟨.group [.word "?:", form, form', form''], ?_, by simp [Form.expr, eq, eq', eq'', bare]⟩
      simpa [text] using (reads.next (reads'.next reads'')).node "?:" (by decide)
  | var id name =>
      obtain ⟨reads, read, kind⟩ := legible.name List.mem_cons_self
      exact ⟨_, reads, by simp [Form.expr, Form.leaf, read, kind, bare]⟩
  | assign id name value =>
      obtain ⟨form, reads, eq⟩ := told List.mem_cons_self
      obtain ⟨reads', read, kind⟩ := legible.name List.mem_cons_self
      refine ⟨.group [.word "=", .word name.lexeme, form], ?_, ?_⟩
      · simpa [text] using (reads'.next reads).node "=" (by decide)
      · simp [Form.expr, Form.leaf, read, kind, eq, assigned?, bare]
  | call callee paren arguments =>
      obtain ⟨form, reads, eq⟩ := told List.mem_cons_self
      obtain ⟨forms, reads', eq'⟩ := toldAll fun argument member => told (List.mem_cons_of_mem _ member)
      obtain ⟨read, -⟩ := legible.fixed List.mem_cons_self ")" (by decide)
      refine ⟨.group (.word "call" :: form :: forms), ?_, by simp [Form.expr, read, eq, eq', bare]⟩
      simpa [text] using (reads.append reads' (ends_texts arguments)).node "call" (by decide)
  | get object name =>
      obtain ⟨reads, read, -⟩ := legible.name List.mem_cons_self
      exact told_of_get (told List.mem_cons_self) reads read
  | set object name value =>
      obtain ⟨reads, read, -⟩ := legible.name List.mem_cons_self
      obtain ⟨form, reads, eq⟩ := told_of_get (@told object (by simp [parts])) reads read
      obtain ⟨form', reads', eq'⟩ := @told value (by simp [parts])
      refine ⟨.group [.word "=", form, form'], ?_, ?_⟩
      · simpa [text] using (reads.next reads').node "=" (by decide)
      · simp [Form.expr, eq, eq', assigned?, bare]
  | this id keyword =>
      obtain ⟨read, kind⟩ := legible.fixed List.mem_cons_self "this" (by decide)
      refine ⟨.word "this", ReadAs.word (show ReadAs.Clean "this" by decide), ?_⟩
      simp [Form.expr, Form.leaf, read, kind, bare]
  | super id keyword method =>
      obtain ⟨read, -⟩ := legible.fixed List.mem_cons_self "super" (by decide)
      obtain ⟨reads, read', -⟩ := legible.name (List.mem_cons_of_mem _ List.mem_cons_self)
      refine ⟨.group [.word "super", .word method.lexeme], ?_, ?_⟩
      · simpa [text] using reads.node "super" (by decide)
      · simp [Form.expr, Form.name, read, read', bare]

end Expr

def Stmt.Told (stmt : Stmt) : Prop := ∃ form, ReadAs stmt.text.toList [form] ∧ form.stmt = stmt.bare

def Stmt.ToldAll (stmts : List Stmt) : Prop :=
  ∃ forms, ReadAs (Stmt.texts stmts).toList forms ∧ Form.stmts forms = Stmt.bareAll stmts

/-- A function is told by what follows the word in front of it. -/
def FunctionDecl.Told (decl : FunctionDecl) : Prop :=
  ∃ forms, Form.decl forms = decl.bare ∧ ∀ head, ReadAs.Clean head →
    ReadAs ('(' :: head.toList ++ ' ' :: decl.text.toList) [.group (.word head :: forms)]

def FunctionDecl.ToldAll (decls : List FunctionDecl) : Prop :=
  ∃ forms, ReadAs (FunctionDecl.methodTexts decls).toList forms ∧
    Form.decls forms = FunctionDecl.bareAll decls ∧ .word "<" ∉ forms

theorem Stmt.ends_texts (stmts : List Stmt) :
    ∀ character ∈ (Stmt.texts stmts).toList.head?, Bracketing.Ends character := by
  cases stmts <;> simp [Stmt.texts, Bracketing.Ends]

theorem FunctionDecl.ends_methodTexts (decls : List FunctionDecl) :
    ∀ character ∈ (FunctionDecl.methodTexts decls).toList.head?, Bracketing.Ends character := by
  cases decls <;> simp [FunctionDecl.methodTexts, Bracketing.Ends]

theorem ReadAs.names {names : List Token}
    (each : ∀ name ∈ names, ReadAs name.lexeme.toList [.word name.lexeme]) :
    ReadAs (" ".intercalate (names.map Token.lexeme)).toList
      (names.map fun name => .word name.lexeme) := by
  match names with
  | [] => exact .nil
  | [name] => simpa using each name List.mem_cons_self
  | name :: next :: rest =>
      obtain ⟨first, others⟩ := List.forall_mem_cons.mp each
      simpa [String.intercalate_cons_cons] using first.next (ReadAs.names others)

theorem Expr.toldAll_option {node : Node} (legible : node.Legible) {value : Option Expr}
    (parts : ∀ expr ∈ value, .expr expr ∈ node.parts) :
    ∃ forms, ReadAs (Expr.texts value.toList).toList forms ∧
      (Form.exprs forms).head? = value.map Expr.bare := by
  obtain ⟨forms, reads, eq⟩ := @Expr.toldAll value.toList fun expr member =>
    expr.told (legible.part (parts expr (by simpa using member)))
  refine ⟨forms, reads, ?_⟩
  rw [eq]
  cases value <;> rfl

mutual
theorem Stmt.told (stmt : Stmt) (legible : (Node.stmt stmt).Legible) : stmt.Told := by
  have told {value : Expr} (member : .expr value ∈ (Node.stmt stmt).parts) : value.Told :=
    value.told (legible.part member)
  cases stmt with
  | expression value =>
      obtain ⟨form, reads, eq⟩ := told List.mem_cons_self
      refine ⟨.group [.word ";", form], ?_, by simp [Form.stmt, eq, Stmt.bare]⟩
      simpa [Stmt.text] using reads.node ";" (by decide)
  | print keyword value =>
      obtain ⟨form, reads, eq⟩ := told List.mem_cons_self
      obtain ⟨read, -⟩ := legible.fixed List.mem_cons_self "print" (by decide)
      refine ⟨.group [.word "print", form], ?_, by simp [Form.stmt, eq, read, Stmt.bare]⟩
      simpa [Stmt.text] using reads.node "print" (by decide)
  | varDecl name initializer =>
      obtain ⟨forms, reads, eq⟩ := @Expr.toldAll_option _ legible initializer (by simp [Node.parts])
      obtain ⟨reads', read, -⟩ := legible.name List.mem_cons_self
      refine ⟨.group (.word "var" :: .word name.lexeme :: forms), ?_, ?_⟩
      · simpa [Stmt.text] using (reads'.append reads (Expr.ends_texts _)).node "var" (by decide)
      · simp [Form.stmt, Form.name, read, eq, Stmt.bare]
  | block body =>
      obtain ⟨forms, reads, eq⟩ :=
        Stmt.toldAll body fun stmt member => legible.part (List.mem_map_of_mem member)
      refine ⟨.group (.word "block" :: forms), ?_, by simp [Form.stmt, eq, Stmt.bare]⟩
      simpa [Stmt.text] using reads.nodeOf (Stmt.ends_texts body) "block" (by decide)
  | ifThen condition thenBranch =>
      obtain ⟨form, reads, eq⟩ := told List.mem_cons_self
      obtain ⟨form', reads', eq'⟩ := thenBranch.told (legible.part (by simp [Node.parts]))
      refine ⟨.group [.word "if", form, form'], ?_, by simp [Form.stmt, eq, eq', Stmt.bare]⟩
      simpa [Stmt.text] using (reads.next reads').node "if" (by decide)
  | ifElse condition thenBranch elseBranch =>
      obtain ⟨form, reads, eq⟩ := told List.mem_cons_self
      obtain ⟨form', reads', eq'⟩ := thenBranch.told (legible.part (by simp [Node.parts]))
      obtain ⟨form'', reads'', eq''⟩ := elseBranch.told (legible.part (by simp [Node.parts]))
      refine ⟨.group [.word "if-else", form, form', form''], ?_, ?_⟩
      · simpa [Stmt.text] using (reads.next (reads'.next reads'')).node "if-else" (by decide)
      · simp [Form.stmt, eq, eq', eq'', Stmt.bare]
  | whileLoop condition body =>
      obtain ⟨form, reads, eq⟩ := told List.mem_cons_self
      obtain ⟨form', reads', eq'⟩ := body.told (legible.part (by simp [Node.parts]))
      refine ⟨.group [.word "while", form, form'], ?_, by simp [Form.stmt, eq, eq', Stmt.bare]⟩
      simpa [Stmt.text] using (reads.next reads').node "while" (by decide)
  | functionDecl decl =>
      obtain ⟨forms, eq, reads⟩ := decl.told (legible.part List.mem_cons_self)
      refine ⟨.group (.word "fun" :: forms), ?_, by simp [Form.stmt, eq, Stmt.bare]⟩
      simpa [Stmt.text] using reads "fun" (by decide)
  | returnStmt keyword value =>
      obtain ⟨forms, reads, eq⟩ := @Expr.toldAll_option _ legible value (by simp [Node.parts])
      obtain ⟨read, -⟩ := legible.fixed List.mem_cons_self "return" (by decide)
      refine ⟨.group (.word "return" :: forms), ?_, by simp [Form.stmt, eq, read, Stmt.bare]⟩
      simpa [Stmt.text] using reads.nodeOf (Expr.ends_texts _) "return" (by decide)
  | classDecl name superclass methods =>
      obtain ⟨forms, reads, eq, apart⟩ := FunctionDecl.toldAll methods fun decl member =>
        (legible.part (List.mem_append_right _ (List.mem_map_of_mem member))).function
      obtain ⟨reads', read, -⟩ := legible.name List.mem_cons_self
      have clean : ReadAs.Clean "class" := by decide
      cases superclass with
      | none =>
          -- what follows the name is a method, and no method is read as the mark of a superclass
          have noParent : ∀ parent rest, forms ≠ .word "<" :: parent :: rest := by
            rintro parent rest rfl
            exact apart List.mem_cons_self
          refine ⟨.group (.word "class" :: .word name.lexeme :: forms), ?_, ?_⟩
          · simpa [Stmt.text] using
              (reads'.append reads (FunctionDecl.ends_methodTexts methods)).node _ clean
          · simp [Form.stmt, Form.name, read, eq, Stmt.bare]
      | some parent =>
          obtain ⟨form, reads'', eq'⟩ := told List.mem_cons_self
          have inherits := (ReadAs.word (show ReadAs.Clean "<" by decide)).next reads''
          refine ⟨.group (.word "class" :: .word name.lexeme :: .word "<" :: form :: forms), ?_, ?_⟩
          · simpa [Stmt.text] using
              ((reads'.next inherits).append reads (FunctionDecl.ends_methodTexts methods)).node _ clean
          · simp [Form.stmt, Form.name, read, eq, eq', Stmt.bare]

theorem Stmt.toldAll (stmts : List Stmt) (legible : ∀ stmt ∈ stmts, (Node.stmt stmt).Legible) :
    Stmt.ToldAll stmts := by
  match stmts with
  | [] => exact ⟨[], .nil, rfl⟩
  | first :: rest =>
      obtain ⟨form, reads, eq⟩ := first.told (legible first List.mem_cons_self)
      obtain ⟨forms, reads', eq'⟩ :=
        Stmt.toldAll rest fun stmt member => legible stmt (List.mem_cons_of_mem _ member)
      refine ⟨form :: forms, ?_, by rw [Form.stmts, eq, eq', Stmt.bareAll]⟩
      simpa [Stmt.texts] using ReadAs.nil.next (reads.append reads' (Stmt.ends_texts rest))

theorem FunctionDecl.told (decl : FunctionDecl) (legible : (Node.function decl).Legible) :
    decl.Told := by
  obtain ⟨id, name, params, body⟩ := decl
  obtain ⟨forms, reads, eq⟩ :=
    Stmt.toldAll body fun stmt member => legible.part (List.mem_map_of_mem member)
  obtain ⟨reads', read, -⟩ := legible.name List.mem_cons_self
  have param {param : Token} (member : param ∈ params) :=
    legible.name (List.mem_map_of_mem (List.mem_cons_of_mem name member))
  have listed := (ReadAs.names fun name member => (param member).1).group
  refine ⟨.word name.lexeme :: .group (params.map fun param => .word param.lexeme) :: forms, ?_,
    fun head clean => ?_⟩
  · simpa [Form.decl, Form.name, read, eq, FunctionDecl.bare] using fun _ member => (param member).2.1
  · simpa [FunctionDecl.text] using ((reads'.append listed (by simp [Bracketing.Ends])).append reads
      (Stmt.ends_texts body)).node _ clean

theorem FunctionDecl.toldAll (decls : List FunctionDecl)
    (legible : ∀ decl ∈ decls, (Node.function decl).Legible) : FunctionDecl.ToldAll decls := by
  match decls with
  | [] => exact ⟨[], .nil, rfl, List.not_mem_nil⟩
  | first :: rest =>
      obtain ⟨forms, eq, reads⟩ := first.told (legible first List.mem_cons_self)
      obtain ⟨others, reads', eq', apart⟩ :=
        FunctionDecl.toldAll rest fun decl member => legible decl (List.mem_cons_of_mem _ member)
      refine ⟨.group (.word "method" :: forms) :: others, ?_,
        by rw [Form.decls, eq, eq', FunctionDecl.bareAll], by simp [apart]⟩
      simpa [FunctionDecl.methodTexts] using ReadAs.nil.next
        ((reads "method" (by decide)).append reads' (FunctionDecl.ends_methodTexts rest))
end

/-- Programs that are read from sources, with no string and only finite numbers in them, have the same
text if and only if they are the same up to identities and lines; so have lone expressions. The text
of a program has those of its statements one after the other. It makes no difference whether the
readings have found faults. -/
theorem text_determines_tree (source source' : String) (supply supply' : Supply) :
    (let stmts := (Parse.program (Token.ofSource source) supply).tree
      let stmts' := (Parse.program (Token.ofSource source') supply').tree
      (∀ stmt ∈ stmts ++ stmts', (Node.stmt stmt).Printable) →
        (Stmt.texts stmts = Stmt.texts stmts' ↔ Stmt.bareAll stmts = Stmt.bareAll stmts')) ∧
    ∀ expr ∈ (Parse.expression (Token.ofSource source) supply).tree,
      ∀ expr' ∈ (Parse.expression (Token.ofSource source') supply').tree,
        (Node.expr expr).Printable → (Node.expr expr').Printable →
          (expr.text = expr'.text ↔ expr.bare = expr'.bare) := by
  have stand (source : String) : ∀ token ∈ Parse.words (Token.ofSource source), token.Stands :=
    fun _ => Token.stands_of_mem_words
  refine ⟨fun printable => ⟨fun same => ?_, fun same => ?_⟩,
    fun expr found expr' found' printable printable' => ⟨fun same => ?_, fun same => ?_⟩⟩
  · obtain ⟨printable, printable'⟩ := List.forall_mem_append.mp printable
    obtain ⟨forms, reads, eq⟩ := Stmt.toldAll _ fun stmt member =>
      (Parse.program_written (stand source) supply stmt member).legible (printable stmt member)
    obtain ⟨forms', reads', eq'⟩ := Stmt.toldAll _ fun stmt member =>
      (Parse.program_written (stand source') supply' stmt member).legible (printable' stmt member)
    rw [← eq, reads.unique (same ▸ reads'), eq']
  · rw [← Stmt.texts_bareAll, same, Stmt.texts_bareAll]
  · obtain ⟨form, reads, eq⟩ :=
      expr.told ((Parse.expression_written (stand source) supply expr found).legible printable)
    obtain ⟨form', reads', eq'⟩ :=
      expr'.told ((Parse.expression_written (stand source') supply' expr' found').legible printable')
    rw [← eq, List.singleton_inj.mp (reads.unique (same ▸ reads')), eq']
  · rw [← Expr.text_bare, same, Expr.text_bare]

/-- The tree of `-x - 1`, with the operator of the difference on this line. -/
def lessOne (id : ExprId) (line : Nat) : Expr :=
  .binary (.unary ⟨.minus, "-", none, 1⟩ (.var id ⟨.identifier, "x", none, 1⟩))
    ⟨.minus, "-", none, line⟩ (.literal (.number ⟨0x3ff0000000000000⟩))

theorem printable_lessOne (id : ExprId) (line : Nat) : (Node.expr (lessOne id line)).Printable := by
  have leaf {expr : Expr} (here : (Node.expr expr).PrintableHere) (whole : expr.parts = []) :
      (Node.expr expr).Printable :=
    Node.everywhere_iff.mpr ⟨here, by simp [Node.parts, whole]⟩
  refine Node.everywhere_iff.mpr
    ⟨trivial, List.forall_mem_cons.mpr ⟨?_, List.forall_mem_singleton.mpr ?_⟩⟩
  · exact Node.everywhere_iff.mpr ⟨trivial, List.forall_mem_singleton.mpr (leaf trivial rfl)⟩
  · exact leaf (show Number.isFinite _ by decide) rfl

/-- Two layouts of a program and of its expression. -/
theorem text_determines_tree_of_layouts :
    let printed (id : ExprId) (line : Nat) : List Stmt :=
      [.print ⟨.printWord, "print", none, 1⟩ (lessOne id line)]
    (Parse.program (Token.ofSource "print -x - 1;") ⟨0, 0⟩).tree = printed 0 1 ∧
      (Parse.program (Token.ofSource "print -x // y\n- 1.0;") ⟨7, 0⟩).tree = printed 7 2 ∧
      Stmt.bareAll (printed 0 1) = Stmt.bareAll (printed 7 2) ∧
      (Parse.expression (Token.ofSource "-x - 1") ⟨0, 0⟩).tree = some (lessOne 0 1) ∧
      (Parse.expression (Token.ofSource "-x // y\n- 1.0") ⟨7, 0⟩).tree = some (lessOne 7 2) ∧
      (lessOne 0 1).bare = (lessOne 7 2).bare := by
  intro printed
  let words (line : Nat) (number : String) : List Token :=
    [⟨.minus, "-", none, 1⟩, ⟨.identifier, "x", none, 1⟩, ⟨.minus, "-", none, line⟩,
      ⟨.number, number, some (.number ⟨0x3ff0000000000000⟩), line⟩]
  have scanned : Token.ofSource "print -x - 1;" =
      ⟨.printWord, "print", none, 1⟩ :: words 1 "1" ++ [⟨.semicolon, ";", none, 1⟩, .ending 1] := by
    decide +kernel
  have scanned' : Token.ofSource "print -x // y\n- 1.0;" =
      ⟨.printWord, "print", none, 1⟩ :: words 2 "1.0" ++ [⟨.semicolon, ";", none, 2⟩, .ending 2] := by
    decide +kernel
  have lone : Token.ofSource "-x - 1" = words 1 "1" ++ [.ending 1] := by decide +kernel
  have lone' : Token.ofSource "-x // y\n- 1.0" = words 2 "1.0" ++ [.ending 2] := by decide +kernel
  have read : (Parse.program (Token.ofSource "print -x - 1;") ⟨0, 0⟩).tree = printed 0 1 := by
    rw [scanned]
    cbv
  have read' : (Parse.program (Token.ofSource "print -x // y\n- 1.0;") ⟨7, 0⟩).tree = printed 7 2 := by
    rw [scanned']
    cbv
  have found : (Parse.expression (Token.ofSource "-x - 1") ⟨0, 0⟩).tree = some (lessOne 0 1) := by
    rw [lone]
    cbv
  have found' : (Parse.expression (Token.ofSource "-x // y\n- 1.0") ⟨7, 0⟩).tree =
      some (lessOne 7 2) := by
    rw [lone']
    cbv
  have printable : ∀ stmt ∈ printed 0 1 ++ printed 7 2, (Node.stmt stmt).Printable := by
    have each (id : ExprId) (line : Nat) : ∀ stmt ∈ printed id line, (Node.stmt stmt).Printable :=
      List.forall_mem_singleton.mpr (Node.everywhere_iff.mpr
        ⟨trivial, List.forall_mem_singleton.mpr (printable_lessOne id line)⟩)
    exact List.forall_mem_append.mpr ⟨each 0 1, each 7 2⟩
  have programs := (text_determines_tree "print -x - 1;" "print -x // y\n- 1.0;" ⟨0, 0⟩ ⟨7, 0⟩).1
  have exprs := (text_determines_tree "-x - 1" "-x // y\n- 1.0" ⟨0, 0⟩ ⟨7, 0⟩).2
  rw [read, read'] at programs
  exact ⟨read, read', (programs printable).mp rfl, found, found',
    (exprs _ found _ found' (printable_lessOne 0 1) (printable_lessOne 7 2)).mp rfl⟩

end Lox
