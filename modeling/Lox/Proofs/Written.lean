import Lox.Proofs.Node
import Lox.Proofs.Parse.Likeness

/-!
How the trees of a reading are written. Each token that a tree keeps is one of those it was read from,
and is of a kind that the grammar has at its place, whether or not the reading has found a fault.
-/

namespace Lox

namespace Node

/-- The tokens that a node keeps, each with the kinds that the grammar has there. -/
def marks : Node → List (Token × List TokenKind)
  | expr (.unary operator _) => [(operator, [.bang, .minus])]
  | expr (.binary _ operator _) =>
      [(operator, [.bangEqual, .equalEqual, .greater, .greaterEqual, .less, .lessEqual, .minus, .plus,
        .slash, .star])]
  | expr (.logical _ operator _) => [(operator, [.andWord, .orWord])]
  | expr (.comma _ operator _) => [(operator, [.comma])]
  | expr (.var _ name) | expr (.assign _ name _) | expr (.get _ name) | expr (.set _ name _) =>
      [(name, [.identifier])]
  | expr (.call _ paren _) => [(paren, [.rightParen])]
  | expr (.this _ keyword) => [(keyword, [.thisWord])]
  | expr (.super _ keyword selected) => [(keyword, [.superWord]), (selected, [.identifier])]
  | expr (.literal _) | expr (.grouping _) | expr (.conditional _ _ _) => []
  | stmt (.print keyword _) => [(keyword, [.printWord])]
  | stmt (.returnStmt keyword _) => [(keyword, [.returnWord])]
  | stmt (.varDecl name _) | stmt (.classDecl name _ _) => [(name, [.identifier])]
  | stmt (.functionDecl decl) => [(decl.name, [.identifier])]
  | stmt _ => []
  | function decl | method decl => (decl.name :: decl.params).map fun name => (name, [.identifier])

variable {known : Token → Prop} {node child : Node}

def WrittenHere (known : Token → Prop) (node : Node) : Prop :=
  ∀ mark ∈ node.marks, known mark.1 ∧ mark.1.kind ∈ mark.2

def Written (known : Token → Prop) (node : Node) : Prop := node.Everywhere (WrittenHere known)

theorem written_iff :
    node.Written known ↔ node.WrittenHere known ∧ ∀ child ∈ node.parts, child.Written known :=
  everywhere_iff

theorem Written.here (written : node.Written known) : node.WrittenHere known :=
  (written_iff.mp written).1

theorem Written.part (written : node.Written known) (member : child ∈ node.parts) :
    child.Written known :=
  (written_iff.mp written).2 child member

theorem written_of_parts (bare : node.marks = [])
    (parts : ∀ child ∈ node.parts, child.Written known) : node.Written known :=
  written_iff.mpr ⟨by simp [WrittenHere, bare], parts⟩

theorem written_of_mark {token : Token} {kinds : List TokenKind} (mark : node.marks = [(token, kinds)])
    (knows : known token) (kind : token.kind ∈ kinds)
    (parts : ∀ child ∈ node.parts, child.Written known) : node.Written known :=
  written_iff.mpr ⟨by simp [WrittenHere, mark, knows, kind], parts⟩

theorem written_method {decl : FunctionDecl} :
    (method decl).Written known ↔ (function decl).Written known := by
  rw [written_iff, written_iff]
  rfl

end Node

section Parts

variable {known : Token → Prop}

theorem written_block {body : List Stmt} (written : ∀ stmt ∈ body, (Node.stmt stmt).Written known) :
    (Node.stmt (.block body)).Written known :=
  Node.written_of_parts rfl (by simpa [Node.parts] using written)

theorem written_forLoop {initializer : Option Stmt} {condition increment : Option Expr}
    {body : Stmt} (initialized : ∀ first ∈ initializer, (Node.stmt first).Written known)
    (conditioned : ∀ value ∈ condition, (Node.expr value).Written known)
    (incremented : ∀ value ∈ increment, (Node.expr value).Written known)
    (executed : (Node.stmt body).Written known) :
    (Node.stmt (.forLoop initializer condition increment body)).Written known := by
  have tested : (Node.expr (condition.getD (.literal (.bool true)))).Written known := by
    cases condition with
    | none => exact Node.written_of_parts rfl (List.forall_mem_nil _)
    | some value => exact conditioned value rfl
  have looped {round : Stmt} (written : (Node.stmt round).Written known) :
      (Node.stmt (.whileLoop (condition.getD (.literal (.bool true))) round)).Written known :=
    Node.written_of_parts rfl (by simp [Node.parts, tested, written])
  have stepped {step : Expr} (member : step ∈ increment) :
      (Node.stmt (.block [body, .expression step])).Written known := by
    have last : (Node.stmt (.expression step)).Written known :=
      Node.written_of_parts rfl (by simpa [Node.parts] using incremented step member)
    exact written_block (by simp [executed, last])
  have started {first loop : Stmt} (member : first ∈ initializer)
      (written : (Node.stmt loop).Written known) :
      (Node.stmt (.block [first, loop])).Written known :=
    written_block (by simp [initialized first member, written])
  cases initializer with
  | none =>
      cases increment with
      | none => exact looped executed
      | some step => exact looped (stepped rfl)
  | some first =>
      cases increment with
      | none => exact started rfl (looped executed)
      | some step => exact started rfl (looped (stepped rfl))

theorem written_combine {level : Level} {left right : Expr} {operator : Token}
    (knows : known operator) (accepted : level.accepts operator.kind = true)
    (written : (Node.expr left).Written known) (written' : (Node.expr right).Written known) :
    (Node.expr (level.combine left operator right)).Written known := by
  have parts : ∀ child ∈ (Node.expr (level.combine left operator right)).parts,
      child.Written known := by
    cases level <;> simp [Level.combine, Node.parts, Expr.parts, written, written']
  refine Node.written_iff.mpr ⟨?_, parts⟩
  cases level <;> simp only [Level.accepts, Bool.or_eq_true, decide_eq_true_eq] at accepted <;>
    simp [Node.WrittenHere, Level.combine, Node.marks, knows, accepted] <;> tauto

end Parts

def TreeSort.Written (known : Token → Prop) : (sort : TreeSort) → sort.Tree → Prop
  | expr, tree => (Node.expr tree).Written known
  | exprs, trees => ∀ tree ∈ trees, (Node.expr tree).Written known
  | stmt, tree => (Node.stmt tree).Written known
  | stmts, trees => ∀ tree ∈ trees, (Node.stmt tree).Written known
  | decl, tree => (Node.function tree).Written known
  | decls, trees => ∀ tree ∈ trees, (Node.function tree).Written known

namespace Likeness

variable {like : Likeness} {known : Token → Prop}

theorem known_of_same (knows : ∀ {token token'}, like.Tokens token token' → known token)
    {tokens tokens' : List Token} (same : like.Same tokens tokens') :
    ∀ token ∈ tokens, known token := by
  induction same with
  | nil => exact List.forall_mem_nil _
  | cons token _ ih => exact List.forall_mem_cons.mpr ⟨knows token, ih⟩

theorem Trees.written (knows : ∀ {token token'}, like.Tokens token token' → known token)
    {sort : TreeSort} {start after : Standing} {tree tree' : sort.Tree}
    (trees : like.Trees sort start after tree tree') : sort.Written known tree := by
  induction trees with
  | skipped _ _ _ _ ih | unassigned _ _ _ _ ih => exact ih
  | noExpr | noStmt | noDecl => exact List.forall_mem_nil _
  | moreExprs _ _ ih ih' | moreStmts _ _ ih ih' | moreDecls _ _ ih ih' =>
      exact List.forall_mem_cons.mpr ⟨ih, ih'⟩
  | constant | literal => exact Node.written_of_parts rfl (List.forall_mem_nil _)
  | var token kind | this token kind =>
      exact Node.written_of_mark rfl (knows token) (by simp [kind]) (List.forall_mem_nil _)
  | super token kind method isName =>
      exact Node.written_iff.mpr
        ⟨by simp [Node.WrittenHere, Node.marks, kind, isName, knows token, knows method],
          List.forall_mem_nil _⟩
  | grouping _ ih | expression _ ih =>
      exact Node.written_of_parts rfl (List.forall_mem_singleton.mpr ih)
  | unary token kind _ ih =>
      exact Node.written_of_mark rfl (knows token) (by simpa using kind)
        (List.forall_mem_singleton.mpr ih)
  | print token kind _ ih | get _ token kind ih =>
      exact Node.written_of_mark rfl (knows token) (by simp [kind]) (List.forall_mem_singleton.mpr ih)
  | combine _ token accepted _ ih ih' => exact written_combine (knows token) accepted ih ih'
  | conditional _ _ _ ih ih' ih'' | ifElse _ _ _ ih ih' ih'' =>
      refine Node.written_of_parts rfl (List.forall_mem_cons.mpr ⟨ih, ?_⟩)
      exact List.forall_mem_cons.mpr ⟨ih', List.forall_mem_singleton.mpr ih''⟩
  | ifThen _ _ ih ih' | whileLoop _ _ ih ih' =>
      exact Node.written_of_parts rfl
        (List.forall_mem_cons.mpr ⟨ih, List.forall_mem_singleton.mpr ih'⟩)
  | assign _ _ ih ih' =>
      -- the name of the target is that of the variable it was read as
      have target := Node.Written.here ih
      exact Node.written_iff.mpr ⟨target, List.forall_mem_singleton.mpr ih'⟩
  | set _ _ ih ih' =>
      have object : (Node.expr _).Written known := Node.Written.part ih List.mem_cons_self
      have target := Node.Written.here ih
      exact Node.written_iff.mpr
        ⟨target, List.forall_mem_cons.mpr ⟨object, List.forall_mem_singleton.mpr ih'⟩⟩
  | call _ token kind _ ih ih' =>
      exact Node.written_of_mark rfl (knows token) (by simp [kind])
        (List.forall_mem_cons.mpr ⟨ih, List.forall_mem_map.mpr ih'⟩)
  | varDecl token kind _ ih | returnStmt token kind _ ih =>
      exact Node.written_of_mark rfl (knows token) (by simp [kind]) (List.forall_mem_map.mpr ih)
  | block _ ih => exact written_block ih
  | forLoop _ _ _ _ ih ih' ih'' ih''' =>
      exact written_forLoop (fun _ found => ih _ (Option.mem_toList.mpr found))
        (fun _ found => ih' _ (Option.mem_toList.mpr found))
        (fun _ found => ih'' _ (Option.mem_toList.mpr found)) ih'''
  | functionDecl _ ih =>
      obtain ⟨knows, kind⟩ := Node.Written.here ih _ List.mem_cons_self
      exact Node.written_of_mark rfl knows kind (List.forall_mem_singleton.mpr ih)
  | classDecl token kind _ _ ih ih' =>
      refine Node.written_of_mark rfl (knows token) (by simp [kind]) ?_
      refine List.forall_mem_append.mpr ⟨List.forall_mem_map.mpr ih, List.forall_mem_map.mpr ?_⟩
      exact fun decl member => Node.written_method.mpr (ih' decl member)
  | function token kind params kinds _ ih =>
      refine Node.written_iff.mpr ⟨?_, List.forall_mem_map.mpr ih⟩
      refine List.forall_mem_map.mpr (List.forall_mem_cons.mpr ⟨⟨knows token, by simp [kind]⟩, ?_⟩)
      exact fun param member => ⟨known_of_same knows params param member, by simp [kinds param member]⟩

end Likeness

namespace Parse

variable {known : Token → Prop}

theorem program_written {tokens : List Token} (all : ∀ token ∈ words tokens, known token)
    (supply : Supply) : ∀ stmt ∈ (program tokens supply).tree, (Node.stmt stmt).Written known := by
  have same : (Likeness.itself known {}).Same (words tokens) (words tokens) := Likeness.same_itself all
  obtain ⟨_, -, -, -, -, trees⟩ := @Likeness.declarations _ ⟨supply, False⟩ _ _ same
  exact trees.written And.right

theorem expression_written {tokens : List Token} (all : ∀ token ∈ words tokens, known token)
    (supply : Supply) : ∀ expr ∈ (expression tokens supply).tree, (Node.expr expr).Written known := by
  have same : (Likeness.itself known {}).Same (words tokens) (words tokens) := Likeness.same_itself all
  obtain ⟨_, -, -, -, -, trees⟩ := @Likeness.lone _ ⟨supply, False⟩ _ _ same
  exact fun expr found => trees.written And.right expr (Option.mem_toList.mpr found)

end Parse

end Lox
