import Lox.Proofs.Scoping.Visits

/-!
The pieces of a program. A node is an expression, a statement, a function or a method; its parts are
the nodes directly below it. `Contains` says where a node occurs: which nodes are around it, from
the innermost outwards.
-/

namespace Lox

theorem Expr.sizeOf_lt_of_mem_parts {expr part : Expr} (member : part ∈ expr.parts) :
    sizeOf part < sizeOf expr := by
  cases expr with
  | call callee paren arguments =>
      rcases List.mem_cons.mp member with rfl | member
      · simp only [call.sizeOf_spec]
        omega
      · have smaller := List.sizeOf_lt_of_mem member
        simp only [call.sizeOf_spec]
        omega
  | literal | var | this | super => simp [parts] at member
  | _ =>
      simp only [parts, List.mem_cons, List.not_mem_nil, or_false] at member
      rcases member with rfl | rfl | rfl <;> simp <;> omega

theorem Expr.induction_parts {property : Expr → Prop}
    (step : ∀ expr, (∀ part ∈ expr.parts, property part) → property expr) (expr : Expr) :
    property expr :=
  step expr fun part member =>
    have := Expr.sizeOf_lt_of_mem_parts member
    Expr.induction_parts step part
termination_by sizeOf expr

inductive Node
  | expr (expr : Expr)
  | stmt (stmt : Stmt)
  | function (decl : FunctionDecl)
  | method (decl : FunctionDecl)

namespace Node

def parts : Node → List Node
  | expr whole => whole.parts.map expr
  | stmt (.expression value) | stmt (.print _ value) => [expr value]
  | stmt (.varDecl _ initializer) => initializer.toList.map expr
  | stmt (.block body) => body.map stmt
  | stmt (.ifThen condition thenBranch) => [expr condition, stmt thenBranch]
  | stmt (.ifElse condition thenBranch elseBranch) =>
      [expr condition, stmt thenBranch, stmt elseBranch]
  | stmt (.whileLoop condition body) => [expr condition, stmt body]
  | stmt (.functionDecl decl) => [function decl]
  | stmt (.returnStmt _ value) => value.toList.map expr
  | stmt (.classDecl _ superclass methods) => superclass.toList.map expr ++ methods.map method
  | function decl | method decl => decl.body.map stmt

/-- In `top`, which stands inside `around`, another node occurs inside `path`. -/
inductive Contains (top : Node) (around : List Node) : Node → List Node → Prop
  | here : Contains top around top around
  | part {parent child : Node} {path : List Node} :
      Contains top around parent path → child ∈ parent.parts →
      Contains top around child (parent :: path)

theorem Contains.trans {top middle node : Node} {around path path' : List Node}
    (outer : top.Contains around middle path) (inner : middle.Contains path node path') :
    top.Contains around node path' := by
  induction inner with
  | here => exact outer
  | part _ direct ih => exact .part ih direct

theorem Contains.whole {top child node : Node} {around path : List Node}
    (below : child.Contains (top :: around) node path) (member : child ∈ top.parts) :
    top.Contains around node path :=
  (Contains.part .here member).trans below

theorem Contains.append {top node : Node} {around path : List Node}
    (below : top.Contains around node path) (outer : List Node) :
    top.Contains (around ++ outer) node (path ++ outer) := by
  induction below with
  | here => exact .here
  | part _ direct ih => exact .part ih direct

theorem Contains.elsewhere {top node : Node} {around path : List Node}
    (below : top.Contains around node path) (other : List Node) :
    ∃ path', top.Contains other node path' := by
  induction below with
  | here => exact ⟨other, .here⟩
  | part _ direct ih =>
      obtain ⟨path', found⟩ := ih
      exact ⟨_, .part found direct⟩

theorem forall_contains {top : Node} {around : List Node} {property : Node → List Node → Prop} :
    (∀ node path, top.Contains around node path → property node path) ↔
      property top around ∧ ∀ child ∈ top.parts, ∀ node path,
        child.Contains (top :: around) node path → property node path := by
  constructor
  · intro all
    exact ⟨all top around .here, fun child member node path below =>
      all node path (below.whole member)⟩
  · rintro ⟨first, rest⟩ node path contained
    -- the first step down from the top leads into one of its parts
    have inside : (node = top ∧ path = around) ∨
        ∃ child ∈ top.parts, child.Contains (top :: around) node path := by
      induction contained with
      | here => exact .inl ⟨rfl, rfl⟩
      | @part parent direct path _ member ih =>
          rcases ih with ⟨rfl, rfl⟩ | ⟨child, listed, below⟩
          · exact .inr ⟨direct, member, .here⟩
          · exact .inr ⟨child, listed, .part below member⟩
    rcases inside with ⟨rfl, rfl⟩ | ⟨child, listed, below⟩
    · exact first
    · exact rest child listed node path below

def Everywhere (property : Node → Prop) (top : Node) : Prop :=
  ∀ node path, top.Contains [] node path → property node

theorem everywhere_iff {property : Node → Prop} {top : Node} :
    top.Everywhere property ↔
      property top ∧ ∀ child ∈ top.parts, child.Everywhere property := by
  unfold Everywhere
  rw [forall_contains]
  refine and_congr_right fun _ => forall₂_congr fun child _ => ?_
  -- where the part stands makes no difference to what is in it
  constructor
  · intro all node path contained
    obtain ⟨path', found⟩ := contained.elsewhere [top]
    exact all node path' found
  · intro all node path contained
    obtain ⟨path', found⟩ := contained.elsewhere []
    exact all node path' found

theorem Everywhere.part {property : Node → Prop} {node child : Node}
    (everywhere : node.Everywhere property) (member : child ∈ node.parts) :
    child.Everywhere property :=
  (everywhere_iff.mp everywhere).2 child member

def IsLoop (node : Node) : Prop := ∃ condition body, node = stmt (.whileLoop condition body)

/-- No loop occurs in the node, not even in a function that it declares. -/
def LoopFree (top : Node) : Prop := top.Everywhere fun node => ¬ node.IsLoop

theorem loopFree_iff {top : Node} :
    top.LoopFree ↔ ¬ top.IsLoop ∧ ∀ child ∈ top.parts, child.LoopFree :=
  everywhere_iff

theorem loopFree_expr (whole : Expr) : (expr whole).LoopFree := by
  induction whole using Expr.induction_parts with
  | step whole ih =>
      rw [loopFree_iff]
      exact ⟨by simp [IsLoop], by simpa [parts] using ih⟩

end Node

end Lox
