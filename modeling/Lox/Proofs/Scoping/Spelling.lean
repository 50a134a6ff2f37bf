import Lox.Proofs.Scoping.Parsed
import Lox.Proofs.Written

/-!
How the names in a program are spelled. In a tree of the grammar no variable, parameter, function or
class is called `this` or `super`, and these keywords are spelled as they are.
-/

namespace Lox

/-- The name is not one of those under which the receiver and the superclass of a method are kept.
-/
structure Nameable (name : String) : Prop where
  ne_this : name ≠ "this"
  ne_super : name ≠ "super"

theorem Token.Plain.nameable {name : Token} (plain : name.Plain)
    (isName : name.kind = .identifier) :
    Nameable name.lexeme := ⟨plain.ne_word isName (by decide), plain.ne_word isName (by decide)⟩

namespace Node

def names : Node → List Token
  | expr (.var _ name) | expr (.assign _ name _) | stmt (.varDecl name _)
  | stmt (.classDecl name _ _) => [name]
  | stmt (.functionDecl decl) => [decl.name]
  | function decl | method decl => decl.params
  | _ => []

/-- The keyword that stands for an object or for a class, and its text. -/
def keyword? : Node → Option (Token × String)
  | expr (.this _ keyword) => some (keyword, "this")
  | expr (.super _ keyword _) => some (keyword, "super")
  | _ => none

structure SpelledHere (node : Node) : Prop where
  names : ∀ name ∈ node.names, Nameable name.lexeme
  keyword : ∀ keyword text, node.keyword? = some (keyword, text) → keyword.lexeme = text

def Spelled (node : Node) : Prop := node.Everywhere SpelledHere

theorem spelled_iff {node : Node} :
    node.Spelled ↔ node.SpelledHere ∧ ∀ child ∈ node.parts, child.Spelled := everywhere_iff

theorem Spelled.here {node : Node} (spelled : node.Spelled) : node.SpelledHere :=
  (spelled_iff.mp spelled).1

theorem Spelled.part {node child : Node} (spelled : node.Spelled) (member : child ∈ node.parts) :
    child.Spelled :=
  (spelled_iff.mp spelled).2 child member

theorem spelled_method {decl : FunctionDecl} :
    (method decl).Spelled ↔ (function decl).Spelled := by
  rw [spelled_iff, spelled_iff]
  exact and_congr_left' ⟨fun here => ⟨here.names, nofun⟩, fun here => ⟨here.names, nofun⟩⟩

theorem Spelled.declared {whole : Stmt} (spelled : (stmt whole).Spelled) :
    ∀ name ∈ whole.declared?, Nameable name.lexeme := by
  intro name declared
  refine spelled.here.names name ?_
  cases whole <;> cases declared <;> exact List.mem_cons_self

theorem mem_marks_of_mem_names {node : Node} {name : Token} (member : name ∈ node.names) :
    (name, [.identifier]) ∈ node.marks := by
  fun_cases names node <;> simp_all [names, marks]

theorem WrittenHere.spelled {node : Node} (written : node.WrittenHere Token.Plain) :
    node.SpelledHere where
  names := by
    intro name member
    obtain ⟨plain, kind⟩ := written _ (mem_marks_of_mem_names member)
    exact plain.nameable (List.mem_singleton.mp kind)
  keyword := by
    intro keyword text found
    fun_cases keyword? node with
    | case1 id used =>
        cases found
        obtain ⟨plain, kind⟩ := written _ List.mem_cons_self
        exact plain.eq_word (.inl (Prod.ext rfl (List.mem_singleton.mp kind)))
    | case2 id used selected =>
        cases found
        obtain ⟨plain, kind⟩ := written _ List.mem_cons_self
        exact plain.eq_word (.inr (Prod.ext rfl (List.mem_singleton.mp kind)))
    | case3 => simp_all [keyword?]

theorem Written.spelled {node : Node} (written : node.Written Token.Plain) : node.Spelled :=
  fun inner path contained => (written inner path contained).spelled

end Node

end Lox
