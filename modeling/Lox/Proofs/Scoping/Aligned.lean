import Lox.Proofs.Run.Idle
import Lox.Proofs.Scoping.Shift
import Lox.Proofs.Scoping.Spelling

/-!
Idle scopes and the resolver. A tree is resolved twice, under other identities the second time and with
no regard to some scopes that declare nothing. The two depths of each name then lead to the same scope,
so the two trees correspond.
-/

namespace Lox

/-- The open scopes without the idle ones, which have no names. No scope of `super` is next to an idle
one. -/
inductive Aligned : Mask → List Scope → List Scope → Prop
  | level (scopes : List Scope) : Aligned [] scopes scopes
  | shared {mask scopes scopes'} (names : Scope) : Aligned mask scopes scopes' →
      Aligned (false :: mask) (names :: scopes) (names :: scopes')
  | idle {mask scopes scopes'} : (∀ names ∈ scopes.head?, "super" ∉ names) →
      Aligned mask scopes scopes' → Aligned (true :: mask) ([] :: scopes) scopes'

namespace Aligned

variable {mask : Mask} {scopes scopes' : List Scope}

theorem passes (aligned : Aligned mask scopes scopes') (name : String) :
    Option.Rel (Passes mask) (scopes.findIdx? (·.contains name))
      (scopes'.findIdx? (·.contains name)) := by
  induction aligned with
  | level scopes => exact relRefl .level _
  | shared names _ ih =>
      rw [List.findIdx?_cons, List.findIdx?_cons]
      split
      · exact .some (.here _)
      · exact relMap (fun _ _ passes => .past passes) ih
  | @idle _ scopes scopes' _ _ ih =>
      rw [List.findIdx?_cons, if_neg (by simp)]
      rcases relCases ih with ⟨none, none'⟩ | ⟨depth, depth', found, found', passes⟩
      · rw [none, none']
        exact .none
      · rw [found, found']
        exact .some (.idle passes)

theorem passesInside (aligned : Aligned mask scopes scopes') :
    Option.Rel (PassesInside mask) (scopes.findIdx? (·.contains "super"))
      (scopes'.findIdx? (·.contains "super")) := by
  induction aligned with
  | level scopes => exact relRefl (.level) _
  | @shared _ scopes scopes' names aligned ih =>
      have passes := aligned.passes "super"
      rw [List.findIdx?_cons, List.findIdx?_cons]
      split
      · exact .some .innermost
      · rcases relCases ih with ⟨none, none'⟩ | ⟨depth, depth', found, found', inside⟩
        · rw [none, none']
          exact .none
        · rw [found, found'] at passes ⊢
          cases passes with
          | some passes =>
              refine .some (.within (.past passes) ?_)
              cases inside with
              | innermost => exact .here _
              | within _ inner => exact .past inner
  | @idle _ scopes scopes' apart _ ih =>
      rw [List.findIdx?_cons, if_neg (by simp)]
      rcases relCases ih with ⟨none, none'⟩ | ⟨depth, depth', found, found', inside⟩
      · rw [none, none']
        exact .none
      · rw [found, found']
        cases inside with
        | within outer inner => exact .some (.within (.idle outer) (.idle inner))
        | innermost =>
            -- the innermost scope around the idle one is not that of `super`
            cases scopes with
            | nil => cases found
            | cons names outer =>
                rw [List.findIdx?_cons] at found
                split at found
                · rename_i declared
                  exact absurd (by simpa using declared) (apart names rfl)
                · simp at found

theorem declare (aligned : Aligned mask scopes scopes') (isOpen : mask.Open) (name : Token) :
    Aligned mask (Resolution.declare scopes name).2 (Resolution.declare scopes' name).2 := by
  cases aligned with
  | level scopes => exact .level _
  | shared names outer =>
      simp only [Resolution.declare]
      split
      · exact .shared names outer
      · exact .shared _ outer
  | idle => exact absurd rfl isOpen

theorem declareAll (aligned : Aligned mask scopes scopes') (isOpen : mask.Open)
    (names : List Token) :
    Aligned mask (Resolution.declareAll scopes names).2 (Resolution.declareAll scopes' names).2 := by
  induction names generalizing scopes scopes' with
  | nil => exact aligned
  | cons name names ih => exact ih (aligned.declare isOpen name)

theorem after {site site' : Site} (aligned : Aligned mask site.scopes site'.scopes) {stmt : Stmt}
    (formed : stmt.Formed) (bare : ¬ mask.Open → stmt.declared? = none) :
    Aligned mask (site.after stmt).scopes (site'.after stmt).scopes := by
  have scopes := stmt.resolve_scopes site.around site.scopes formed
  have scopes' := stmt.resolve_scopes site'.around site'.scopes formed
  simp only [Site.after, scopes, scopes']
  cases declared : stmt.declared? with
  | none => exact aligned
  | some name =>
      refine aligned.declare ?_ name
      by_contra closed
      simp [bare closed] at declared

theorem methods {site site' : Site} (aligned : Aligned mask site.scopes site'.scopes)
    (isSubclass : Bool) (methods methods' : List FunctionDecl) :
    Aligned (mask.methods isSubclass) (site.methods isSubclass methods).scopes
      (site'.methods isSubclass methods').scopes := by
  cases isSubclass with
  | false => exact .shared _ aligned
  | true => exact .shared _ (.shared _ aligned)

end Aligned

def Knows (depths : Std.TreeMap ExprId Nat) (visits : List Visit) : Prop :=
  ∀ visit ∈ visits, depths[visit.id]? = visit.depth?

theorem knows_append {depths : Std.TreeMap ExprId Nat} {first second : List Visit} :
    Knows depths (first ++ second) ↔ Knows depths first ∧ Knows depths second :=
  List.forall_mem_append

theorem knows_visits {depths : Std.TreeMap ExprId Nat} {site : Site} {uses : List Use} :
    Knows depths (site.visits uses) ↔
      ∀ use ∈ uses, depths[use.id]? = site.scopes.findIdx? (·.contains use.name.lexeme) := by
  simp only [Knows, Site.visits, List.forall_mem_map]
  rfl

def Use.shift (offset : Supply) (use : Use) : Use := { use with id := use.id + offset.nextExpr }

section Uses

open Grammar (map_use_visits)

variable {offset : Supply}

mutual
theorem Expr.uses_shift (expr : Expr) :
    (expr.shift offset).uses = expr.uses.map (Use.shift offset) := by
  match expr with
  | .literal _ | .var _ _ | .this _ _ | .super _ _ _ => rfl
  | .grouping inner | .unary _ inner | .get inner _ =>
      rw [Expr.shift, Expr.uses, Expr.uses, Expr.uses_shift inner]
  | .binary left _ right | .logical left _ right | .comma left _ right | .set left _ right =>
      rw [Expr.shift, Expr.uses, Expr.uses, List.map_append, Expr.uses_shift left,
        Expr.uses_shift right]
  | .conditional condition thenBranch elseBranch =>
      rw [Expr.shift, Expr.uses, Expr.uses, List.map_append, List.map_append,
        Expr.uses_shift condition, Expr.uses_shift thenBranch, Expr.uses_shift elseBranch]
  | .assign _ _ value =>
      rw [Expr.shift, Expr.uses, Expr.uses, List.map_append, Expr.uses_shift value]
      rfl
  | .call callee _ arguments =>
      rw [Expr.shift, Expr.uses, Expr.uses, List.map_append, Expr.uses_shift callee,
        Expr.usesAll_shift arguments]

theorem Expr.usesAll_shift (exprs : List Expr) :
    Expr.usesAll (Expr.shiftAll offset exprs) = (Expr.usesAll exprs).map (Use.shift offset) := by
  match exprs with
  | [] => rfl
  | first :: rest =>
      rw [Expr.shiftAll, Expr.usesAll, Expr.usesAll, List.map_append, Expr.uses_shift first,
        Expr.usesAll_shift rest]
end

theorem Expr.uses_shift_option (expr : Option Expr) :
    Expr.usesAll (expr.map (Expr.shift offset)).toList =
      (Expr.usesAll expr.toList).map (Use.shift offset) := by
  rw [← Expr.shiftAll_toList, Expr.usesAll_shift]

mutual
theorem Stmt.uses_shift (stmt : Stmt) (site site' : Site) :
    ((stmt.shift offset).visits site').map Visit.use =
      ((stmt.visits site).map Visit.use).map (Use.shift offset) := by
  match stmt with
  | .expression value | .print _ value =>
      simp only [Stmt.shift, Stmt.visits, map_use_visits, value.uses_shift]
  | .varDecl _ value | .returnStmt _ value =>
      simp only [Stmt.shift, Stmt.visits, map_use_visits, Expr.uses_shift_option]
  | .block body => exact Stmt.usesAll_shift body _ _
  | .ifThen condition body | .whileLoop condition body =>
      simp only [Stmt.shift, Stmt.visits, List.map_append, map_use_visits, condition.uses_shift]
      rw [body.uses_shift site]
  | .ifElse condition thenBranch elseBranch =>
      simp only [Stmt.shift, Stmt.visits, List.map_append, map_use_visits, condition.uses_shift]
      rw [thenBranch.uses_shift site, elseBranch.uses_shift (site.after thenBranch)]
  | .functionDecl decl => exact decl.uses_shift _ _
  | .classDecl _ superclass methods =>
      simp only [Stmt.shift, Stmt.visits, List.map_append, map_use_visits, Expr.uses_shift_option]
      rw [FunctionDecl.usesAll_shift methods]

theorem Stmt.usesAll_shift (stmts : List Stmt) (site site' : Site) :
    (Stmt.visitsAll site' (Stmt.shiftAll offset stmts)).map Visit.use =
      ((Stmt.visitsAll site stmts).map Visit.use).map (Use.shift offset) := by
  match stmts with
  | [] => rfl
  | first :: rest =>
      simp only [Stmt.shiftAll, Stmt.visitsAll, List.map_append]
      rw [first.uses_shift site, Stmt.usesAll_shift rest (site.after first)]

theorem FunctionDecl.uses_shift (decl : FunctionDecl) (site site' : Site) :
    ((decl.shift offset).visits site').map Visit.use =
      ((decl.visits site).map Visit.use).map (Use.shift offset) := by
  match decl with
  | ⟨_, _, _, body⟩ => exact Stmt.usesAll_shift body _ _

theorem FunctionDecl.usesAll_shift (decls : List FunctionDecl) (site site' : Site) :
    (FunctionDecl.visitsMethods site' (FunctionDecl.shiftAll offset decls)).map Visit.use =
      ((FunctionDecl.visitsMethods site decls).map Visit.use).map (Use.shift offset) := by
  match decls with
  | [] => rfl
  | first :: rest =>
      simp only [FunctionDecl.shiftAll, FunctionDecl.visitsMethods, List.map_append]
      rw [first.uses_shift, FunctionDecl.usesAll_shift rest]
end

end Uses

theorem Node.Spelled.exprPart {expr part : Expr} (spelled : (Node.expr expr).Spelled)
    (member : part ∈ expr.parts) : (Node.expr part).Spelled :=
  spelled.part (List.mem_map_of_mem member)

section Resolved

variable {tables : Tables} {offset : Nat}

structure Use.Resolved (tables : Tables) (offset : Nat)
    (scopes scopes' : List Scope) (use : Use) : Prop where
  first : tables.full[use.id]? = scopes.findIdx? (·.contains use.name.lexeme)
  second : tables.trimmed[use.id + offset]? = scopes'.findIdx? (·.contains use.name.lexeme)

theorem resolved_of_knows {site site' : Site} {uses : List Use}
    (known : Knows tables.full (site.visits uses))
    (known' : Knows tables.trimmed (site'.visits (uses.map (Use.shift ⟨offset, 0⟩)))) :
    ∀ use ∈ uses, use.Resolved tables offset site.scopes site'.scopes := by
  rw [knows_visits] at known known'
  exact fun use member => ⟨known use member, known' _ (List.mem_map_of_mem member)⟩

section Exprs

variable {mask : Mask} {scopes scopes' : List Scope}

theorem Use.Resolved.passes (aligned : Aligned mask scopes scopes') {use : Use}
    (resolved : use.Resolved tables offset scopes scopes') :
    Option.Rel (Passes mask) tables.full[use.id]? tables.trimmed[use.id + offset]? := by
  rw [resolved.first, resolved.second]
  exact aligned.passes _

mutual
theorem Expr.trims_shift (aligned : Aligned mask scopes scopes') (expr : Expr)
    (spelled : (Node.expr expr).Spelled)
    (resolved : ∀ use ∈ expr.uses, use.Resolved tables offset scopes scopes') :
    expr.Trims tables mask (expr.shift ⟨offset, 0⟩) := by
  match expr with
  | .literal value => exact .literal value
  | .grouping inner =>
      exact .grouping
        (Expr.trims_shift aligned inner (spelled.exprPart (by simp [Expr.parts])) resolved)
  | .unary operator operand =>
      exact .unary operator
        (Expr.trims_shift aligned operand (spelled.exprPart (by simp [Expr.parts])) resolved)
  | .binary left operator right =>
      simp only [Expr.uses, List.forall_mem_append] at resolved
      exact .binary operator
        (Expr.trims_shift aligned left (spelled.exprPart (by simp [Expr.parts])) resolved.1)
        (Expr.trims_shift aligned right (spelled.exprPart (by simp [Expr.parts])) resolved.2)
  | .logical left operator right =>
      simp only [Expr.uses, List.forall_mem_append] at resolved
      exact .logical operator
        (Expr.trims_shift aligned left (spelled.exprPart (by simp [Expr.parts])) resolved.1)
        (Expr.trims_shift aligned right (spelled.exprPart (by simp [Expr.parts])) resolved.2)
  | .comma left operator right =>
      simp only [Expr.uses, List.forall_mem_append] at resolved
      exact .comma operator
        (Expr.trims_shift aligned left (spelled.exprPart (by simp [Expr.parts])) resolved.1)
        (Expr.trims_shift aligned right (spelled.exprPart (by simp [Expr.parts])) resolved.2)
  | .conditional condition thenBranch elseBranch =>
      simp only [Expr.uses, List.forall_mem_append] at resolved
      exact .conditional
        (Expr.trims_shift aligned condition (spelled.exprPart (by simp [Expr.parts])) resolved.1.1)
        (Expr.trims_shift aligned thenBranch (spelled.exprPart (by simp [Expr.parts])) resolved.1.2)
        (Expr.trims_shift aligned elseBranch (spelled.exprPart (by simp [Expr.parts])) resolved.2)
  | .var id name => exact .var name ((resolved _ List.mem_cons_self).passes aligned)
  | .assign id name value =>
      simp only [Expr.uses, List.forall_mem_append, List.forall_mem_singleton] at resolved
      exact .assign name (resolved.2.passes aligned)
        (Expr.trims_shift aligned value (spelled.exprPart (by simp [Expr.parts])) resolved.1)
  | .call callee paren arguments =>
      simp only [Expr.uses, List.forall_mem_append] at resolved
      exact .call paren
        (Expr.trims_shift aligned callee (spelled.exprPart (by simp [Expr.parts])) resolved.1)
        (Expr.trimsAll_shift aligned arguments
          (fun part member => spelled.exprPart (List.mem_cons_of_mem _ member)) resolved.2)
  | .get object name =>
      exact .get name
        (Expr.trims_shift aligned object (spelled.exprPart (by simp [Expr.parts])) resolved)
  | .set object name value =>
      simp only [Expr.uses, List.forall_mem_append] at resolved
      exact .set name
        (Expr.trims_shift aligned object (spelled.exprPart (by simp [Expr.parts])) resolved.1)
        (Expr.trims_shift aligned value (spelled.exprPart (by simp [Expr.parts])) resolved.2)
  | .this id keyword => exact .this keyword ((resolved _ List.mem_cons_self).passes aligned)
  | .super id keyword method =>
      obtain ⟨first, second⟩ := resolved _ List.mem_cons_self
      have lexeme : keyword.lexeme = "super" := spelled.here.keyword keyword "super" rfl
      refine .super keyword method ?_
      simp only [lexeme] at first second
      rw [first, second]
      exact aligned.passesInside

theorem Expr.trimsAll_shift (aligned : Aligned mask scopes scopes') (exprs : List Expr)
    (spelled : ∀ expr ∈ exprs, (Node.expr expr).Spelled)
    (resolved : ∀ use ∈ Expr.usesAll exprs, use.Resolved tables offset scopes scopes') :
    List.Forall₂ (Expr.Trims tables mask) exprs (Expr.shiftAll ⟨offset, 0⟩ exprs) := by
  match exprs with
  | [] => exact .nil
  | first :: rest =>
      simp only [Expr.usesAll, List.forall_mem_append] at resolved
      rw [List.forall_mem_cons] at spelled
      exact .cons (Expr.trims_shift aligned first spelled.1 resolved.1)
        (Expr.trimsAll_shift aligned rest spelled.2 resolved.2)
end

end Exprs

theorem Expr.option_shift {mask : Mask} {site site' : Site}
    (aligned : Aligned mask site.scopes site'.scopes) (expr : Option Expr)
    (spelled : ∀ value ∈ expr, (Node.expr value).Spelled)
    (known : Knows tables.full (site.visits (Expr.usesAll expr.toList)))
    (known' : Knows tables.trimmed (site'.visits
      (Expr.usesAll (expr.map (Expr.shift ⟨offset, 0⟩)).toList))) :
    Option.Rel (Expr.Trims tables mask) expr (expr.map (Expr.shift ⟨offset, 0⟩)) := by
  cases expr with
  | none => exact .none
  | some value =>
      rw [Option.toList_some, Expr.usesAll, Expr.usesAll, List.append_nil] at known
      rw [Option.map_some, Option.toList_some, Expr.usesAll, Expr.usesAll, List.append_nil,
        Expr.uses_shift] at known'
      exact .some (Expr.trims_shift aligned value (spelled value rfl)
        (resolved_of_knows known known'))

theorem Expr.site_shift {mask : Mask} {site site' : Site}
    (aligned : Aligned mask site.scopes site'.scopes) (expr : Expr)
    (spelled : (Node.expr expr).Spelled) (known : Knows tables.full (site.visits expr.uses))
    (known' : Knows tables.trimmed (site'.visits (expr.shift ⟨offset, 0⟩).uses)) :
    expr.Trims tables mask (expr.shift ⟨offset, 0⟩) := by
  rw [Expr.uses_shift] at known'
  exact Expr.trims_shift aligned expr spelled (resolved_of_knows known known')

theorem Site.after_shift (site : Site) (stmt : Stmt) (offset : Supply) :
    site.after (stmt.shift offset) = site.after stmt := by
  simp only [Site.after, Stmt.resolve_shift]

mutual
theorem Stmt.trims_shift {mask : Mask} {site site' : Site}
    (aligned : Aligned mask site.scopes site'.scopes) (stmt : Stmt) (formed : stmt.Formed)
    (bare : ¬ mask.Open → stmt.declared? = none) (spelled : (Node.stmt stmt).Spelled)
    (known : Knows tables.full (stmt.visits site))
    (known' : Knows tables.trimmed ((stmt.shift ⟨offset, 0⟩).visits site')) :
    stmt.Trims tables mask (stmt.shift ⟨offset, 0⟩) := by
  have isOpen (name : Token) (declared : stmt.declared? = some name) : mask.Open := by
    by_contra closed
    simp [bare closed] at declared
  match stmt with
  | .expression value =>
      exact .expression (value.site_shift aligned (spelled.part List.mem_cons_self) known known')
  | .print keyword value =>
      exact .print keyword (value.site_shift aligned (spelled.part List.mem_cons_self) known known')
  | .varDecl name initializer =>
      have isOpen := isOpen name rfl
      exact .varDecl name isOpen (Expr.option_shift (aligned.declare isOpen name) initializer
        (fun value found => spelled.part (by simpa [Node.parts] using found)) known known')
  | .block body =>
      exact .block (Stmt.trimsAll_shift (.shared [] aligned) (Mask.open_cons mask) body formed
        (fun stmt member => spelled.part (List.mem_map_of_mem member)) known known')
  | .ifThen condition thenBranch =>
      obtain ⟨tested, branch⟩ := knows_append.mp known
      obtain ⟨tested', branch'⟩ := knows_append.mp known'
      exact .ifThen (condition.site_shift aligned (spelled.part (by simp [Node.parts])) tested tested')
        (thenBranch.trims_shift aligned formed.2 (fun _ => formed.1)
          (spelled.part (by simp [Node.parts])) branch branch')
  | .ifElse condition thenBranch elseBranch =>
      obtain ⟨⟨⟨tested, first⟩, second⟩, ⟨tested', first'⟩, second'⟩ :=
        And.intro ((knows_append.mp known).imp_left knows_append.mp)
          ((knows_append.mp known').imp_left knows_append.mp)
      rw [Site.after_eq formed.1.2 formed.1.1] at second
      rw [Site.after_shift, Site.after_eq formed.1.2 formed.1.1] at second'
      exact .ifElse (condition.site_shift aligned (spelled.part (by simp [Node.parts])) tested tested')
        (thenBranch.trims_shift aligned formed.1.2 (fun _ => formed.1.1)
          (spelled.part (by simp [Node.parts])) first first')
        (elseBranch.trims_shift aligned formed.2.2 (fun _ => formed.2.1)
          (spelled.part (by simp [Node.parts])) second second')
  | .whileLoop condition body =>
      obtain ⟨tested, round⟩ := knows_append.mp known
      obtain ⟨tested', round'⟩ := knows_append.mp known'
      exact .whileLoop
        (condition.site_shift aligned (spelled.part (by simp [Node.parts])) tested tested')
        (body.trims_shift aligned formed.2 (fun _ => formed.1)
          (spelled.part (by simp [Node.parts])) round round')
  | .functionDecl decl =>
      have isOpen := isOpen decl.name rfl
      rw [Stmt.shift, Stmt.visits, decl.name_shift] at known'
      have inside : Aligned mask ((site.declare decl.name).inFunction .function).scopes
          ((site'.declare decl.name).inFunction .function).scopes :=
        aligned.declare isOpen decl.name
      exact .functionDecl isOpen
        (decl.trims_shift inside formed (spelled.part List.mem_cons_self) known known')
  | .returnStmt keyword value =>
      exact .returnStmt keyword (Expr.option_shift aligned value
        (fun value found => spelled.part (by simpa [Node.parts] using found)) known known')
  | .classDecl name superclass methods =>
      have isOpen := isOpen name rfl
      obtain ⟨inherited, declared⟩ := knows_append.mp known
      obtain ⟨inherited', declared'⟩ := knows_append.mp known'
      rw [Option.isSome_map] at declared'
      have inside : Aligned mask (site.declare name).scopes (site'.declare name).scopes :=
        aligned.declare isOpen name
      refine .classDecl name isOpen (Expr.option_shift inside superclass
        (fun value found => spelled.part (by simpa [Node.parts] using found)) inherited inherited') ?_
      exact FunctionDecl.trimsAll_shift (inside.methods superclass.isSome _ _) methods formed.2.2
        (fun method member => spelled.part
          (List.mem_append_right _ (List.mem_map_of_mem member))) declared declared'

theorem Stmt.trimsAll_shift {mask : Mask} {site site' : Site}
    (aligned : Aligned mask site.scopes site'.scopes) (isOpen : mask.Open) (stmts : List Stmt)
    (formed : Stmt.FormedAll stmts) (spelled : ∀ stmt ∈ stmts, (Node.stmt stmt).Spelled)
    (known : Knows tables.full (Stmt.visitsAll site stmts))
    (known' : Knows tables.trimmed (Stmt.visitsAll site' (Stmt.shiftAll ⟨offset, 0⟩ stmts))) :
    Stmt.TrimsAll tables mask stmts (Stmt.shiftAll ⟨offset, 0⟩ stmts) := by
  match stmts with
  | [] => exact .nil
  | first :: rest =>
      obtain ⟨known, later⟩ := knows_append.mp known
      obtain ⟨known', later'⟩ := knows_append.mp known'
      rw [List.forall_mem_cons] at spelled
      rw [Site.after_shift] at later'
      have bare (closed : ¬ mask.Open) : first.declared? = none := absurd isOpen closed
      exact .cons (first.trims_shift aligned formed.1 bare spelled.1 known known')
        (Stmt.trimsAll_shift (aligned.after formed.1 bare) isOpen rest formed.2 spelled.2 later later')

theorem FunctionDecl.trims_shift {mask : Mask} {site site' : Site}
    (aligned : Aligned mask site.scopes site'.scopes) (decl : FunctionDecl) (formed : decl.Formed)
    (spelled : (Node.function decl).Spelled) (known : Knows tables.full (decl.visits site))
    (known' : Knows tables.trimmed ((decl.shift ⟨offset, 0⟩).visits site')) :
    decl.Trims tables mask (decl.shift ⟨offset, 0⟩) := by
  match decl with
  | ⟨id, name, params, body⟩ =>
      have inside : Aligned (false :: mask) (site.body ⟨id, name, params, body⟩).scopes
          (site'.body ((⟨id, name, params, body⟩ : FunctionDecl).shift ⟨offset, 0⟩)).scopes :=
        Aligned.declareAll (.shared [] aligned) (Mask.open_cons mask) params
      exact .intro id name params (Stmt.trimsAll_shift inside (Mask.open_cons mask) body formed
        (fun stmt member => spelled.part (List.mem_map_of_mem member)) known known')

theorem FunctionDecl.trimsAll_shift {mask : Mask} {site site' : Site}
    (aligned : Aligned mask site.scopes site'.scopes) (methods : List FunctionDecl)
    (formed : FunctionDecl.FormedAll methods)
    (spelled : ∀ method ∈ methods, (Node.method method).Spelled)
    (known : Knows tables.full (FunctionDecl.visitsMethods site methods))
    (known' : Knows tables.trimmed
      (FunctionDecl.visitsMethods site' (FunctionDecl.shiftAll ⟨offset, 0⟩ methods))) :
    FunctionDecl.TrimsAll tables mask methods (FunctionDecl.shiftAll ⟨offset, 0⟩ methods) := by
  match methods with
  | [] => exact .nil
  | first :: rest =>
      obtain ⟨known, later⟩ := knows_append.mp known
      obtain ⟨known', later'⟩ := knows_append.mp known'
      rw [List.forall_mem_cons] at spelled
      have inMethod : Aligned mask (site.inFunction (.ofMethod first.name)).scopes
          (site'.inFunction (.ofMethod (first.shift ⟨offset, 0⟩).name)).scopes := aligned
      exact .cons
        (first.trims_shift inMethod formed.1 (Node.spelled_method.mp spelled.1) known known')
        (FunctionDecl.trimsAll_shift aligned rest formed.2 spelled.2 later later')
end

end Resolved

/-! Trees that are found alike in both runs. -/

mutual
theorem Expr.shift_zero (expr : Expr) : expr.shift ⟨0, 0⟩ = expr := by
  match expr with
  | .literal _ | .var _ _ | .this _ _ | .super _ _ _ => rfl
  | .grouping inner | .unary _ inner | .get inner _ => rw [Expr.shift, inner.shift_zero]
  | .assign id name value => exact congrArg (Expr.assign id name) value.shift_zero
  | .binary left _ right | .logical left _ right | .comma left _ right | .set left _ right =>
      rw [Expr.shift, left.shift_zero, right.shift_zero]
  | .conditional condition thenBranch elseBranch =>
      rw [Expr.shift, condition.shift_zero, thenBranch.shift_zero, elseBranch.shift_zero]
  | .call callee _ arguments => rw [Expr.shift, callee.shift_zero, Expr.shiftAll_zero arguments]

theorem Expr.shiftAll_zero (exprs : List Expr) : Expr.shiftAll ⟨0, 0⟩ exprs = exprs := by
  match exprs with
  | [] => rfl
  | first :: rest => rw [Expr.shiftAll, first.shift_zero, Expr.shiftAll_zero rest]
end

theorem Expr.option_shift_zero (expr : Option Expr) : expr.map (Expr.shift ⟨0, 0⟩) = expr := by
  cases expr with
  | none => rfl
  | some expr => exact congrArg some expr.shift_zero

mutual
theorem Stmt.shift_zero (stmt : Stmt) : stmt.shift ⟨0, 0⟩ = stmt := by
  match stmt with
  | .expression value | .print _ value => rw [Stmt.shift, value.shift_zero]
  | .varDecl _ value | .returnStmt _ value => rw [Stmt.shift, Expr.option_shift_zero value]
  | .block body => rw [Stmt.shift, Stmt.shiftAll_zero body]
  | .ifThen condition body | .whileLoop condition body =>
      rw [Stmt.shift, condition.shift_zero, body.shift_zero]
  | .ifElse condition thenBranch elseBranch =>
      rw [Stmt.shift, condition.shift_zero, thenBranch.shift_zero, elseBranch.shift_zero]
  | .functionDecl decl => rw [Stmt.shift, decl.shift_zero]
  | .classDecl _ superclass methods =>
      rw [Stmt.shift, Expr.option_shift_zero superclass, FunctionDecl.shiftAll_zero methods]

theorem Stmt.shiftAll_zero (stmts : List Stmt) : Stmt.shiftAll ⟨0, 0⟩ stmts = stmts := by
  match stmts with
  | [] => rfl
  | first :: rest => rw [Stmt.shiftAll, first.shift_zero, Stmt.shiftAll_zero rest]

theorem FunctionDecl.shift_zero (decl : FunctionDecl) : decl.shift ⟨0, 0⟩ = decl := by
  match decl with
  | ⟨_, _, _, body⟩ =>
      rw [FunctionDecl.shift, Stmt.shiftAll_zero body]
      rfl

theorem FunctionDecl.shiftAll_zero (decls : List FunctionDecl) :
    FunctionDecl.shiftAll ⟨0, 0⟩ decls = decls := by
  match decls with
  | [] => rfl
  | first :: rest =>
      rw [FunctionDecl.shiftAll, first.shift_zero, FunctionDecl.shiftAll_zero rest]
end

theorem FunctionDecl.trims_self {tables : Tables} {mask : Mask} {site : Site}
    (aligned : Aligned mask site.scopes site.scopes) {decl : FunctionDecl} (formed : decl.Formed)
    (spelled : (Node.function decl).Spelled) (known : Knows tables.full (decl.visits site))
    (known' : Knows tables.trimmed (decl.visits site)) : decl.Trims tables mask decl := by
  have trims : decl.Trims tables mask (decl.shift ⟨0, 0⟩) :=
    decl.trims_shift aligned formed spelled known (by rwa [decl.shift_zero])
  rwa [decl.shift_zero] at trims

end Lox
