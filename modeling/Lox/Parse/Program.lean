import Lox.Parse.Stmt

/-!
Parsing whole token lists. The input ends at its first ending, wherever that stands; a list without
one ends on the line of its last token.
-/

namespace Lox

structure SyntaxError where
  token : Token
  fault : SyntaxFault
deriving DecidableEq

def Complaint.locate (complaint : Complaint) (ending : Token) : SyntaxError :=
  ⟨complaint.place.getD ending, complaint.fault⟩

/-- The trees of an input, its faults in the order in which they were found, and the identities that
are left. -/
structure Reading (α : Type) where
  tree : α
  errors : List SyntaxError
  supply : Supply

namespace Parse

def words (tokens : List Token) : List Token := tokens.takeWhile fun token => !token.isEnding

def ending (tokens : List Token) : Token :=
  (tokens.find? Token.isEnding).getD (.ending ((tokens.getLast?.map Token.line).getD 1))

def declarations (start : Position) : List Stmt × List Complaint × Supply :=
  if ended : start.rest = [] then ([], [], start.supply)
  else
    match recover (declaration start) (List.length_pos_iff.mpr ended) with
    | ⟨stmt, notes, after, _⟩ =>
        let (others, later, supply) := declarations after
        (stmt.toList ++ others, notes ++ later, supply)
termination_by start.size

/-- A whole input as one expression; a tree with a fault in it is not returned. -/
def lone (start : Position) : Option Expr × List Complaint × Supply :=
  match assignment true start with
  | .done expr notes after _ =>
      if after.rest = [] then
        (if notes.isEmpty then some expr else none, notes, after.supply)
      else (none, notes ++ [after.complain .endOfExpression], after.supply)
  | .stuck cause notes after _ => (none, notes ++ [cause], after.supply)

def program (tokens : List Token) (supply : Supply) : Reading (List Stmt) :=
  let (stmts, complaints, supply) := declarations ⟨words tokens, supply⟩
  ⟨stmts, complaints.map (·.locate (ending tokens)), supply⟩

def expression (tokens : List Token) (supply : Supply) : Reading (Option Expr) :=
  let (expr, complaints, supply) := lone ⟨words tokens, supply⟩
  ⟨expr, complaints.map (·.locate (ending tokens)), supply⟩

end Parse

end Lox
