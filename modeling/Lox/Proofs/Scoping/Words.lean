import Lox.Token.Scan
import Mathlib.Tactic

/-!
How scanned names are spelled: a name is never spelled `this` or `super`, and these words always
are.
-/

namespace Lox

namespace Piece

variable {first : Char} {rest : List Char} {kind : TokenKind} {literal : Option Literal}
  {length : Nat}

theorem kind_of_operator {second : Char} {long short : TokenKind}
    (front : operator second long short rest = (.token kind literal, length)) :
    kind = long ∨ kind = short := by
  unfold operator at front
  split at front <;> cases front <;> simp

theorem kind_of_slash (front : slash rest = (.token kind literal, length)) : kind = .slash := by
  unfold slash at front
  split at front
  · cases front
  · split at front <;> cases front
  · cases front
    rfl

theorem kind_of_string (front : string rest = (.token kind literal, length)) :
    kind = .string := by
  simp only [string] at front
  split at front <;> cases front
  rfl

theorem kind_of_word (front : word first rest = (.token kind literal, length)) :
    kind = .ofWord (String.ofList (first :: rest.take length)) := by
  cases front
  have begun : rest.takeWhile continuesWord <+: rest := List.takeWhile_prefix _
  rw [← List.prefix_iff_eq_take.mp begun]

theorem kind_of_atFront (front : atFront first rest = (.token kind literal, length))
    (isWord : kind = .identifier ∨ kind = .thisWord ∨ kind = .superWord) :
    kind = .ofWord (String.ofList (first :: rest.take length)) := by
  unfold atFront at front
  split at front
  -- the tokens of one character, the operators of one or two, and the gaps
  case h_1 | h_2 | h_3 | h_4 | h_5 | h_6 | h_7 | h_8 | h_9 | h_10 | h_11 | h_12 =>
    cases front
    simp at isWord
  case h_13 | h_14 | h_15 | h_16 =>
    rcases kind_of_operator front with rfl | rfl <;> simp at isWord
  case h_17 | h_18 | h_19 | h_20 => cases front
  case h_21 =>
    obtain rfl := kind_of_slash front
    simp at isWord
  case h_22 =>
    obtain rfl := kind_of_string front
    simp at isWord
  case h_23 =>
    split at front
    · cases front
      simp at isWord
    · split at front
      · exact kind_of_word front
      · cases front

end Piece

namespace Token

/-- Names, `this` and `super` are spelled as words are. -/
def Plain (token : Token) : Prop :=
  token.kind = .identifier ∨ token.kind = .thisWord ∨ token.kind = .superWord →
    token.kind = .ofWord token.lexeme

theorem Plain.ne_word {name : Token} (plain : name.Plain) (isName : name.kind = .identifier)
    {word : String} (reserved : TokenKind.ofWord word ≠ .identifier) : name.lexeme ≠ word := by
  rintro rfl
  exact reserved ((plain (.inl isName)).symm.trans isName)

theorem Plain.eq_word {keyword : Token} (plain : keyword.Plain) {word : String}
    (isWord : (word, keyword.kind) = ("this", .thisWord) ∨
      (word, keyword.kind) = ("super", .superWord)) : keyword.lexeme = word := by
  simp only [Prod.mk.injEq] at isWord
  have spelled := plain (.inr (isWord.imp And.right And.right))
  unfold TokenKind.ofWord at spelled
  rcases isWord with ⟨rfl, kind⟩ | ⟨rfl, kind⟩ <;> rw [kind] at spelled <;> split at spelled <;>
    first | assumption | cases spelled

theorem plain_of_mem_scanFrom {line : Nat} {source : List Char} {token : Token}
    (member : .ok token ∈ scanFrom line source) : token.Plain := by
  fun_induction scanFrom line source with
  | case1 line =>
      obtain rfl : token = ending line := by simpa using member
      simp [Plain, ending]
  | case2 _ _ _ _ _ _ _ _ ih => exact ih member
  | case3 _ _ _ _ _ _ _ _ _ front ih =>
      rcases List.mem_cons.mp member with same | later
      · cases same
        exact Piece.kind_of_atFront front
      · exact ih later
  | case4 _ _ _ _ _ _ _ _ _ ih =>
      rcases List.mem_cons.mp member with same | later
      · cases same
      · exact ih later

theorem plain_of_mem_scan {source : String} {token : Token}
    (member : token ∈ (split (scan source)).1) : token.Plain := by
  simp only [split, List.mem_filterMap] at member
  obtain ⟨item, scanned, found⟩ := member
  split at found
  · cases found
    exact plain_of_mem_scanFrom scanned
  · cases found

end Token

end Lox
