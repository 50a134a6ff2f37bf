import Lox.Proofs.Token.Rescan
import Lox.Proofs.Number.Display

/-!
Reading the text of a tree. The text is made of words, blanks and parentheses, and is taken apart from
its beginning to its end, one character at a time. What is read from it are forms: words, and what
stands in a pair of parentheses. A text is read in one way only, and each word of it tells the token or
the number that is written so.
-/

namespace Lox

inductive Form
  | word (text : String)
  | group (parts : List Form)

/-- A point of the reading: the letters of a word that goes on, what was read in the innermost
parentheses that are open, and what was read around them. -/
structure Bracketing where
  letters : List Char
  current : List Form
  outer : List (List Form)

namespace Bracketing

def flush (bracketing : Bracketing) : Bracketing :=
  if bracketing.letters = [] then bracketing
  else { bracketing with
    letters := [], current := bracketing.current ++ [.word (.ofList bracketing.letters)] }

def step (bracketing : Bracketing) (character : Char) : Bracketing :=
  if character = ' ' then bracketing.flush
  else if character = '(' then ⟨[], [], bracketing.flush.current :: bracketing.outer⟩
  else if character = ')' then
    match bracketing.outer with
    | [] => bracketing.flush
    | before :: outer => ⟨[], before ++ [.group bracketing.flush.current], outer⟩
  else { bracketing with letters := bracketing.letters ++ [character] }

def Ends (character : Char) : Prop := character = ' ' ∨ character = '(' ∨ character = ')'

instance : DecidablePred Ends := fun _ => inferInstanceAs (Decidable (_ ∨ _))

theorem flush_flush (bracketing : Bracketing) : bracketing.flush.flush = bracketing.flush := by
  unfold flush
  split <;> simp_all

theorem step_flush (bracketing : Bracketing) {character : Char} (ends : Ends character) :
    bracketing.flush.step character = bracketing.step character := by
  have outer : bracketing.flush.outer = bracketing.outer := by
    unfold flush
    split <;> rfl
  rcases ends with rfl | rfl | rfl <;> simp [step, flush_flush, outer]

end Bracketing

/-- Wherever no word goes on, reading the text adds these forms. -/
def ReadAs (text : List Char) (forms : List Form) : Prop :=
  ∀ current outer,
    (text.foldl Bracketing.step ⟨[], current, outer⟩).flush = ⟨[], current ++ forms, outer⟩

namespace ReadAs

open Bracketing

variable {text more : List Char} {forms others : List Form} {head : String}

theorem nil : ReadAs [] [] := fun current outer => by simp [flush]

theorem append (first : ReadAs text forms) (second : ReadAs more others)
    (ends : ∀ character ∈ more.head?, Ends character) : ReadAs (text ++ more) (forms ++ others) := by
  intro current outer
  -- a word at the end of the first text is over when the second begins
  have flushed (bracketing : Bracketing) :
      (more.foldl step bracketing).flush = (more.foldl step bracketing.flush).flush := by
    cases more with
    | nil => exact (flush_flush bracketing).symm
    | cons character rest => rw [List.foldl_cons, List.foldl_cons, step_flush _ (ends _ rfl)]
  rw [List.foldl_append, flushed, first, second, List.append_assoc]

theorem next (first : ReadAs text forms) (second : ReadAs more others) :
    ReadAs (text ++ ' ' :: more) (forms ++ others) :=
  have spaced : ReadAs (' ' :: more) others := second
  first.append spaced (by simp [Ends])

theorem group (reads : ReadAs text forms) : ReadAs ('(' :: text ++ [')']) [.group forms] := by
  intro current outer
  have inner := reads [] (current :: outer)
  have opened : step ⟨[], current, outer⟩ '(' = ⟨[], [], current :: outer⟩ := rfl
  rw [List.cons_append, List.foldl_cons, List.foldl_append, opened, List.foldl_cons, List.foldl_nil,
    ← step_flush _ (.inr (.inr rfl)), inner]
  rfl

def Clean (word : String) : Prop := word.toList ≠ [] ∧ ∀ character ∈ word.toList, ¬ Ends character

instance : DecidablePred Clean := fun word =>
  have := List.decidableBAll (fun character => ¬ Ends character) word.toList
  inferInstanceAs (Decidable (_ ∧ _))

theorem word (clean : Clean head) : ReadAs head.toList [.word head] := by
  intro current outer
  have all (letters text : List Char) (inside : ∀ character ∈ text, ¬ Ends character) :
      text.foldl step ⟨letters, current, outer⟩ = ⟨letters ++ text, current, outer⟩ := by
    induction text generalizing letters with
    | nil => simp
    | cons character rest ih =>
        obtain ⟨first, inside⟩ := List.forall_mem_cons.mp inside
        simp only [Ends, not_or] at first
        rw [List.foldl_cons, step, if_neg first.1, if_neg first.2.1, if_neg first.2.2, ih _ inside,
          List.append_assoc]
        rfl
  rw [all [] _ clean.2, flush, List.nil_append, if_neg clean.1, String.ofList_toList]

theorem nodeOf (reads : ReadAs text forms) (ends : ∀ character ∈ text.head?, Ends character)
    (head : String) (clean : Clean head) :
    ReadAs ('(' :: (head.toList ++ text) ++ [')']) [.group (.word head :: forms)] :=
  ((word clean).append reads ends).group

theorem node (reads : ReadAs text forms) (head : String) (clean : Clean head) :
    ReadAs ('(' :: (head.toList ++ ' ' :: text) ++ [')']) [.group (.word head :: forms)] :=
  have spaced : ReadAs (' ' :: text) forms := reads
  spaced.nodeOf (by simp [Ends]) head clean

theorem unique (reads : ReadAs text forms) (again : ReadAs text others) : forms = others := by
  have same := (reads [] []).symm.trans (again [] [])
  simpa using same

end ReadAs

theorem not_ends_of_word {character : Char} (inWord : Letter character ∨ Digit character) :
    ¬ Bracketing.Ends character := by
  rintro (rfl | rfl | rfl) <;> revert inWord <;> decide

theorem Word.not_ends {text : List Char} (word : Word text) :
    ∀ character ∈ text, ¬ Bracketing.Ends character := by
  cases text with
  | nil => exact word.elim
  | cons first others =>
      exact List.forall_mem_cons.mpr ⟨not_ends_of_word (.inl word.1), fun character member =>
        not_ends_of_word (word.2 character member)⟩

namespace Lexeme

variable {kind : TokenKind} {text : String} (lexeme : Lexeme kind text.toList)
include lexeme

theorem clean (apart : kind ≠ .leftParen ∧ kind ≠ .rightParen ∧ kind ≠ .string) :
    ReadAs.Clean text := by
  refine ⟨lexeme.ne_nil, ?_⟩
  generalize text.toList = letters at lexeme
  cases lexeme with
  | operator member =>
      have listed : ∀ entry ∈ operators, entry.2 = .leftParen ∨ entry.2 = .rightParen ∨
          ReadAs.Clean entry.1 := by decide
      exact (((listed _ member).resolve_left apart.1).resolve_left apart.2.1).2
  | string => simp at apart
  | whole _ digits => exact fun character member => not_ends_of_word (.inr (digits character member))
  | decimal _ digits _ decimals =>
      refine List.forall_mem_append.mpr ⟨fun character member =>
        not_ends_of_word (.inr (digits character member)), List.forall_mem_cons.mpr ⟨by decide, ?_⟩⟩
      exact fun character member => not_ends_of_word (.inr (decimals character member))
  | keyword member => exact (word_of_mem_keywords member).not_ends
  | identifier word => exact word.not_ends

theorem eq_of_mem {word : String} (member : (word, kind) ∈ operators ++ keywords) : text = word := by
  have once : ∀ entry ∈ operators ++ keywords, ∀ other ∈ operators ++ keywords,
      entry.2 = other.2 → entry.1 = other.1 := by decide +kernel
  have fixed : ∀ entry ∈ operators ++ keywords, entry.2 ≠ .string ∧ entry.2 ≠ .number ∧
      entry.2 ≠ .identifier := by decide
  obtain ⟨noString, noNumber, noName⟩ := fixed _ member
  generalize same : text.toList = letters at lexeme
  cases lexeme with
  | operator listed =>
      exact (String.toList_inj.mp same).trans (once _ (List.mem_append_left _ listed) _ member rfl)
  | keyword listed =>
      exact (String.toList_inj.mp same).trans (once _ (List.mem_append_right _ listed) _ member rfl)
  | string => exact absurd rfl noString
  | whole | decimal => exact absurd rfl noNumber
  | identifier => exact absurd rfl noName

end Lexeme

namespace Token

def bare (token : Token) : Token := { token with line := 0 }

/-- The first token of a text. -/
def read (text : String) : Token :=
  match scan text with
  | .ok token :: _ => token.bare
  | _ => .ending 0

variable {token : Token} (stands : token.Stands)
include stands

theorem Stands.read_eq : read token.lexeme = token.bare := by
  obtain ⟨again, same, scanned⟩ := scanFrom_stands stands 1 delimited_nil
  rw [List.append_nil] at scanned
  simp only [content, Prod.mk.injEq] at same
  rw [read, scan, scanned]
  simp [bare, same]

theorem Stands.lexeme_of_kind : Lexeme token.kind token.lexeme.toList := by
  obtain ⟨first, rest, text, front⟩ := stands
  have munched := Piece.munched_of_atFront (front [] delimited_nil)
  rw [List.append_nil, List.take_length] at munched
  exact text ▸ munched.lexeme

theorem Stands.ne_of_kind {word : String} {kind : TokenKind} (other : (read word).kind = kind)
    (differs : token.kind ≠ kind) : token.lexeme ≠ word := by
  rintro rfl
  rw [stands.read_eq] at other
  exact differs other

theorem Stands.read_of_mem {word : String} (spelling : (word, token.kind) ∈ operators ++ keywords) :
    read word = token.bare := by
  rw [← stands.lexeme_of_kind.eq_of_mem spelling, stands.read_eq]

end Token

namespace Number

instance : Nonempty Number := ⟨zero⟩

/-- The finite number that is written so. -/
noncomputable def ofText : String → Number :=
  Function.invFunOn literal { number | number.isFinite }

variable {number : Number} (finite : number.isFinite)
include finite

theorem ofText_literal : ofText number.literal = number := by
  have injective : Set.InjOn literal { number | number.isFinite } := by
    intro number finite other finite' same
    have text : number.literalText = other.literalText := by
      simpa [literal] using congrArg String.toList same
    exact (shows_literalText finite).unique (text ▸ shows_literalText finite') finite finite'
  exact injective.leftInvOn_invFunOn finite

theorem clean_literal : ReadAs.Clean number.literal := by
  obtain ⟨body, quotient, shown, numeral, -⟩ := shows_literalText finite
  have lexeme : Lexeme .number (String.ofList body).toList := String.toList_ofList ▸ numeral.lexeme
  obtain ⟨nonempty, inside⟩ := lexeme.clean (by decide)
  rw [String.toList_ofList] at nonempty inside
  rw [ReadAs.Clean, literal, String.toList_ofList, shown]
  refine ⟨by simp [nonempty], List.forall_mem_append.mpr ⟨?_, inside⟩⟩
  unfold signText
  split <;> simp [Bracketing.Ends]

/-- The text of a number does not begin as a word does. -/
theorem kind_read_literal : (Token.read number.literal).kind = .minus ∨
    (Token.read number.literal).kind = .number := by
  obtain ⟨body, quotient, shown, numeral, -⟩ := shows_literalText finite
  rw [literal, shown, signText]
  split
  · left
    have front : Piece.atFront '-' body = (.token .minus none, 0) := rfl
    rw [Token.read, Token.scan, String.toList_ofList, List.singleton_append, Token.scanFrom_cons front]
    rfl
  · right
    obtain ⟨_, _, -, -, scanned⟩ := numeral.scannedFrom
    rw [List.nil_append, Token.read, scanned]
    rfl

end Number

end Lox
