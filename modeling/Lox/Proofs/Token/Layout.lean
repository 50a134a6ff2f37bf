import Lox.Proofs.Token.Lexeme

/-!
Where the items of a source stand. Scanning loses nothing: each item stands for a stretch of the
source, between the stretches there are only blanks and complete comments, and the ending stands at
the end. A token stands for the longest lexeme there.
-/

namespace Lox

/-- A stretch of a source, with what comes before it and after it. -/
structure Span (source : String) where
  before : List Char
  text : List Char
  after : List Char
  whole : before ++ text ++ after = source.toList

namespace Span

variable {source : String}

def start (span : Span source) : String.Pos.Raw := (String.ofList span.before).rawEndPos

def stop (span : Span source) : String.Pos.Raw :=
  (String.ofList (span.before ++ span.text)).rawEndPos

def line (span : Span source) : Nat := 1 + (span.before ++ span.text).count '\n'

def onwards (span : Span source) : List Char := span.text ++ span.after

def beginning (source : String) : Span source := ⟨[], [], source.toList, rfl⟩

/-- Between the two stretches there are only blanks and complete comments. -/
def Precedes (one next : Span source) : Prop :=
  ∃ gap, next.before = one.before ++ one.text ++ gap ∧ Gap gap next.onwards

theorem isValid_start (span : Span source) : span.start.IsValid source := by
  rw [String.Pos.Raw.isValid_iff_exists_append]
  refine ⟨_, String.ofList span.onwards, ?_, rfl⟩
  rw [← String.ofList_append, onwards, ← List.append_assoc, span.whole, String.ofList_toList]

theorem isValid_stop (span : Span source) : span.stop.IsValid source := by
  rw [String.Pos.Raw.isValid_iff_exists_append]
  refine ⟨_, String.ofList span.after, ?_, rfl⟩
  rw [← String.ofList_append, span.whole, String.ofList_toList]

theorem rawEndPos_le_append (text more : List Char) :
    (String.ofList text).rawEndPos ≤ (String.ofList (text ++ more)).rawEndPos := by
  rw [String.ofList_append, String.Pos.Raw.le_iff, String.byteIdx_rawEndPos,
    String.byteIdx_rawEndPos, String.utf8ByteSize_append]
  exact Nat.le_add_right _ _

theorem start_le_stop (span : Span source) : span.start ≤ span.stop := rawEndPos_le_append _ _

theorem Precedes.stop_le_start {one next : Span source} (precedes : one.Precedes next) :
    one.stop ≤ next.start := by
  obtain ⟨gap, before, -⟩ := precedes
  rw [start, before]
  exact rawEndPos_le_append _ _

theorem pairwise_of_isChain {spans : List (Span source)} (chain : spans.IsChain Precedes) :
    spans.Pairwise fun one next => one.stop ≤ next.start := by
  have : IsTrans (Span source) fun one next => one.stop ≤ next.start :=
    ⟨fun _ next _ early late =>
      String.Pos.Raw.le_trans (String.Pos.Raw.le_trans early next.start_le_stop) late⟩
  exact (chain.imp fun _ _ => Precedes.stop_le_start).pairwise

theorem Precedes.congr {one other next : Span source} (precedes : one.Precedes next)
    (same : other.before ++ other.text = one.before ++ one.text) : other.Precedes next := by
  obtain ⟨gap, before, isGap⟩ := precedes
  exact ⟨gap, by rw [before, same], isGap⟩

end Span

namespace Token

variable {source : String}

inductive Reads : Except LexicalError Token → Span source → Prop
  | token {span : Span source} {kind : TokenKind} {literal : Option Literal} :
      Piece.Munched kind literal span.text span.after →
      Reads (.ok ⟨kind, String.ofList span.text, literal, span.line⟩) span
  | fault {span : Span source} {fault : LexicalFault} : Piece.Refused fault span.text span.after →
      Reads (.error ⟨span.line, fault⟩) span
  | ending {span : Span source} : span.text = [] → span.after = [] → Reads (.ok (ending span.line)) span

def LaidOut (items : List (Except LexicalError Token)) (present : Span source) : Prop :=
  ∃ spans : List (Span source), List.Forall₂ Reads items spans ∧
    List.IsChain Span.Precedes (present :: spans) ∧
    ∃ last, spans.getLast? = some last ∧ last.after = []

namespace LaidOut

variable {items : List (Except LexicalError Token)} {item : Except LexicalError Token}
  {present next : Span source}

theorem last (reads : Reads item next) (precedes : present.Precedes next) (ends : next.after = []) :
    LaidOut [item] present :=
  ⟨[next], .cons reads .nil, .cons_cons precedes (.singleton _), next, rfl, ends⟩

theorem cons (reads : Reads item next) (precedes : present.Precedes next)
    (laidOut : LaidOut items next) : LaidOut (item :: items) present := by
  obtain ⟨spans, others, chain, last, isLast, ends⟩ := laidOut
  refine ⟨next :: spans, .cons reads others, .cons_cons precedes chain, last, ?_, ends⟩
  rw [List.getLast?_cons, isLast]
  rfl

theorem imp (laidOut : LaidOut items next)
    (precedes : ∀ {span : Span source}, next.Precedes span → present.Precedes span) :
    LaidOut items present := by
  obtain ⟨spans, reads, chain, ends⟩ := laidOut
  refine ⟨spans, reads, ?_, ends⟩
  cases spans with
  | nil => exact .singleton _
  | cons span spans =>
      obtain ⟨first, later⟩ := List.isChain_cons_cons.mp chain
      exact .cons_cons (precedes first) later

end LaidOut

theorem laidOut_scanFrom (before rest : List Char) (whole : before ++ [] ++ rest = source.toList) :
    LaidOut (scanFrom (1 + before.count '\n') rest) ⟨before, [], rest, whole⟩ := by
  match rest with
  | [] =>
      let span : Span source := ⟨before, [], [], whole⟩
      have reads : Reads (.ok (ending span.line)) span := .ending rfl rfl
      simp only [Span.line, span, List.append_nil] at reads
      rw [scanFrom]
      exact .last reads ⟨[], by simp, .nil⟩ rfl
  | first :: rest =>
      rcases front : Piece.atFront first rest with ⟨piece, length⟩
      generalize taken : first :: rest.take length = text
      have whole' : before ++ text ++ [] ++ rest.drop length = source.toList := by
        simpa [← taken] using whole
      have later := laidOut_scanFrom (before ++ text) (rest.drop length) whole'
      let span : Span source := ⟨before, text, rest.drop length, by simpa using whole'⟩
      have lines : 1 + before.count '\n' + text.count '\n' = span.line := by
        rw [Span.line, List.count_append, Nat.add_assoc]
      have precedes : Span.Precedes ⟨before, [], first :: rest, whole⟩ span := ⟨[], by simp [span], .nil⟩
      have others : LaidOut (scanFrom span.line (rest.drop length)) span :=
        later.imp fun follows => follows.congr (by simp [span])
      rw [scanFrom_cons front, taken, lines]
      cases piece with
      | token kind literal =>
          have munched := Piece.munched_of_atFront front
          rw [taken] at munched
          have reads : Reads (.ok ⟨kind, String.ofList span.text, literal, span.line⟩) span :=
            .token munched
          exact .cons reads precedes others
      | fault fault =>
          have refused := Piece.refused_of_atFront front
          rw [taken] at refused
          have reads : Reads (.error ⟨span.line, fault⟩) span := .fault refused
          exact .cons reads precedes others
      | gap =>
          have skipped := Piece.skipped_of_atFront front
          rw [taken] at skipped
          refine later.imp fun {next} follows => ?_
          obtain ⟨gap, ahead, isGap⟩ := follows
          have rest : gap ++ next.onwards = rest.drop length := by
            have same := next.whole.trans whole'.symm
            rw [ahead] at same
            simpa [Span.onwards] using same
          exact ⟨text ++ gap, by simpa using ahead, .cons (rest ▸ skipped) isGap⟩
termination_by rest.length
decreasing_by simp only [List.length_drop, List.length_cons]; omega

/-- The ending comes last and nowhere else, and each character gives at most one other item. -/
theorem exists_scanFrom_ending (line : Nat) (source : List Char) :
    ∃ items, scanFrom line source = items ++ [.ok (ending (line + source.count '\n'))] ∧
      items.length ≤ source.length ∧ ∀ token, .ok token ∈ items → token.kind ≠ .eof := by
  match source with
  | [] => exact ⟨[], by simp [scanFrom], Nat.le_refl _, by simp⟩
  | first :: rest =>
      rcases front : Piece.atFront first rest with ⟨piece, length⟩
      obtain ⟨items, scanned, few, others⟩ := exists_scanFrom_ending
        (line + (first :: rest.take length).count '\n') (rest.drop length)
      have count : line + (first :: rest.take length).count '\n' + (rest.drop length).count '\n' =
          line + (first :: rest).count '\n' := by
        rw [Nat.add_assoc, ← List.count_append, List.cons_append, List.take_append_drop]
      have bound : items.length ≤ rest.length := by
        rw [List.length_drop] at few
        omega
      rw [scanFrom_cons front, scanned, count]
      cases piece with
      | gap => exact ⟨items, rfl, Nat.le_succ_of_le bound, others⟩
      | fault fault => exact ⟨_ :: items, rfl, Nat.succ_le_succ bound, by simpa using others⟩
      | token kind literal =>
          refine ⟨_ :: items, rfl, Nat.succ_le_succ bound, fun token member => ?_⟩
          rcases List.mem_cons.mp member with here | later
          · cases here
            exact Piece.ne_eof_of_atFront front
          · exact others token later
termination_by source.length
decreasing_by simp only [List.length_drop, List.length_cons]; omega

/-- A token has the text and the line of its stretch; a fault has its line, and it is a character that
begins nothing, or a string or a comment that does not end. -/
def Occupies : Except LexicalError Token → Span source → Prop
  | .ok token, span => token.lexeme = String.ofList span.text ∧ token.line = span.line
  | .error error, span => Piece.Refused error.fault span.text span.after ∧ error.line = span.line

theorem Reads.occupies {item : Except LexicalError Token} {span : Span source}
    (reads : Reads item span) : Occupies item span := by
  cases reads with
  | token _ => exact ⟨rfl, rfl⟩
  | fault refused => exact ⟨refused, rfl⟩
  | ending empty _ => exact ⟨by rw [empty]; rfl, rfl⟩

/-- Scanning loses nothing. It gives at most one item for each character, and then the ending, which
comes last and only there; after it there is no item. Each item stands for a stretch of the source that
begins and ends between characters, one behind the other, with only blanks and complete comments
before, between and after them. -/
theorem scan_is_lossless (source : String) :
    (∃ items, scan source = items ++ [.ok (ending (1 + source.toList.count '\n'))] ∧
      ∀ token, .ok token ∈ items → token.kind ≠ .eof) ∧
    (∀ call, source.length < call → (scan source)[call]? = none) ∧
    ∃ spans : List (Span source), List.Forall₂ Occupies (scan source) spans ∧
      (∀ span ∈ spans, span.start ≤ span.stop ∧
        span.start.IsValid source ∧ span.stop.IsValid source) ∧
      (spans.Pairwise fun one next => one.stop ≤ next.start) ∧
      List.IsChain Span.Precedes (.beginning source :: spans) ∧
      ∃ last, spans.getLast? = some last ∧ last.after = [] := by
  obtain ⟨items, scanned, few, others⟩ := exists_scanFrom_ending 1 source.toList
  obtain ⟨spans, reads, chain, ended⟩ := laidOut_scanFrom [] source.toList rfl
  refine ⟨⟨items, scanned, others⟩, fun call late => ?_, spans, ?_, ?_, ?_, chain, ended⟩
  · rw [String.length_toList] at few
    rw [scan, scanned, List.getElem?_eq_none_iff, List.length_append, List.length_singleton]
    omega
  · exact reads.imp fun _ _ => Reads.occupies
  · exact fun span _ => ⟨span.start_le_stop, span.isValid_start, span.isValid_stop⟩
  · exact Span.pairwise_of_isChain chain.tail

/-- A token is the longest lexeme that begins at its place, its kind is the only one that this lexeme
has, and a string has the text between its quotes as its value. A fault is found only at a block
comment without an end or where no lexeme begins. -/
def Munches : Except LexicalError Token → Span source → Prop
  | .ok token, span => token.kind = .eof ∧ span.onwards = [] ∨
      Lexeme token.kind span.text ∧ Longest span.text span.onwards ∧
        (∀ kind, Lexeme kind span.text → kind = token.kind) ∧
        ∀ body, span.text = '"' :: body ++ ['"'] → token.literal = some (.string (String.ofList body))
  | .error _, span => OpensComment span.onwards ∨ Unreadable span.onwards

theorem Reads.munches {item : Except LexicalError Token} {span : Span source}
    (reads : Reads item span) : Munches item span := by
  cases reads with
  | token munched =>
      exact .inr ⟨munched.lexeme, munched.longest, fun _ => munched.lexeme.kind_unique, munched.quoted⟩
  | fault refused => exact refused.unreadable
  | ending empty last => exact .inl ⟨rfl, by rw [Span.onwards, empty, last]; rfl⟩

/-- Scanning takes the longest lexeme wherever there is one, and finds a fault only where there is
none or where a block comment does not end. The items go on to the end of the source. -/
theorem scan_takes_longest_lexemes (source : String) :
    ∃ spans : List (Span source),
      List.Forall₂ (fun item span => Occupies item span ∧ Munches item span) (scan source) spans ∧
      List.IsChain Span.Precedes (.beginning source :: spans) ∧
      ∃ last, spans.getLast? = some last ∧ last.after = [] := by
  obtain ⟨spans, reads, chain, ended⟩ := laidOut_scanFrom [] source.toList rfl
  exact ⟨spans, reads.imp fun _ _ read => ⟨read.occupies, read.munches⟩, chain, ended⟩

end Token

end Lox
