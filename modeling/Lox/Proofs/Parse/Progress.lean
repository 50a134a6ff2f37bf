import Lox.Proofs.Parse.Calls
import Mathlib.Data.List.TakeWhile

/-!
The parser makes progress and stays within its tokens. The trace of a call lists its moments in time.
Along a trace the tokens that are left only become fewer, from the front; so the index of the next token
never goes back, and it comes no further than the first ending.
-/

namespace Lox.Parse

inductive Moment
  | begins (call : Call)
  | ends (call : Call)

def Moment.position : Moment → Position
  | begins call => call.start
  | ends call => call.after

namespace Call

theorem Orderly.weight_lt {bound : Nat} {present last : Position} {calls : List Call}
    (orderly : Orderly bound last present calls) : ∀ call ∈ calls, call.weight < bound := by
  induction calls generalizing present with
  | nil => simp
  | cons call later ih =>
      obtain ⟨-, lighter, rest⟩ := orderly
      rw [List.forall_mem_cons]
      exact ⟨lighter, ih rest⟩

theorem weight_lt {call inner : Call} (called : inner ∈ call.calls) : inner.weight < call.weight :=
  call.orderly.weight_lt inner called

theorem wellFounded_calls : WellFounded fun inner outer : Call => inner ∈ outer.calls :=
  Subrelation.wf weight_lt (measure weight).wf

def trace (call : Call) : List Moment :=
  .begins call :: (call.calls.attach.flatMap fun inner => inner.1.trace) ++ [.ends call]
termination_by call.weight
decreasing_by exact weight_lt inner.2

theorem trace_eq (call : Call) :
    call.trace = [.begins call] ++ (call.calls.flatMap trace ++ [.ends call]) := by
  rw [trace, List.flatMap_subtype (g := trace) (fun _ _ => rfl)]
  simp

end Call

/-- Moments on the way from one position to another, on which no token is given back. -/
structure Descends (present last : Position) (moments : List Moment) : Prop where
  ordered : moments.Pairwise fun early late => late.position.rest <:+ early.position.rest
  begun : ∀ moment ∈ moments, moment.position.rest <:+ present.rest
  ended : ∀ moment ∈ moments, last.rest <:+ moment.position.rest
  whole : last.rest <:+ present.rest

namespace Descends

variable {present middle last : Position} {moments others : List Moment}

theorem nil (whole : last.rest <:+ present.rest) : Descends present last [] :=
  ⟨.nil, by simp, by simp, whole⟩

theorem single (moment : Moment) : Descends moment.position moment.position [moment] where
  ordered := List.pairwise_singleton _ _
  begun := by simp
  ended := by simp
  whole := List.suffix_rfl

theorem append (first : Descends present middle moments) (second : Descends middle last others) :
    Descends present last (moments ++ others) where
  ordered := by
    refine List.pairwise_append.mpr ⟨first.ordered, second.ordered, ?_⟩
    intro early member late member'
    exact (second.begun late member').trans (first.ended early member)
  begun := by
    rw [List.forall_mem_append]
    exact ⟨first.begun, fun late member => (second.begun late member).trans first.whole⟩
  ended := by
    rw [List.forall_mem_append]
    exact ⟨fun early member => second.whole.trans (first.ended early member), second.ended⟩
  whole := second.whole.trans first.whole

end Descends

namespace Call

theorem Orderly.descends {bound : Nat} {present last : Position} {calls : List Call}
    (orderly : Orderly bound last present calls)
    (each : ∀ call ∈ calls, Descends call.start call.after call.trace) :
    Descends present last (calls.flatMap trace) := by
  induction calls generalizing present with
  | nil => exact .nil orderly
  | cons call later ih =>
      obtain ⟨ahead, -, rest⟩ := orderly
      rw [List.forall_mem_cons] at each
      rw [List.flatMap_cons]
      have reached : Descends present call.start [] := .nil ahead
      exact (reached.append each.1).append (ih rest each.2)

theorem descends (call : Call) : Descends call.start call.after call.trace := by
  induction call using wellFounded_calls.induction with
  | _ call ih =>
      rw [trace_eq]
      have inner := call.orderly.descends ih
      exact (Descends.single (.begins call)).append (inner.append (.single (.ends call)))

end Call

/-- The tokens as they are kept for reading: an ending is supplied if the last is none. -/
def held (tokens : List Token) : List Token :=
  match tokens.getLast? with
  | none => [.ending 1]
  | some last => if last.isEnding then tokens else tokens ++ [.ending last.line]

def current (tokens : List Token) (position : Position) : Nat :=
  (words tokens).length - position.size

section Index

variable (tokens : List Token)

theorem words_append {taken others : List Token} (unended : ∀ token ∈ taken, token.isEnding = false)
    {token : Token} (isEnding : token.isEnding = true) :
    words (taken ++ token :: others) = taken := by
  induction taken with
  | nil => simp [words, isEnding]
  | cons first rest ih =>
      rw [List.forall_mem_cons] at unended
      have tail := ih unended.2
      unfold words at tail ⊢
      rw [List.cons_append, List.takeWhile_cons_of_pos (by simp [unended.1]), tail]

theorem held_eq : ∃ others, held tokens = words tokens ++ ending tokens :: others := by
  cases found : tokens.find? Token.isEnding with
  | some token =>
      obtain ⟨isEnding, taken, others, parts, unended⟩ := List.find?_eq_some_iff_append.mp found
      have first : words tokens = taken := by
        rw [parts]
        exact words_append (by simpa using unended) isEnding
      rw [first, ending, found, Option.getD_some, held]
      split
      · simp_all
      · split
        · exact ⟨others, parts⟩
        · exact ⟨others ++ [_], by rw [parts, List.append_assoc, List.cons_append]⟩
  | none =>
      have unended := List.find?_eq_none.mp found
      have first : words tokens = tokens :=
        List.takeWhile_eq_self_iff.mpr (by simpa using unended)
      refine ⟨[], ?_⟩
      rw [first, ending, found, held]
      cases last : tokens.getLast? with
      | none => simp [List.getLast?_eq_none_iff.mp last]
      | some token => simp [unended token (List.mem_of_getLast? last)]

theorem isEnding_ending : (ending tokens).isEnding = true := by
  unfold ending
  cases found : tokens.find? Token.isEnding with
  | none => rfl
  | some token => exact List.find?_some found

theorem findIdx_held : (held tokens).findIdx Token.isEnding = (words tokens).length := by
  obtain ⟨others, parts⟩ := held_eq tokens
  have unended : (words tokens).findIdx Token.isEnding = (words tokens).length := by
    rw [List.findIdx_eq_length]
    have all : (words tokens).all (!Token.isEnding ·) = true := List.all_takeWhile
    simpa using all
  rw [parts, List.findIdx_append, if_neg (by omega), List.findIdx_cons, isEnding_ending]
  simp

variable {tokens} {position later : Position}

theorem current_le (fewer : later.rest <:+ position.rest) :
    current tokens position ≤ current tokens later :=
  Nat.sub_le_sub_left fewer.length_le _

theorem current_lt (inside : position.rest <:+ words tokens) (shorter : later.size < position.size) :
    current tokens position < current tokens later := by
  have le : position.size ≤ (words tokens).length := inside.length_le
  unfold current
  omega

theorem held_current (inside : position.rest <:+ words tokens) :
    (held tokens)[current tokens position]? = some (position.place.getD (ending tokens)) := by
  obtain ⟨others, parts⟩ := held_eq tokens
  obtain ⟨taken, same⟩ := inside
  have index : current tokens position = taken.length := by
    rw [current, ← same, List.length_append, Position.size, Nat.add_sub_cancel_right]
  rw [index, parts, ← same, List.append_assoc, List.getElem?_append_right le_rfl, Nat.sub_self,
    Position.place]
  cases position.rest with
  | nil => rfl
  | cons token rest => rfl

end Index

def Call.program (tokens : List Token) (supply : Supply) : Call :=
  ⟨.declarations, ⟨words tokens, supply⟩⟩

def Call.expression (tokens : List Token) (supply : Supply) : Call :=
  ⟨.lone, ⟨words tokens, supply⟩⟩

/-- Whatever the tokens are, rules call each other only so deep and loops have only so many rounds. While
a program or an expression is read, the index of the next token never goes back and comes no further than
the first ending, so that there is a token at the index, which is the one the rules look at, and one before
it. A declaration that is begun before the end moves the index on, also if it has a fault. -/
theorem parser_advances_within_tokens (tokens : List Token) (supply : Supply) :
    (WellFounded fun inner outer : Call => inner ∈ outer.calls) ∧
    ∀ run ∈ [Call.program tokens supply, Call.expression tokens supply],
      (run.trace.map fun moment => current tokens moment.position).Pairwise (· ≤ ·) ∧
      (∀ moment ∈ run.trace,
        current tokens moment.position ≤ (held tokens).findIdx Token.isEnding ∧
        (held tokens)[current tokens moment.position]? =
          some (moment.position.place.getD (ending tokens)) ∧
        current tokens moment.position - 1 < (held tokens).length) ∧
      ∀ (start : Position) (unended : 0 < start.size),
        .begins ⟨.recovered, start⟩ ∈ run.trace →
        current tokens start < current tokens (recover (declaration start) unended).after := by
  refine ⟨Call.wellFounded_calls, fun run listed => ?_⟩
  have begun : run.start.rest = words tokens := by
    simp only [List.mem_cons, List.not_mem_nil, or_false] at listed
    rcases listed with rfl | rfl <;> rfl
  have descends := run.descends
  have inside : ∀ moment ∈ run.trace, moment.position.rest <:+ words tokens := by
    intro moment member
    rw [← begun]
    exact descends.begun moment member
  refine ⟨?_, fun moment member => ?_, fun start unended member => ?_⟩
  · exact List.pairwise_map.mpr (descends.ordered.imp fun fewer => current_le fewer)
  · have found := held_current (inside moment member)
    have bound := (List.getElem?_eq_some_iff.mp found).1
    refine ⟨?_, found, by omega⟩
    rw [findIdx_held]
    exact Nat.sub_le _ _
  · exact current_lt (inside _ member) (recover (declaration start) unended).shorter

/-- A closing parenthesis is no declaration, and what comes after the first ending is not read. -/
theorem parser_advances_over_fault :
    let paren : Token := ⟨.rightParen, ")", none, 1⟩
    let tokens : List Token := [paren, .ending 1, paren]
    let start : Position := ⟨[paren], {}⟩
    .begins ⟨.recovered, start⟩ ∈ (Call.program tokens {}).trace ∧
      current tokens start < current tokens (recover (declaration start) Nat.one_pos).after := by
  intro paren tokens start
  have begun : .begins ⟨.recovered, start⟩ ∈ (Call.program tokens {}).trace := by
    rw [Call.trace_eq, List.mem_append, List.mem_append, List.mem_flatMap]
    refine .inr (.inl ⟨⟨.recovered, start⟩, List.mem_cons_self, ?_⟩)
    rw [Call.trace_eq]
    exact List.mem_cons_self
  obtain ⟨-, reads⟩ := parser_advances_within_tokens tokens {}
  obtain ⟨-, -, advances⟩ := reads _ List.mem_cons_self
  exact ⟨begun, advances start Nat.one_pos begun⟩

end Lox.Parse
