import Lox.Parse.Program
import Mathlib.Tactic

/-!
When a rule succeeds without a note. `Yields` forgets the bounds that an outcome carries; each way of
building outcomes has one lemma that says when it yields a value.
-/

namespace Lox

namespace Position

theorem accept?_eq_some {position after : Position} {accepted : TokenKind → Bool} {token : Token}
    {shorter : after.size < position.size}
    (found : position.accept? accepted = some (token, ⟨after, shorter⟩)) :
    position.rest = token :: after.rest ∧ after.supply = position.supply ∧
      accepted token.kind = true := by
  obtain ⟨rest, supply⟩ := position
  cases rest with
  | nil => simp [accept?] at found
  | cons first rest =>
      simp only [accept?] at found
      split at found
      · rename_i holds
        simp only [Option.some.injEq, Prod.mk.injEq] at found
        obtain ⟨rfl, same⟩ := found
        obtain rfl := congrArg Subtype.val same
        exact ⟨rfl, rfl, holds⟩
      · simp at found

theorem accept?_eq_none {position : Position} {accepted : TokenKind → Bool}
    (refused : position.accept? accepted = none) :
    ∀ token ∈ position.rest.head?, accepted token.kind = false := by
  obtain ⟨rest, supply⟩ := position
  cases rest with
  | nil => simp
  | cons first rest =>
      simp only [accept?] at refused
      split at refused
      · simp at refused
      · rename_i fails
        simpa using fails

theorem accept?_cons {token : Token} {rest : List Token} {supply : Supply}
    {accepted : TokenKind → Bool} (holds : accepted token.kind = true) :
    accept? ⟨token :: rest, supply⟩ accepted =
      some (token, ⟨⟨rest, supply⟩, by simp [size]⟩) := by
  simp [accept?, holds]

theorem accept?_none {rest : List Token} {supply : Supply} {accepted : TokenKind → Bool}
    (fails : ∀ token ∈ rest.head?, accepted token.kind = false) :
    accept? ⟨rest, supply⟩ accepted = none := by
  cases rest with
  | nil => rfl
  | cons token rest => simp [accept?, fails token rfl]

theorem isAt_cons (token : Token) (rest : List Token) (supply : Supply) (kind : TokenKind) :
    isAt ⟨token :: rest, supply⟩ kind = true ↔ token.kind = kind := by
  simp [isAt, place]

end Position

namespace Parsed

variable {α β : Type} {bound small : Nat}

/-- The rule succeeded with this value and took no note. -/
def Yields (parsed : Parsed α bound) (value : α) (after : Position) : Prop :=
  ∃ shorter, parsed = .done value [] after shorter

theorem Yields.size_lt {parsed : Parsed α bound} {value : α} {after : Position}
    (yields : parsed.Yields value after) : after.size < bound := yields.1

@[simp] theorem yields_done {value found : α} {notes : List Complaint} {after last : Position}
    {shorter : after.size < bound} :
    (done value notes after shorter).Yields found last ↔
      value = found ∧ notes = [] ∧ after = last := by
  constructor
  · rintro ⟨_, same⟩
    simp only [done.injEq] at same
    exact same
  · rintro ⟨rfl, rfl, rfl⟩
    exact ⟨shorter, rfl⟩

@[simp] theorem not_yields_stuck {found : α} {cause : Complaint} {notes : List Complaint}
    {after last : Position} {fits : after.size ≤ bound} :
    ¬ (stuck cause notes after fits : Parsed α bound).Yields found last := by
  rintro ⟨_, same⟩
  cases same

@[simp] theorem yields_noting {parsed : Parsed α bound} {earlier : List Complaint} {found : α}
    {last : Position} :
    (parsed.noting earlier).Yields found last ↔ earlier = [] ∧ parsed.Yields found last := by
  cases parsed with
  | done value notes after shorter =>
      simp only [noting, yields_done, List.append_eq_nil_iff]
      tauto
  | stuck cause notes after fits => simp [noting]

@[simp] theorem yields_within {parsed : Parsed α small} {weaker : small ≤ bound} {found : α}
    {last : Position} : (parsed.within weaker).Yields found last ↔ parsed.Yields found last := by
  cases parsed <;> simp [within]

@[simp] theorem yields_map {parsed : Parsed α small} {change : α → β} {weaker : small ≤ bound}
    {found : β} {last : Position} :
    (parsed.map change weaker).Yields found last ↔
      ∃ value, parsed.Yields value last ∧ change value = found := by
  cases parsed with
  | done value notes after shorter =>
      simp only [map, yields_done]
      constructor
      · rintro ⟨rfl, rfl, rfl⟩
        exact ⟨value, ⟨rfl, rfl, rfl⟩, rfl⟩
      · rintro ⟨_, ⟨rfl, rfl, rfl⟩, rfl⟩
        exact ⟨rfl, rfl, rfl⟩
  | stuck cause notes after fits => simp [map]

theorem yields_andThen {parsed : Parsed α small}
    {next : (value : α) → (after : Position) → after.size < small → Parsed β bound}
    {weaker : small ≤ bound} {found : β} {last : Position} :
    (parsed.andThen next weaker).Yields found last ↔
      ∃ value after, ∃ yields : parsed.Yields value after,
        (next value after yields.size_lt).Yields found last := by
  cases parsed with
  | done value notes after shorter =>
      simp only [andThen, yields_noting, yields_done]
      constructor
      · rintro ⟨rfl, continued⟩
        exact ⟨value, after, ⟨rfl, rfl, rfl⟩, continued⟩
      · rintro ⟨_, _, ⟨rfl, rfl, rfl⟩, continued⟩
        exact ⟨rfl, continued⟩
  | stuck cause notes after fits => simp [andThen]

theorem Yields.andThen {parsed : Parsed α small} {value : α} {after : Position}
    (yields : parsed.Yields value after)
    {next : (value : α) → (after : Position) → after.size < small → Parsed β bound}
    {weaker : small ≤ bound} {found : β} {last : Position}
    (continued : (next value after yields.size_lt).Yields found last) :
    (parsed.andThen next weaker).Yields found last :=
  yields_andThen.mpr ⟨value, after, yields, continued⟩

theorem Yields.map {parsed : Parsed α small} {value : α} {after : Position}
    (yields : parsed.Yields value after) {change : α → β} {weaker : small ≤ bound} :
    (parsed.map change weaker).Yields (change value) after :=
  yields_map.mpr ⟨value, yields, rfl⟩

end Parsed

namespace Position

theorem yields_expect {position after : Position} {kind : TokenKind} {what : Expected}
    {token : Token} :
    (position.expect kind what).Yields token after ↔
      position.rest = token :: after.rest ∧ after.supply = position.supply ∧
        token.kind = kind := by
  unfold expect
  constructor
  · intro yields
    split at yields
    · rename_i found next consumed accepted
      obtain ⟨rfl, -, rfl⟩ := Parsed.yields_done.mp yields
      obtain ⟨rest, supply, holds⟩ := accept?_eq_some accepted
      exact ⟨rest, supply, by simpa using holds⟩
    · exact absurd yields Parsed.not_yields_stuck
  · rintro ⟨rest, supply, rfl⟩
    obtain ⟨_, _⟩ := position
    obtain ⟨_, _⟩ := after
    subst rest supply
    rw [accept?_cons (by simp)]
    exact Parsed.yields_done.mpr ⟨rfl, rfl, rfl⟩

theorem yields_expect_cons {token : Token} {rest : List Token} {supply : Supply}
    {kind : TokenKind} {what : Expected} (same : token.kind = kind) :
    (expect ⟨token :: rest, supply⟩ kind what).Yields token ⟨rest, supply⟩ :=
  yields_expect.mpr ⟨rfl, rfl, same⟩

end Position

end Lox
