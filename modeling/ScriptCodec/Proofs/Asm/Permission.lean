import ScriptCodec.Proofs.Asm.Composition
import ScriptCodec.Proofs.Asm.Tokens

/-!
# The permission of template entries

Placeholders and repeat marks are read only where the options allow them.  They start with
characters that start nothing else, so the permission has no part in reading anything but them: the
tokens that are found without it are those found with it that are no template entries, which is
`step_forbidden_iff` for one step.

Behind size headers template entries are never read, whatever the options say.
`decodeLocated_forbidden_iff` compares whole texts.
-/

namespace ScriptCodec
namespace Asm

/-- Whether a text starts like a template entry. -/
def StartsEntry
    (text : List Char) : Prop :=
  text.head? = some '<' ∨ text.head? = some '.'

section Entries

variable
  {lexicon : Lexicon}
  {c behind : Cursor Char}
  {t : Token}

/-- Where no template entry starts, the permission is not asked for. -/
theorem plainToken_of_no_entry
    (noEntry : ¬ StartsEntry c.rest)
    (placeholders : Bool) :
    plainToken lexicon placeholders c = plainToken lexicon false c := by
  unfold plainToken
  cases rest : c.rest with
  | nil =>
      rfl
  | cons ch body =>
      rw [rest] at noEntry
      simp only [StartsEntry, List.head?_cons, Option.some.injEq, not_or] at noEntry
      simp only [noEntry.1, noEntry.2, and_false, if_false]

/-- Without the permission, nothing is read where a template entry starts. -/
theorem not_startsEntry_of_forbidden
    (read : plainToken lexicon false c = .ok (t, behind)) :
    ¬ StartsEntry c.rest := by
  intro entry
  unfold plainToken at read
  cases rest : c.rest with
  | nil =>
      simp [StartsEntry, rest] at entry
  | cons ch body =>
      simp only [rest] at read
      rw [StartsEntry, rest] at entry
      rcases entry with mark | mark
      · cases mark
        cases read
      · cases mark
        cases read

/-- With the permission, a template entry is read where one starts. -/
theorem not_startsEntry_of_isConcrete
    (concrete : t.isConcrete = true)
    (read : plainToken lexicon true c = .ok (t, behind)) :
    ¬ StartsEntry c.rest := by
  intro entry
  unfold plainToken at read
  cases rest : c.rest with
  | nil =>
      simp [StartsEntry, rest] at entry
  | cons ch body =>
      simp only [rest] at read
      rw [StartsEntry, rest] at entry
      rcases entry with mark | mark
      · cases mark
        have read : placeholder c.pos (c.advance 1) = .ok (t, behind) := read
        simp only [placeholder] at read
        split at read
        · cases read
        · cases read
          cases concrete
      · cases mark
        have read : (if body.take 2 = ['.', '.'] then .ok (.repetition, c.advance 3)
            else .error (.unexpectedCharacter c.pos) : Reading) = .ok (t, behind) := read
        split at read
        · cases read
          cases concrete
        · cases read

theorem isConcrete_of_forbidden
    (read : plainToken lexicon false c = .ok (t, behind)) :
    t.isConcrete = true := by
  have readable := plainToken_readable read
  cases t with
  | literal data =>
      rfl
  | opcode code =>
      rfl
  | placeholder text =>
      cases readable.1
  | repetition =>
      cases readable

theorem plainToken_forbidden_iff :
    plainToken lexicon false c = .ok (t, behind) ↔
      plainToken lexicon true c = .ok (t, behind) ∧ t.isConcrete = true := by
  constructor
  · intro read
    rw [plainToken_of_no_entry (not_startsEntry_of_forbidden read)]
    exact ⟨read, isConcrete_of_forbidden read⟩
  · rintro ⟨read, concrete⟩
    rw [← plainToken_of_no_entry (not_startsEntry_of_isConcrete concrete read) true]
    exact read

/-- A step without the permission finds what a step with it finds, template entries apart. -/
theorem step_forbidden_iff
    {s : Located} :
    step lexicon false c = .item s behind ↔
      step lexicon true c = .item s behind ∧ s.token.isConcrete = true := by
  constructor
  · intro found
    rcases step_item_cases found with
      ⟨here, t, skipped, read, rfl⟩ | ⟨here, inner, outer, data, start, skipped, read, sizes, rfl⟩
    · obtain ⟨allowed, concrete⟩ := plainToken_forbidden_iff.mp read
      exact ⟨step_of_plain skipped allowed, concrete⟩
    · exact ⟨step_of_sized skipped read sizes, rfl⟩
  · rintro ⟨found, concrete⟩
    rcases step_item_cases found with
      ⟨here, t, skipped, read, rfl⟩ | ⟨here, inner, outer, data, start, skipped, read, sizes, rfl⟩
    · exact step_of_plain skipped (plainToken_forbidden_iff.mpr ⟨read, concrete⟩)
    · exact step_of_sized skipped read sizes

/-- A text ends with and without the permission where only white space is left. -/
theorem step_done_forbidden_iff :
    step lexicon false c = .done ↔ step lexicon true c = .done := by
  rw [step_done_iff, step_done_iff]

end Entries

/-- **Allowing template entries is a conservative extension**: a text is read without the permission
exactly if it is read with it and no token of it is a template entry, and then as the same tokens
with the same spans. -/
theorem decodeLocated_forbidden_iff
    (text : List Char)
    (options : Options)
    (table : Opcode.Table)
    (located : List Located) :
    decodeLocated text { options with allowPlaceholders := false } table = .ok located ↔
      decodeLocated text { options with allowPlaceholders := true } table = .ok located ∧
      ∀ s ∈ located, s.token.isConcrete = true := by
  rw [decodeLocated_eq_ok_iff, decodeLocated_eq_ok_iff]
  exact Reader.run_complete_iff (fun _ => step_done_forbidden_iff)
    (fun _ _ _ => step_forbidden_iff) (Cursor.start text)

end Asm
end ScriptCodec
