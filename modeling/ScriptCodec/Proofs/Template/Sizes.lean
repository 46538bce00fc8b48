import ScriptCodec.Proofs.Template.Filling

/-!
# Placeholders that state a size

A placeholder that starts with digits and the mark of a size stands for the literals of that size,
as long as the number fits a word of 64 bits.  A larger number is not taken for a size at all: the
placeholder is then read like any other text, by its words, and if these are no words of the table
every literal is accepted.

* `holdsSize_iff` says that no other slot has exactly the literals of one size;
* `ofText_sizedText` says what a placeholder with digits and the mark is read as;
* `holdsSize_sizedText_iff` is the law of such placeholders, with the exact bound up to which it
  holds, and `accepts_oversized` a placeholder beyond it.
-/

namespace ScriptCodec

/-! ## Numerals -/

namespace Decimal

/-- Digits are read as their number if it fits. -/
theorem word64?_eq
    {digits : List Char}
    (some_digit : digits ≠ []) :
    word64? digits = if value digits < 2 ^ 64 then some (value digits) else none := by
  have not_empty : digits.isEmpty = false := by
    simpa using some_digit
  simp only [word64?, not_empty]
  rfl

end Decimal

/-! ## Slots -/

namespace Slot

/-- The slot of a text that states no size: the opcodes that it names, or else any literal. -/
def ofWords
    (table : Opcode.Table)
    (text : List Char) :
    Slot :=
  match opcode? table text with
  | some code => .opcodes code code
  | none =>
      match range? table text with
      | some (first, last) => .opcodes first last
      | none => .anyLiteral

/-- The slot stands for the literals of one size and for nothing else. -/
def HoldsSize
    (slot : Slot)
    (size : Nat) :
    Prop :=
  ∀ t, slot.accepts t = true ↔ ∃ data, t = .literal data ∧ data.length = size

/-- The text of a placeholder that starts with digits and the mark of a size. -/
def sizedText
    (digits suffix : List Char) :
    String :=
  String.ofList (digits ++ (sizeMark ++ suffix))

variable {table : Opcode.Table} {digits suffix : List Char} {size : Nat} {slot : Slot}

theorem holdsSize_iff_literal :
    slot.HoldsSize size ↔
      (∀ data, slot.accepts (.literal data) = true ↔ data.length = size) ∧
      ∀ t, slot.accepts t = true → ∃ data, t = .literal data := by
  constructor
  · intro holds
    refine ⟨?_, ?_⟩
    · intro data
      rw [holds]
      simp
    · intro t accepted
      obtain ⟨data, same, _⟩ := (holds t).mp accepted
      exact ⟨data, same⟩
  · rintro ⟨literals, only⟩ t
    constructor
    · intro accepted
      obtain ⟨data, rfl⟩ := only t accepted
      exact ⟨data, rfl, (literals data).mp accepted⟩
    · rintro ⟨data, rfl, fits⟩
      exact (literals data).mpr fits

/-- The slot for a size is the only one that takes exactly the literals of this size. -/
theorem forall_accepts_literal_iff :
    (∀ data, slot.accepts (.literal data) = true ↔ data.length = size) ↔ slot = .sized size := by
  constructor
  · intro literals
    cases slot with
    | sized n =>
        have own := (literals (List.replicate size 0)).mpr (by simp)
        simp only [accepts, List.length_replicate, beq_iff_eq] at own
        rw [own]
    | opcodes first last =>
        have own := (literals (List.replicate size 0)).mpr (by simp)
        cases own
    | anyLiteral =>
        have longer := (literals (List.replicate (size + 1) 0)).mp rfl
        simp at longer
  · rintro rfl data
    simp [accepts]

theorem holdsSize_iff :
    slot.HoldsSize size ↔ slot = .sized size := by
  rw [holdsSize_iff_literal, forall_accepts_literal_iff, and_iff_left_iff_imp]
  rintro rfl t accepted
  cases t with
  | literal data =>
      exact ⟨data, rfl⟩
  | _ =>
      cases accepted

section Digits

variable (some_digit : digits ≠ []) (each : ∀ c ∈ digits, c.isDigit = true)

include some_digit each

/-- Digits with the mark behind them state a size if their number fits. -/
theorem size?_sizedText :
    size? (sizedText digits suffix).toList =
      if Decimal.value digits < 2 ^ 64 then some (Decimal.value digits) else none := by
  have no_digit : '-'.isDigit = false := by
    decide
  have digits_eq : (digits ++ (sizeMark ++ suffix)).takeWhile Char.isDigit = digits := by
    rw [List.takeWhile_append_of_pos each]
    simp [sizeMark, no_digit]
  have behind : (digits ++ (sizeMark ++ suffix)).dropWhile Char.isDigit = sizeMark ++ suffix := by
    rw [List.dropWhile_append_of_pos each]
    simp [sizeMark, no_digit]
  have marked : sizeMark.isPrefixOf (sizeMark ++ suffix) = true := by
    simp
  rw [sizedText, String.toList_ofList, size?, behind, if_pos marked, digits_eq,
    Decimal.word64?_eq some_digit]

/-- What a placeholder with digits and the mark is read as. -/
theorem ofText_sizedText :
    ofText table (sizedText digits suffix) =
      if Decimal.value digits < 2 ^ 64 then .sized (Decimal.value digits)
      else ofWords table (digits ++ (sizeMark ++ suffix)) := by
  have found : size? (sizedText digits suffix).toList = _ := size?_sizedText some_digit each
  by_cases fits : Decimal.value digits < 2 ^ 64
  · rw [if_pos fits] at found
    rw [ofText, ofChars, found, if_pos fits]
  · rw [if_neg fits] at found
    rw [ofText, ofChars, found, if_neg fits, sizedText, String.toList_ofList]
    rfl

/-- The placeholder is read as a slot for its number exactly if that fits. -/
theorem ofText_sizedText_eq_sized_iff :
    ofText table (sizedText digits suffix) = .sized (Decimal.value digits) ↔
      Decimal.value digits < 2 ^ 64 := by
  rw [ofText_sizedText some_digit each]
  split
  · next fits =>
      exact iff_of_true rfl fits
  · next large =>
      simp only [large, iff_false, ofWords]
      split
      · simp
      split
      · simp
      · simp

end Digits

end Slot

/-! ## Filling one placeholder -/

namespace Template

variable {table : Opcode.Table} {text : String}

/-- One value fills one placeholder if it may stand there. -/
theorem exists_fill_placeholder_iff
    {value : List UInt8} :
    (∃ tokens, fill table [.placeholder text] [value] = .ok tokens) ↔
      (Slot.ofText table text).accepts (.literal value) = true := by
  simp only [fill, fillOnto_placeholder_eq_ok_iff]
  constructor
  · rintro ⟨tokens, first, others, same, accepted, _⟩
    cases same
    exact accepted
  · intro accepted
    exact ⟨[.literal value], value, [], rfl, accepted, rfl⟩

/-- **Placeholders with a size**, over every table: digits, the mark, and anything behind it.  Such a
placeholder accepts the literals of the size that the digits denote and nothing else, and one value
fills it exactly if it has that size, as long as the size is below two to the power of 64.  Both
fail for every larger size, where the placeholder is read by its words. -/
theorem holdsSize_sizedText_iff
    (table : Opcode.Table)
    {digits : List Char}
    (some_digit : digits ≠ [])
    (each : ∀ c ∈ digits, c.isDigit = true)
    (suffix : List Char) :
    ((Slot.ofText table (Slot.sizedText digits suffix)).HoldsSize (Decimal.value digits) ↔
      Decimal.value digits < 2 ^ 64) ∧
    ((∀ value,
        (∃ tokens,
          fill table [.placeholder (Slot.sizedText digits suffix)] [value] = .ok tokens) ↔
        value.length = Decimal.value digits) ↔
      Decimal.value digits < 2 ^ 64) ∧
    (2 ^ 64 ≤ Decimal.value digits →
      Slot.ofText table (Slot.sizedText digits suffix) =
        Slot.ofWords table (digits ++ (Slot.sizeMark ++ suffix))) := by
  refine ⟨?_, ?_, ?_⟩
  · rw [Slot.holdsSize_iff, Slot.ofText_sizedText_eq_sized_iff some_digit each]
  · simp only [exists_fill_placeholder_iff]
    rw [Slot.forall_accepts_literal_iff, Slot.ofText_sizedText_eq_sized_iff some_digit each]
  · intro large
    rw [Slot.ofText_sizedText some_digit each, if_neg (Nat.not_lt_of_le large)]

/-- A size with a leading zero. -/
theorem holdsSize_sizedText_iff_twenty :
    "020".toList ≠ [] ∧
    (∀ c ∈ "020".toList, c.isDigit = true) ∧
    (Slot.ofText Opcode.Table.standard (Slot.sizedText "020".toList "-hash".toList)).HoldsSize 20 := by
  have some_digit : "020".toList ≠ [] := by
    decide
  have each : ∀ c ∈ "020".toList, c.isDigit = true := by
    simp
  have law := holdsSize_sizedText_iff Opcode.Table.standard some_digit each "-hash".toList
  exact ⟨some_digit, each, law.1.mpr (by decide)⟩

/-- The empty literal is accepted for a size of two to the power of 64, and fills its placeholder. -/
theorem accepts_oversized :
    let digits := "18446744073709551616".toList
    let text := Slot.sizedText digits []
    digits ≠ [] ∧
    (∀ c ∈ digits, c.isDigit = true) ∧
    Decimal.value digits = 2 ^ 64 ∧
    ([] : List UInt8).length ≠ Decimal.value digits ∧
    (Slot.ofText Opcode.Table.standard text).accepts (.literal []) = true ∧
    fill Opcode.Table.standard [.placeholder text] [[]] = .ok [.literal []] := by
  have each : ∀ c ∈ "18446744073709551616".toList, c.isDigit = true := by
    simp
  refine ⟨?_, each, ?_⟩
  · decide
  · decide +kernel

end Template
end ScriptCodec
