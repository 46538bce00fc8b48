import ScriptCodec.Proofs.Asm.Rendering
import ScriptCodec.Proofs.Opcode.Wording

/-!
# Reading words back

Without overriding terms a run of characters is read as an opcode exactly if its normal form is a
word for that opcode and the opcode stands alone, which is `readTerm_eq_ok_iff`.

`ReadsBack` says of an opcode that its own text is read as that opcode.  Over a regular table and
without overrides this holds of every opcode that stands alone, in both styles:
`readsBack_of_regular`.
-/

namespace ScriptCodec
namespace Asm

namespace Lexicon

variable {table : Opcode.Table}

theorem opcodeOf_eq_ok_iff
    {word : String}
    {position : Nat}
    {code : UInt8} :
    opcodeOf ⟨Overrides.empty, table⟩ word position = .ok code ↔
      table.codeOfWord word = .ok code := by
  simp only [opcodeOf, Overrides.get?_empty]
  constructor
  · intro named
    split at named
    · exact named
    · simp at named
  · intro named
    obtain ⟨row, mem, has_word, _⟩ := Opcode.Table.row_of_codeOfWord named
    rw [if_pos (Opcode.Table.hasWord_iff.mpr ⟨row, mem, has_word⟩)]
    exact named

/-- A run is read as an opcode iff it is a word for one that stands alone. -/
theorem readTerm_eq_ok_iff
    {run : List Char}
    {position : Nat}
    {code : UInt8} :
    readTerm ⟨Overrides.empty, table⟩ run position = .ok code ↔
      (∀ ch ∈ run, isTermChar ch = true) ∧
      table.codeOfWord (Term.normalize run) = .ok code ∧
      Opcode.isPush code = false := by
  unfold readTerm
  cases foreign : run.findIdx? (fun ch => !isTermChar ch) with
  | some i =>
      obtain ⟨inside, noTerm, _⟩ := List.findIdx?_eq_some_iff_getElem.mp foreign
      constructor
      · intro read
        cases read
      · rintro ⟨chars, _, _⟩
        simp [chars _ (List.getElem_mem inside)] at noTerm
  | none =>
      have chars : ∀ ch ∈ run, isTermChar ch = true := by
        intro ch mem
        simpa using List.findIdx?_eq_none_iff.mp foreign ch mem
      cases named :
          opcodeOf ⟨Overrides.empty, table⟩ (Term.normalize run) position with
      | error e =>
          constructor
          · intro read
            cases read
          · rintro ⟨_, named', _⟩
            rw [opcodeOf_eq_ok_iff.mpr named'] at named
            cases named
      | ok code' =>
          have named' := opcodeOf_eq_ok_iff.mp named
          rw [named']
          simp only
          by_cases push : Opcode.isPush code' = true
          · rw [if_pos push]
            constructor
            · intro read
              cases read
            · rintro ⟨_, same, noPush⟩
              cases same
              simp [push] at noPush
          · rw [if_neg push]
            constructor
            · intro read
              cases read
              exact ⟨chars, rfl, eq_false_of_ne_true push⟩
            · rintro ⟨_, same, _⟩
              exact same

end Lexicon

/-! ## The texts of opcodes -/

/-- The text of an opcode is read as that opcode. -/
def ReadsBack
    (options : Options)
    (table : Opcode.Table)
    (code : UInt8) : Prop :=
  ReadAs options table (.opcode code) (.opcode code)

theorem isTermChar_of_isWordChar
    {ch : Char}
    (wordChar : Opcode.isWordChar ch = true) :
    isTermChar ch = true := by
  simp only [Opcode.isWordChar, Bool.or_eq_true] at wordChar
  have parts : isTermChar ch = (((ch.isUpper || ch.isLower) || ch.isDigit) || ch == '_') := rfl
  rw [parts, Bool.or_eq_true, Bool.or_eq_true, Bool.or_eq_true]
  rcases wordChar with (upper | digit) | underscore
  · exact .inl (.inl (.inl upper))
  · exact .inl (.inr digit)
  · exact .inr underscore

section Styles

variable {word : List Char}

theorem isRun_word
    (isWord : Opcode.IsWord word) :
    IsRun word := by
  have parts := isWord.mark_append_body
  refine ⟨?_, ?_, ?_, ?_⟩
  · rintro rfl
    simp [Term.mark] at parts
  · intro ch mem
    exact isTermChar_of_isWordChar (isWord.chars ch mem)
  · rintro rfl
    simp [Term.mark] at parts
  · rw [← parts]
    simp [Term.mark]

theorem isRun_body
    (isWord : Opcode.IsWord word)
    (not_zero : word.drop Term.mark.length ≠ ['0']) :
    IsRun (word.drop Term.mark.length) := by
  have chars : ∀ ch ∈ word.drop Term.mark.length, Opcode.isWordChar ch = true := by
    intro ch mem
    exact isWord.chars ch (List.mem_of_mem_drop mem)
  refine ⟨isWord.body_ne_nil, ?_, not_zero, ?_, isWord.not_prefixed⟩
  · intro ch mem
    exact isTermChar_of_isWordChar (chars ch mem)
  · intro first
    have mem : 'x' ∈ word.drop Term.mark.length := by
      apply List.mem_of_mem_take
      rw [first]
      simp
    exact absurd (chars 'x' mem) (by decide)

end Styles

variable {options : Options} {table : Opcode.Table}

/-- Without overrides, the words of a regular table are read back in both styles. -/
theorem readsBack_of_regular
    (regular : table.Regular)
    (no_terms : options.terms = Overrides.empty)
    (no_words : options.opcodeWords = Overrides.empty)
    {code : UInt8}
    (alone : table.StandsAlone code) :
    ReadsBack options table code := by
  obtain ⟨word, name, isWord, named⟩ := regular.exists_nameOfCode alone
  have read : ∀ run, Term.normalChars run = word.toList → IsRun run →
      decode run options table = .ok [.opcode code] := by
    intro run normal isRun
    apply decode_run isRun
    rw [no_terms]
    apply Lexicon.readTerm_eq_ok_iff.mpr
    refine ⟨isRun.chars, ?_, alone.2⟩
    rw [Term.normalize, normal, String.ofList_toList]
    exact named
  refine ⟨styledWord options.opcodeStyle word, ?_, ?_⟩
  · simp [formatToken, no_words, name, Except.map]
  · cases options.opcodeStyle with
    | normal =>
        exact read word.toList isWord.normalChars_eq (isRun_word isWord)
    | short =>
        simp only [styledWord, dropMark, isWord.marked, if_true, String.toList_ofList]
        by_cases zero : word.toList.drop Term.mark.length = ['0']
        · have word_eq : word = "OP_0" := by
            apply String.toList_inj.mp
            rw [← isWord.mark_append_body, zero]
            rfl
          rw [word_eq, regular.zero] at named
          cases named
          rw [zero]
          exact decode_zero
        · exact read _ isWord.normalChars_body (isRun_body isWord zero)

end Asm
end ScriptCodec
