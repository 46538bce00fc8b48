import Mathlib.Data.List.GetD
import Mathlib.Data.List.Nodup
import Mathlib.Data.List.Pairwise
import ScriptCodec.Opcode.Table

/-!
# Looking up words and opcodes

A look-up finds a row of the table that has the word or the opcode.  On every table a word that
names an opcode names one with a row.  On a consistent table, where no word stands twice and words
are paired with opcodes, every word names an opcode, and the word of an opcode names that opcode:
`exists_codeOfWord` and `codeOfWord_of_wordOf?`.
-/

namespace ScriptCodec
namespace Opcode

/-! ## Rows -/

theorem exists_findIdx?
    {α : Type}
    [BEq α]
    [LawfulBEq α]
    {xs : List α}
    {a : α}
    (mem : a ∈ xs) :
    ∃ place, xs.findIdx? (· == a) = some place := by
  rw [← Option.isSome_iff_exists, List.findIdx?_isSome]
  exact List.any_eq_true.mpr ⟨a, mem, by simp⟩

/-- An element that stands once is found at its own place. -/
theorem findIdx?_getElem
    {α : Type}
    [BEq α]
    [LawfulBEq α]
    {xs : List α}
    (nodup : xs.Nodup)
    {place : Nat}
    (inside : place < xs.length) :
    xs.findIdx? (· == xs[place]) = some place := by
  apply List.findIdx?_eq_some_iff_getElem.mpr
  refine ⟨inside, by simp, ?_⟩
  intro j before same
  have equal := eq_of_beq same
  rw [nodup.getElem_inj_iff] at equal
  omega

namespace Row

/-- The opcode that a row gives to a word is one of its own. -/
theorem mem_of_opcodeOf?
    {row : Row}
    {word : String}
    {code : UInt8}
    (named : row.opcodeOf? word = some code) :
    code ∈ row.opcodes := by
  unfold opcodeOf? at named
  split at named
  · next only codes =>
      simp only [Option.some.injEq] at named
      simp [codes, named]
  · obtain ⟨i, _, at_i⟩ := Option.bind_eq_some_iff.mp named
    exact List.mem_of_getElem? at_i

/-- The word that a row gives to an opcode is one of its own. -/
theorem mem_of_wordOf?
    {row : Row}
    {code : UInt8}
    {word : String}
    (worded : row.wordOf? code = some word) :
    word ∈ row.words := by
  unfold wordOf? at worded
  split at worded
  · simp at worded
  · next only words =>
      simp only [Option.some.injEq] at worded
      simp [words, worded]
  · next first others _ words =>
      simp only [Option.some.injEq] at worded
      rw [words, ← worded, List.getD_eq_getElem?_getD]
      cases at_place : (first :: others)[(row.opcodes.findIdx? (· == code)).getD 0]? with
      | none =>
          simp
      | some found =>
          exact List.mem_of_getElem? at_place

/-- A row with words gives one to every opcode. -/
theorem exists_wordOf?
    {row : Row}
    (some_word : row.words ≠ [])
    (code : UInt8) :
    ∃ word, row.wordOf? code = some word := by
  unfold wordOf?
  split
  · next words =>
      exact absurd words some_word
  · exact ⟨_, rfl⟩
  · exact ⟨_, rfl⟩

/-- A row with one opcode, or with a word for every opcode. -/
def Paired
    (row : Row) : Prop :=
  row.opcodes.length = 1 ∨ row.words.length = row.opcodes.length

instance
    (row : Row) :
    Decidable row.Paired :=
  inferInstanceAs (Decidable (_ ∨ _))

theorem Paired.length_eq
    {row : Row}
    (paired : row.Paired)
    (several : ∀ code, row.opcodes ≠ [code]) :
    row.words.length = row.opcodes.length := by
  rcases paired with one | same
  · obtain ⟨code, codes⟩ := List.length_eq_one_iff.mp one
    exact absurd codes (several code)
  · exact same

/-- A row names an opcode for each of its words. -/
theorem exists_opcodeOf?
    {row : Row}
    (paired : row.Paired)
    {word : String}
    (mem : word ∈ row.words) :
    ∃ code, row.opcodeOf? word = some code := by
  unfold opcodeOf?
  split
  · exact ⟨_, rfl⟩
  · next several =>
      have same_length := paired.length_eq several
      obtain ⟨place, found⟩ := exists_findIdx? mem
      obtain ⟨inside, _, _⟩ := List.findIdx?_eq_some_iff_getElem.mp found
      rw [same_length] at inside
      exact ⟨row.opcodes[place], by simp [found, inside]⟩

/-- In a row whose words are different, the word of an opcode names that opcode. -/
theorem opcodeOf?_of_wordOf?
    {row : Row}
    (paired : row.Paired)
    (words_nodup : row.words.Nodup)
    {code : UInt8}
    (mem : code ∈ row.opcodes)
    {word : String}
    (worded : row.wordOf? code = some word) :
    row.opcodeOf? word = some code := by
  unfold opcodeOf?
  split
  · next only codes =>
      rw [codes, List.mem_singleton] at mem
      rw [mem]
  · next several =>
      have same_length := paired.length_eq several
      obtain ⟨place, found⟩ := exists_findIdx? mem
      obtain ⟨inside, at_place, _⟩ := List.findIdx?_eq_some_iff_getElem.mp found
      have inside' : place < row.words.length := by
        rw [same_length]
        exact inside
      have word_eq : word = row.words[place] := by
        unfold wordOf? at worded
        split at worded
        · simp at worded
        · next only words =>
            rw [words] at same_length
            obtain ⟨only, codes⟩ := List.length_eq_one_iff.mp same_length.symm
            exact absurd codes (several only)
        · next first others _ words =>
            simp only [found, Option.getD_some, Option.some.injEq] at worded
            rw [← worded, ← words]
            exact List.getD_eq_getElem _ _ inside'
      have place_of_word : row.words.findIdx? (· == word) = some place := by
        rw [word_eq]
        exact findIdx?_getElem words_nodup inside'
      rw [place_of_word]
      rw [Option.bind_some, List.getElem?_eq_getElem inside, eq_of_beq at_place]

end Row

/-! ## Tables -/

namespace Table

variable {table : Table}

theorem rowOfCode?_cases
    {code : UInt8}
    {row : Row}
    (found : table.rowOfCode? code = some row) :
    row ∈ table.latestFirst ∧ code ∈ row.opcodes := by
  refine ⟨List.mem_of_find?_eq_some found, ?_⟩
  simpa using List.find?_some found

theorem rowOfWord?_cases
    {word : String}
    {row : Row}
    (found : table.rowOfWord? word = some row) :
    row ∈ table.latestFirst ∧ word ∈ row.words := by
  refine ⟨List.mem_of_find?_eq_some found, ?_⟩
  simpa using List.find?_some found

theorem hasCode_iff
    {code : UInt8} :
    table.hasCode code = true ↔ ∃ row ∈ table.latestFirst, code ∈ row.opcodes := by
  simp [hasCode, rowOfCode?]

theorem hasWord_iff
    {word : String} :
    table.hasWord word = true ↔ ∃ row ∈ table.latestFirst, word ∈ row.words := by
  simp [hasWord, rowOfWord?]

/-- An opcode that has a row and starts no push. -/
def StandsAlone
    (table : Table)
    (code : UInt8) : Prop :=
  table.hasCode code = true ∧ isPush code = false

instance
    (table : Table) :
    DecidablePred table.StandsAlone :=
  fun code =>
    inferInstanceAs (Decidable (table.hasCode code = true ∧ isPush code = false))

/-- Words name opcodes only if there is a row for them. -/
theorem row_of_codeOfWord
    {word : String}
    {code : UInt8}
    (named : table.codeOfWord word = .ok code) :
    ∃ row ∈ table.latestFirst, word ∈ row.words ∧ row.opcodeOf? word = some code := by
  unfold codeOfWord at named
  split at named
  · next found =>
      simp only [Except.ok.injEq] at named
      obtain ⟨row, in_table, from_row⟩ := Option.bind_eq_some_iff.mp found
      obtain ⟨mem, has_word⟩ := rowOfWord?_cases in_table
      exact ⟨row, mem, has_word, named ▸ from_row⟩
  · simp at named

/-- An opcode that a word names is in the table. -/
theorem hasCode_of_codeOfWord
    {word : String}
    {code : UInt8}
    (named : table.codeOfWord word = .ok code) :
    table.hasCode code = true := by
  obtain ⟨row, mem, _, from_row⟩ := row_of_codeOfWord named
  exact hasCode_iff.mpr ⟨row, mem, Row.mem_of_opcodeOf? from_row⟩

/-- Tables in which no word stands twice and words are paired with opcodes. -/
structure Consistent
    (table : Table) : Prop where
  words_nodup : (table.latestFirst.flatMap Row.words).Nodup
  paired : ∀ row ∈ table.latestFirst, row.words ≠ [] → row.Paired

namespace Consistent

/-- The row of a word is found. -/
theorem rowOfWord?_eq
    (consistent : table.Consistent)
    {row : Row}
    (mem : row ∈ table.latestFirst)
    {word : String}
    (has_word : word ∈ row.words) :
    table.rowOfWord? word = some row := by
  obtain ⟨other, found⟩ := Option.isSome_iff_exists.mp (hasWord_iff.mpr ⟨row, mem, has_word⟩)
  obtain ⟨other_mem, other_has⟩ := rowOfWord?_cases found
  have same : row = other := by
    by_contra different
    have symmetric : Std.Symm (Function.onFun List.Disjoint Row.words) :=
      ⟨fun _ _ disjoint _ left right => disjoint right left⟩
    have apart := (List.nodup_flatMap.mp consistent.words_nodup).2
    exact apart.forall mem other_mem different has_word other_has
  rw [found, same]

/-- Every word names an opcode of its row. -/
theorem exists_codeOfWord
    (consistent : table.Consistent)
    {row : Row}
    (mem : row ∈ table.latestFirst)
    {word : String}
    (has_word : word ∈ row.words) :
    ∃ code ∈ row.opcodes, table.codeOfWord word = .ok code := by
  have paired := consistent.paired row mem (List.ne_nil_of_mem has_word)
  obtain ⟨code, named⟩ := Row.exists_opcodeOf? paired has_word
  refine ⟨code, Row.mem_of_opcodeOf? named, ?_⟩
  rw [codeOfWord, consistent.rowOfWord?_eq mem has_word]
  simp [named]

/-- The word of an opcode names that opcode. -/
theorem codeOfWord_of_wordOf?
    (consistent : table.Consistent)
    {row : Row}
    (mem : row ∈ table.latestFirst)
    {code : UInt8}
    (has_code : code ∈ row.opcodes)
    {word : String}
    (worded : row.wordOf? code = some word) :
    table.codeOfWord word = .ok code := by
  have has_word := Row.mem_of_wordOf? worded
  have paired := consistent.paired row mem (List.ne_nil_of_mem has_word)
  have words_nodup := (List.nodup_flatMap.mp consistent.words_nodup).1 row mem
  have named := Row.opcodeOf?_of_wordOf? paired words_nodup has_code worded
  rw [codeOfWord, consistent.rowOfWord?_eq mem has_word]
  simp [named]

end Consistent
end Table
end Opcode
end ScriptCodec
