import ScriptCodec.Proofs.Opcode.Wording

/-!
# Tables of rows, and words and opcodes that name each other

A table is given by its rows.  Where several rows list an opcode or a word, the last of them counts,
and every question about the opcode or the word is answered by this row.  A word that names an
opcode names one with a row, so that a question asked of a word fails only if the word is unknown.

In consistent rows no opcode and no word is listed twice, and words are paired with opcodes.  There
the two look-ups invert each other: the word of an opcode names it, and the opcode of a word has
that word, or the first word of the row if the row has only this opcode.

* `rowOfCode?_ofRows_iff` and `rowOfWord?_ofRows_iff` say which row counts;
* `ofWord_eq_error_iff` says when a question asked of a word fails;
* `ConsistentRows.codeOfWord_of_wordOfCode` and `ConsistentRows.exists_codeOfWord_wordOfCode` are the
  two look-ups one after the other, in both orders;
* `consistentRows_standard` shows that the rows of the standard table are consistent;
* `lookups_ofRows` puts these results together.
-/

namespace ScriptCodec
namespace Opcode

/-! ## The last row -/

/-- The last element of a list that has a property. -/
def IsLast
    {α : Type}
    (property : α → Prop)
    (xs : List α)
    (x : α) :
    Prop :=
  ∃ earlier later,
    xs = earlier ++ x :: later ∧
    property x ∧
    ∀ other ∈ later, ¬ property other

theorem find?_reverse_eq_some_iff
    {α : Type}
    {test : α → Bool}
    {xs : List α}
    {x : α} :
    xs.reverse.find? test = some x ↔ IsLast (test · = true) xs x := by
  rw [List.find?_eq_some_iff_append]
  constructor
  · rintro ⟨passes, later, earlier, split, none_later⟩
    refine ⟨earlier.reverse, later.reverse, ?_, passes, ?_⟩
    · rw [← List.reverse_reverse xs, split]
      simp
    · intro other mem
      simpa using none_later other (List.mem_reverse.mp mem)
  · rintro ⟨earlier, later, rfl, passes, none_later⟩
    refine ⟨passes, later.reverse, earlier.reverse, by simp, ?_⟩
    intro other mem
    simpa using none_later other (List.mem_reverse.mp mem)

namespace Table

section LastRow

variable {rows : List Row} {row : Row} {code : UInt8} {word : String}

/-- The row of an opcode is the last one that lists it. -/
theorem rowOfCode?_ofRows_iff :
    (ofRows rows).rowOfCode? code = some row ↔ IsLast (code ∈ ·.opcodes) rows row := by
  rw [rowOfCode?, ofRows, find?_reverse_eq_some_iff]
  simp

/-- The row of a word is the last one that lists it. -/
theorem rowOfWord?_ofRows_iff :
    (ofRows rows).rowOfWord? word = some row ↔ IsLast (word ∈ ·.words) rows row := by
  rw [rowOfWord?, ofRows, find?_reverse_eq_some_iff]
  simp

/-- The word of an opcode is the one that the last row with the opcode gives to it. -/
theorem wordOfCode_of_isLast
    (last : IsLast (code ∈ ·.opcodes) rows row) :
    (ofRows rows).wordOfCode code = .ok (row.wordOf? code) := by
  simp only [wordOfCode, rowOfCode, rowOfCode?_ofRows_iff.mpr last]

/-- The opcode of a word is the one that the last row with the word gives to it, if it gives one. -/
theorem codeOfWord_of_isLast
    (last : IsLast (word ∈ ·.words) rows row) :
    (ofRows rows).codeOfWord word = .ok code ↔ row.opcodeOf? word = some code := by
  rw [codeOfWord, rowOfWord?_ofRows_iff.mpr last, Option.bind_some]
  cases row.opcodeOf? word with
  | none =>
      simp
  | some other =>
      simp

end LastRow

/-! ## Questions asked of words -/

section Questions

variable {table : Table} {α : Type} {ask : Table → UInt8 → Except Error α} {word : String}

theorem exists_rowOfCode
    {code : UInt8}
    (valid : table.hasCode code = true) :
    ∃ row, table.rowOfCode code = .ok row := by
  obtain ⟨row, found⟩ := Option.isSome_iff_exists.mp valid
  exact ⟨row, by rw [rowOfCode, found]⟩

/-- A word that names no opcode is unknown. -/
theorem eq_unknownWord_of_codeOfWord
    {e : Error}
    (failed : table.codeOfWord word = .error e) :
    e = .unknownWord word := by
  unfold codeOfWord at failed
  split at failed
  · cases failed
  · rw [Except.error.injEq] at failed
    exact failed.symm

/-- A question that is answered for every opcode with a row. -/
def Answers
    (ask : Table → UInt8 → Except Error α)
    (table : Table) :
    Prop :=
  ∀ code, table.hasCode code = true → ∃ answer, ask table code = .ok answer

theorem answers_description
    (table : Table) :
    Answers descriptionOfCode table := by
  intro code valid
  obtain ⟨row, found⟩ := exists_rowOfCode valid
  simp only [descriptionOfCode, found]
  split
  · exact ⟨_, rfl⟩
  split
  · exact ⟨_, rfl⟩
  · exact ⟨_, rfl⟩

/-- A field of its row is an answer for every opcode with a row. -/
theorem answers_map
    (table : Table)
    (field : Row → α) :
    Answers (fun table code => (table.rowOfCode code).map field) table := by
  intro code valid
  obtain ⟨row, found⟩ := exists_rowOfCode valid
  refine ⟨field row, ?_⟩
  simp only [found]
  rfl

/-- Asked of a word, such a question fails only if the word is unknown. -/
theorem ofWord_eq_error_iff
    (answers : Answers ask table)
    {e : Error} :
    ofWord ask table word = .error e ↔
      (∀ code, table.codeOfWord word ≠ .ok code) ∧ e = .unknownWord word := by
  cases named : table.codeOfWord word with
  | ok code =>
      obtain ⟨answer, found⟩ := answers code (hasCode_of_codeOfWord named)
      simp [ofWord, named, found]
  | error e' =>
      rw [eq_unknownWord_of_codeOfWord named] at named
      simp [ofWord, named, eq_comm]

/-- Such a question is answered for every word that names an opcode, and it is never the number of
an opcode that is refused. -/
theorem ofWord_answers
    (answers : Answers ask table)
    (word : String) :
    (∀ code, table.codeOfWord word = .ok code → ∃ answer, ofWord ask table word = .ok answer) ∧
    ∀ number, ofWord ask table word ≠ .error (.invalidOpcodeNumber number) := by
  constructor
  · intro code named
    cases found : ofWord ask table word with
    | ok answer =>
        exact ⟨answer, rfl⟩
    | error e =>
        exact absurd named ((ofWord_eq_error_iff answers).mp found |>.1 code)
  · intro number refused
    have unknown := ((ofWord_eq_error_iff answers).mp refused).2
    cases unknown

end Questions

end Table

/-! ## Consistent rows -/

namespace Row

variable {row : Row} {code : UInt8} {word : String}

/-- A row with one opcode gives it the first of its words. -/
theorem wordOf?_of_single
    (single : row.opcodes = [code]) :
    row.wordOf? code = row.words.head? := by
  unfold wordOf?
  split
  · next words =>
      rw [words]
      rfl
  · next only words =>
      rw [words]
      rfl
  · next first others _ words =>
      rw [words, single]
      simp

/-- In a row whose opcodes are different and several, the opcode of a word has that word. -/
theorem wordOf?_of_opcodeOf?
    (paired : row.Paired)
    (codes_nodup : row.opcodes.Nodup)
    (several : ∀ code, row.opcodes ≠ [code])
    (named : row.opcodeOf? word = some code) :
    row.wordOf? code = some word := by
  have same_length := paired.length_eq several
  unfold opcodeOf? at named
  split at named
  · next only codes =>
      exact absurd codes (several only)
  · obtain ⟨place, found, at_place⟩ := Option.bind_eq_some_iff.mp named
    obtain ⟨inside, same_word, _⟩ := List.findIdx?_eq_some_iff_getElem.mp found
    obtain ⟨inside', same_code⟩ := List.getElem?_eq_some_iff.mp at_place
    have place_of_code : row.opcodes.findIdx? (· == code) = some place := by
      rw [← same_code]
      exact findIdx?_getElem codes_nodup inside'
    unfold wordOf?
    split
    · next words =>
        simp [words] at inside
    · next only words =>
        rw [words] at same_length
        obtain ⟨only, codes⟩ := List.length_eq_one_iff.mp same_length.symm
        exact absurd codes (several only)
    · next first others _ words =>
        simp only [place_of_code, Option.getD_some, ← words]
        rw [List.getD_eq_getElem _ _ inside, eq_of_beq same_word]

end Row

/-- Rows in which no opcode and no word is listed twice, and words are paired with opcodes. -/
structure ConsistentRows
    (rows : List Row) : Prop where
  codes_nodup : (rows.flatMap Row.opcodes).Nodup
  words_nodup : (rows.flatMap Row.words).Nodup
  paired : ∀ row ∈ rows, row.words ≠ [] → row.Paired

namespace ConsistentRows

open Table

variable {rows : List Row} {row : Row} {code : UInt8} {word : String}

theorem toConsistent
    (consistent : ConsistentRows rows) :
    (ofRows rows).Consistent where
  words_nodup :=
    (rows.reverse_perm.flatMap_right Row.words).nodup_iff.mpr consistent.words_nodup
  paired row mem := consistent.paired row (List.mem_reverse.mp mem)

/-- The row of an opcode is found. -/
theorem rowOfCode?_eq
    (consistent : ConsistentRows rows)
    (mem : row ∈ rows)
    (has_code : code ∈ row.opcodes) :
    (ofRows rows).rowOfCode? code = some row := by
  obtain ⟨earlier, later, rfl⟩ := List.append_of_mem mem
  refine rowOfCode?_ofRows_iff.mpr ⟨earlier, later, rfl, has_code, ?_⟩
  intro other behind has_code'
  have nodup := consistent.codes_nodup
  rw [List.flatMap_append, List.flatMap_cons] at nodup
  have apart := (List.nodup_append'.mp (List.nodup_append'.mp nodup).2.1).2.2
  exact apart has_code (List.mem_flatMap.mpr ⟨other, behind, has_code'⟩)

/-- A word and an opcode that it names stand in the same row. -/
theorem exists_row_of_codeOfWord
    (consistent : ConsistentRows rows)
    (named : (ofRows rows).codeOfWord word = .ok code) :
    ∃ row,
      (ofRows rows).rowOfWord? word = some row ∧
      (ofRows rows).rowOfCode? code = some row := by
  obtain ⟨row, mem, has_word, from_row⟩ := row_of_codeOfWord named
  exact
    ⟨row, consistent.toConsistent.rowOfWord?_eq mem has_word,
      consistent.rowOfCode?_eq (List.mem_reverse.mp mem) (Row.mem_of_opcodeOf? from_row)⟩

/-- Every word with a row names an opcode. -/
theorem hasWord_iff_exists_codeOfWord
    (consistent : ConsistentRows rows) :
    (ofRows rows).hasWord word = true ↔ ∃ code, (ofRows rows).codeOfWord word = .ok code := by
  rw [hasWord_iff]
  constructor
  · rintro ⟨row, mem, has_word⟩
    obtain ⟨code, _, named⟩ := consistent.toConsistent.exists_codeOfWord mem has_word
    exact ⟨code, named⟩
  · rintro ⟨code, named⟩
    obtain ⟨row, mem, has_word, _⟩ := row_of_codeOfWord named
    exact ⟨row, mem, has_word⟩

/-- The word of an opcode names this opcode. -/
theorem codeOfWord_of_wordOfCode
    (consistent : ConsistentRows rows)
    (worded : (ofRows rows).wordOfCode code = .ok (some word)) :
    (ofRows rows).codeOfWord word = .ok code := by
  cases found : (ofRows rows).rowOfCode? code with
  | none =>
      simp [wordOfCode, rowOfCode, found] at worded
  | some row =>
      obtain ⟨mem, has_code⟩ := rowOfCode?_cases found
      simp only [wordOfCode, rowOfCode, found, Except.ok.injEq] at worded
      exact consistent.toConsistent.codeOfWord_of_wordOf? mem has_code worded

/-- The opcode of a word has this word if its row has several opcodes, and the first word of its row
if that has no other opcode. -/
theorem exists_codeOfWord_wordOfCode
    (consistent : ConsistentRows rows)
    (mem : row ∈ rows)
    (has_word : word ∈ row.words) :
    ∃ code,
      (ofRows rows).codeOfWord word = .ok code ∧
      (1 < row.opcodes.length → (ofRows rows).wordOfCode code = .ok (some word)) ∧
      (row.opcodes.length = 1 → (ofRows rows).wordOfCode code = .ok row.words.head?) := by
  have listed : row ∈ (ofRows rows).latestFirst := List.mem_reverse.mpr mem
  have paired := consistent.paired row mem (List.ne_nil_of_mem has_word)
  obtain ⟨code, from_row⟩ := Row.exists_opcodeOf? paired has_word
  have has_code := Row.mem_of_opcodeOf? from_row
  have worded : (ofRows rows).wordOfCode code = .ok (row.wordOf? code) := by
    simp only [wordOfCode, rowOfCode, consistent.rowOfCode?_eq mem has_code]
  refine ⟨code, ?_, ?_, ?_⟩
  · rw [codeOfWord, consistent.toConsistent.rowOfWord?_eq listed has_word, Option.bind_some,
      from_row]
  · intro several
    have codes_nodup := (List.nodup_flatMap.mp consistent.codes_nodup).1 row mem
    have no_single : ∀ code, row.opcodes ≠ [code] := by
      intro only single
      simp [single] at several
    rw [worded, Row.wordOf?_of_opcodeOf? paired codes_nodup no_single from_row]
  · intro one
    obtain ⟨only, single⟩ := List.length_eq_one_iff.mp one
    rw [single, List.mem_singleton] at has_code
    rw [worded, Row.wordOf?_of_single (has_code ▸ single)]

end ConsistentRows

namespace Table

theorem codes_nodup_standard :
    (Standard.rows.flatMap Row.opcodes).Nodup := by
  -- Numbers are compared much faster than bytes.
  have numbers : ((Standard.rows.flatMap Row.opcodes).map UInt8.toNat).Nodup := by
    decide +kernel
  exact numbers.of_map

/-- The rows of the standard table are consistent. -/
theorem consistentRows_standard :
    ConsistentRows Standard.rows where
  codes_nodup := codes_nodup_standard
  words_nodup :=
    (Standard.rows.reverse_perm.flatMap_right Row.words).nodup_iff.mp words_nodup_standard
  paired row mem := regular_standard.paired row (List.mem_reverse.mpr mem)

/-- **Look-ups of words and opcodes**, in a table of any rows.  An opcode or a word is found in the
last row that lists it, and this row gives the word or the opcode.  A word that names an opcode
names one with a row, and no question asked of a word is refused for the number of an opcode.  If
the rows are consistent, the words with a row are those that name an opcode, the word of an opcode
names it, a word and the opcode that it names have the same row, and the opcode has that word, or
the first word of the row if it is the only opcode there. -/
theorem lookups_ofRows
    (rows : List Row) :
    (∀ code row,
      (ofRows rows).rowOfCode? code = some row ↔ IsLast (code ∈ ·.opcodes) rows row) ∧
    (∀ word row,
      (ofRows rows).rowOfWord? word = some row ↔ IsLast (word ∈ ·.words) rows row) ∧
    (∀ code row, IsLast (code ∈ ·.opcodes) rows row →
      (ofRows rows).wordOfCode code = .ok (row.wordOf? code)) ∧
    (∀ word row, IsLast (word ∈ ·.words) rows row →
      ∀ code, (ofRows rows).codeOfWord word = .ok code ↔ row.opcodeOf? word = some code) ∧
    (∀ word code, (ofRows rows).codeOfWord word = .ok code →
      (ofRows rows).hasCode code = true ∧
      (∃ text, (ofRows rows).descriptionOfWord word = .ok text) ∧
      (∃ text, (ofRows rows).inputOfWord word = .ok text) ∧
      (∃ text, (ofRows rows).outputOfWord word = .ok text) ∧
      ∃ flag, (ofRows rows).isDisabledWord word = .ok flag) ∧
    (∀ word number,
      (ofRows rows).descriptionOfWord word ≠ .error (.invalidOpcodeNumber number) ∧
      (ofRows rows).inputOfWord word ≠ .error (.invalidOpcodeNumber number) ∧
      (ofRows rows).outputOfWord word ≠ .error (.invalidOpcodeNumber number) ∧
      (ofRows rows).isDisabledWord word ≠ .error (.invalidOpcodeNumber number)) ∧
    (ConsistentRows rows →
      (∀ word,
        (ofRows rows).hasWord word = true ↔
          ∃ code, (ofRows rows).codeOfWord word = .ok code) ∧
      (∀ code word, (ofRows rows).wordOfCode code = .ok (some word) →
        (ofRows rows).codeOfWord word = .ok code) ∧
      (∀ word code, (ofRows rows).codeOfWord word = .ok code →
        (ofRows rows).rowOfWord? word = (ofRows rows).rowOfCode? code) ∧
      ∀ row ∈ rows, ∀ word ∈ row.words, ∃ code,
        (ofRows rows).codeOfWord word = .ok code ∧
        (1 < row.opcodes.length → (ofRows rows).wordOfCode code = .ok (some word)) ∧
        (row.opcodes.length = 1 → (ofRows rows).wordOfCode code = .ok row.words.head?)) := by
  have description := ofWord_answers (answers_description (ofRows rows))
  have input := ofWord_answers (answers_map (ofRows rows) Row.input)
  have output := ofWord_answers (answers_map (ofRows rows) Row.output)
  have disabled := ofWord_answers (answers_map (ofRows rows) Row.disabled)
  refine ⟨fun _ _ => rowOfCode?_ofRows_iff, fun _ _ => rowOfWord?_ofRows_iff,
    fun _ _ => wordOfCode_of_isLast, fun _ _ last _ => codeOfWord_of_isLast last, ?_, ?_, ?_⟩
  · intro word code named
    exact
      ⟨hasCode_of_codeOfWord named, (description word).1 code named, (input word).1 code named,
        (output word).1 code named, (disabled word).1 code named⟩
  · intro word number
    exact
      ⟨(description word).2 number, (input word).2 number, (output word).2 number,
        (disabled word).2 number⟩
  · intro consistent
    refine ⟨fun _ => consistent.hasWord_iff_exists_codeOfWord,
      fun _ _ => consistent.codeOfWord_of_wordOfCode, ?_,
      fun _ mem _ => consistent.exists_codeOfWord_wordOfCode mem⟩
    intro word code named
    obtain ⟨row, by_word, by_code⟩ := consistent.exists_row_of_codeOfWord named
    rw [by_word, by_code]

/-- In the standard table a second word of a row leads to the first one. -/
theorem lookups_ofRows_standard :
    ConsistentRows Standard.rows ∧
    ∃ code,
      (ofRows Standard.rows).codeOfWord "OP_NOP2" = .ok code ∧
      (ofRows Standard.rows).wordOfCode code = .ok (some "OP_CHECKLOCKTIMEVERIFY") := by
  obtain ⟨row, mem, has_word, one, first⟩ :
      ∃ row ∈ Standard.rows,
        "OP_NOP2" ∈ row.words ∧
        row.opcodes.length = 1 ∧
        row.words.head? = some "OP_CHECKLOCKTIMEVERIFY" := by
    decide +kernel
  obtain ⟨-, -, -, -, -, -, consistent⟩ := lookups_ofRows Standard.rows
  obtain ⟨-, -, -, inverse⟩ := consistent consistentRows_standard
  obtain ⟨code, named, -, worded⟩ := inverse row mem _ has_word
  exact ⟨consistentRows_standard, code, named, first ▸ worded one⟩

end Table
end Opcode
end ScriptCodec
