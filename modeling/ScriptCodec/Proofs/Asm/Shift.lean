import ScriptCodec.Asm.Lexer
import ScriptCodec.Proofs.Offsets
import ScriptCodec.Proofs.Reading

/-!
# Moving a text

Reading looks at the characters ahead and uses their offset only to report it.  Moving a text by a
number of characters therefore moves the spans of its tokens and the positions of its faults, and
changes nothing else.

The statement for one token is `step_shift`, and `run_shift` follows for whole texts.
-/

namespace ScriptCodec

section MapError

variable {α ε ε' : Type} (f : ε → ε')

@[simp] theorem mapError_ok
    (a : α) :
    (Except.ok a).mapError f = .ok a := by
  rfl

@[simp] theorem mapError_error
    (e : ε) :
    (Except.error e : Except ε α).mapError f = .error (f e) := by
  rfl

end MapError

namespace Asm

/-- The same header, `k` offsets further on. -/
def Header.shift
    (k : Nat)
    (h : Header) :
    Header :=
  ⟨h.start + k, h.size⟩

/-- A result of reading, `k` offsets further on. -/
def shiftResult
    {α : Type}
    (move : α → α)
    (k : Nat) :
    Except Error (α × Cursor Char) → Except Error (α × Cursor Char)
  | .ok (a, c) => .ok (move a, c.shift k)
  | .error e => .error (e.shift k)

variable (k : Nat)

/-! ## Tokens without a size header -/

theorem finishLiteral_shift
    (start : Nat)
    (digits : List Char)
    (behind : Cursor Char) :
    finishLiteral (start + k) digits (behind.shift k) =
      shiftResult id k (finishLiteral start digits behind) := by
  unfold finishLiteral
  cases Hex.ofDigits? digits with
  | none =>
      rfl
  | some data =>
      rfl

theorem bareLiteral_shift
    (start : Nat)
    (c : Cursor Char) :
    bareLiteral (start + k) (c.shift k) =
      shiftResult id k (bareLiteral start c) := by
  simp only [bareLiteral, Cursor.shift_rest, Cursor.shift_pos, Cursor.skipWhile_shift]
  split
  · simp [shiftResult, Error.shift, Nat.add_right_comm]
  · exact finishLiteral_shift k _ _ _

theorem bracketLiteral_shift
    (start : Nat)
    (c : Cursor Char) :
    bracketLiteral (start + k) (c.shift k) =
      shiftResult id k (bracketLiteral start c) := by
  simp only [bracketLiteral, Cursor.shift_rest, Cursor.shift_pos, Cursor.skipWhile_shift,
    Cursor.advance_shift]
  split
  · rfl
  · split
    · exact finishLiteral_shift k _ _ _
    · rfl

theorem placeholder_shift
    (start : Nat)
    (c : Cursor Char) :
    placeholder (start + k) (c.shift k) =
      shiftResult id k (placeholder start c) := by
  simp only [placeholder, Cursor.shift_rest, Cursor.skipWhile_shift, Cursor.advance_shift]
  split
  · rfl
  · rfl

theorem opcodeOf_shift
    (lexicon : Lexicon)
    (word : String)
    (position : Nat) :
    lexicon.opcodeOf word (position + k) =
      (lexicon.opcodeOf word position).mapError (Error.shift k) := by
  unfold Lexicon.opcodeOf
  cases lexicon.terms.get? word with
  | some code =>
      rfl
  | none =>
      simp only [Opcode.Table.codeOfWord]
      split
      · split
        · rfl
        · rfl
      · rfl

theorem readTerm_shift
    (lexicon : Lexicon)
    (run : List Char)
    (position : Nat) :
    lexicon.readTerm run (position + k) =
      (lexicon.readTerm run position).mapError (Error.shift k) := by
  unfold Lexicon.readTerm
  cases run.findIdx? fun c => !isTermChar c with
  | some i =>
      simp [Error.shift, Nat.add_right_comm]
  | none =>
      simp only [opcodeOf_shift]
      cases lexicon.opcodeOf (Term.normalize run) position with
      | error e =>
          rfl
      | ok code =>
          simp only [mapError_ok]
          split
          · rfl
          · rfl

theorem word_shift
    (lexicon : Lexicon)
    (c : Cursor Char) :
    word lexicon (c.shift k) = shiftResult id k (word lexicon c) := by
  simp only [word, Cursor.shift_rest, Cursor.shift_pos, Cursor.skipWhile_shift, readTerm_shift]
  cases lexicon.readTerm (c.rest.takeWhile fun ch => !isSpace ch) c.pos with
  | ok code =>
      rfl
  | error e =>
      simp only [mapError_error]
      split
      · exact bareLiteral_shift k _ _
      · rfl

theorem plainToken_shift
    (lexicon : Lexicon)
    (placeholders : Bool)
    (c : Cursor Char) :
    plainToken lexicon placeholders (c.shift k) =
      shiftResult id k (plainToken lexicon placeholders c) := by
  unfold plainToken
  simp only [Cursor.shift_rest, Cursor.shift_pos, Cursor.advance_shift]
  cases c.rest with
  | nil =>
      rfl
  | cons ch body =>
      simp only [bracketLiteral_shift, placeholder_shift, bareLiteral_shift, word_shift]
      repeat' split
      all_goals rfl

/-! ## Size headers -/

theorem header_shift
    (c : Cursor Char) :
    header (c.shift k) = shiftResult (Header.shift k) k (header c) := by
  simp only [header, Cursor.shift_pos, Cursor.skipWhile_shift, Cursor.advance_shift,
    Cursor.shift_rest]
  repeat' split
  all_goals rfl

/-- Headers that were read before move along with those that are still to be read. -/
theorem headers_shift
    (outer : List Header)
    (c : Cursor Char) :
    headers (outer.map (Header.shift k)) (c.shift k) =
      shiftResult (List.map (Header.shift k)) k (headers outer c) := by
  fun_induction headers outer c with
  | case1 outer c here mark e failed =>
      have failed' := header_shift k here
      rw [failed] at failed'
      rw [← Cursor.skipWhile_shift] at failed'
      exact headers_of_error (by simpa using mark) failed'
  | case2 outer c here mark h behind read ih =>
      have read' := header_shift k here
      rw [read] at read'
      rw [← Cursor.skipWhile_shift] at read'
      rw [headers_of_ok (by simpa using mark) read']
      exact ih
  | case3 outer c here mark =>
      have noMark : headerMark.isPrefixOf ((c.shift k).skipWhile isSpace).rest = false := by
        rw [Cursor.skipWhile_shift]
        exact eq_false_of_ne_true mark
      rw [headers_of_no_mark noMark, Cursor.skipWhile_shift]
      rfl

theorem checkSizes_shift
    (size position : Nat)
    (hs : List Header) :
    checkSizes size (position + k) (hs.map (Header.shift k)) =
      ((checkSizes size position hs).map (· + k)).mapError (Error.shift k) := by
  induction hs generalizing position with
  | nil =>
      rfl
  | cons h hs ih =>
      simp only [List.map_cons, checkSizes, Header.shift]
      split
      · exact ih h.start
      · rfl

theorem sizedLiteral_shift
    (lexicon : Lexicon)
    (inner : Header)
    (outer : List Header)
    (c : Cursor Char) :
    sizedLiteral lexicon (inner.shift k) (outer.map (Header.shift k)) (c.shift k) =
      shiftResult (Located.shift k) k (sizedLiteral lexicon inner outer c) := by
  simp only [sizedLiteral, Cursor.shift_rest, Cursor.shift_pos, plainToken_shift]
  split
  · rfl
  · cases plainToken lexicon false c with
    | error e =>
        rfl
    | ok read =>
        obtain ⟨t, behind⟩ := read
        cases t with
        | literal data =>
            have sizes := checkSizes_shift k data.length c.pos (inner :: outer)
            simp only [List.map_cons] at sizes
            simp only [shiftResult, id, sizes]
            cases checkSizes data.length c.pos (inner :: outer) with
            | error e =>
                rfl
            | ok start =>
                rfl
        | opcode code =>
            rfl
        | placeholder text =>
            rfl
        | repetition =>
            rfl

/-! ## Steps and runs -/

theorem step_shift
    (lexicon : Lexicon)
    (placeholders : Bool)
    (c : Cursor Char) :
    step lexicon placeholders (c.shift k) =
      (step lexicon placeholders c).map (Cursor.shift k) (Located.shift k) (Error.shift k) := by
  unfold step
  have moved := headers_shift k [] c
  simp only [List.map_nil] at moved
  rw [moved]
  cases headers [] c with
  | error e =>
      rfl
  | ok read =>
      obtain ⟨hs, here⟩ := read
      cases hs with
      | nil =>
          simp only [shiftResult, List.map_nil, Cursor.shift_rest, plainToken_shift]
          split
          · rfl
          · cases plainToken lexicon placeholders here with
            | error e =>
                rfl
            | ok read =>
                rfl
      | cons inner outer =>
          simp only [shiftResult, List.map_cons, sizedLiteral_shift]
          cases sizedLiteral lexicon inner outer here with
          | error e =>
              rfl
          | ok read =>
              rfl

/-- A text that stands `k` characters further on has the same tokens and faults, all of them `k`
characters further on. -/
theorem run_shift
    (lexicon : Lexicon)
    (placeholders : Bool)
    (c : Cursor Char) :
    (reader lexicon placeholders).run (c.shift k) =
      ((reader lexicon placeholders).run c).map (Located.shift k) (Error.shift k) :=
  Reader.run_map (step_shift k lexicon placeholders) c

end Asm
end ScriptCodec
