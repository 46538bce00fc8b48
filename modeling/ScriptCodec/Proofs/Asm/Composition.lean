import ScriptCodec.Opcode.Standard
import ScriptCodec.Proofs.Asm.Join

/-!
# Reading across white space

White space between two texts keeps them apart for the reader, whatever the first text ends with and
the second one starts with.  If the first text is read to its end, the whole is read as the first
text and then, moved by the characters in front, as the second one: `run_append_blank` says so for
runs and `decodeLocated_append` for results, tokens with their spans and errors with their
positions alike.
-/

namespace ScriptCodec
namespace Asm

section Runs

variable {lexicon : Lexicon} {placeholders : Bool}

/-- White space in front of a text only moves it. -/
theorem run_blank_append
    {blank : List Char}
    (spaces : ∀ ch ∈ blank, isSpace ch = true)
    (pos : Nat)
    (back : List Char) :
    (reader lexicon placeholders).run ⟨pos, blank ++ back⟩ =
      (reader lexicon placeholders).run ⟨pos + blank.length, back⟩ :=
  Reader.run_eq_of_step_eq
    (step_eq_of_skipWhile_eq lexicon placeholders (skipWhile_append_of_all spaces pos back))

/-- A text that is read to its end, white space and a second text are read as the first text and
then as the second one, moved by what stands in front of it. -/
theorem run_append_blank
    {front blank : List Char}
    (some_blank : blank ≠ [])
    (spaces : ∀ ch ∈ blank, isSpace ch = true)
    {located : List Located}
    (read : (reader lexicon placeholders).run (Cursor.start front) = ⟨located, none⟩)
    (back : List Char) :
    (reader lexicon placeholders).run (Cursor.start (front ++ blank ++ back)) =
      ⟨located ++ ((reader lexicon placeholders).run (Cursor.start back)).items.map
          (Located.shift (front.length + blank.length)),
        ((reader lexicon placeholders).run (Cursor.start back)).fault.map
          (Error.shift (front.length + blank.length))⟩ := by
  obtain ⟨ch, spare, rfl⟩ := List.exists_cons_of_ne_nil some_blank
  have first : isSpace ch = true :=
    spaces ch (by simp)
  have others : ∀ ch ∈ spare, isSpace ch = true :=
    fun ch mem => spaces ch (List.mem_cons_of_mem _ mem)
  have joined := run_join lexicon placeholders first (spare ++ back) read
  have whole : (Cursor.start front).extend (ch :: (spare ++ back)) =
      Cursor.start (front ++ ch :: spare ++ back) := by
    simp [Cursor.start, Cursor.extend]
  have place : (⟨(Cursor.start front).pos + (Cursor.start front).rest.length + 1 + spare.length,
        back⟩ : Cursor Char) =
      (Cursor.start back).shift (front.length + (ch :: spare).length) := by
    simp only [Cursor.start, Cursor.shift, List.length_cons, Cursor.mk.injEq, and_true]
    omega
  rw [whole, run_blank_append others, place, run_shift] at joined
  exact joined

end Runs

/-! ## Whole texts -/

section Results

variable {text : List Char} {options : Options} {table : Opcode.Table}

theorem decodeLocated_eq_ok_iff
    {located : List Located} :
    decodeLocated text options table = .ok located ↔
      (reader ⟨options.terms, table⟩ options.allowPlaceholders).run (Cursor.start text) =
        ⟨located, none⟩ :=
  Run.toExcept_eq_ok_iff

theorem decodeLocated_eq_error_iff
    {e : Error} :
    decodeLocated text options table = .error e ↔
      ((reader ⟨options.terms, table⟩ options.allowPlaceholders).run (Cursor.start text)).fault =
        some e :=
  Run.toExcept_eq_error_iff

end Results

/-- **Reading is compositional across white space**: behind a text that is read to its end and some
white space, a second text is read as it is on its own, with the spans of its tokens or the position
of its error moved by the number of characters in front of it. -/
theorem decodeLocated_append
    (options : Options)
    (table : Opcode.Table)
    {front blank : List Char}
    (some_blank : blank ≠ [])
    (spaces : ∀ ch ∈ blank, isSpace ch = true)
    {located : List Located}
    (read : decodeLocated front options table = .ok located)
    (back : List Char) :
    (∀ later,
      decodeLocated back options table = .ok later →
      decodeLocated (front ++ blank ++ back) options table =
        .ok (located ++ later.map (Located.shift (front.length + blank.length)))) ∧
    (∀ e,
      decodeLocated back options table = .error e →
      decodeLocated (front ++ blank ++ back) options table =
        .error (e.shift (front.length + blank.length))) := by
  have run := run_append_blank some_blank spaces (decodeLocated_eq_ok_iff.mp read) back
  constructor
  · intro later second
    rw [decodeLocated_eq_ok_iff.mp second] at run
    exact decodeLocated_eq_ok_iff.mpr run
  · intro e second
    apply decodeLocated_eq_error_iff.mpr
    rw [run, decodeLocated_eq_error_iff.mp second]
    rfl

/-- A literal whose bracket is missing is reported where it starts in the whole text. -/
theorem decodeLocated_append_unterminated :
    decodeLocated ['d', 'u', 'p'] Options.default Opcode.Table.standard =
      .ok [⟨.opcode Opcode.dup, ⟨0, 3⟩⟩] ∧
    decodeLocated [' ', '[', 'a'] Options.default Opcode.Table.standard =
      .error (.unterminatedLiteral 1) ∧
    decodeLocated ['d', 'u', 'p', '\n', '\t', ' ', '[', 'a'] Options.default
      Opcode.Table.standard = .error (.unterminatedLiteral 6) := by
  have first : decodeLocated ['d', 'u', 'p'] Options.default Opcode.Table.standard =
      .ok [⟨.opcode Opcode.dup, ⟨0, 3⟩⟩] := by
    decide +kernel
  have second : decodeLocated [' ', '[', 'a'] Options.default Opcode.Table.standard =
      .error (.unterminatedLiteral 1) := by
    decide +kernel
  have spaces : ∀ ch ∈ ['\n', '\t'], isSpace ch = true :=
    List.all_eq_true.mp (by decide)
  have both := decodeLocated_append Options.default Opcode.Table.standard (by simp) spaces first
    [' ', '[', 'a']
  exact ⟨first, second, both.2 _ second⟩

end Asm
end ScriptCodec
