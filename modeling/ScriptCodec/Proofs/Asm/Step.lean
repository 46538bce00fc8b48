import ScriptCodec.Asm.Lexer

/-!
# One token of a text

A step of reading skips white space and size headers and then reads a token.  The cases are
collected here once: `step_of_plain`, `step_of_sized` and `step_of_end` say what a step does, and
`step_item_cases` and `step_done_iff` that it does nothing else.

Every reading function that succeeds leaves a cursor which is reached from its own by moving over
elements: what it leaves is the end of what it was given, and the offset tells how much is missing.
The statement for tokens is `plainToken_reaches`, and for whole steps `step_reaches`.
-/

namespace ScriptCodec

/-- One cursor is reached from another by moving over elements. -/
def Cursor.Reaches
    {α : Type}
    (c d : Cursor α) : Prop :=
  ∃ taken, c.rest = taken ++ d.rest ∧ d.pos = c.pos + taken.length

namespace Cursor

variable {α : Type}

theorem Reaches.trans
    {c d e : Cursor α}
    (first : c.Reaches d)
    (second : d.Reaches e) :
    c.Reaches e := by
  obtain ⟨taken, rest, pos⟩ := first
  obtain ⟨taken', rest', pos'⟩ := second
  refine ⟨taken ++ taken', ?_, ?_⟩
  · rw [rest, rest', List.append_assoc]
  · rw [pos', pos, List.length_append, Nat.add_assoc]

/-- Moving over elements does not change where the input ends. -/
theorem Reaches.end_eq
    {c d : Cursor α}
    (reaches : c.Reaches d) :
    d.pos + d.rest.length = c.pos + c.rest.length := by
  obtain ⟨taken, rest, pos⟩ := reaches
  rw [pos, rest, List.length_append, Nat.add_assoc]

theorem reaches_skipWhile
    (p : α → Bool)
    (c : Cursor α) :
    c.Reaches (c.skipWhile p) :=
  ⟨c.rest.takeWhile p, List.takeWhile_append_dropWhile.symm, rfl⟩

/-- Skipping stops at an element that is not skipped. -/
theorem not_of_head?_skipWhile
    {p : α → Bool}
    {c : Cursor α}
    {a : α}
    (first : (c.skipWhile p).rest.head? = some a) :
    p a = false := by
  have stopped := List.head?_dropWhile_not p c.rest
  have head : (c.rest.dropWhile p).head? = some a := first
  rw [head] at stopped
  simpa using stopped

theorem reaches_advance
    {n : Nat}
    {c : Cursor α}
    (enough : n ≤ c.rest.length) :
    c.Reaches (c.advance n) := by
  refine ⟨c.rest.take n, (List.take_append_drop n c.rest).symm, ?_⟩
  rw [List.length_take, Nat.min_eq_left enough]
  rfl

theorem reaches_advance_one
    {c : Cursor α}
    {a : α}
    {as : List α}
    (rest : c.rest = a :: as) :
    c.Reaches (c.advance 1) := by
  apply reaches_advance
  simp [rest]

end Cursor

namespace Asm

theorem bracketLiteral_reaches
    {start : Nat}
    {c behind : Cursor Char}
    {t : Token}
    (read : bracketLiteral start c = .ok (t, behind)) :
    c.Reaches behind := by
  simp only [bracketLiteral] at read
  split at read
  · simp at read
  · next ch tail stop =>
      split at read
      · rw [finishLiteral_behind read]
        exact (Cursor.reaches_skipWhile isBracketed c).trans
          (Cursor.reaches_advance_one stop)
      · simp at read

theorem placeholder_reaches
    {start : Nat}
    {c behind : Cursor Char}
    {t : Token}
    (read : placeholder start c = .ok (t, behind)) :
    c.Reaches behind := by
  simp only [placeholder] at read
  split at read
  · simp at read
  · next ch tail stop =>
      simp only [Except.ok.injEq, Prod.mk.injEq] at read
      rw [← read.2]
      exact (Cursor.reaches_skipWhile (fun ch => ch != '>') c).trans
        (Cursor.reaches_advance_one stop)

theorem bareLiteral_reaches
    {start : Nat}
    {c behind : Cursor Char}
    {t : Token}
    (read : bareLiteral start c = .ok (t, behind)) :
    c.Reaches behind := by
  rw [bareLiteral_behind read]
  exact Cursor.reaches_skipWhile _ c

theorem two_le_length_of_take
    {body : List Char}
    (dots : body.take 2 = ['.', '.']) :
    2 ≤ body.length := by
  have size := congrArg List.length dots
  rw [List.length_take] at size
  simp only [List.length_cons, List.length_nil] at size
  omega

theorem one_le_length_of_hexMark
    {body : List Char}
    (mark : body.head? = some 'x' ∨ body.head? = some 'X') :
    1 ≤ body.length := by
  cases body with
  | nil =>
      simp at mark
  | cons ch body =>
      simp

/-- A token that starts with a character of words is a literal behind its mark, a zero on its own
or a word. -/
theorem plainToken_of_isTermChar
    (lexicon : Lexicon)
    (placeholders : Bool)
    {here : Cursor Char}
    {ch : Char}
    {body : List Char}
    (rest : here.rest = ch :: body)
    (termChar : isTermChar ch = true) :
    plainToken lexicon placeholders here =
      if ch = '0' ∧ (body.head? = some 'x' ∨ body.head? = some 'X') then
        bareLiteral here.pos (here.advance 2)
      else if ch = '0' ∧ body.head?.all isSpace then .ok (.opcode Opcode.zero, here.advance 1)
      else word lexicon here := by
  have other : ∀ mark, isTermChar mark = false → ch ≠ mark := by
    rintro mark noTerm rfl
    rw [termChar] at noTerm
    cases noTerm
  unfold plainToken
  simp only [rest, other '[' rfl, other '<' rfl, other '.' rfl, and_false, if_false, termChar,
    if_true]

theorem plainToken_reaches
    {lexicon : Lexicon}
    {placeholders : Bool}
    {c behind : Cursor Char}
    {t : Token}
    (read : plainToken lexicon placeholders c = .ok (t, behind)) :
    c.Reaches behind := by
  unfold plainToken at read
  split at read
  · simp at read
  · next ch body rest =>
      have one : c.Reaches (c.advance 1) :=
        Cursor.reaches_advance_one rest
      split at read
      · exact one.trans (bracketLiteral_reaches read)
      split at read
      · exact one.trans (placeholder_reaches read)
      split at read
      · split at read
        · next dots =>
            simp only [Except.ok.injEq, Prod.mk.injEq] at read
            rw [← read.2]
            apply Cursor.reaches_advance
            have two := two_le_length_of_take dots
            rw [rest, List.length_cons]
            omega
        · simp at read
      split at read
      · next mark =>
          have two : c.Reaches (c.advance 2) := by
            apply Cursor.reaches_advance
            have one := one_le_length_of_hexMark mark.2
            rw [rest, List.length_cons]
            omega
          exact two.trans (bareLiteral_reaches read)
      split at read
      · simp only [Except.ok.injEq, Prod.mk.injEq] at read
        rw [← read.2]
        exact one
      split at read
      · rw [word_behind read]
        exact Cursor.reaches_skipWhile _ c
      · simp at read

/-- A header reaches at least beyond its mark. -/
theorem length_lt_of_header
    {c behind : Cursor Char}
    {h : Header}
    (read : header c = .ok (h, behind)) :
    headerMark.length < c.rest.length := by
  simp only [header] at read
  split at read
  · simp at read
  · next ch tail stop =>
      have left := Cursor.length_rest_skipWhile_le Char.isDigit (c.advance headerMark.length)
      rw [stop, Cursor.length_rest_advance, List.length_cons] at left
      omega

theorem header_reaches
    {c behind : Cursor Char}
    {h : Header}
    (read : header c = .ok (h, behind)) :
    c.Reaches behind := by
  have long := length_lt_of_header read
  simp only [header] at read
  split at read
  · simp at read
  · next ch tail stop =>
      split at read
      · split at read
        · simp only [Except.ok.injEq, Prod.mk.injEq] at read
          rw [← read.2]
          exact (Cursor.reaches_advance (Nat.le_of_lt long)).trans
            ((Cursor.reaches_skipWhile Char.isDigit _).trans
              (Cursor.reaches_advance_one stop))
        · simp at read
      · simp at read

theorem headers_reaches
    {outer hs : List Header}
    {c here : Cursor Char}
    (read : headers outer c = .ok (hs, here)) :
    c.Reaches here := by
  fun_induction headers outer c with
  | case1 =>
      simp at read
  | case2 outer c next mark h behind first ih =>
      exact (Cursor.reaches_skipWhile isSpace c).trans ((header_reaches first).trans (ih read))
  | case3 outer c =>
      simp only [Except.ok.injEq, Prod.mk.injEq] at read
      rw [← read.2]
      exact Cursor.reaches_skipWhile isSpace c

/-- Headers are put in front of those that were read before. -/
theorem headers_suffix
    {outer hs : List Header}
    {c here : Cursor Char}
    (read : headers outer c = .ok (hs, here)) :
    ∃ inner, hs = inner ++ outer := by
  fun_induction headers outer c with
  | case1 =>
      simp at read
  | case2 outer c next mark h behind first ih =>
      obtain ⟨inner, rfl⟩ := ih read
      exact ⟨inner ++ [h], by simp⟩
  | case3 outer c =>
      simp only [Except.ok.injEq, Prod.mk.injEq] at read
      exact ⟨[], read.1.symm⟩

/-- A text without brackets does not start with a size header. -/
theorem noMark_of_noBracket
    {text : List Char}
    (noBracket : '(' ∉ text) :
    headerMark.isPrefixOf text = false := by
  apply eq_false_of_ne_true
  intro mark
  have bracket : '(' ∈ headerMark := by
    decide
  exact noBracket ((List.isPrefixOf_iff_prefix.mp mark).subset bracket)

/-- Where there are no headers, only white space is skipped. -/
theorem headers_nil_cases
    {c here : Cursor Char}
    (skipped : headers [] c = .ok ([], here)) :
    headerMark.isPrefixOf (c.skipWhile isSpace).rest = false ∧
    here = c.skipWhile isSpace := by
  rw [headers] at skipped
  split at skipped
  · split at skipped
    · simp at skipped
    · next h behind read =>
        obtain ⟨inner, empty⟩ := headers_suffix skipped
        simp at empty
  · next noMark =>
      simp only [Except.ok.injEq, Prod.mk.injEq, true_and] at skipped
      exact ⟨eq_false_of_ne_true noMark, skipped.symm⟩

/-! ## Steps -/

theorem rest_ne_nil_of_plainToken
    {lexicon : Lexicon}
    {placeholders : Bool}
    {c behind : Cursor Char}
    {t : Token}
    (read : plainToken lexicon placeholders c = .ok (t, behind)) :
    c.rest ≠ [] := by
  intro nothing
  have shorter := plainToken_shrinks read
  simp [nothing] at shorter

theorem step_of_end
    {lexicon : Lexicon}
    {placeholders : Bool}
    {c here : Cursor Char}
    (skipped : headers [] c = .ok ([], here))
    (nothing : here.rest = []) :
    step lexicon placeholders c = .done := by
  simp [step, skipped, nothing]

theorem step_of_plain
    {lexicon : Lexicon}
    {placeholders : Bool}
    {c here behind : Cursor Char}
    {t : Token}
    (skipped : headers [] c = .ok ([], here))
    (read : plainToken lexicon placeholders here = .ok (t, behind)) :
    step lexicon placeholders c = .item ⟨t, ⟨here.pos, behind.pos⟩⟩ behind := by
  have something : here.rest.isEmpty = false :=
    List.isEmpty_eq_false_iff.mpr (rest_ne_nil_of_plainToken read)
  simp [step, skipped, something, read]

theorem step_of_sized
    {lexicon : Lexicon}
    {placeholders : Bool}
    {c here behind : Cursor Char}
    {inner : Header}
    {outer : List Header}
    {data : List UInt8}
    {start : Nat}
    (skipped : headers [] c = .ok (inner :: outer, here))
    (read : plainToken lexicon false here = .ok (.literal data, behind))
    (sizes : checkSizes data.length here.pos (inner :: outer) = .ok start) :
    step lexicon placeholders c = .item ⟨.literal data, ⟨start, behind.pos⟩⟩ behind := by
  have something : here.rest.isEmpty = false :=
    List.isEmpty_eq_false_iff.mpr (rest_ne_nil_of_plainToken read)
  simp [step, skipped, sizedLiteral, something, read, sizes]

/-- A step that finds a token finds a plain one, or a literal of the size that its headers say. -/
theorem step_item_cases
    {lexicon : Lexicon}
    {placeholders : Bool}
    {c behind : Cursor Char}
    {s : Located}
    (found : step lexicon placeholders c = .item s behind) :
    (∃ here t,
      headers [] c = .ok ([], here) ∧
      plainToken lexicon placeholders here = .ok (t, behind) ∧
      s = ⟨t, ⟨here.pos, behind.pos⟩⟩)
      ∨
    (∃ here inner outer data start,
      headers [] c = .ok (inner :: outer, here) ∧
      plainToken lexicon false here = .ok (.literal data, behind) ∧
      checkSizes data.length here.pos (inner :: outer) = .ok start ∧
      s = ⟨.literal data, ⟨start, behind.pos⟩⟩) := by
  unfold step at found
  split at found
  · simp at found
  · next inner outer here skipped =>
      right
      split at found
      · simp at found
      · next s' behind' sized =>
          simp only [Step.item.injEq] at found
          obtain ⟨rfl, rfl⟩ := found
          unfold sizedLiteral at sized
          split at sized
          · simp at sized
          · split at sized
            · simp at sized
            · next data behind'' read =>
                split at sized
                · simp at sized
                · next start sizes =>
                    simp only [Except.ok.injEq, Prod.mk.injEq] at sized
                    obtain ⟨rfl, rfl⟩ := sized
                    exact ⟨here, inner, outer, data, start, skipped, read, sizes, rfl⟩
            · simp at sized
  · next here skipped =>
      left
      split at found
      · simp at found
      · split at found
        · simp at found
        · next t behind' read =>
            simp only [Step.item.injEq] at found
            obtain ⟨rfl, rfl⟩ := found
            exact ⟨here, t, skipped, read, rfl⟩

/-- Reading ends where nothing but white space is left. -/
theorem step_done_iff
    {lexicon : Lexicon}
    {placeholders : Bool}
    {c : Cursor Char} :
    step lexicon placeholders c = .done ↔ (c.skipWhile isSpace).rest = [] := by
  constructor
  · intro finished
    unfold step at finished
    split at finished
    · simp at finished
    · split at finished
      · simp at finished
      · simp at finished
    · next here skipped =>
        split at finished
        · next nothing =>
            rw [← (headers_nil_cases skipped).2]
            exact List.isEmpty_iff.mp nothing
        · split at finished
          · simp at finished
          · simp at finished
  · intro nothing
    have noMark : headerMark.isPrefixOf (c.skipWhile isSpace).rest = false := by
      rw [nothing]
      rfl
    exact step_of_end (headers_of_no_mark noMark) nothing

theorem step_reaches
    {lexicon : Lexicon}
    {placeholders : Bool}
    {c behind : Cursor Char}
    {s : Located}
    (found : step lexicon placeholders c = .item s behind) :
    c.Reaches behind := by
  rcases step_item_cases found with
    ⟨here, t, skipped, read, _⟩ | ⟨here, inner, outer, data, start, skipped, read, _, _⟩
  · exact (headers_reaches skipped).trans (plainToken_reaches read)
  · exact (headers_reaches skipped).trans (plainToken_reaches read)

end Asm
end ScriptCodec
