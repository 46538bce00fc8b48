import ScriptCodec.Opcode.Standard
import ScriptCodec.Proofs.Asm.Composition
import ScriptCodec.Proofs.Asm.Positions
import ScriptCodec.Proofs.Offsets

/-!
# Spans and positions of whole texts

A text that is read to its end is a sequence of pieces with white space between them: `Layout`.  A
piece is not empty, starts with no white space, and is read on its own as the one token that it is
in the text.  `layout_of_run` lays out every text that is read, and what the spans of its tokens
have to do with each other follows by induction along the layout.

A text that is not read to its end is cut in front of the token that fails.  `decodeLocated_spans`
puts both together.
-/

namespace ScriptCodec

namespace Asm

/-- Spans that cover a text up to white space: they are not empty, follow one another without
overlap, and start at characters of tokens. -/
structure Tiling
    (text : List Char)
    (located : List Located) : Prop where
  nonempty : ∀ s ∈ located, s.span.start < s.span.stop
  inside : ∀ s ∈ located, s.span.stop ≤ text.length
  increasing : located.Pairwise fun s t => s.span.stop ≤ t.span.start
  /-- What no span covers is white space -/
  blank : ∀ i ch,
    text[i]? = some ch →
    (∀ s ∈ located, ¬ (s.span.start ≤ i ∧ i < s.span.stop)) →
    isSpace ch = true
  /-- No span starts with white space -/
  dense : ∀ s ∈ located, ∀ ch, text[s.span.start]? = some ch → isSpace ch = false

/-- A text from `pos` on that consists of white space and of pieces which are single tokens. -/
inductive Layout
    (lexicon : Lexicon)
    (placeholders : Bool) :
    Nat → List Char → List Located → Prop
  | blank
      {pos : Nat}
      {text : List Char}
      (spaces : ∀ ch ∈ text, isSpace ch = true) :
      Layout lexicon placeholders pos text []
  | token
      {pos : Nat}
      {blank piece rest : List Char}
      {t : Token}
      {located : List Located}
      (spaces : ∀ ch ∈ blank, isSpace ch = true)
      (first : ∃ ch ∈ piece.head?, isSpace ch = false)
      (alone :
        (reader lexicon placeholders).run (Cursor.start piece) =
          ⟨[⟨t, ⟨0, piece.length⟩⟩], none⟩)
      (later :
        Layout lexicon placeholders (pos + blank.length + piece.length) rest located) :
      Layout lexicon placeholders pos (blank ++ piece ++ rest)
        (⟨t, ⟨pos + blank.length, pos + blank.length + piece.length⟩⟩ :: located)

section Layouts

variable {lexicon : Lexicon} {placeholders : Bool}

/-! ## Texts that are read are laid out -/

/-- A token that takes all characters of a text from `pos` on is the one token of the text. -/
theorem run_of_step_to_end
    {pos : Nat}
    {piece : List Char}
    {s : Located}
    (found : step lexicon placeholders ⟨pos, piece⟩ = .item s ⟨pos + piece.length, []⟩)
    (span : s.span = ⟨pos, pos + piece.length⟩) :
    (reader lexicon placeholders).run (Cursor.start piece) =
      ⟨[⟨s.token, ⟨0, piece.length⟩⟩], none⟩ := by
  have finished :
      (reader lexicon placeholders).step ⟨pos + piece.length, []⟩ = .done :=
    step_done_iff.mpr rfl
  have run : (reader lexicon placeholders).run ⟨pos, piece⟩ = ⟨[s], none⟩ := by
    rw [Reader.run_of_item found, Reader.run_of_done finished]
  have start : (Cursor.start piece).shift pos = ⟨pos, piece⟩ := by
    simp [Cursor.start, Cursor.shift]
  rw [← start, run_shift, Run.map, Run.mk.injEq, Option.map_eq_none_iff,
    List.map_eq_singleton_iff] at run
  obtain ⟨⟨own, items, moved⟩, fault⟩ := run
  have covers : own = ⟨s.token, ⟨0, piece.length⟩⟩ := by
    rw [← moved] at span ⊢
    obtain ⟨t, from_start, up_to⟩ := own
    simp only [Located.shift, Span.shift, Span.mk.injEq] at span ⊢
    simp only [Located.mk.injEq, Span.mk.injEq, true_and]
    omega
  rw [← covers, ← items, ← fault]

/-- A step takes white space and a piece that is the token on its own. -/
theorem exists_piece_of_step
    {c behind : Cursor Char}
    {s : Located}
    (found : step lexicon placeholders c = .item s behind) :
    ∃ blank piece,
      c.rest = blank ++ piece ++ behind.rest ∧
      behind.pos = c.pos + blank.length + piece.length ∧
      s.span = ⟨c.pos + blank.length, behind.pos⟩ ∧
      (∀ ch ∈ blank, isSpace ch = true) ∧
      (∃ ch ∈ piece.head?, isSpace ch = false) ∧
      (reader lexicon placeholders).run (Cursor.start piece) =
        ⟨[⟨s.token, ⟨0, piece.length⟩⟩], none⟩ := by
  have span := step_span found
  rw [← step_skipWhile] at found
  have taken := step_shrinks found
  obtain ⟨piece, split, pos⟩ := step_reaches found
  have first : ∃ ch ∈ piece.head?, isSpace ch = false := by
    cases piece with
    | nil =>
        rw [split, List.nil_append] at taken
        exact absurd taken (Nat.lt_irrefl _)
    | cons ch body =>
        have head : (c.skipWhile isSpace).rest.head? = some ch :=
          congrArg List.head? split
        exact ⟨ch, rfl, Cursor.not_of_head?_skipWhile head⟩
  have cut : step lexicon placeholders ⟨(c.skipWhile isSpace).pos, piece⟩ =
      .item s ⟨(c.skipWhile isSpace).pos + piece.length, []⟩ := by
    apply step_of_extend behind.rest
    rw [Cursor.extend, Cursor.extend, ← split, ← pos]
    exact found
  refine ⟨c.rest.takeWhile isSpace, piece, ?_, pos, span,
    fun ch mem => List.mem_takeWhile_imp mem, first, run_of_step_to_end cut (by rw [span, pos])⟩
  rw [List.append_assoc, ← split]
  exact List.takeWhile_append_dropWhile.symm

/-- A text that is read to its end is laid out as its tokens. -/
theorem layout_of_run
    {c : Cursor Char}
    {located : List Located}
    (read : (reader lexicon placeholders).run c = ⟨located, none⟩) :
    Layout lexicon placeholders c.pos c.rest located := by
  induction c using (reader lexicon placeholders).step_induction generalizing located with
  | _ c ih =>
      cases found : (reader lexicon placeholders).step c with
      | done =>
          rw [Reader.run_of_done found] at read
          cases read
          exact .blank (List.dropWhile_eq_nil_iff.mp (step_done_iff.mp found))
      | fault e =>
          rw [Reader.run_of_fault found] at read
          cases read
      | item s behind =>
          obtain ⟨others, rfl, rest⟩ := (Reader.run_eq_iff_of_item found).mp read
          have later := ih s behind found rest
          obtain ⟨blank, piece, text, pos, span, spaces, first, alone⟩ :=
            exists_piece_of_step found
          have item : s = ⟨s.token, s.span⟩ := rfl
          rw [pos] at later span
          rw [text, item, span]
          exact .token spaces first alone later

/-! ## What layouts say about spans -/

namespace Layout

variable {pos : Nat} {text : List Char} {located : List Located}

/-- Every token of a layout has its piece in the text. -/
theorem exists_piece
    (layout : Layout lexicon placeholders pos text located)
    {s : Located}
    (mem : s ∈ located) :
    ∃ front piece back,
      text = front ++ piece ++ back ∧
      s.span = ⟨pos + front.length, pos + front.length + piece.length⟩ ∧
      (∃ ch ∈ piece.head?, isSpace ch = false) ∧
      (reader lexicon placeholders).run (Cursor.start piece) =
        ⟨[⟨s.token, ⟨0, piece.length⟩⟩], none⟩ := by
  induction layout with
  | blank spaces =>
      cases mem
  | @token pos blank piece rest t located spaces first alone later ih =>
      rcases List.mem_cons.mp mem with rfl | mem
      · exact ⟨blank, piece, rest, rfl, rfl, first, alone⟩
      · obtain ⟨front, piece', back, split, span, first', alone'⟩ := ih mem
        refine ⟨blank ++ piece ++ front, piece', back, ?_, ?_, first', alone'⟩
        · rw [split]
          simp only [List.append_assoc]
        · rw [span]
          simp only [List.length_append, Nat.add_assoc]

theorem length_pos_of_head?
    {piece : List Char}
    (first : ∃ ch ∈ piece.head?, isSpace ch = false) :
    0 < piece.length := by
  obtain ⟨ch, head, _⟩ := first
  exact List.length_pos_of_mem (List.mem_of_head? head)

/-- Tokens follow one another without overlap. -/
theorem increasing
    (layout : Layout lexicon placeholders pos text located) :
    located.Pairwise fun s t => s.span.stop ≤ t.span.start := by
  induction layout with
  | blank spaces =>
      exact .nil
  | token spaces first alone later ih =>
      apply List.Pairwise.cons _ ih
      intro s mem
      obtain ⟨front, piece, back, _, span, _⟩ := later.exists_piece mem
      rw [span]
      exact Nat.le_add_right _ _

/-- A character that no token covers is white space. -/
theorem blank_outside
    (layout : Layout lexicon placeholders pos text located)
    {i : Nat}
    {ch : Char}
    (at_i : text[i]? = some ch)
    (outside : ∀ s ∈ located, ¬ (s.span.start ≤ pos + i ∧ pos + i < s.span.stop)) :
    isSpace ch = true := by
  induction layout generalizing i with
  | blank spaces =>
      exact spaces ch (List.mem_of_getElem? at_i)
  | @token pos blank piece rest t located spaces first alone later ih =>
      have beside := outside _ (List.mem_cons_self ..)
      simp only [not_and, Nat.not_lt] at beside
      by_cases before : i < blank.length
      · rw [List.append_assoc, List.getElem?_append_left before] at at_i
        exact spaces ch (List.mem_of_getElem? at_i)
      · have behind : blank.length + piece.length ≤ i := by
          have stop := beside (by omega)
          omega
        have size : (blank ++ piece).length = blank.length + piece.length :=
          List.length_append
        rw [List.getElem?_append_right (by omega), size] at at_i
        apply ih at_i
        intro s mem
        have place : pos + blank.length + piece.length + (i - (blank.length + piece.length)) =
            pos + i := by
          omega
        rw [place]
        exact outside s (List.mem_cons_of_mem _ mem)

/-- The spans of a layout from the start of a text on tile the text. -/
theorem tiling
    (layout : Layout lexicon placeholders 0 text located) :
    Tiling text located where
  nonempty := by
    intro s mem
    obtain ⟨front, piece, back, _, span, first, _⟩ := layout.exists_piece mem
    have some_char := length_pos_of_head? first
    rw [span]
    exact Nat.lt_add_of_pos_right some_char
  inside := by
    intro s mem
    obtain ⟨front, piece, back, split, span, _⟩ := layout.exists_piece mem
    rw [span, split]
    simp only [List.length_append]
    omega
  increasing := layout.increasing
  blank := by
    intro i ch at_i outside
    apply layout.blank_outside at_i
    simpa using outside
  dense := by
    intro s mem ch at_start
    obtain ⟨front, piece, back, split, span, ⟨ch', head, dense⟩, _⟩ := layout.exists_piece mem
    have first : text[s.span.start]? = some ch' := by
      rw [span, split, List.append_assoc, Nat.zero_add, List.getElem?_append_right (Nat.le_refl _),
        Nat.sub_self, ← List.head?_eq_getElem?]
      exact head?_append_of_head? head back
    rw [first] at at_start
    cases at_start
    exact dense

/-- The characters that a token covers are read as that token on their own. -/
theorem run_slice
    (layout : Layout lexicon placeholders 0 text located)
    {s : Located}
    (mem : s ∈ located) :
    (reader lexicon placeholders).run (Cursor.start (s.span.slice text)) =
      ⟨[⟨s.token, ⟨0, s.span.size⟩⟩], none⟩ := by
  obtain ⟨front, piece, back, split, span, _, alone⟩ := layout.exists_piece mem
  have slice : s.span.slice text = piece := by
    simp [Span.slice, Span.size, span, split]
  have size : s.span.size = piece.length := by
    simp [Span.size, span]
  rw [slice, size]
  exact alone

end Layout

end Layouts

/-! ## Whole texts -/

/-- A fault of a moved text is the moved fault of the text. -/
theorem exists_fault_of_shift
    {lexicon : Lexicon}
    {placeholders : Bool}
    {k : Nat}
    {c : Cursor Char}
    {e : Error}
    (failed : step lexicon placeholders (c.shift k) = .fault e) :
    ∃ own, step lexicon placeholders c = .fault own ∧ e = own.shift k := by
  rw [step_shift] at failed
  cases found : step lexicon placeholders c with
  | done =>
      rw [found] at failed
      cases failed
  | item s behind =>
      rw [found] at failed
      cases failed
  | fault own =>
      rw [found] at failed
      cases failed
      exact ⟨own, rfl, rfl⟩

/-- A text is not read to its end because of one token of it. -/
theorem exists_cut_of_fault
    {lexicon : Lexicon}
    {placeholders : Bool}
    {text : List Char}
    {items : List Located}
    {e : Error}
    (read : (reader lexicon placeholders).run (Cursor.start text) = ⟨items, some e⟩) :
    ∃ s first own,
      text[s]? = some first ∧
      isSpace first = false ∧
      (reader lexicon placeholders).run (Cursor.start (text.take s)) = ⟨items, none⟩ ∧
      (reader lexicon placeholders).run (Cursor.start (text.drop s)) = ⟨[], some own⟩ ∧
      e = own.shift s ∧
      ∀ p,
        e.position? = some p →
        s ≤ p ∧ p < text.length ∧ own.position? = some (p - s) := by
  obtain ⟨front, d, split, pos, at_token, failed, front_read⟩ := run_cut read
  have split : text = front ++ d.rest := split
  have place : d.pos = front.length := by
    simpa [Cursor.start] using pos
  have moved : d = (Cursor.start d.rest).shift front.length := by
    simp [Cursor.start, Cursor.shift, ← place]
  obtain ⟨first, body, rest⟩ : ∃ first body, d.rest = first :: body := by
    apply List.exists_cons_of_ne_nil
    intro nothing
    rw [step_done_iff.mpr (by rw [at_token, nothing])] at failed
    cases failed
  have dense : isSpace first = false := by
    apply Cursor.not_of_head?_skipWhile (c := d)
    rw [at_token, rest]
    rfl
  obtain ⟨own, own_failed, same⟩ := exists_fault_of_shift (moved ▸ failed)
  refine ⟨front.length, first, own, ?_, dense, ?_, ?_, same, ?_⟩
  · simp [split, rest]
  · rw [split, List.take_left]
    exact front_read
  · rw [split, List.drop_left]
    exact Reader.run_of_fault own_failed
  · intro p reported
    have inside := step_fault_inside failed p
    rw [at_token, place] at inside
    have bounds := inside reported
    rw [same, Error.position?_shift, Option.map_eq_some_iff] at reported
    obtain ⟨p', reported, rfl⟩ := reported
    rw [Nat.add_sub_cancel]
    refine ⟨bounds.1, ?_, reported⟩
    rw [split, List.length_append]
    exact bounds.2

/-- **Spans and positions are faithful.**  The spans of a text that is read to its end tile it, and
the characters of each span are read on their own as the token of that span.  A text that is not
read to its end is read up to a token, and what starts with that token fails on it with the same
error, which reports a position of that token or behind it. -/
theorem decodeLocated_spans
    (text : List Char)
    (options : Options)
    (table : Opcode.Table) :
    (∀ located,
      decodeLocated text options table = .ok located →
      Tiling text located ∧
      ∀ s ∈ located,
        decodeLocated (s.span.slice text) options table = .ok [⟨s.token, ⟨0, s.span.size⟩⟩]) ∧
    (∀ e,
      decodeLocated text options table = .error e →
      ∃ s first own,
        text[s]? = some first ∧
        isSpace first = false ∧
        decodeLocated (text.take s) options table = .ok (scan text options table).items ∧
        scan (text.drop s) options table = ⟨[], some own⟩ ∧
        e = own.shift s ∧
        ∀ p,
          e.position? = some p →
          s ≤ p ∧ p < text.length ∧ own.position? = some (p - s)) := by
  constructor
  · intro located read
    have layout := layout_of_run (decodeLocated_eq_ok_iff.mp read)
    refine ⟨layout.tiling, ?_⟩
    intro s mem
    exact decodeLocated_eq_ok_iff.mpr (layout.run_slice mem)
  · intro e failed
    have fault := decodeLocated_eq_error_iff.mp failed
    have read : scan text options table = ⟨(scan text options table).items, some e⟩ := by
      rw [← fault]
      rfl
    obtain ⟨s, first, own, at_s, dense, front, back, same, positions⟩ := exists_cut_of_fault read
    exact ⟨s, first, own, at_s, dense, decodeLocated_eq_ok_iff.mpr front, back, same, positions⟩

/-- A closing bracket ends a token as white space does, nested headers belong to their literal, and
positions count characters, not bytes.  In the other text the literal behind the header has the
wrong size, which is reported where the literal starts and not where its header does. -/
theorem decodeLocated_spans_abutting :
    let options := { Options.default with allowPlaceholders := true }
    let text := "<é> [ab]dup PUSHDATA(1)\tPUSHDATA(1) 0xCD".toList
    let located :=
      [⟨.placeholder "é", ⟨0, 3⟩⟩, ⟨.literal [0xab], ⟨4, 8⟩⟩, ⟨.opcode Opcode.dup, ⟨8, 11⟩⟩,
        ⟨.literal [0xcd], ⟨12, 40⟩⟩]
    let failing := "[ab]PUSHDATA(2) [ab]".toList
    decodeLocated text options Opcode.Table.standard = .ok located ∧
    Tiling text located ∧
    decodeLocated "PUSHDATA(1)\tPUSHDATA(1) 0xCD".toList options Opcode.Table.standard =
      .ok [⟨.literal [0xcd], ⟨0, 28⟩⟩] ∧
    decodeLocated failing options Opcode.Table.standard =
      .error (.pushdataSizeMismatch 16 2 1) ∧
    ∃ s first own,
      failing[s]? = some first ∧
      isSpace first = false ∧
      decodeLocated (failing.take s) options Opcode.Table.standard =
        .ok (scan failing options Opcode.Table.standard).items ∧
      scan (failing.drop s) options Opcode.Table.standard = ⟨[], some own⟩ ∧
      .pushdataSizeMismatch 16 2 1 = own.shift s ∧
      ∀ p,
        (Error.pushdataSizeMismatch 16 2 1).position? = some p →
        s ≤ p ∧ p < failing.length ∧ own.position? = some (p - s) := by
  intro options text located failing
  have read : decodeLocated text options Opcode.Table.standard = .ok located := by
    decide +kernel
  have failed : decodeLocated failing options Opcode.Table.standard =
      .error (.pushdataSizeMismatch 16 2 1) := by
    decide +kernel
  obtain ⟨tiling, alone⟩ :=
    (decodeLocated_spans text options Opcode.Table.standard).1 located read
  have slice : (Span.mk 12 40).slice text = "PUSHDATA(1)\tPUSHDATA(1) 0xCD".toList := by
    decide +kernel
  have last := alone ⟨.literal [0xcd], ⟨12, 40⟩⟩ (by simp [located])
  rw [slice] at last
  have cut := (decodeLocated_spans failing options Opcode.Table.standard).2 _ failed
  exact ⟨read, tiling, last, failed, cut⟩

end Asm
end ScriptCodec
