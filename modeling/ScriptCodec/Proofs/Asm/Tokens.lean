import Mathlib.Data.List.DropRight
import ScriptCodec.Proofs.Asm.Join

/-!
# The tokens of texts

Which tokens reading can find.  The bytes of a literal take two digits each, an opcode is the empty
value or comes from a word, the text of a placeholder is trimmed and does not hold the closing
mark, and template entries need the permission of the options.

`plainToken_readable` says so for one token, and `readable_of_decode` for whole texts.
-/

namespace ScriptCodec

/-! ## Trimmed texts -/

namespace Text

theorem trim_eq_rdropWhile
    (cs : List Char) :
    trim cs = (cs.dropWhile isBlank).rdropWhile isBlank := by
  rfl

theorem mem_of_mem_trim
    {cs : List Char}
    {c : Char}
    (mem : c ∈ trim cs) :
    c ∈ cs := by
  rw [trim_eq_rdropWhile] at mem
  exact (List.dropWhile_suffix isBlank).subset ((List.rdropWhile_prefix isBlank _).subset mem)

/-- Trimming a trimmed text changes nothing. -/
theorem trim_trim
    (cs : List Char) :
    trim (trim cs) = trim cs := by
  have front : (trim cs).dropWhile isBlank = trim cs := by
    rw [trim_eq_rdropWhile]
    obtain ⟨dropped, split⟩ := List.rdropWhile_prefix isBlank (cs.dropWhile isBlank)
    cases trimmed : (cs.dropWhile isBlank).rdropWhile isBlank with
    | nil =>
        rfl
    | cons c rest =>
        have first : (cs.dropWhile isBlank).head? = some c := by
          rw [← split, trimmed]
          rfl
        have noBlank := List.head?_dropWhile_not isBlank cs
        rw [first] at noBlank
        simp [noBlank]
  rw [trim_eq_rdropWhile (trim cs), front, trim_eq_rdropWhile cs, List.rdropWhile_idempotent]

end Text

namespace Asm

/-- The tokens that reading can find in `size` characters. -/
def Readable
    (lexicon : Lexicon)
    (placeholders : Bool)
    (size : Nat) :
    Token → Prop
  | .literal data => 2 * data.length ≤ size
  | .opcode code =>
      code = Opcode.zero ∨
      ∃ run position, lexicon.readTerm run position = .ok code
  | .placeholder text =>
      placeholders = true ∧
      '>' ∉ text.toList ∧
      Text.trim text.toList = text.toList
  | .repetition => placeholders = true

theorem Readable.mono
    {lexicon : Lexicon}
    {placeholders : Bool}
    {n m : Nat}
    (le : n ≤ m)
    {t : Token}
    (readable : Readable lexicon placeholders n t) :
    Readable lexicon placeholders m t := by
  cases t with
  | literal data =>
      exact Nat.le_trans readable le
  | opcode code =>
      exact readable
  | placeholder text =>
      exact readable
  | repetition =>
      exact readable

section Pieces

variable
  {lexicon : Lexicon}
  {placeholders : Bool}
  {start : Nat}
  {c behind : Cursor Char}
  {t : Token}

theorem finishLiteral_readable
    {digits : List Char}
    (read : finishLiteral start digits c = .ok (t, behind)) :
    Readable lexicon placeholders digits.length t := by
  unfold finishLiteral at read
  split at read
  · next data decoded =>
      simp only [Except.ok.injEq, Prod.mk.injEq] at read
      obtain ⟨rfl, _⟩ := read
      have size := Hex.length_of_ofDigitsOnto decoded
      simp only [List.length_nil, Nat.mul_zero, Nat.zero_add] at size
      exact Nat.le_of_eq size
  · cases read

theorem bareLiteral_readable
    (read : bareLiteral start c = .ok (t, behind)) :
    Readable lexicon placeholders c.rest.length t := by
  simp only [bareLiteral] at read
  split at read
  · cases read
  · exact (finishLiteral_readable read).mono (List.takeWhile_sublist _).length_le

theorem bracketLiteral_readable
    (read : bracketLiteral start c = .ok (t, behind)) :
    Readable lexicon placeholders c.rest.length t := by
  simp only [bracketLiteral] at read
  split at read
  · cases read
  · split at read
    · have shorter :
          ((c.rest.takeWhile isBracketed).filter Hex.isDigit).length ≤ c.rest.length :=
        Nat.le_trans (List.length_filter_le _ _) (List.takeWhile_sublist _).length_le
      exact (finishLiteral_readable read).mono shorter
    · cases read

theorem placeholder_readable
    (allowed : placeholders = true)
    (size : Nat)
    (read : placeholder start c = .ok (t, behind)) :
    Readable lexicon placeholders size t := by
  simp only [placeholder] at read
  split at read
  · cases read
  · simp only [Except.ok.injEq, Prod.mk.injEq] at read
    obtain ⟨rfl, _⟩ := read
    refine ⟨allowed, ?_, ?_⟩
    · rw [String.toList_ofList]
      intro mem
      have before := List.mem_takeWhile_imp (Text.mem_of_mem_trim mem)
      simp at before
    · rw [String.toList_ofList, Text.trim_trim]

theorem word_readable
    (read : word lexicon c = .ok (t, behind)) :
    Readable lexicon placeholders c.rest.length t := by
  simp only [word] at read
  split at read
  · next code term =>
      simp only [Except.ok.injEq, Prod.mk.injEq] at read
      obtain ⟨rfl, _⟩ := read
      exact .inr ⟨_, _, term⟩
  · split at read
    · exact bareLiteral_readable read
    · cases read

/-- What a token without a size header can be. -/
theorem plainToken_readable
    (read : plainToken lexicon placeholders c = .ok (t, behind)) :
    Readable lexicon placeholders c.rest.length t := by
  have moved : ∀ n, (c.advance n).rest.length ≤ c.rest.length := by
    intro n
    rw [Cursor.length_rest_advance]
    exact Nat.sub_le _ _
  unfold plainToken at read
  split at read
  · cases read
  · next ch body rest =>
      split at read
      · exact (bracketLiteral_readable read).mono (moved 1)
      split at read
      · next opening =>
          exact placeholder_readable opening.1 _ read
      split at read
      · next dot =>
          split at read
          · simp only [Except.ok.injEq, Prod.mk.injEq] at read
            obtain ⟨rfl, _⟩ := read
            exact dot.1
          · cases read
      split at read
      · exact (bareLiteral_readable read).mono (moved 2)
      split at read
      · simp only [Except.ok.injEq, Prod.mk.injEq] at read
        obtain ⟨rfl, _⟩ := read
        exact .inl rfl
      split at read
      · exact word_readable read
      · cases read

/-- What the token of a step can be. -/
theorem step_readable
    {s : Located}
    (found : step lexicon placeholders c = .item s behind) :
    Readable lexicon placeholders c.rest.length s.token := by
  rcases step_item_cases found with
    ⟨here, t, skipped, read, rfl⟩ | ⟨here, inner, outer, data, start, skipped, read, _, rfl⟩
  · exact (plainToken_readable read).mono (headers_shrinks skipped)
  · have bare : Readable lexicon false here.rest.length (.literal data) :=
      plainToken_readable read
    exact Nat.le_trans bare (headers_shrinks skipped)

end Pieces

/-- What the tokens of a text can be. -/
theorem readable_of_decode
    {options : Options}
    {table : Opcode.Table}
    {text : List Char}
    {ts : List Token}
    (read : decode text options table = .ok ts) :
    ∀ t ∈ ts, Readable ⟨options.terms, table⟩ options.allowPlaceholders text.length t := by
  have keeps : ∀ {c : Cursor Char} {s : Located} {behind : Cursor Char},
      c.rest.length ≤ text.length →
      (reader ⟨options.terms, table⟩ options.allowPlaceholders).step c = .item s behind →
      Readable ⟨options.terms, table⟩ options.allowPlaceholders text.length s.token ∧
        behind.rest.length ≤ text.length := by
    intro c s behind inside found
    constructor
    · exact (step_readable found).mono inside
    · have shorter := step_shrinks found
      omega
  have each := Reader.forall_items _ keeps (Cursor.start text) (Nat.le_refl _)
  obtain ⟨located, run, rfl⟩ := decode_eq_ok_iff.mp read
  rw [run] at each
  intro t mem
  obtain ⟨s, found, rfl⟩ := List.mem_map.mp mem
  exact each s found

end Asm
end ScriptCodec
