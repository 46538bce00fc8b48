import Mathlib.Algebra.Group.Nat.Defs
import ScriptCodec.Asm.Format
import ScriptCodec.Proofs.Asm.Join

/-!
# Reading single tokens back

Every form in which a token is written is read here on its own: literals in brackets, behind `0x`
and behind a size header, placeholders, repeat marks, and runs of word characters.  A run is read
as a word where it is one, and as hex digits otherwise, which is `decode_run` and
`decode_digits_of_no_term`.

A list of tokens is written by joining the texts of its tokens with spaces.  `exists_format` turns
what is known of the tokens one by one into a statement about the list.
-/

namespace ScriptCodec
namespace Asm

variable {options : Options} {table : Opcode.Table}

/-! ## Texts of one step -/

/-- A text that one step reads to its end is read as one token. -/
theorem decode_of_step
    {text : List Char}
    {s : Located}
    {behind : Cursor Char}
    (found :
      step ⟨options.terms, table⟩ options.allowPlaceholders (Cursor.start text) =
        .item s behind)
    (ended : behind.rest = []) :
    decode text options table = .ok [s.token] := by
  have finished :
      (reader ⟨options.terms, table⟩ options.allowPlaceholders).step behind = .done := by
    apply step_done_iff.mpr
    simp [Cursor.skipWhile, ended]
  have run :
      (reader ⟨options.terms, table⟩ options.allowPlaceholders).run (Cursor.start text) =
        ⟨[s], none⟩ := by
    rw [Reader.run_of_item found, Reader.run_of_done finished]
  exact decode_eq_ok_iff.mpr ⟨[s], run, rfl⟩

theorem skipWhile_isSpace_of_head
    {ch : Char}
    (dense : isSpace ch = false)
    (pos : Nat)
    (body : List Char) :
    (Cursor.mk pos (ch :: body)).skipWhile isSpace = ⟨pos, ch :: body⟩ := by
  simp [Cursor.skipWhile, dense]

/-- A text that starts with a token is read as that token if nothing is left behind it. -/
theorem decode_of_plainToken
    {ch : Char}
    {body : List Char}
    {t : Token}
    {behind : Cursor Char}
    (dense : isSpace ch = false)
    (noMark : headerMark.isPrefixOf (ch :: body) = false)
    (read :
      plainToken ⟨options.terms, table⟩ options.allowPlaceholders ⟨0, ch :: body⟩ =
        .ok (t, behind))
    (ended : behind.rest = []) :
    decode (ch :: body) options table = .ok [t] := by
  have skip := skipWhile_isSpace_of_head dense 0 body
  have skipped : headers [] (Cursor.start (ch :: body)) = .ok ([], ⟨0, ch :: body⟩) := by
    rw [headers_of_no_mark (by rw [Cursor.start, skip]; exact noMark), Cursor.start, skip]
  exact decode_of_step (step_of_plain skipped read) ended

theorem headerMark_isPrefixOf_cons
    {ch : Char}
    (other : ch ≠ 'P')
    (body : List Char) :
    headerMark.isPrefixOf (ch :: body) = false := by
  have different : ('P' == ch) = false := by
    simpa using other.symm
  simp [headerMark, List.isPrefixOf, different]

/-! ## Literals -/

theorem isTermChar_of_isDigit
    {ch : Char}
    (digit : Hex.isDigit ch = true) :
    isTermChar ch = true := by
  simp only [Hex.isDigit, Hex.digit?] at digit
  rw [isTermChar_iff]
  split at digit
  · next range =>
      exact .inr (.inr (.inl range))
  split at digit
  · next range =>
      exact .inl ⟨range.1, Nat.le_trans range.2 (by decide)⟩
  split at digit
  · next range =>
      exact .inr (.inl ⟨range.1, Nat.le_trans range.2 (by decide)⟩)
  · simp at digit

theorem not_isSpace_of_mem_digits
    {data : List UInt8}
    {ch : Char}
    (mem : ch ∈ Hex.digits data) :
    isSpace ch = false :=
  not_isSpace_of_isTermChar (isTermChar_of_isDigit (Hex.isDigit_of_mem_digits mem))

theorem finishLiteral_digits
    (start : Nat)
    (data : List UInt8)
    (behind : Cursor Char) :
    finishLiteral start (Hex.digits data) behind = .ok (.literal data, behind) := by
  rw [finishLiteral, Hex.ofDigits?_digits]

/-- The digits of data are read up to the end of the text. -/
theorem bareLiteral_digits
    (start pos : Nat)
    (data : List UInt8) :
    bareLiteral start ⟨pos, Hex.digits data⟩ =
      .ok (.literal data, ⟨pos + (Hex.digits data).length, []⟩) := by
  have dense : ∀ ch ∈ Hex.digits data, (!isSpace ch) = true := by
    intro ch mem
    rw [not_isSpace_of_mem_digits mem]
    rfl
  have hex : (Hex.digits data).findIdx? (fun ch => !Hex.isDigit ch) = none := by
    apply List.findIdx?_eq_none_iff.mpr
    intro ch mem
    rw [Hex.isDigit_of_mem_digits mem]
    rfl
  have run : (Hex.digits data).takeWhile (fun ch => !isSpace ch) = Hex.digits data :=
    List.takeWhile_eq_self_iff.mpr dense
  have stop : (Cursor.mk pos (Hex.digits data)).skipWhile (fun ch => !isSpace ch) =
      ⟨pos + (Hex.digits data).length, []⟩ := by
    simpa [Cursor.skipWhile] using skipWhile_append_of_all dense pos []
  simp only [bareLiteral, run, hex, stop]
  exact finishLiteral_digits start data _

/-- The digits of data are read up to the closing bracket. -/
theorem bracketLiteral_digits
    (start pos : Nat)
    (data : List UInt8) :
    bracketLiteral start ⟨pos, Hex.digits data ++ [']']⟩ =
      .ok (.literal data, ⟨pos + (Hex.digits data).length + 1, []⟩) := by
  have inside : ∀ ch ∈ Hex.digits data, isBracketed ch = true := by
    intro ch mem
    simp [isBracketed, Hex.isDigit_of_mem_digits mem]
  have hex : (Hex.digits data).filter Hex.isDigit = Hex.digits data :=
    List.filter_eq_self.mpr fun _ mem => Hex.isDigit_of_mem_digits mem
  have close : isBracketed ']' = false := by
    decide
  have run : (Hex.digits data ++ [']']).takeWhile isBracketed = Hex.digits data := by
    simp [List.takeWhile_append_of_pos inside, close]
  have stop : (Cursor.mk pos (Hex.digits data ++ [']'])).skipWhile isBracketed =
      ⟨pos + (Hex.digits data).length, [']']⟩ := by
    rw [skipWhile_append_of_all inside]
    simp [Cursor.skipWhile, close]
  simp only [bracketLiteral, run, hex, stop, if_true]
  exact finishLiteral_digits start data _

theorem plainToken_bracketed
    (lexicon : Lexicon)
    (placeholders : Bool)
    (pos : Nat)
    (data : List UInt8) :
    plainToken lexicon placeholders ⟨pos, '[' :: (Hex.digits data ++ [']'])⟩ =
      .ok (.literal data, ⟨pos + 1 + (Hex.digits data).length + 1, []⟩) := by
  simp only [plainToken, if_true]
  exact bracketLiteral_digits pos (pos + 1) data

/-- A literal in brackets. -/
theorem decode_bracketed
    (data : List UInt8) :
    decode ('[' :: (Hex.digits data ++ [']'])) options table = .ok [.literal data] := by
  have read := plainToken_bracketed ⟨options.terms, table⟩ options.allowPlaceholders 0 data
  exact decode_of_plainToken rfl (headerMark_isPrefixOf_cons (by decide) _) read rfl

/-- A literal behind its mark. -/
theorem decode_prefixed
    (data : List UInt8) :
    decode ('0' :: 'x' :: Hex.digits data) options table = .ok [.literal data] := by
  have read :
      plainToken ⟨options.terms, table⟩ options.allowPlaceholders
          ⟨0, '0' :: 'x' :: Hex.digits data⟩ =
        .ok (.literal data, ⟨2 + (Hex.digits data).length, []⟩) := by
    simpa [plainToken, Cursor.advance] using bareLiteral_digits 0 2 data
  exact decode_of_plainToken rfl (headerMark_isPrefixOf_cons (by decide) _) read rfl

/-- The empty value. -/
theorem decode_zero :
    decode ['0'] options table = .ok [.opcode Opcode.zero] := by
  have read :
      plainToken ⟨options.terms, table⟩ options.allowPlaceholders ⟨0, ['0']⟩ =
        .ok (.opcode Opcode.zero, ⟨1, []⟩) := by
    simp [plainToken, Cursor.advance]
  exact decode_of_plainToken rfl (headerMark_isPrefixOf_cons (by decide) _) read rfl

/-- A size header is read back. -/
theorem header_toDigits
    {n : Nat}
    (fits : n < 2 ^ 64)
    (body : List Char) :
    header ⟨0, headerMark ++ (Nat.toDigits 10 n ++ ')' :: body)⟩ =
      .ok (⟨0, n⟩, ⟨9 + (Nat.toDigits 10 n).length + 1, body⟩) := by
  have number : ∀ ch ∈ Nat.toDigits 10 n, ch.isDigit = true := by
    intro ch mem
    exact Nat.isDigit_of_mem_toDigits (by decide) (by decide) mem
  have close : Char.isDigit ')' = false := by
    decide
  have behind_mark :
      (Cursor.mk 0 (headerMark ++ (Nat.toDigits 10 n ++ ')' :: body))).advance headerMark.length =
        ⟨9, Nat.toDigits 10 n ++ ')' :: body⟩ := by
    simp [Cursor.advance, headerMark]
  have run : (Nat.toDigits 10 n ++ ')' :: body).takeWhile Char.isDigit = Nat.toDigits 10 n := by
    simp [List.takeWhile_append_of_pos number, close]
  have stop : (Cursor.mk 9 (Nat.toDigits 10 n ++ ')' :: body)).skipWhile Char.isDigit =
      ⟨9 + (Nat.toDigits 10 n).length, ')' :: body⟩ := by
    rw [skipWhile_append_of_all number]
    simp [Cursor.skipWhile, close]
  rw [header, behind_mark]
  simp only [run, stop, if_true, Decimal.word64?_toDigits fits]
  rfl

/-- A literal in brackets behind its size. -/
theorem decode_sized
    {data : List UInt8}
    (fits : data.length < 2 ^ 64) :
    decode
        (headerMark ++ (Nat.toDigits 10 data.length ++ ')' :: '[' :: (Hex.digits data ++ [']'])))
        options table =
      .ok [.literal data] := by
  have read_header := header_toDigits fits ('[' :: (Hex.digits data ++ [']']))
  generalize text_eq :
    headerMark ++ (Nat.toDigits 10 data.length ++ ')' :: '[' :: (Hex.digits data ++ [']'])) =
      text at read_header ⊢
  generalize 9 + (Nat.toDigits 10 data.length).length + 1 = pos at read_header
  have skip : (Cursor.start text).skipWhile isSpace = ⟨0, text⟩ := by
    rw [← text_eq]
    exact skipWhile_isSpace_of_head rfl 0 _
  have mark : headerMark.isPrefixOf ((Cursor.start text).skipWhile isSpace).rest = true := by
    rw [skip, ← text_eq]
    exact List.isPrefixOf_iff_prefix.mpr (List.prefix_append _ _)
  have skip' := skipWhile_isSpace_of_head (rfl : isSpace '[' = false) pos (Hex.digits data ++ [']'])
  have noMark := headerMark_isPrefixOf_cons (by decide : '[' ≠ 'P') (Hex.digits data ++ [']'])
  have skipped : headers [] (Cursor.start text) =
      .ok ([⟨0, data.length⟩], ⟨pos, '[' :: (Hex.digits data ++ [']'])⟩) := by
    rw [headers_of_ok mark (by rw [skip]; exact read_header),
      headers_of_no_mark (by rw [skip']; exact noMark), skip']
  have sizes : checkSizes data.length pos [⟨0, data.length⟩] = .ok 0 := by
    simp [checkSizes]
  have read := plainToken_bracketed ⟨options.terms, table⟩ false pos data
  exact decode_of_step (step_of_sized skipped read sizes) rfl

/-! ## Template entries -/

/-- A placeholder. -/
theorem decode_placeholder
    (allowed : options.allowPlaceholders = true)
    {text : List Char}
    (noClose : '>' ∉ text) :
    decode ('<' :: (text ++ ['>'])) options table =
      .ok [.placeholder (String.ofList (Text.trim text))] := by
  have inside : ∀ ch ∈ text, (ch != '>') = true := by
    intro ch mem
    simp only [bne_iff_ne]
    rintro rfl
    exact noClose mem
  have run : (text ++ ['>']).takeWhile (fun ch => ch != '>') = text := by
    simp [List.takeWhile_append_of_pos inside]
  have stop : (Cursor.mk 1 (text ++ ['>'])).skipWhile (fun ch => ch != '>') =
      ⟨1 + text.length, ['>']⟩ := by
    rw [skipWhile_append_of_all inside]
    simp [Cursor.skipWhile]
  have read :
      plainToken ⟨options.terms, table⟩ options.allowPlaceholders ⟨0, '<' :: (text ++ ['>'])⟩ =
        .ok (.placeholder (String.ofList (Text.trim text)), ⟨1 + text.length + 1, []⟩) := by
    simp [plainToken, placeholder, allowed, Cursor.advance, run, stop]
  exact decode_of_plainToken rfl (headerMark_isPrefixOf_cons (by decide) _) read rfl

/-- A repeat mark. -/
theorem decode_repetition
    (allowed : options.allowPlaceholders = true) :
    decode ['.', '.', '.'] options table = .ok [.repetition] := by
  have read :
      plainToken ⟨options.terms, table⟩ options.allowPlaceholders ⟨0, ['.', '.', '.']⟩ =
        .ok (.repetition, ⟨3, []⟩) := by
    simp [plainToken, allowed, Cursor.advance]
  exact decode_of_plainToken rfl (headerMark_isPrefixOf_cons (by decide) _) read rfl

/-! ## Runs of word characters -/

/-- A run of word characters that is neither the empty value nor a literal behind its mark. -/
structure IsRun
    (run : List Char) : Prop where
  ne_nil : run ≠ []
  chars : ∀ ch ∈ run, isTermChar ch = true
  not_zero : run ≠ ['0']
  not_prefixed : run.take 2 ≠ ['0', 'x'] ∧ run.take 2 ≠ ['0', 'X']

theorem IsRun.noMark
    {text : List Char}
    (run : IsRun text) :
    headerMark.isPrefixOf text = false := by
  apply noMark_of_noBracket
  intro mem
  exact absurd (run.chars '(' mem) (by decide)

/-- A run is read as a word. -/
theorem plainToken_of_run
    {text : List Char}
    (run : IsRun text)
    (lexicon : Lexicon)
    (placeholders : Bool)
    (pos : Nat) :
    plainToken lexicon placeholders ⟨pos, text⟩ = word lexicon ⟨pos, text⟩ := by
  obtain ⟨ne_nil, chars, not_zero, not_small, not_capital⟩ := run
  cases text with
  | nil =>
      exact absurd rfl ne_nil
  | cons ch body =>
      have term : isTermChar ch = true :=
        chars ch (by simp)
      have noHexMark : ¬ (ch = '0' ∧ (body.head? = some 'x' ∨ body.head? = some 'X')) := by
        rintro ⟨rfl, first⟩
        cases body with
        | nil =>
            simp at first
        | cons ch' body =>
            rcases first with first | first
            · exact not_small (by simpa using first)
            · exact not_capital (by simpa using first)
      have noZero : ¬ (ch = '0' ∧ body.head?.all isSpace = true) := by
        rintro ⟨rfl, first⟩
        cases body with
        | nil =>
            exact not_zero rfl
        | cons ch' body =>
            have space : isSpace ch' = true := by
              simpa using first
            have term' := chars ch' (by simp)
            simp [not_isSpace_of_isTermChar term'] at space
      rw [plainToken_of_isTermChar _ _ rfl term, if_neg noHexMark, if_neg noZero]

/-- A run of word characters is taken as a whole. -/
theorem takeWhile_of_run
    {text : List Char}
    (run : IsRun text) :
    text.takeWhile (fun ch => !isSpace ch) = text ∧
    ∀ pos, (Cursor.mk pos text).skipWhile (fun ch => !isSpace ch) =
      ⟨pos + text.length, []⟩ := by
  have dense : ∀ ch ∈ text, (!isSpace ch) = true := by
    intro ch mem
    rw [not_isSpace_of_isTermChar (run.chars ch mem)]
    rfl
  constructor
  · exact List.takeWhile_eq_self_iff.mpr dense
  · intro pos
    simpa [Cursor.skipWhile] using skipWhile_append_of_all dense pos []

theorem decode_of_word
    {text : List Char}
    (run : IsRun text)
    {t : Token}
    {behind : Cursor Char}
    (read : word ⟨options.terms, table⟩ ⟨0, text⟩ = .ok (t, behind))
    (ended : behind.rest = []) :
    decode text options table = .ok [t] := by
  have read' := plainToken_of_run run ⟨options.terms, table⟩ options.allowPlaceholders 0
  rw [read] at read'
  have noMark := run.noMark
  cases text with
  | nil =>
      exact absurd rfl run.ne_nil
  | cons ch body =>
      have dense := not_isSpace_of_isTermChar (run.chars ch (by simp))
      exact decode_of_plainToken dense noMark read' ended

/-- A word. -/
theorem decode_run
    {text : List Char}
    (run : IsRun text)
    {code : UInt8}
    (read : Lexicon.readTerm ⟨options.terms, table⟩ text 0 = .ok code) :
    decode text options table = .ok [.opcode code] := by
  obtain ⟨whole, stop⟩ := takeWhile_of_run run
  have found : word ⟨options.terms, table⟩ ⟨0, text⟩ =
      .ok (.opcode code, ⟨0 + text.length, []⟩) := by
    simp only [word, whole, read, stop]
  exact decode_of_word run found rfl

theorem isRun_digits
    {data : List UInt8}
    (some_byte : data ≠ []) :
    IsRun (Hex.digits data) := by
  have size := Hex.length_digits data
  have pos := List.length_pos_iff.mpr some_byte
  have noMark : ∀ mark, Hex.isDigit mark = false →
      (Hex.digits data).take 2 ≠ ['0', mark] := by
    intro mark noDigit first
    have mem : mark ∈ Hex.digits data := by
      apply List.mem_of_mem_take (i := 2)
      simp [first]
    simp [Hex.isDigit_of_mem_digits mem] at noDigit
  constructor
  · intro nothing
    simp only [nothing, List.length_nil] at size
    omega
  · intro ch mem
    exact isTermChar_of_isDigit (Hex.isDigit_of_mem_digits mem)
  · intro zero
    simp only [zero, List.length_cons, List.length_nil] at size
    omega
  · exact ⟨noMark 'x' rfl, noMark 'X' rfl⟩

/-- The digits of a literal that are no word. -/
theorem decode_digits
    {data : List UInt8}
    (some_byte : data ≠ [])
    {e : Error}
    (noTerm : Lexicon.readTerm ⟨options.terms, table⟩ (Hex.digits data) 0 = .error e) :
    decode (Hex.digits data) options table = .ok [.literal data] := by
  have run := isRun_digits some_byte
  obtain ⟨whole, stop⟩ := takeWhile_of_run run
  have hex : (Hex.digits data).all Hex.isDigit = true :=
    List.all_eq_true.mpr fun _ mem => Hex.isDigit_of_mem_digits mem
  have found : word ⟨options.terms, table⟩ ⟨0, Hex.digits data⟩ =
      .ok (.literal data, ⟨0 + (Hex.digits data).length, []⟩) := by
    simp only [word, whole, noTerm, hex, if_true]
    exact bareLiteral_digits 0 0 data
  exact decode_of_word run found rfl

/-! ## Lists of tokens -/

/-- The text of a token is read as one token, which may be another one. -/
def ReadAs
    (options : Options)
    (table : Opcode.Table)
    (t u : Token) : Prop :=
  ∃ text,
    formatToken t options table = .ok text ∧
    decode text.toList options table = .ok [u]

theorem formatOnto_cons_of_ok
    {written : List String}
    {t : Token}
    {ts : List Token}
    {text : String}
    (first : formatToken t options table = .ok text) :
    formatOnto options table written (t :: ts) = formatOnto options table (text :: written) ts := by
  simp only [formatOnto, first]

/-- Tokens that are written one by one are written as a list, in the same order. -/
theorem formatOnto_eq
    {ts : List Token}
    {texts : List String}
    (each : List.Forall₂ (fun t text => formatToken t options table = .ok text) ts texts)
    (written : List String) :
    formatOnto options table written ts = .ok (written.reverse ++ texts) := by
  induction each generalizing written with
  | nil =>
      simp [formatOnto]
  | cons first others ih =>
      rw [formatOnto_cons_of_ok first, ih]
      simp

/-- If every token is written as a text that is read as its image, then the list is written as a
text that is read as the list of images. -/
theorem exists_format
    {f : Token → Token}
    {ts : List Token}
    (each : ∀ t ∈ ts, ReadAs options table t (f t)) :
    ∃ text,
      format ts options table = .ok text ∧
      decode text.toList options table = .ok (ts.map f) := by
  have texts : ∃ texts,
      List.Forall₂ (fun t text => formatToken t options table = .ok text) ts texts ∧
      List.Forall₂ (fun text t => decode text.toList options table = .ok [t]) texts (ts.map f) := by
    induction ts with
    | nil =>
        exact ⟨[], .nil, .nil⟩
    | cons t ts ih =>
        obtain ⟨text, written, read⟩ := each t (by simp)
        obtain ⟨texts, writes, reads⟩ := ih fun u mem => each u (List.mem_cons_of_mem _ mem)
        exact ⟨text :: texts, .cons written writes, .cons read reads⟩
  obtain ⟨texts, writes, reads⟩ := texts
  refine ⟨String.intercalate " " texts, ?_, decode_intercalate reads⟩
  rw [format, formatOnto_eq writes]
  rfl

end Asm
end ScriptCodec
