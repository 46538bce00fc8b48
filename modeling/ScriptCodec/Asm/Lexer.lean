import ScriptCodec.Options.Basic
import ScriptCodec.Opcode.Table
import ScriptCodec.Scan

/-!
# Reading the textual form of scripts

A text is a sequence of words, literals and, where they are allowed, template entries:

* a word, in any letter case and with or without its mark, is an opcode; overriding terms come
  before the words of the table, and a run of hex digits that is no usable word is a literal;
* a literal is bare hex, hex behind `0x`, hex in brackets with white space between digits, or
  any of these behind `PUSHDATA(n)` with its size;
* `0` on its own is the opcode that pushes the empty value;
* `<text>` is a placeholder and `...` a repeat mark.

`PUSHDATA(n)` headers may follow one another.  They are collected first, and the literal is then
checked against each of them from the innermost to the outermost.  All positions are character
offsets.
-/

namespace ScriptCodec
namespace Asm

/-- The white space between tokens. -/
def isSpace (c : Char) : Bool :=
  c == ' ' || (9 ≤ c.toNat && c.toNat ≤ 13)

/-- The characters of words. -/
def isTermChar (c : Char) : Bool :=
  c.isAlphanum || c == '_'

/-- What words mean: overriding terms, and the table behind them. -/
structure Lexicon where
  terms : Overrides String UInt8
  table : Opcode.Table

namespace Lexicon

/-- The opcode of a normalized word that starts at `position`. -/
def opcodeOf (lexicon : Lexicon) (word : String) (position : Nat) : Except Error UInt8 :=
  match lexicon.terms.get? word with
  | some code => .ok code
  | none =>
      if lexicon.table.hasWord word then lexicon.table.codeOfWord word
      else .error (.unknownTerm word position)

/-- The opcode of a run of characters that starts at `position`, as far as it may stand alone. -/
def readTerm (lexicon : Lexicon) (run : List Char) (position : Nat) : Except Error UInt8 :=
  match run.findIdx? fun c => !isTermChar c with
  | some i => .error (.unexpectedCharacter (position + i))
  | none =>
      match lexicon.opcodeOf (Term.normalize run) position with
      | .error e => .error e
      | .ok code =>
          if Opcode.isPush code then .error (.invalidOpcode code position) else .ok code

end Lexicon

/-- The result of reading a token: the token and the cursor behind it. -/
abbrev Reading : Type := Except Error (Token × Cursor Char)

/-- The literal with the given digits, which started at `start`. -/
def finishLiteral (start : Nat) (digits : List Char) (behind : Cursor Char) : Reading :=
  match Hex.ofDigits? digits with
  | some data => .ok (.literal data, behind)
  | none => .error (.invalidHexLiteral start)

/-- Reads the digits of a literal up to white space. -/
def bareLiteral (start : Nat) (c : Cursor Char) : Reading :=
  let run := c.rest.takeWhile fun ch => !isSpace ch
  match run.findIdx? fun ch => !Hex.isDigit ch with
  | some i => .error (.unexpectedCharacter (c.pos + i))
  | none => finishLiteral start run (c.skipWhile fun ch => !isSpace ch)

/-- Whether a character may stand between brackets. -/
def isBracketed (c : Char) : Bool :=
  isSpace c || Hex.isDigit c

/-- Reads the digits of a literal up to the closing bracket. -/
def bracketLiteral (start : Nat) (c : Cursor Char) : Reading :=
  let digits := (c.rest.takeWhile isBracketed).filter Hex.isDigit
  let stop := c.skipWhile isBracketed
  match stop.rest with
  | [] => .error (.unterminatedLiteral start)
  | ch :: _ =>
      if ch = ']' then finishLiteral start digits (stop.advance 1)
      else .error (.unexpectedCharacter stop.pos)

/-- Reads a placeholder up to its closing mark. -/
def placeholder (start : Nat) (c : Cursor Char) : Reading :=
  let text := c.rest.takeWhile fun ch => ch != '>'
  let stop := c.skipWhile fun ch => ch != '>'
  match stop.rest with
  | [] => .error (.unterminatedPlaceholder start)
  | _ :: _ => .ok (.placeholder (String.ofList (Text.trim text)), stop.advance 1)

/-- Reads a word, or a literal where the run is no usable word but all hex digits. -/
def word (lexicon : Lexicon) (c : Cursor Char) : Reading :=
  let run := c.rest.takeWhile fun ch => !isSpace ch
  match lexicon.readTerm run c.pos with
  | .ok code => .ok (.opcode code, c.skipWhile fun ch => !isSpace ch)
  | .error e => if run.all Hex.isDigit then bareLiteral c.pos c else .error e

/-- Reads a token that has no size header.  The cursor is on its first character. -/
def plainToken (lexicon : Lexicon) (placeholders : Bool) (c : Cursor Char) : Reading :=
  match c.rest with
  | [] => .error (.unexpectedCharacter c.pos)
  | ch :: body =>
      if ch = '[' then bracketLiteral c.pos (c.advance 1)
      else if placeholders ∧ ch = '<' then placeholder c.pos (c.advance 1)
      else if placeholders ∧ ch = '.' then
        if body.take 2 = ['.', '.'] then .ok (.repetition, c.advance 3)
        else .error (.unexpectedCharacter c.pos)
      else if ch = '0' ∧ (body.head? = some 'x' ∨ body.head? = some 'X') then
        bareLiteral c.pos (c.advance 2)
      else if ch = '0' ∧ body.head?.all isSpace then .ok (.opcode Opcode.zero, c.advance 1)
      else if isTermChar ch then word lexicon c
      else .error (.unexpectedCharacter c.pos)

/-- The start and the size of a `PUSHDATA(n)` header. -/
structure Header where
  start : Nat
  size : Nat
deriving DecidableEq, Repr

/-- What a size header starts with. -/
def headerMark : List Char :=
  ['P', 'U', 'S', 'H', 'D', 'A', 'T', 'A', '(']

/-- Reads a size header.  The cursor is on its mark. -/
def header (c : Cursor Char) : Except Error (Header × Cursor Char) :=
  let number := c.advance headerMark.length
  let digits := number.rest.takeWhile Char.isDigit
  let stop := number.skipWhile Char.isDigit
  match stop.rest with
  | [] => .error (.unterminatedLiteral c.pos)
  | ch :: _ =>
      if ch = ')' then
        match Decimal.word64? digits with
        | some size => .ok (⟨c.pos, size⟩, stop.advance 1)
        | none => .error (.invalidPushdataSize number.pos)
      else .error (.invalidPushdataSize number.pos)

theorem header_shrinks
    {c behind : Cursor Char}
    {h : Header}
    (read : header c = .ok (h, behind)) :
    behind.rest.length < c.rest.length := by
  simp only [header] at read
  split at read
  · simp at read
  · next ch tail hs =>
    split at read
    · split at read
      · simp only [Except.ok.injEq, Prod.mk.injEq] at read
        rw [← read.2, Cursor.length_rest_advance]
        have skipped := Cursor.length_rest_skipWhile_le Char.isDigit
          (c.advance headerMark.length)
        have moved := Cursor.length_rest_advance headerMark.length c
        rw [hs] at skipped ⊢
        simp only [List.length_cons] at skipped ⊢
        omega
      · simp at read
    · simp at read

/-- Moves to the next character that is no white space and reads the size headers from there on,
with `outer` already read, innermost first. -/
def headers (outer : List Header) (c : Cursor Char) :
    Except Error (List Header × Cursor Char) :=
  let here := c.skipWhile isSpace
  if headerMark.isPrefixOf here.rest then
    match _h : header here with
    | .error e => .error e
    | .ok (h, behind) => headers (h :: outer) behind
  else .ok (outer, here)
termination_by c.rest.length
decreasing_by
  exact Nat.lt_of_lt_of_le (header_shrinks _h) (Cursor.length_rest_skipWhile_le isSpace c)

theorem headers_of_error
    {outer : List Header}
    {c : Cursor Char}
    {e : Error}
    (mark : headerMark.isPrefixOf (c.skipWhile isSpace).rest = true)
    (failed : header (c.skipWhile isSpace) = .error e) :
    headers outer c = .error e := by
  rw [headers]
  split
  · split <;> simp_all
  · simp_all

theorem headers_of_ok
    {outer : List Header}
    {c behind : Cursor Char}
    {h : Header}
    (mark : headerMark.isPrefixOf (c.skipWhile isSpace).rest = true)
    (read : header (c.skipWhile isSpace) = .ok (h, behind)) :
    headers outer c = headers (h :: outer) behind := by
  rw [headers]
  split
  · split <;> simp_all
  · simp_all

theorem headers_of_no_mark
    {outer : List Header}
    {c : Cursor Char}
    (noMark : headerMark.isPrefixOf (c.skipWhile isSpace).rest = false) :
    headers outer c = .ok (outer, c.skipWhile isSpace) := by
  rw [headers]
  simp [noMark]

/-- Checks a literal of `size` bytes against headers, innermost first.  `position` is where the
literal starts for the next header, and the result where it starts for all of them. -/
def checkSizes (size : Nat) (position : Nat) : List Header → Except Error Nat
  | [] => .ok position
  | h :: outer =>
      if h.size = size then checkSizes size h.start outer
      else .error (.pushdataSizeMismatch position h.size size)

/-- Reads the literal behind size headers and checks it. -/
def sizedLiteral (lexicon : Lexicon) (inner : Header) (outer : List Header) (c : Cursor Char) :
    Except Error (Located × Cursor Char) :=
  if c.rest.isEmpty then .error (.pushdataMissingLiteral inner.start)
  else
    match plainToken lexicon false c with
    | .error e => .error e
    | .ok (.literal data, behind) =>
        match checkSizes data.length c.pos (inner :: outer) with
        | .error e => .error e
        | .ok start => .ok (⟨.literal data, ⟨start, behind.pos⟩⟩, behind)
    | .ok _ => .error (.pushdataMissingLiteral inner.start)

/-- Reads the next token. -/
def step (lexicon : Lexicon) (placeholders : Bool) (c : Cursor Char) :
    Step (Cursor Char) Located Error :=
  match headers [] c with
  | .error e => .fault e
  | .ok (inner :: outer, here) =>
      match sizedLiteral lexicon inner outer here with
      | .error e => .fault e
      | .ok (s, behind) => .item s behind
  | .ok ([], here) =>
      if here.rest.isEmpty then .done
      else
        match plainToken lexicon placeholders here with
        | .error e => .fault e
        | .ok (t, behind) => .item ⟨t, ⟨here.pos, behind.pos⟩⟩ behind

/-! ## Progress -/

theorem finishLiteral_behind
    {start : Nat}
    {digits : List Char}
    {behind c : Cursor Char}
    {t : Token}
    (read : finishLiteral start digits behind = .ok (t, c)) :
    c = behind := by
  unfold finishLiteral at read
  split at read
  · simp only [Except.ok.injEq, Prod.mk.injEq] at read
    exact read.2.symm
  · simp at read

theorem bareLiteral_behind
    {start : Nat}
    {c behind : Cursor Char}
    {t : Token}
    (read : bareLiteral start c = .ok (t, behind)) :
    behind = c.skipWhile fun ch => !isSpace ch := by
  simp only [bareLiteral] at read
  split at read
  · simp at read
  · exact finishLiteral_behind read

theorem bracketLiteral_shrinks
    {start : Nat}
    {c behind : Cursor Char}
    {t : Token}
    (read : bracketLiteral start c = .ok (t, behind)) :
    behind.rest.length ≤ c.rest.length := by
  simp only [bracketLiteral] at read
  split at read
  · simp at read
  · split at read
    · rw [finishLiteral_behind read, Cursor.length_rest_advance]
      have := Cursor.length_rest_skipWhile_le isBracketed c
      omega
    · simp at read

theorem placeholder_shrinks
    {start : Nat}
    {c behind : Cursor Char}
    {t : Token}
    (read : placeholder start c = .ok (t, behind)) :
    behind.rest.length ≤ c.rest.length := by
  simp only [placeholder] at read
  split at read
  · simp at read
  · simp only [Except.ok.injEq, Prod.mk.injEq] at read
    rw [← read.2, Cursor.length_rest_advance]
    have := Cursor.length_rest_skipWhile_le (fun ch => ch != '>') c
    omega

theorem word_behind
    {lexicon : Lexicon}
    {c behind : Cursor Char}
    {t : Token}
    (read : word lexicon c = .ok (t, behind)) :
    behind = c.skipWhile fun ch => !isSpace ch := by
  simp only [word] at read
  split at read
  · simp only [Except.ok.injEq, Prod.mk.injEq] at read
    exact read.2.symm
  · split at read
    · exact bareLiteral_behind read
    · simp at read

/-- The characters of words by their code points. -/
theorem isTermChar_iff
    {c : Char} :
    isTermChar c = true ↔
      65 ≤ c.toNat ∧ c.toNat ≤ 90 ∨ 97 ≤ c.toNat ∧ c.toNat ≤ 122 ∨
        48 ≤ c.toNat ∧ c.toNat ≤ 57 ∨ c = '_' := by
  have upper : c.isUpper = true ↔ 65 ≤ c.toNat ∧ c.toNat ≤ 90 :=
    decide_eq_true_iff
  have lower : c.isLower = true ↔ 97 ≤ c.toNat ∧ c.toNat ≤ 122 :=
    Bool.and_eq_true_iff.trans (and_congr decide_eq_true_iff decide_eq_true_iff)
  have digit : c.isDigit = true ↔ 48 ≤ c.toNat ∧ c.toNat ≤ 57 :=
    Bool.and_eq_true_iff.trans (and_congr decide_eq_true_iff decide_eq_true_iff)
  have parts : isTermChar c = (((c.isUpper || c.isLower) || c.isDigit) || c == '_') := rfl
  rw [parts, Bool.or_eq_true, Bool.or_eq_true, Bool.or_eq_true, upper, lower, digit, beq_iff_eq,
    or_assoc, or_assoc]

theorem not_isSpace_of_isTermChar
    {c : Char}
    (h : isTermChar c = true) :
    isSpace c = false := by
  simp only [isSpace, Bool.or_eq_false_iff, beq_eq_false_iff_ne, Bool.and_eq_false_iff,
    decide_eq_false_iff_not, Nat.not_le]
  constructor
  · rintro rfl
    revert h
    decide
  · right
    rcases isTermChar_iff.mp h with upper | lower | digit | rfl
    · omega
    · omega
    · omega
    · decide

theorem plainToken_shrinks
    {lexicon : Lexicon}
    {placeholders : Bool}
    {c behind : Cursor Char}
    {t : Token}
    (read : plainToken lexicon placeholders c = .ok (t, behind)) :
    behind.rest.length < c.rest.length := by
  unfold plainToken at read
  split at read
  · simp at read
  · next ch body hc =>
    have one : (c.advance 1).rest.length < c.rest.length := by
      rw [Cursor.length_rest_advance, hc]
      simp
    have several : ∀ n, 1 ≤ n → (c.advance n).rest.length < c.rest.length := by
      intro n hn
      rw [Cursor.length_rest_advance, hc]
      simp only [List.length_cons]
      omega
    split at read
    · exact Nat.lt_of_le_of_lt (bracketLiteral_shrinks read) one
    split at read
    · exact Nat.lt_of_le_of_lt (placeholder_shrinks read) one
    split at read
    · split at read
      · simp only [Except.ok.injEq, Prod.mk.injEq] at read
        rw [← read.2]
        exact several 3 (by decide)
      · simp at read
    split at read
    · rw [bareLiteral_behind read]
      exact Nat.lt_of_le_of_lt (Cursor.length_rest_skipWhile_le _ _) (several 2 (by decide))
    split at read
    · simp only [Except.ok.injEq, Prod.mk.injEq] at read
      rw [← read.2]
      exact one
    split at read
    · next ht =>
      rw [word_behind read]
      exact Cursor.length_rest_skipWhile_lt hc (by simp [not_isSpace_of_isTermChar ht])
    · simp at read

theorem headers_shrinks
    {outer : List Header}
    {c here : Cursor Char}
    {hs : List Header}
    (read : headers outer c = .ok (hs, here)) :
    here.rest.length ≤ c.rest.length := by
  fun_induction headers outer c with
  | case1 => simp at read
  | case2 outer c here _ h behind read' ih =>
    have first := header_shrinks read'
    have skipped : here.rest.length ≤ c.rest.length :=
      Cursor.length_rest_skipWhile_le isSpace c
    have := ih read
    omega
  | case3 outer c =>
    simp only [Except.ok.injEq, Prod.mk.injEq] at read
    rw [← read.2]
    exact Cursor.length_rest_skipWhile_le isSpace c

/-- A token takes at least one character. -/
theorem step_shrinks
    {lexicon : Lexicon}
    {placeholders : Bool}
    {c behind : Cursor Char}
    {s : Located}
    (h : step lexicon placeholders c = .item s behind) :
    behind.rest.length < c.rest.length := by
  unfold step at h
  split at h
  · simp at h
  · next inner outer here hh =>
    have before := headers_shrinks hh
    split at h
    · simp at h
    · next s' behind' hs =>
      simp only [Step.item.injEq] at h
      unfold sizedLiteral at hs
      split at hs
      · simp at hs
      · split at hs
        · simp at hs
        · next data behind'' hp =>
          split at hs
          · simp at hs
          · simp only [Except.ok.injEq, Prod.mk.injEq] at hs
            rw [← h.2, ← hs.2]
            exact Nat.lt_of_lt_of_le (plainToken_shrinks hp) before
        · simp at hs
  · next here hh =>
    have before := headers_shrinks hh
    split at h
    · simp at h
    · split at h
      · simp at h
      · next t behind' hp =>
        simp only [Step.item.injEq] at h
        rw [← h.2]
        exact Nat.lt_of_lt_of_le (plainToken_shrinks hp) before

/-! ## Whole texts -/

/-- The reader of texts. -/
def reader (lexicon : Lexicon) (placeholders : Bool) : Reader (Cursor Char) Located Error where
  step := step lexicon placeholders
  size c := c.rest.length
  shrinks := step_shrinks

/-- Reads a text as far as it goes. -/
def scan (text : List Char) (options : Options) (table : Opcode.Table) : Run Located Error :=
  (reader ⟨options.terms, table⟩ options.allowPlaceholders).run (Cursor.start text)

/-- Reads a text with the character range of every token. -/
def decodeLocated (text : List Char) (options : Options) (table : Opcode.Table) :
    Except Error (List Located) :=
  (scan text options table).toExcept

/-- Reads a text. -/
def decode (text : List Char) (options : Options) (table : Opcode.Table) :
    Except Error (List Token) :=
  (decodeLocated text options table).map tokensOf

end Asm
end ScriptCodec
