import ScriptCodec.Proofs.Asm.RoundTrip
import ScriptCodec.Proofs.Asm.Tokens
import ScriptCodec.Script

/-!
# Writing and reading again

Over a regular table and without overrides, a list of tokens that is written and read again changes
at most once.  In the styles without brackets the empty literal becomes the opcode of the empty
value, and in the normal style digits that are a word become the opcode of that word; nothing else
changes, and nothing changes a second time.  The change of one token is `settle`, and
`exists_format_settle` is the statement for lists.

Since whatever is read can be written, texts that are formatted over and over stay the same from
the second time on, and from the first time on in the styles with brackets.
-/

namespace ScriptCodec
namespace Asm

/-- A token as it is read from its own text. -/
def settle
    (style : LiteralStyle)
    (table : Opcode.Table) :
    Token → Token
  | .literal data =>
      if data = [] then
        if style = .normal ∨ style = .prefixed then .opcode Opcode.zero else .literal data
      else if style = .normal ∧ table.hasWord (Term.normalize (Hex.digits data)) = true then
        match table.codeOfWord (Term.normalize (Hex.digits data)) with
        | .ok code => .opcode code
        | .error _ => .literal data
      else .literal data
  | t => t

/-- Writes tokens and reads them again. -/
def reread
    (options : Options)
    (table : Opcode.Table)
    (ts : List Token) :
    Except Error (List Token) :=
  match format ts options table with
  | .ok text => decode text.toList options table
  | .error e => .error e

variable {options : Options} {table : Opcode.Table}

/-- Brackets keep every token as it is. -/
theorem settle_of_lossless
    {style : LiteralStyle}
    (lossless : Lossless style)
    (t : Token) :
    settle style table t = t := by
  have noDigits : style ≠ .normal ∧ style ≠ .prefixed := by
    rcases lossless with rfl | rfl
    · exact ⟨by decide, by decide⟩
    · exact ⟨by decide, by decide⟩
  cases t with
  | literal data =>
      simp [settle, noDigits]
  | opcode code =>
      rfl
  | placeholder text =>
      rfl
  | repetition =>
      rfl

/-- A token that changes becomes an opcode. -/
theorem settle_cases
    (style : LiteralStyle)
    (table : Opcode.Table)
    (t : Token) :
    settle style table t = t ∨ ∃ code, settle style table t = .opcode code := by
  cases t with
  | literal data =>
      simp only [settle]
      split
      · split
        · exact .inr ⟨_, rfl⟩
        · exact .inl rfl
      split
      · split
        · exact .inr ⟨_, rfl⟩
        · exact .inl rfl
      · exact .inl rfl
  | opcode code =>
      exact .inl rfl
  | placeholder text =>
      exact .inl rfl
  | repetition =>
      exact .inl rfl

/-- Nothing changes a second time. -/
theorem settle_settle
    (style : LiteralStyle)
    (table : Opcode.Table)
    (t : Token) :
    settle style table (settle style table t) = settle style table t := by
  rcases settle_cases style table t with same | ⟨code, changed⟩
  · rw [same, same]
  · rw [changed]
    rfl

/-- Without overriding terms, the opcodes of a text stand alone. -/
theorem standsAlone_of_decode
    (zero : table.StandsAlone Opcode.zero)
    (no_terms : options.terms = Overrides.empty)
    {text : List Char}
    {ts : List Token}
    (read : decode text options table = .ok ts)
    {code : UInt8}
    (mem : .opcode code ∈ ts) :
    table.StandsAlone code := by
  rcases readable_of_decode read _ mem with rfl | ⟨run, position, term⟩
  · exact zero
  · rw [no_terms] at term
    obtain ⟨_, named, noPush⟩ := Lexicon.readTerm_eq_ok_iff.mp term
    exact ⟨Opcode.Table.hasCode_of_codeOfWord named, noPush⟩

section Regular

variable
  (regular : table.Regular)
  (no_terms : options.terms = Overrides.empty)
  (no_words : options.opcodeWords = Overrides.empty)

include regular in
theorem standsAlone_zero :
    table.StandsAlone Opcode.zero :=
  ⟨Opcode.Table.hasCode_of_codeOfWord regular.zero, by decide⟩

include regular no_terms in
/-- Digits are read as the opcode whose word they are, and otherwise as a literal. -/
theorem decode_digits_settle
    {data : List UInt8}
    (some_byte : data ≠ []) :
    decode (Hex.digits data) options table = .ok [settle .normal table (.literal data)] := by
  by_cases has_word : table.hasWord (Term.normalize (Hex.digits data)) = true
  · obtain ⟨code, named, alone⟩ := regular.exists_code_of_digits has_word
    have run := isRun_digits some_byte
    have read : Lexicon.readTerm ⟨options.terms, table⟩ (Hex.digits data) 0 = .ok code := by
      rw [no_terms]
      exact Lexicon.readTerm_eq_ok_iff.mpr ⟨run.chars, named, alone.2⟩
    rw [decode_run run read]
    simp [settle, some_byte, has_word, named]
  · have settled : settle .normal table (.literal data) = .literal data := by
      simp [settle, some_byte, has_word]
    rw [settled]
    cases read : Lexicon.readTerm ⟨options.terms, table⟩ (Hex.digits data) 0 with
    | error e =>
        exact decode_digits some_byte read
    | ok code =>
        rw [no_terms] at read
        obtain ⟨_, named, _⟩ := Lexicon.readTerm_eq_ok_iff.mp read
        obtain ⟨row, mem, in_row, _⟩ := Opcode.Table.row_of_codeOfWord named
        exact absurd (Opcode.Table.hasWord_iff.mpr ⟨row, mem, in_row⟩) has_word

include regular no_terms in
/-- Literals, in every style. -/
theorem readAs_literal_settle
    {data : List UInt8}
    (fits : options.literalStyle = .verbose → data.length < 2 ^ 64) :
    ReadAs options table (.literal data) (settle options.literalStyle table (.literal data)) := by
  cases style : options.literalStyle with
  | normal =>
      refine ⟨formatLiteral .normal data, by rw [formatToken, style], ?_⟩
      by_cases empty : data = []
      · subst empty
        exact decode_zero
      · have text : (formatLiteral .normal data).toList = Hex.digits data := by
          simp [formatLiteral, Hex.encode, empty]
        rw [text]
        exact decode_digits_settle regular no_terms empty
  | brackets =>
      have lossless : Lossless options.literalStyle := .inl style
      rw [settle_of_lossless (.inl rfl)]
      exact readAs_literal_of_lossless lossless fits
  | prefixed =>
      refine ⟨formatLiteral .prefixed data, by rw [formatToken, style], ?_⟩
      by_cases empty : data = []
      · subst empty
        exact decode_zero
      · have text : (formatLiteral .prefixed data).toList = '0' :: 'x' :: Hex.digits data := by
          simp [formatLiteral, Hex.encode, empty]
        have settled : settle .prefixed table (.literal data) = .literal data := by
          simp [settle, empty]
        rw [text, settled]
        exact decode_prefixed data
  | verbose =>
      have lossless : Lossless options.literalStyle := .inr style
      rw [settle_of_lossless (.inr rfl)]
      exact readAs_literal_of_lossless lossless fits

include regular no_terms no_words in
/-- The text of a token is read as the token that it settles to. -/
theorem readAs_settle
    {t : Token}
    (writable : Writable options table.StandsAlone t) :
    ReadAs options table t (settle options.literalStyle table t) := by
  cases t with
  | literal data =>
      exact readAs_literal_settle regular no_terms writable
  | opcode code =>
      exact readsBack_of_regular regular no_terms no_words writable
  | placeholder text =>
      obtain ⟨allowed, noClose, trimmed⟩ := writable
      exact readAs_placeholder allowed noClose trimmed
  | repetition =>
      exact readAs_repetition writable

include regular no_terms no_words in
/-- A list of tokens is written as a text that is read as what the tokens settle to. -/
theorem exists_format_settle
    {ts : List Token}
    (writable : ∀ t ∈ ts, Writable options table.StandsAlone t) :
    ∃ text,
      format ts options table = .ok text ∧
      decode text.toList options table =
        .ok (ts.map (settle options.literalStyle table)) :=
  exists_format fun t mem => readAs_settle regular no_terms no_words (writable t mem)

include regular in
/-- What a token settles to can be written again. -/
theorem writable_settle
    {t : Token}
    (writable : Writable options table.StandsAlone t) :
    Writable options table.StandsAlone (settle options.literalStyle table t) := by
  cases t with
  | literal data =>
      simp only [settle]
      split
      · split
        · exact standsAlone_zero regular
        · exact writable
      split
      · next has_word =>
          obtain ⟨code, named, alone⟩ := regular.exists_code_of_digits has_word.2
          rw [named]
          exact alone
      · exact writable
  | opcode code =>
      exact writable
  | placeholder text =>
      exact writable
  | repetition =>
      exact writable

include regular no_terms in
/-- Whatever is read can be written. -/
theorem writable_of_decode
    {text : List Char}
    (fits : options.literalStyle = .verbose → text.length < 2 ^ 64)
    {ts : List Token}
    (read : decode text options table = .ok ts) :
    ∀ t ∈ ts, Writable options table.StandsAlone t := by
  intro t mem
  have readable := readable_of_decode read t mem
  cases t with
  | literal data =>
      intro verbose
      have small := fits verbose
      simp only [Readable] at readable
      omega
  | opcode code =>
      exact standsAlone_of_decode (standsAlone_zero regular) no_terms read mem
  | placeholder text =>
      exact readable
  | repetition =>
      exact readable

include regular no_terms no_words in
/-- Reading again gives what the tokens settle to. -/
theorem reread_eq
    {ts : List Token}
    (writable : ∀ t ∈ ts, Writable options table.StandsAlone t) :
    reread options table ts = .ok (ts.map (settle options.literalStyle table)) := by
  obtain ⟨text, written, read⟩ := exists_format_settle regular no_terms no_words writable
  rw [reread, written]
  exact read

include regular no_terms no_words in
/-- A settled list is read again as it is. -/
theorem reread_settled
    {ts : List Token}
    (writable : ∀ t ∈ ts, Writable options table.StandsAlone t) :
    reread options table (ts.map (settle options.literalStyle table)) =
      .ok (ts.map (settle options.literalStyle table)) := by
  have writable' : ∀ t ∈ ts.map (settle options.literalStyle table),
      Writable options table.StandsAlone t := by
    intro t mem
    obtain ⟨u, in_list, rfl⟩ := List.mem_map.mp mem
    exact writable_settle regular (writable u in_list)
  rw [reread_eq regular no_terms no_words writable', List.map_map]
  simp [Function.comp_def, settle_settle]

end Regular

end Asm

/-! ## Formatting texts over and over -/

/-- Formats a text as often as is said. -/
def formatTimes
    (options : Options) :
    Nat → String → Except Error String
  | 0, text => .ok text
  | n + 1, text =>
      match formatAsm text options with
      | .ok next => formatTimes options n next
      | .error e => .error e

theorem formatTimes_succ_of_ok
    {options : Options}
    {text next : String}
    (formatted : formatAsm text options = .ok next)
    (n : Nat) :
    formatTimes options (n + 1) text = formatTimes options n next := by
  simp only [formatTimes, formatted]

/-- A text that formatting keeps stays as it is. -/
theorem formatTimes_of_fixed
    {options : Options}
    {text : String}
    (fixed : formatAsm text options = .ok text)
    (n : Nat) :
    formatTimes options n text = .ok text := by
  induction n with
  | zero =>
      rfl
  | succ n ih =>
      rw [formatTimes_succ_of_ok fixed, ih]

/-- Formatting reads the tokens of a text and writes them. -/
theorem formatAsm_eq_ok_iff
    {options : Options}
    {text formatted : String} :
    formatAsm text options = .ok formatted ↔
      ∃ ts,
        Asm.decode text.toList options Script.table = .ok ts ∧
        Asm.format ts options Script.table = .ok formatted := by
  unfold formatAsm Script.ofAsm
  cases read : Asm.decode text.toList options Script.table with
  | error e =>
      simp [Except.map]
  | ok ts =>
      simp [Except.map, Script.toAsm]

/-- A formatted text holds the settled tokens of the first text, and formatting it gives a text
with the same tokens, which is kept. -/
theorem exists_formatAsm
    {options : Options}
    (no_terms : options.terms = Overrides.empty)
    (no_words : options.opcodeWords = Overrides.empty)
    {text first : String}
    (fits : options.literalStyle = .verbose → text.length < 2 ^ 64)
    (formatted : formatAsm text options = .ok first) :
    ∃ second,
      formatAsm first options = .ok second ∧
      formatAsm second options = .ok second ∧
      (Asm.Lossless options.literalStyle → second = first) := by
  have regular : Script.table.Regular := Opcode.Table.regular_standard
  obtain ⟨ts, read, written⟩ := formatAsm_eq_ok_iff.mp formatted
  have fits' : options.literalStyle = .verbose → text.toList.length < 2 ^ 64 := by
    intro verbose
    rw [String.length_toList]
    exact fits verbose
  have writable := Asm.writable_of_decode regular no_terms fits' read
  have again := Asm.reread_eq regular no_terms no_words writable
  have settled := Asm.reread_settled regular no_terms no_words writable
  generalize us_eq : ts.map (Asm.settle options.literalStyle Script.table) = us at again settled
  have read_first : Asm.decode first.toList options Script.table = .ok us := by
    rw [Asm.reread, written] at again
    exact again
  rw [Asm.reread] at settled
  cases written_second : Asm.format us options Script.table with
  | error e =>
      rw [written_second] at settled
      cases settled
  | ok second =>
      rw [written_second] at settled
      refine ⟨second, ?_, ?_, ?_⟩
      · exact formatAsm_eq_ok_iff.mpr ⟨us, read_first, written_second⟩
      · exact formatAsm_eq_ok_iff.mpr ⟨us, settled, written_second⟩
      · intro lossless
        have same : us = ts := by
          rw [← us_eq]
          exact List.map_id'' (Asm.settle_of_lossless lossless) ts
        rw [same, written] at written_second
        exact (Except.ok.inj written_second).symm

/-- **Writing and reading again settles a list of tokens in one step**, over the standard table and
without overrides; and texts that are formatted again and again never fail, stay the same from the
second time on, and from the first time on in the styles with brackets.  As for tokens, the bound on
the size of a text is that of every text in memory. -/
theorem reread_settles
    (options : Options)
    (no_terms : options.terms = Overrides.empty)
    (no_words : options.opcodeWords = Overrides.empty) :
    (∀ ts : List Token,
      (∀ t ∈ ts, Asm.Writable options Script.table.StandsAlone t) →
      Asm.reread options Script.table ts =
        .ok (ts.map (Asm.settle options.literalStyle Script.table)) ∧
      (Asm.reread options Script.table ts).bind (Asm.reread options Script.table) =
        Asm.reread options Script.table ts) ∧
    (∀ text first : String,
      (options.literalStyle = .verbose → text.length < 2 ^ 64) →
      formatAsm text options = .ok first →
      ∃ second,
        (∀ n, formatTimes options (n + 2) text = .ok second) ∧
        (Asm.Lossless options.literalStyle → second = first)) := by
  have regular : Script.table.Regular := Opcode.Table.regular_standard
  constructor
  · intro ts writable
    have again := Asm.reread_eq regular no_terms no_words writable
    refine ⟨again, ?_⟩
    rw [again]
    exact Asm.reread_settled regular no_terms no_words writable
  · intro text first fits formatted
    obtain ⟨second, from_first, fixed, same⟩ :=
      exists_formatAsm no_terms no_words fits formatted
    refine ⟨second, ?_, same⟩
    intro n
    rw [formatTimes_succ_of_ok formatted, formatTimes_succ_of_ok from_first,
      formatTimes_of_fixed fixed]

/-- Under the default options the byte `10` is written as a word, and so is the empty value once it
has been read. -/
theorem reread_settles_ten :
    (∀ t ∈ [Token.literal [0x10], .literal [], .opcode Opcode.checkSig],
      Asm.Writable Options.default Script.table.StandsAlone t) ∧
    Asm.reread Options.default Script.table
        [.literal [0x10], .literal [], .opcode Opcode.checkSig] =
      .ok [.opcode 0x5a, .opcode Opcode.zero, .opcode Opcode.checkSig] ∧
    formatAsm "[10] []" Options.default = .ok "10 0" ∧
    ∃ second, ∀ n, formatTimes Options.default (n + 2) "[10] []" = .ok second := by
  obtain ⟨lists, texts⟩ := reread_settles Options.default rfl rfl
  have writable : ∀ t ∈ [Token.literal [0x10], .literal [], .opcode Opcode.checkSig],
      Asm.Writable Options.default Script.table.StandsAlone t := by
    simp only [List.forall_mem_cons, Asm.Writable]
    exact ⟨by decide, by decide, by decide +kernel, by simp⟩
  have settled :
      [Token.literal [0x10], .literal [], .opcode Opcode.checkSig].map
          (Asm.settle Options.default.literalStyle Script.table) =
        [.opcode 0x5a, .opcode Opcode.zero, .opcode Opcode.checkSig] := by
    decide +kernel
  have chars : "[10] []".toList =
      '[' :: (Hex.digits [0x10] ++ [']']) ++ ' ' :: '[' :: (Hex.digits [] ++ [']']) := by
    decide +kernel
  have read : Asm.decode "[10] []".toList Options.default Script.table =
      .ok [.literal [0x10], .literal []] := by
    rw [chars]
    exact Asm.decode_join rfl (Asm.decode_bracketed _) (Asm.decode_bracketed _)
  have formatted : formatAsm "[10] []" Options.default = .ok "10 0" :=
    formatAsm_eq_ok_iff.mpr ⟨_, read, by rfl⟩
  obtain ⟨second, stays, _⟩ := texts "[10] []" "10 0" (by decide) formatted
  refine ⟨writable, ?_, formatted, second, stays⟩
  rw [← settled]
  exact (lists _ writable).1

end ScriptCodec
