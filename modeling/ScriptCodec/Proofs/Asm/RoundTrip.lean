import ScriptCodec.Proofs.Asm.Words

/-!
# Reading back the textual form

Two of the four styles of literals lose nothing: literals in brackets, with or without their size,
are never taken for words.  In these styles a list of tokens is written as a text that is read as
the same list, whatever the table and the overrides, provided each opcode of the list can be read
back on its own: `exists_format_of_lossless`.  Over a regular table without overrides every opcode
that stands alone can.
-/

namespace ScriptCodec
namespace Asm

variable {options : Options} {table : Opcode.Table}

/-- The tokens that text can hold, given a condition for opcodes.  Sizes in memory are machine
words, which matters only where a size is written out; placeholders are what stands between their
marks. -/
def Writable
    (options : Options)
    (own : UInt8 → Prop) :
    Token → Prop
  | .literal data => options.literalStyle = .verbose → data.length < 2 ^ 64
  | .opcode code => own code
  | .placeholder text =>
      options.allowPlaceholders = true ∧
      '>' ∉ text.toList ∧
      Text.trim text.toList = text.toList
  | .repetition => options.allowPlaceholders = true

/-- The styles in which every literal is written in brackets. -/
def Lossless
    (style : LiteralStyle) : Prop :=
  style = .brackets ∨ style = .verbose

instance :
    DecidablePred Lossless :=
  fun style => inferInstanceAs (Decidable (style = .brackets ∨ style = .verbose))

/-- In brackets, literals are read as they are. -/
theorem readAs_literal_of_lossless
    (lossless : Lossless options.literalStyle)
    {data : List UInt8}
    (fits : options.literalStyle = .verbose → data.length < 2 ^ 64) :
    ReadAs options table (.literal data) (.literal data) := by
  refine ⟨formatLiteral options.literalStyle data, rfl, ?_⟩
  rcases lossless with style | style
  · rw [style]
    have text : (formatLiteral .brackets data).toList = '[' :: (Hex.digits data ++ [']']) := by
      simp [formatLiteral, Hex.encode]
    rw [text]
    exact decode_bracketed data
  · rw [style]
    have text : (formatLiteral .verbose data).toList =
        headerMark ++
          (Nat.toDigits 10 data.length ++ ')' :: '[' :: (Hex.digits data ++ [']'])) := by
      simp [formatLiteral, Hex.encode, headerMark]
    rw [text]
    exact decode_sized (fits style)

theorem readAs_placeholder
    {text : String}
    (allowed : options.allowPlaceholders = true)
    (noClose : '>' ∉ text.toList)
    (trimmed : Text.trim text.toList = text.toList) :
    ReadAs options table (.placeholder text) (.placeholder text) := by
  refine ⟨"<" ++ text ++ ">", rfl, ?_⟩
  have chars : ("<" ++ text ++ ">").toList = '<' :: (text.toList ++ ['>']) := by
    simp
  rw [chars, decode_placeholder allowed noClose, trimmed, String.ofList_toList]

theorem readAs_repetition
    (allowed : options.allowPlaceholders = true) :
    ReadAs options table .repetition .repetition :=
  ⟨"...", rfl, decode_repetition allowed⟩

/-- In brackets, every token that text can hold is read as it is. -/
theorem readAs_of_lossless
    (lossless : Lossless options.literalStyle)
    {t : Token}
    (writable : Writable options (ReadsBack options table) t) :
    ReadAs options table t t := by
  cases t with
  | literal data =>
      exact readAs_literal_of_lossless lossless writable
  | opcode code =>
      exact writable
  | placeholder text =>
      obtain ⟨allowed, noClose, trimmed⟩ := writable
      exact readAs_placeholder allowed noClose trimmed
  | repetition =>
      exact readAs_repetition writable

/-- In brackets, a list of tokens is written as a text that is read as the same list. -/
theorem exists_format_of_lossless
    (lossless : Lossless options.literalStyle)
    {ts : List Token}
    (writable : ∀ t ∈ ts, Writable options (ReadsBack options table) t) :
    ∃ text,
      format ts options table = .ok text ∧
      decode text.toList options table = .ok ts := by
  have each : ∀ t ∈ ts, ReadAs options table t (id t) :=
    fun t mem => readAs_of_lossless lossless (writable t mem)
  simpa using exists_format each

/-- **The styles with brackets lose nothing**, over every table and with any overrides, as long as
the opcodes of the list can be read back one by one; the standard table without overrides lets all
its opcodes be read back that start no push. -/
theorem decode_format_of_lossless :
    (∀ (table : Opcode.Table) (options : Options) (ts : List Token),
      Lossless options.literalStyle →
      (∀ t ∈ ts, Writable options (ReadsBack options table) t) →
      ∃ text,
        format ts options table = .ok text ∧
        decode text.toList options table = .ok ts) ∧
    (∀ options : Options,
      options.terms = Overrides.empty →
      options.opcodeWords = Overrides.empty →
      ∀ code, Opcode.Table.standard.StandsAlone code →
        ReadsBack options Opcode.Table.standard code) := by
  constructor
  · intro table options ts lossless writable
    exact exists_format_of_lossless lossless writable
  · intro options no_terms no_words code alone
    exact readsBack_of_regular Opcode.Table.regular_standard no_terms no_words alone

/-- A template in the short and verbose styles: a zero next to empty data, data that look like a
word, and a repeated placeholder. -/
theorem decode_format_of_lossless_template :
    let options : Options :=
      { literalStyle := .verbose, opcodeStyle := .short, allowPlaceholders := true }
    let ts : List Token :=
      [.opcode Opcode.zero, .literal [], .literal [0x10], .placeholder "20-byte hash", .repetition,
        .opcode Opcode.checkSig]
    Lossless options.literalStyle ∧
    (∀ t ∈ ts, Writable options (ReadsBack options Opcode.Table.standard) t) ∧
    ∃ text,
      format ts options Opcode.Table.standard = .ok text ∧
      decode text.toList options Opcode.Table.standard = .ok ts := by
  intro options ts
  have lossless : Lossless options.literalStyle := by
    decide
  have own : ∀ code, Opcode.Table.standard.StandsAlone code →
      ReadsBack options Opcode.Table.standard code :=
    decode_format_of_lossless.2 options rfl rfl
  have writable : ∀ t ∈ ts, Writable options (ReadsBack options Opcode.Table.standard) t := by
    simp only [ts, List.forall_mem_cons, Writable]
    refine ⟨own _ (by decide), by decide, by decide, by decide +kernel, rfl,
      own _ (by decide +kernel), by simp⟩
  exact ⟨lossless, writable, decode_format_of_lossless.1 _ options ts lossless writable⟩

end Asm
end ScriptCodec
