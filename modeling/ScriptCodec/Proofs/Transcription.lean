import ScriptCodec.Proofs.Asm.Settling
import ScriptCodec.Proofs.Raw.RoundTrip
import ScriptCodec.Proofs.Text.Base64
import ScriptCodec.Proofs.Text.Hex

/-!
# From bytes to text and back

A raw script is written as text and the text as a raw script again.  Both conversions succeed for
every script that can be read at all.  The bytes that come out are the shortest form of the script,
except in the normal style when the digits of a literal are a word: the literal has then become an
opcode.

`canonical_settle_iff` compares one token, and `asmToRaw_rawToAsm` the whole conversion.
-/

namespace ScriptCodec

namespace RawOutput

/-- The bytes that a raw script stands for. -/
def denoted
    (encoding : Encoding) :
    RawOutput → Except Error (List UInt8)
  | .bytes raw => .ok raw
  | .text carrier => encoding.decodeText carrier

end RawOutput

namespace Encoding

/-- Text that carries bytes is read as these bytes. -/
theorem decodeText_encodeBytes
    {encoding : Encoding}
    {bytes : List UInt8}
    {text : String}
    (carried : encoding.encodeBytes bytes = some text) :
    encoding.decodeText text = .ok bytes := by
  cases encoding with
  | none =>
      cases carried
  | hex =>
      cases carried
      rw [decodeText, Hex.decode_encode]
      rfl
  | base64 =>
      cases carried
      rw [decodeText, Base64.decode_encode]
      rfl

end Encoding

namespace Script

/-- The raw form of a script stands for its bytes, in every encoding. -/
theorem exists_toRaw
    {s : Script}
    {bytes : List UInt8}
    (written : s.toBytes = .ok bytes)
    (encoding : Encoding) :
    ∃ output,
      s.toRaw encoding = .ok output ∧
      output.denoted encoding = .ok bytes := by
  cases carried : encoding.encodeBytes bytes with
  | none =>
      refine ⟨.bytes bytes, ?_, rfl⟩
      rw [toRaw_of_toBytes written, carried, Option.elim_none]
  | some text =>
      refine ⟨.text text, ?_, Encoding.decodeText_encodeBytes carried⟩
      rw [toRaw_of_toBytes written, carried, Option.elim_some]

end Script

namespace Token

/-- The digits of no literal but the empty one are a word. -/
def NoWord
    (table : Opcode.Table)
    (t : Token) : Prop :=
  ∀ data, t = .literal data → data ≠ [] →
    table.hasWord (Term.normalize (Hex.digits data)) = false

variable {table : Opcode.Table}

/-- Tokens of raw scripts can be written as text. -/
theorem Encodable.writable
    (options : Options)
    {t : Token}
    (encodable : t.Encodable table) :
    Asm.Writable options table.StandsAlone t := by
  cases t with
  | literal data =>
      intro _
      exact Nat.lt_trans encodable (by decide)
  | opcode code =>
      exact encodable
  | placeholder text =>
      exact encodable.elim
  | repetition =>
      exact encodable.elim

/-- What a token of a raw script settles to can be in a raw script. -/
theorem Encodable.settle
    (regular : table.Regular)
    (options : Options)
    {t : Token}
    (encodable : t.Encodable table) :
    (Asm.settle options.literalStyle table t).Encodable table := by
  have writable := Asm.writable_settle regular (encodable.writable options)
  rcases Asm.settle_cases options.literalStyle table t with same | ⟨code, changed⟩
  · rw [same]
    exact encodable
  · rw [changed] at writable ⊢
    exact writable

theorem noWord_of_ne_literal
    {t : Token}
    (other : ∀ data, t ≠ .literal data) :
    t.NoWord table := by
  intro data same
  exact absurd same (other data)

/-- Settling keeps the canonical form except for digits that are a word, in the normal style. -/
theorem canonical_settle_iff
    (regular : table.Regular)
    (style : LiteralStyle)
    (t : Token) :
    (Asm.settle style table t).canonical = t.canonical ↔ style ≠ .normal ∨ t.NoWord table := by
  cases t with
  | literal data =>
      cases data with
      | nil =>
          have noWord : NoWord table (.literal []) := by
            rintro data same nonempty
            cases same
            exact absurd rfl nonempty
          simp only [noWord, or_true, iff_true, Asm.settle, if_true]
          split
          · rfl
          · rfl
      | cons b data =>
          by_cases word : table.hasWord (Term.normalize (Hex.digits (b :: data))) = true
          · obtain ⟨code, named, _⟩ := regular.exists_code_of_digits word
            have hasWord : ¬ NoWord table (.literal (b :: data)) := by
              intro noWord
              have no := noWord (b :: data) rfl (by simp)
              rw [word] at no
              cases no
            by_cases normal : style = .normal
            · simp [Asm.settle, normal, word, named, hasWord]
            · simp [Asm.settle, normal]
          · have noWord : NoWord table (.literal (b :: data)) := by
              intro data' same _
              cases same
              exact eq_false_of_ne_true word
            simp [Asm.settle, word, noWord]
  | opcode code =>
      simp [Asm.settle, noWord_of_ne_literal]
  | placeholder text =>
      simp [Asm.settle, noWord_of_ne_literal]
  | repetition =>
      simp [Asm.settle, noWord_of_ne_literal]

theorem forall_noWord_iff
    {ts : List Token} :
    (∀ t ∈ ts, t.NoWord table) ↔
      ∀ data, Token.literal data ∈ ts → data ≠ [] →
        table.hasWord (Term.normalize (Hex.digits data)) = false := by
  constructor
  · intro none data mem
    exact none _ mem data rfl
  · rintro none t mem data rfl
    exact none data mem

/-- Settling a list keeps its canonical form iff it keeps that of every token. -/
theorem canonicalTokens_settle_iff
    (regular : table.Regular)
    (style : LiteralStyle)
    (ts : List Token) :
    canonicalTokens (ts.map (Asm.settle style table)) = canonicalTokens ts ↔
      style ≠ .normal ∨ ∀ t ∈ ts, t.NoWord table := by
  rw [canonicalTokens, canonicalTokens, List.map_map, List.map_inj_left]
  simp only [Function.comp_apply, canonical_settle_iff regular]
  by_cases normal : style = .normal
  · simp [normal]
  · simp [normal]

end Token

/-- **From bytes to text and back**, over the standard table and without overrides: both
conversions succeed, and the bytes that come out are the shortest form of the script exactly if the
literal style is not the normal one or no literal has digits that are a word. -/
theorem asmToRaw_rawToAsm
    (options : Options)
    (no_terms : options.terms = Overrides.empty)
    (no_words : options.opcodeWords = Overrides.empty)
    {bytes : List UInt8}
    {ts : List Token}
    (read : Raw.decode bytes Script.table = .ok ts) :
    ∃ text output again shortest,
      rawToAsm (.bytes bytes) options = .ok text ∧
      asmToRaw text options = .ok output ∧
      output.denoted options.encoding = .ok again ∧
      Raw.encode ts = .ok shortest ∧
      (again = shortest ↔
        options.literalStyle ≠ .normal ∨
        ∀ data, Token.literal data ∈ ts → data ≠ [] →
          Script.table.hasWord (Term.normalize (Hex.digits data)) = false) := by
  have regular : Script.table.Regular := Opcode.Table.regular_standard
  have zero : Script.table.hasCode Opcode.zero = true := (Asm.standsAlone_zero regular).1
  have encodable := Raw.encodable_of_decode read
  obtain ⟨text, written, lexed⟩ := Asm.exists_format_settle regular no_terms no_words
    fun t mem => (encodable t mem).writable options
  have encodable' : ∀ t ∈ ts.map (Asm.settle options.literalStyle Script.table),
      t.Encodable Script.table := by
    intro t mem
    obtain ⟨u, in_list, rfl⟩ := List.mem_map.mp mem
    exact (encodable u in_list).settle regular options
  obtain ⟨shortest, encoded, _⟩ := Raw.exists_encode zero encodable
  obtain ⟨again, encoded', _⟩ := Raw.exists_encode zero encodable'
  have written_again :
      Script.toBytes ⟨ts.map (Asm.settle options.literalStyle Script.table)⟩ = .ok again :=
    encoded'
  obtain ⟨output, out, denoted⟩ := Script.exists_toRaw written_again options.encoding
  refine ⟨text, output, again, shortest, ?_, ?_, denoted, encoded, ?_⟩
  · simp [rawToAsm, Script.ofRaw, Script.ofBytes, read, Except.map, Script.toAsm, written]
  · simp [asmToRaw, Script.ofAsm, lexed, Except.map, out]
  · have same_bytes : again = shortest ↔
        Raw.encode (ts.map (Asm.settle options.literalStyle Script.table)) = Raw.encode ts := by
      rw [encoded, encoded']
      exact ⟨fun same => same ▸ rfl, fun same => Except.ok.inj same⟩
    rw [same_bytes, Raw.encode_eq_encode_iff zero encodable' encodable,
      Token.canonicalTokens_settle_iff regular, Token.forall_noWord_iff]

/-- A push of the byte `10` is written as the digits of a word and comes back as its opcode. -/
theorem asmToRaw_rawToAsm_ten :
    Raw.decode [0x76, 0x01, 0x10] Script.table = .ok [.opcode Opcode.dup, .literal [0x10]] ∧
    ∃ text output again,
      rawToAsm (.bytes [0x76, 0x01, 0x10]) Options.default = .ok text ∧
      asmToRaw text Options.default = .ok output ∧
      output.denoted .hex = .ok again ∧
      again ≠ [0x76, 0x01, 0x10] := by
  have zero : Script.table.hasCode Opcode.zero = true := by
    decide
  have encodable : ∀ t ∈ [Token.opcode Opcode.dup, .literal [0x10]],
      t.Encodable Script.table := by
    decide +kernel
  have encoded : Raw.encode [.opcode Opcode.dup, .literal [0x10]] = .ok [0x76, 0x01, 0x10] := by
    rfl
  have read : Raw.decode [0x76, 0x01, 0x10] Script.table =
      .ok [.opcode Opcode.dup, .literal [0x10]] := by
    obtain ⟨bytes, written, read⟩ := Raw.exists_encode zero encodable
    rw [encoded] at written
    cases written
    exact read
  obtain ⟨text, output, again, shortest, to_text, to_raw, denoted, shortest_eq, same_iff⟩ :=
    asmToRaw_rawToAsm Options.default rfl rfl read
  refine ⟨read, text, output, again, to_text, to_raw, denoted, ?_⟩
  intro same
  rw [encoded] at shortest_eq
  cases shortest_eq
  have word : Script.table.hasWord (Term.normalize (Hex.digits [0x10])) = true := by
    decide +kernel
  rcases same_iff.mp same with other | none
  · exact other rfl
  · rw [none [0x10] (by decide) (by decide)] at word
    cases word

end ScriptCodec
