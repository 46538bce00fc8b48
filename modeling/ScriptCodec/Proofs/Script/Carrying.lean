import ScriptCodec.Proofs.Json.StringLiteral
import ScriptCodec.Proofs.Text.Base64Canonical
import ScriptCodec.Proofs.Transcription

/-!
# Raw scripts carried as text

Bytes are carried by one base64 text each, and by one hexadecimal text up to the case of letters:
`decodeText_base64_iff` and `decodeText_hex_iff` say of every text whether it carries given bytes.
A script can therefore be handed on in any raw form, or inside a JSON string, and the script that is
read back is the same one in canonical form.  `raw_forms_agree` puts these results together.
-/

namespace ScriptCodec

namespace Encoding

/-- An encoding of text has a text for all bytes, and it carries these bytes. -/
theorem exists_encodeBytes
    {encoding : Encoding}
    (carries : encoding ≠ .none)
    (bytes : List UInt8) :
    ∃ text,
      encoding.encodeBytes bytes = some text ∧
      encoding.decodeText text = .ok bytes := by
  cases encoded : encoding.encodeBytes bytes with
  | none =>
      cases encoding with
      | none =>
          exact absurd rfl carries
      | hex =>
          cases encoded
      | base64 =>
          cases encoded
  | some text =>
      exact ⟨text, rfl, decodeText_encodeBytes encoded⟩

theorem mapError_eq_ok_iff
    {ε ε' α : Type}
    {result : Except ε α}
    {report : ε → ε'}
    {a : α} :
    result.mapError report = .ok a ↔ result = .ok a := by
  cases result with
  | ok b =>
      simp [Except.mapError]
  | error e =>
      simp [Except.mapError]

section

variable {text : String} {bytes : List UInt8}

/-- A base64 text carries bytes exactly if it is the text of these bytes. -/
theorem decodeText_base64_iff :
    base64.decodeText text = .ok bytes ↔ base64.encodeBytes bytes = some text := by
  rw [decodeText, mapError_eq_ok_iff, Base64.decode_eq_ok_iff, encodeBytes, Option.some_inj]

/-- A hexadecimal text carries bytes exactly if it is the text of these bytes in lower case. -/
theorem decodeText_hex_iff :
    hex.decodeText text = .ok bytes ↔ hex.encodeBytes bytes = some text.toLower := by
  rw [decodeText, mapError_eq_ok_iff, Hex.decode_eq_ok_iff, encodeBytes, Option.some_inj]

end

end Encoding

namespace Script

/-- The script as it is read back from its raw forms. -/
def canonical
    (s : Script) :
    Script :=
  ⟨canonicalTokens s.tokens⟩

section

variable {s : Script} {bytes : List UInt8}

/-- A script that can be raw has bytes, and they are read as its canonical form. -/
theorem exists_toBytes
    (encodable : ∀ t ∈ s.tokens, t.Encodable table) :
    ∃ bytes,
      s.toBytes = .ok bytes ∧
      ofBytes bytes = .ok s.canonical := by
  have zero : table.hasCode Opcode.zero = true :=
    (Asm.standsAlone_zero Opcode.Table.regular_standard).1
  obtain ⟨bytes, written, read⟩ := Raw.exists_encode zero encodable
  refine ⟨bytes, written, ?_⟩
  rw [ofBytes, read]
  rfl

/-- A raw form is read as the bytes that it stands for. -/
theorem ofRaw_toInput
    {output : RawOutput}
    {encoding : Encoding}
    (denoted : output.denoted encoding = .ok bytes) :
    ofRaw output.toInput encoding = ofBytes bytes := by
  cases output with
  | bytes raw =>
      cases denoted
      rfl
  | text carrier =>
      have carried : encoding.decodeText carrier = .ok bytes := denoted
      simp only [RawOutput.toInput, ofRaw, carried]

/-- The JSON string of a script is read as its bytes. -/
theorem exists_toJson
    (written : s.toBytes = .ok bytes)
    {t : Script}
    (read : ofBytes bytes = .ok t) :
    ∃ json,
      s.toJson = .ok json ∧
      ofJson json = .ok t := by
  have carried : Encoding.hex.decodeText (Hex.encode bytes) = .ok bytes :=
    Encoding.decodeText_encodeBytes rfl
  have denoted : RawOutput.denoted .hex (.text (Hex.encode bytes)) = .ok bytes :=
    carried
  have parsed : ofHex (Hex.encode bytes) = .ok t :=
    (ofRaw_toInput denoted).trans read
  refine ⟨Json.writeText (Hex.encode bytes), toJson_of_toBytes written, ?_⟩
  rw [ofJson, Json.readWhole_writeText, parsed]
  rfl

/-- Bytes are shown as the hexadecimal text that carries them. -/
theorem exists_display
    (written : s.toBytes = .ok bytes) :
    ∃ raw text,
      s.toRaw .none = .ok raw ∧
      s.toRaw .hex = .ok (.text text) ∧
      raw.display = text := by
  exact ⟨.bytes bytes, Hex.encode bytes, toRaw_of_toBytes written .none,
    toRaw_of_toBytes written .hex, Hex.display_eq_encode bytes⟩

end

/-- **Raw forms agree.**  Bytes have one text in each encoding of text, up to the case of hex
letters, and what is read from a text is what the text was written for.  So a script of tokens that
can be raw is read back in canonical form from every raw form and from its JSON string, and its
bytes are shown as its hexadecimal form. -/
theorem raw_forms_agree :
    (∀ encoding : Encoding, encoding ≠ .none → ∀ bytes, ∃ text,
      encoding.encodeBytes bytes = some text ∧
      encoding.decodeText text = .ok bytes) ∧
    (∀ (text : String) (bytes : List UInt8),
      Encoding.base64.decodeText text = .ok bytes ↔
        Encoding.base64.encodeBytes bytes = some text) ∧
    (∀ (text : String) (bytes : List UInt8),
      Encoding.hex.decodeText text = .ok bytes ↔
        Encoding.hex.encodeBytes bytes = some text.toLower) ∧
    ∀ s : Script, (∀ t ∈ s.tokens, t.Encodable table) →
      (∀ encoding, ∃ output,
        s.toRaw encoding = .ok output ∧
        ofRaw output.toInput encoding = .ok s.canonical) ∧
      (∃ json,
        s.toJson = .ok json ∧
        ofJson json = .ok s.canonical) ∧
      ∃ raw text,
        s.toRaw .none = .ok raw ∧
        s.toRaw .hex = .ok (.text text) ∧
        raw.display = text := by
  refine ⟨fun _ => Encoding.exists_encodeBytes, fun _ _ => Encoding.decodeText_base64_iff,
    fun _ _ => Encoding.decodeText_hex_iff, ?_⟩
  intro s encodable
  obtain ⟨bytes, written, read⟩ := exists_toBytes encodable
  refine ⟨?_, exists_toJson written read, exists_display written⟩
  intro encoding
  obtain ⟨output, raw, denoted⟩ := exists_toRaw written encoding
  exact ⟨output, raw, (ofRaw_toInput denoted).trans read⟩

/-- An empty literal comes back as the opcode for the empty value. -/
theorem raw_forms_agree_empty_literal :
    (∀ t ∈ [Token.opcode Opcode.dup, .literal []], t.Encodable table) ∧
    ∃ output,
      toRaw ⟨[.opcode Opcode.dup, .literal []]⟩ .base64 = .ok output ∧
      ofRaw output.toInput .base64 = .ok ⟨[.opcode Opcode.dup, .opcode Opcode.zero]⟩ := by
  have encodable : ∀ t ∈ [Token.opcode Opcode.dup, .literal []], t.Encodable table := by
    decide +kernel
  obtain ⟨-, -, -, scripts⟩ := raw_forms_agree
  exact ⟨encodable, (scripts ⟨[.opcode Opcode.dup, .literal []]⟩ encodable).1 .base64⟩

end Script
end ScriptCodec
