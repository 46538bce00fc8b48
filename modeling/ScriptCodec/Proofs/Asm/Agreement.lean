import ScriptCodec.Proofs.Asm.Settling
import ScriptCodec.Proofs.Script.Plain

/-!
# One table for texts and raw scripts

Texts find opcodes by their words, and raw scripts by their numbers.  The two searches can end in
different rows of a table, but a word never names an opcode that no row has.  So whatever rows a
table is built from, the tokens of a text are tokens of raw scripts: `encodable_of_decode_iff` says
so for the tokens, and `decode_encode_of_decode` for the bytes.
-/

namespace ScriptCodec
namespace Asm

variable {rows : List Opcode.Row} {options : Options} {text : List Char} {ts : List Token}

/-- The tokens of a text can be in a raw script unless a literal is too large. -/
theorem encodable_of_decode_iff
    (zero : (Opcode.Table.ofRows rows).hasCode Opcode.zero = true)
    (no_placeholders : options.allowPlaceholders = false)
    (no_terms : options.terms = Overrides.empty)
    (read : decode text options (Opcode.Table.ofRows rows) = .ok ts) :
    (∀ t ∈ ts, t.Encodable (Opcode.Table.ofRows rows)) ↔
      ∀ data, .literal data ∈ ts → data.length < 2 ^ 32 := by
  constructor
  · intro encodable data mem
    exact encodable _ mem
  · intro small t mem
    have plain := isPlain_of_decode no_placeholders read t mem
    cases t with
    | literal data =>
        exact small data mem
    | opcode code =>
        exact standsAlone_of_decode ⟨zero, rfl⟩ no_terms read mem
    | placeholder text =>
        exact plain.elim
    | repetition =>
        exact plain.elim

/-- **Texts and raw scripts agree on every table** that has the opcode of the empty value, whatever
its rows are: the tokens of a text have bytes unless a literal is too large, and the bytes are read
as these tokens in canonical form. -/
theorem decode_encode_of_decode
    (zero : (Opcode.Table.ofRows rows).hasCode Opcode.zero = true)
    (no_placeholders : options.allowPlaceholders = false)
    (no_terms : options.terms = Overrides.empty)
    (read : decode text options (Opcode.Table.ofRows rows) = .ok ts) :
    ((∀ data, .literal data ∈ ts → data.length < 2 ^ 32) ↔ ∃ bytes, Raw.encode ts = .ok bytes) ∧
    ∀ bytes,
      Raw.encode ts = .ok bytes →
      Raw.decode bytes (Opcode.Table.ofRows rows) = .ok (canonicalTokens ts) := by
  have encodable_iff := encodable_of_decode_iff zero no_placeholders no_terms read
  have alone : ∀ code, .opcode code ∈ ts → (Opcode.Table.ofRows rows).StandsAlone code :=
    fun _ mem => standsAlone_of_decode ⟨zero, rfl⟩ no_terms read mem
  refine ⟨⟨?_, ?_⟩, ?_⟩
  · intro small
    obtain ⟨bytes, written, _⟩ := Raw.exists_encode zero (encodable_iff.mpr small)
    exact ⟨bytes, written⟩
  · rintro ⟨bytes, written⟩
    exact encodable_iff.mp (Raw.encodable_of_encode alone written)
  · intro bytes written
    obtain ⟨bytes', written', read'⟩ :=
      Raw.exists_encode zero (Raw.encodable_of_encode alone written)
    have same := Except.ok.inj (written.symm.trans written')
    rw [same, read']

/-- Rows that share a word and opcodes, and have more words than opcodes or fewer: the word names an
opcode that is found in another row. -/
theorem decode_encode_of_decode_overlapping :
    let rows : List Opcode.Row :=
      [⟨["OP_A", "OP_B"], [0x00, 0x61, 0x62], "", "", "", false⟩,
       ⟨["OP_B", "OP_C", "OP_C"], [0x63], "", "", "", false⟩,
       ⟨["OP_D", "OP_B", "OP_E"], [0x63, 0x61], "", "", "", true⟩,
       ⟨[], [0x61, 0x61], "", "", "", false⟩]
    let table := Opcode.Table.ofRows rows
    table.hasCode Opcode.zero = true ∧
    Options.default.allowPlaceholders = false ∧
    Options.default.terms = Overrides.empty ∧
    decode "b []".toList Options.default table = .ok [.opcode 0x61, .literal []] ∧
    table.rowOfWord? "OP_B" ≠ table.rowOfCode? 0x61 ∧
    Raw.encode [.opcode 0x61, .literal []] = .ok [0x61, 0x00] ∧
    Raw.decode [0x61, 0x00] table = .ok [.opcode 0x61, .opcode Opcode.zero] := by
  intro rows table
  have zero : table.hasCode Opcode.zero = true := by
    decide
  have run : IsRun ['b'] := by
    refine ⟨by simp, ?_, by simp, by simp⟩
    intro ch mem
    rw [List.mem_singleton.mp mem]
    rfl
  have named : Lexicon.readTerm ⟨Options.default.terms, table⟩ ['b'] 0 = .ok 0x61 := by
    decide
  have read : decode "b []".toList Options.default table = .ok [.opcode 0x61, .literal []] :=
    decode_join rfl (decode_run run named) (decode_bracketed [])
  have written : Raw.encode [.opcode 0x61, .literal []] = .ok [0x61, 0x00] := by
    rfl
  have read' := (decode_encode_of_decode zero rfl rfl read).2 _ written
  exact ⟨zero, rfl, rfl, read, by decide, written, read'⟩

end Asm
end ScriptCodec
