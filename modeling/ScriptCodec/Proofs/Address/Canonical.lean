import ScriptCodec.Proofs.Address.PayToHash
import ScriptCodec.Proofs.Address.Spelling

/-!
# The address that is written

The bech32 form of an address can carry any raw script, and several texts carry the same one.  Of
these texts one is written, if any: the canonical address.

* `read_eq_bech32_iff` says which addresses are read as bech32;
* `ofTokens_ne_of_hash` excludes that such an address is the base58 address of its own script, as it
  would be too long for that;
* `ofTokens_eq_lowered_iff` says when the script of an address has that address, and that no other
  canonical address leads to this script.
-/

namespace ScriptCodec
namespace Address

variable {table : Opcode.Table} {ts : List Token} {options : Options} {address : String}

/-! ## Reading -/

theorem sameHrp_iff_lowered
    {a b : String} :
    sameHrp a b = true ↔ Bech32.lowered b = Bech32.lowered a := by
  rw [sameHrp_iff, Bech32.lowered, Bech32.lowered, String.ofList_inj, eq_comm]

/-- The addresses that are read as bech32: texts under the configured prefix that carry a raw
script. -/
theorem read_eq_bech32_iff :
    read address options table = .bech32 ts ↔
      ∃ hrp data,
        Bech32.decode address = .ok (hrp, data) ∧
        Bech32.lowered options.address.bech32 = Bech32.lowered hrp ∧
        Raw.decode data table = .ok ts := by
  constructor
  · intro found
    rw [read] at found
    split at found
    · split at found
      · next tokens bech32 =>
          cases found
          rw [readBech32] at bech32
          split at bech32
          · cases bech32
          · next hrp data decoded =>
              split at bech32
              · next same =>
                  exact ⟨hrp, data, decoded, sameHrp_iff_lowered.mp same, bech32⟩
              · cases bech32
      · rw [readAsBase58] at found
        split at found
        · cases found
        · cases found
    · rw [readAsBase58] at found
      split at found
      · cases found
      · cases found
  · rintro ⟨hrp, data, decoded, same, reads⟩
    have front := (Bech32.decode_eq_ok_iff.mp decoded).1.hrpOf_eq
    have own := sameHrp_iff_lowered.mpr same
    have bech32 : readBech32 address options.address.bech32 table = .ok ts := by
      simp only [readBech32, decoded, own, if_true]
      exact reads
    simp only [read, front, String.ofList_toList, own, if_true, bech32]

/-- What is not read as bech32 is read as base58. -/
theorem readBase58_of_read
    {fault : Option Error}
    (found : read address options table = .base58 fault ts) :
    readBase58 address options.address table = .ok ts := by
  have second : ∀ {fault'},
      readAsBase58 fault' address options table = .base58 fault ts →
      readBase58 address options.address table = .ok ts := by
    intro fault' found'
    rw [readAsBase58] at found'
    split at found'
    · next tokens base58 =>
        cases found'
        exact base58
    · cases found'
  rw [read] at found
  split at found
  · split at found
    · cases found
    · exact second found
  · exact second found

/-! ## Scripts that pay to a hash -/

/-- An address that is read as bech32 is too long to be a base58 address of the same script. -/
theorem ofTokens_ne_of_hash
    (found : read address options table = .bech32 ts)
    {shape : Shape}
    {version : UInt8}
    (versioned : version? options.address shape = some version)
    (shaped : Shape.ofTokens? ts table = some shape) :
    ofTokens ts options table ≠ .ok (some (Bech32.lowered address)) := by
  intro addressed
  obtain ⟨hrp, data, decoded, _, reads⟩ := read_eq_bech32_iff.mp found
  obtain ⟨hash, size, written, filled⟩ := exists_hash versioned shaped
  rw [written, Except.ok.injEq, Option.some.injEq] at addressed
  obtain ⟨frame, framed, _⟩ := exists_frame_of_version versioned
  obtain ⟨_, rfl⟩ := (Shape.instantiate_eq_ok_iff framed).mp filled
  -- A raw script of more than twenty bytes takes forty-one characters, a hash at most thirty-eight.
  have carried : hash.length < data.length :=
    Raw.length_lt_of_decode reads (Frame.literal_mem_script_iff.mpr rfl)
  obtain ⟨spelled, data_eq⟩ := Bech32.decode_eq_ok_iff.mp decoded
  have long := spelled.length_le
  have short := Base58.length_encode_le (version :: hash)
  have same := congrArg (fun text => text.toList.length) addressed
  rw [data_eq] at long
  simp only [ofHash, Bech32.toList_lowered, List.length_map] at same
  rw [same, List.length_cons] at short
  omega

/-! ## Canonical addresses -/

/-- An address in the form that is written for a script, letter case apart: a normal text that
carries the raw script with the shortest pushes. -/
structure IsCanonical
    (address : String)
    (ts : List Token) :
    Prop where
  normal : Bech32.IsNormal address
  shortest : ∃ hrp data, Bech32.decode address = .ok (hrp, data) ∧ Raw.encode ts = .ok data

/-- A witness script has the address it was read from exactly if that address is canonical, unless
the configured prefix cannot be written. -/
theorem ofTokens_witness_eq_lowered_iff
    (found : read address options table = .bech32 ts)
    (shaped :
      Shape.ofTokens? ts table = some .p2wpkh ∨ Shape.ofTokens? ts table = some .p2wsh) :
    ofTokens ts options table = .ok (some (Bech32.lowered address)) ↔
      Bech32.isMixedCase options.address.bech32.toList = false ∧ IsCanonical address ts := by
  obtain ⟨hrp, data, decoded, same, _⟩ := read_eq_bech32_iff.mp found
  obtain ⟨program, size, rfl⟩ := exists_program shaped
  have written := encode_program size
  rw [ofTokens_witness_eq_ok_iff shaped written, Bech32.encode_eq_lowered_iff decoded same]
  apply and_congr_right
  intro _
  constructor
  · rintro ⟨data_eq, normal⟩
    exact ⟨normal, hrp, data, decoded, data_eq ▸ written⟩
  · rintro ⟨normal, hrp', data', decoded', written'⟩
    rw [decoded, Except.ok.injEq, Prod.mk.injEq] at decoded'
    rw [written, Except.ok.injEq] at written'
    exact ⟨written'.trans decoded'.2.symm, normal⟩

/-- Canonical addresses of one script are the same, letter case apart. -/
theorem IsCanonical.lowered_eq
    {address' : String}
    (found : read address options table = .bech32 ts)
    (found' : read address' options table = .bech32 ts)
    (canonical : IsCanonical address ts)
    (canonical' : IsCanonical address' ts) :
    Bech32.lowered address' = Bech32.lowered address := by
  obtain ⟨hrp, data, decoded, same, _⟩ := read_eq_bech32_iff.mp found
  obtain ⟨hrp', data', decoded', same', _⟩ := read_eq_bech32_iff.mp found'
  have carries : ∀ {address hrp data},
      IsCanonical address ts → Bech32.decode address = .ok (hrp, data) →
      Raw.encode ts = .ok data := by
    rintro address hrp data ⟨_, hrp', data', decoded', written⟩ decoded
    rw [decoded, Except.ok.injEq, Prod.mk.injEq] at decoded'
    rw [written, decoded'.2]
  have data_eq : data = data' :=
    Except.ok.inj ((carries canonical decoded).symm.trans (carries canonical' decoded'))
  -- Both are what is written for the same data under the human-readable part of the first one.
  have oneCase :=
    (Bech32.hrpFault?_eq_none_iff.mp (Bech32.decode_eq_ok_iff.mp decoded).1.valid).2.2.2
  have written := (Bech32.encode_eq_lowered_iff decoded rfl).mpr ⟨oneCase, rfl, canonical.normal⟩
  have written' := (Bech32.encode_eq_lowered_iff decoded' (same.symm.trans same')).mpr
    ⟨oneCase, data_eq, canonical'.normal⟩
  exact Except.ok.inj (written'.symm.trans written)

/-- **A script has the bech32 address it was read from**, in lower case, exactly if it is a witness
script, the configured prefix has one letter case, and the address is canonical.  A script has at
most one canonical address, letter case apart. -/
theorem ofTokens_eq_lowered_iff
    (found : read address options table = .bech32 ts) :
    (ofTokens ts options table = .ok (some (Bech32.lowered address)) ↔
      (Shape.ofTokens? ts table = some .p2wpkh ∨ Shape.ofTokens? ts table = some .p2wsh) ∧
      Bech32.isMixedCase options.address.bech32.toList = false ∧
      IsCanonical address ts) ∧
    (IsCanonical address ts →
      ∀ address', read address' options table = .bech32 ts → IsCanonical address' ts →
        Bech32.lowered address' = Bech32.lowered address) := by
  refine ⟨?_, fun canonical address' found' => canonical.lowered_eq found found'⟩
  constructor
  · intro addressed
    suffices shaped :
        Shape.ofTokens? ts table = some .p2wpkh ∨ Shape.ofTokens? ts table = some .p2wsh from
      ⟨shaped, (ofTokens_witness_eq_lowered_iff found shaped).mp addressed⟩
    cases shaped : Shape.ofTokens? ts table with
    | none =>
        rw [ofTokens, shaped] at addressed
        cases addressed
    | some shape =>
        cases shape with
        | p2wpkh =>
            exact .inl rfl
        | p2wsh =>
            exact .inr rfl
        | p2pkh =>
            exact absurd addressed (ofTokens_ne_of_hash found rfl shaped)
        | p2sh =>
            exact absurd addressed (ofTokens_ne_of_hash found rfl shaped)
        | p2pk =>
            rw [ofTokens, shaped] at addressed
            cases addressed
        | multisig =>
            rw [ofTokens, shaped] at addressed
            cases addressed
  · rintro ⟨shaped, canonical⟩
    exact (ofTokens_witness_eq_lowered_iff found shaped).mpr canonical

/-- The canonical address of a witness script, in upper case. -/
theorem ofTokens_eq_lowered_iff_upper :
    let program : List UInt8 :=
      [0x76, 0x9b, 0xe9, 0xe3, 0x06, 0x13, 0xeb, 0x5a, 0x67, 0xef,
       0xe8, 0xae, 0x03, 0x80, 0x50, 0x79, 0xe8, 0xfd, 0x5d, 0x92]
    let script : List Token := [.opcode Opcode.zero, .literal program]
    let text := "BC1QQ28DXLFUVRP8666VLH73TSRSPG8N68ATKFQXQWFJL"
    read text Options.default Opcode.Table.standard = .bech32 script ∧
    IsCanonical text script ∧
    ofTokens script Options.default Opcode.Table.standard =
      .ok (some "bc1qq28dxlfuvrp8666vlh73tsrspg8n68atkfqxqwfjl") := by
  intro program script text
  have zero : Opcode.Table.standard.hasCode Opcode.zero = true := by
    decide
  have size : program.length = 20 ∨ program.length = 32 := by
    decide
  have decoded : Bech32.decode text = .ok ("BC", 0x00 :: 0x14 :: program) := by
    decide +kernel
  have same : Bech32.lowered Options.default.address.bech32 = Bech32.lowered "BC" := by
    decide
  have found : read text Options.default Opcode.Table.standard = .bech32 script :=
    read_eq_bech32_iff.mpr ⟨_, _, decoded, same, decode_program zero size⟩
  have canonical : IsCanonical text script :=
    ⟨⟨by decide +kernel, by decide +kernel, by decide +kernel⟩, _, _, decoded,
      encode_program size⟩
  have shaped : Shape.ofTokens? script Opcode.Table.standard = some .p2wpkh :=
    Shape.ofTokens?_eq_some_iff.mpr ((Shape.hasShape_iff_frame rfl).mpr ⟨program, rfl, rfl⟩)
  have addressed := (ofTokens_eq_lowered_iff found).1.mpr ⟨.inl shaped, by decide, canonical⟩
  have lower : Bech32.lowered text = "bc1qq28dxlfuvrp8666vlh73tsrspg8n68atkfqxqwfjl" := by
    decide +kernel
  exact ⟨found, canonical, lower ▸ addressed⟩

/-- Some addresses of the main network are not written: one of the empty script, which has no shape,
and one of a witness script under the modified checksum. -/
theorem read_bech32_not_written :
    let program : List UInt8 :=
      [0x76, 0x9b, 0xe9, 0xe3, 0x06, 0x13, 0xeb, 0x5a, 0x67, 0xef,
       0xe8, 0xae, 0x03, 0x80, 0x50, 0x79, 0xe8, 0xfd, 0x5d, 0x92]
    let script : List Token := [.opcode Opcode.zero, .literal program]
    (read "bc1gmk9yu" Options.default Opcode.Table.standard = .bech32 [] ∧
      Shape.ofTokens? [] Opcode.Table.standard = none ∧
      ofTokens [] Options.default Opcode.Table.standard = .ok none) ∧
    (read "bc1qq28dxlfuvrp8666vlh73tsrspg8n68atkfqnu79ha" Options.default Opcode.Table.standard =
        .bech32 script ∧
      ofTokens script Options.default Opcode.Table.standard =
        .ok (some "bc1qq28dxlfuvrp8666vlh73tsrspg8n68atkfqxqwfjl") ∧
      read "bc1qq28dxlfuvrp8666vlh73tsrspg8n68atkfqxqwfjl" Options.default
        Opcode.Table.standard = .bech32 script) := by
  intro program script
  have zero : Opcode.Table.standard.hasCode Opcode.zero = true := by
    decide
  have size : program.length = 20 ∨ program.length = 32 := by
    decide
  have reads : ∀ text : String, Bech32.decode text = .ok ("bc", 0x00 :: 0x14 :: program) →
      read text Options.default Opcode.Table.standard = .bech32 script :=
    fun text decoded => read_eq_bech32_iff.mpr ⟨_, _, decoded, rfl, decode_program zero size⟩
  have shaped : Shape.ofTokens? script Opcode.Table.standard = some .p2wpkh :=
    Shape.ofTokens?_eq_some_iff.mpr ((Shape.hasShape_iff_frame rfl).mpr ⟨program, rfl, rfl⟩)
  refine ⟨⟨?_, ?_, ?_⟩, reads _ (by decide +kernel), ?_, reads _ (by decide +kernel)⟩
  · have decoded : Bech32.decode "bc1gmk9yu" = .ok ("bc", []) := by
      decide +kernel
    have empty : Raw.decode [] Opcode.Table.standard = .ok [] :=
      Raw.decode_eq_ok_iff.mpr ⟨[], Reader.run_of_done rfl, rfl⟩
    exact read_eq_bech32_iff.mpr ⟨_, _, decoded, rfl, empty⟩
  · decide +kernel
  · decide +kernel
  · apply (ofTokens_witness_eq_ok_iff (.inl shaped) (encode_program size)).mpr
    decide +kernel

end Address
end ScriptCodec
