import ScriptCodec.Proofs.Address.RoundTrip

/-!
# Addresses of hashes

A base58 address is read exactly if it is the text of a version byte of the options and twenty bytes,
and then it is the address of the script it is read as.

* `readBase58_eq_ok_iff` says which base58 addresses are read, and as which scripts;
* `toTokens_eq_ok_iff_hash` says so for all addresses that fail as bech32 or are not tried, adds the
  way back, and names the only error that reading an address can end in.
-/

namespace ScriptCodec
namespace Address

variable {table : Opcode.Table} {ts : List Token} {options : Options} {address : String}

/-! ## Base58 addresses -/

section Hashes

variable {params : AddressParams}

/-- What is read as base58 is the text of a version and a payload that fills the template of the
version's shape. -/
theorem exists_of_readBase58
    (read : readBase58 address params table = .ok ts) :
    ∃ shape version hash,
      version? params shape = some version ∧
      address = ofHash version hash ∧
      shape.template.instantiate [hash] table = .ok ts := by
  cases found : Base58.decode address with
  | error e =>
      simp [readBase58, found] at read
  | ok payload =>
      cases payload with
      | nil =>
          simp [readBase58, found] at read
      | cons version hash =>
          have text : address = ofHash version hash := Base58.decode_eq_ok_iff.mp found
          simp only [readBase58, found] at read
          split at read
          · next same =>
              exact ⟨.p2pkh, version, hash, by rw [version?, same], text, read⟩
          split at read
          · next same =>
              exact ⟨.p2sh, version, hash, by rw [version?, same], text, read⟩
          · cases read

/-- The base58 addresses that are read, and the scripts they stand for. -/
theorem readBase58_eq_ok_iff
    (distinct : params.pubKeyHash ≠ params.scriptHash) :
    readBase58 address params table = .ok ts ↔
      ∃ hash : List UInt8,
        hash.length = 20 ∧
        (address = ofHash params.pubKeyHash hash ∧
          ts =
            [.opcode Opcode.dup, .opcode Opcode.hash160, .literal hash,
             .opcode Opcode.equalVerify, .opcode Opcode.checkSig] ∨
         address = ofHash params.scriptHash hash ∧
          ts = [.opcode Opcode.hash160, .literal hash, .opcode Opcode.equal]) := by
  constructor
  · intro read
    obtain ⟨shape, version, hash, versioned, text, filled⟩ := exists_of_readBase58 read
    cases shape with
    | p2pkh =>
        cases versioned
        obtain ⟨size, script⟩ := (Shape.instantiate_eq_ok_iff rfl).mp filled
        exact ⟨hash, size, .inl ⟨text, script⟩⟩
    | p2sh =>
        cases versioned
        obtain ⟨size, script⟩ := (Shape.instantiate_eq_ok_iff rfl).mp filled
        exact ⟨hash, size, .inr ⟨text, script⟩⟩
    | _ =>
        cases versioned
  · rintro ⟨hash, size, ⟨rfl, rfl⟩ | ⟨rfl, rfl⟩⟩
    · have versioned : version? params .p2pkh = some params.pubKeyHash := rfl
      have framed :
          Shape.p2pkh.frame? =
            some ⟨[Opcode.dup, Opcode.hash160], 20, [Opcode.equalVerify, Opcode.checkSig]⟩ := rfl
      exact (readBase58_ofHash distinct versioned hash).trans
        (Shape.instantiate_frame framed size)
    · have versioned : version? params .p2sh = some params.scriptHash := rfl
      have framed : Shape.p2sh.frame? = some ⟨[Opcode.hash160], 20, [Opcode.equal]⟩ := rfl
      exact (readBase58_ofHash distinct versioned hash).trans
        (Shape.instantiate_frame framed size)

end Hashes

/-! ## Addresses that are not read as bech32 -/

/-- An address whose bech32 form is not tried, or fails. -/
def FailsBech32
    (address : String)
    (options : Options)
    (table : Opcode.Table) :
    Prop :=
  sameHrp (String.ofList (hrpOf address.toList)) options.address.bech32 = true →
    ∃ e, readBech32 address options.address.bech32 table = .error e

/-- What fails as bech32 is read as base58. -/
theorem FailsBech32.toTokens_eq_ok_iff
    (fails : FailsBech32 address options table) :
    toTokens address options table = .ok ts ↔
      readBase58 address options.address table = .ok ts := by
  have second : ∃ fault, read address options table = readAsBase58 fault address options table := by
    rw [read]
    split
    · next tried =>
        obtain ⟨e, failed⟩ := fails tried
        exact ⟨some e, by rw [failed]⟩
    · exact ⟨none, rfl⟩
  obtain ⟨fault, read_eq⟩ := second
  rw [toTokens, read_eq, readAsBase58]
  cases readBase58 address options.address table with
  | ok tokens =>
      simp [Reading.tokens?]
  | error e =>
      simp [Reading.tokens?]

/-- An address that is not read is unrecognized, whatever went wrong. -/
theorem eq_unrecognizedAddress_of_toTokens
    {e : Error}
    (failed : toTokens address options table = .error e) :
    e = .unrecognizedAddress address := by
  unfold toTokens at failed
  split at failed
  · cases failed
  · rw [Except.error.injEq] at failed
    exact failed.symm

/-- **Base58 addresses are read exactly**, over every table and under options that keep the two
versions apart.  If an address fails as bech32, it is read exactly if it is the text of a version
and twenty bytes, as the script that pays to these bytes, and this script has no other address.  In
all cases the only error is that the address is unrecognized. -/
theorem toTokens_eq_ok_iff_hash
    (distinct : options.address.pubKeyHash ≠ options.address.scriptHash) :
    (FailsBech32 address options table →
      ∀ ts,
        (toTokens address options table = .ok ts ↔
          ∃ hash : List UInt8,
            hash.length = 20 ∧
            (address = Base58.encode (options.address.pubKeyHash :: hash) ∧
              ts =
                [.opcode Opcode.dup, .opcode Opcode.hash160, .literal hash,
                 .opcode Opcode.equalVerify, .opcode Opcode.checkSig] ∨
             address = Base58.encode (options.address.scriptHash :: hash) ∧
              ts = [.opcode Opcode.hash160, .literal hash, .opcode Opcode.equal])) ∧
        (toTokens address options table = .ok ts →
          ofTokens ts options table = .ok (some address))) ∧
    ∀ e, toTokens address options table = .error e → e = .unrecognizedAddress address := by
  refine ⟨?_, fun e => eq_unrecognizedAddress_of_toTokens⟩
  intro fails ts
  rw [fails.toTokens_eq_ok_iff]
  refine ⟨readBase58_eq_ok_iff distinct, ?_⟩
  intro read
  obtain ⟨hash, size, ⟨rfl, rfl⟩ | ⟨rfl, rfl⟩⟩ := (readBase58_eq_ok_iff distinct).mp read
  · exact ofTokens_script .p2pkh rfl rfl size
  · exact ofTokens_script .p2sh rfl rfl size

/-- Twenty equal bytes under the version of script hashes of the main network. -/
theorem toTokens_eq_ok_iff_hash_main :
    let hash : List UInt8 := List.replicate 20 0x2a
    let text := Base58.encode (0x05 :: hash)
    let script : List Token := [.opcode Opcode.hash160, .literal hash, .opcode Opcode.equal]
    Options.default.address.pubKeyHash ≠ Options.default.address.scriptHash ∧
    FailsBech32 text Options.default Opcode.Table.standard ∧
    toTokens text Options.default Opcode.Table.standard = .ok script ∧
    ofTokens script Options.default Opcode.Table.standard = .ok (some text) := by
  intro hash text script
  have distinct : Options.default.address.pubKeyHash ≠ Options.default.address.scriptHash := by
    decide
  have fails : FailsBech32 text Options.default Opcode.Table.standard := by
    intro tried
    rw [sameHrp_iff, String.toList_ofList] at tried
    have known : AddressParams.bitcoin ∈ networks := by
      decide
    have versioned : version? AddressParams.bitcoin .p2sh = some 0x05 := by
      rfl
    have size : hash.length = 20 := by
      rfl
    exact absurd tried (hrpOf_ofHash_ne known versioned size)
  obtain ⟨reads, back⟩ := (toTokens_eq_ok_iff_hash distinct).1 fails script
  have read := reads.mpr ⟨hash, by decide, .inr ⟨rfl, rfl⟩⟩
  exact ⟨distinct, fails, read, back read⟩

end Address
end ScriptCodec
