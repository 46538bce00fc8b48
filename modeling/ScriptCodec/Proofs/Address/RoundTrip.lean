import ScriptCodec.Proofs.Address.Base58
import ScriptCodec.Proofs.Address.Bech32
import ScriptCodec.Proofs.Raw.RoundTrip
import ScriptCodec.Proofs.Template.Shapes

/-!
# Reading addresses back

An address leads back to the script that it was made from.

* `ofTokens_witness` and `ofTokens_script` say which address a script has, and
  `exists_ofTokens_witness` that a witness script has one under every valid prefix;
* `read_ofData` reads a bech32 address as the raw script it carries;
* `readBase58_ofHash` reads a base58 address as the script of its version;
* `hrpOf_ofHash_ne` says that no base58 address of a known network starts as its bech32 addresses
  do, so that the first attempt of reading does not take it for one.
-/

namespace ScriptCodec
namespace Address

variable {table : Opcode.Table} {ts : List Token} {options : Options} {address : String}

/-! ## Witness scripts -/

/-- A script of a witness shape is a version and a program. -/
theorem exists_program
    (shaped :
      Shape.ofTokens? ts table = some .p2wpkh ∨ Shape.ofTokens? ts table = some .p2wsh) :
    ∃ program : List UInt8,
      (program.length = 20 ∨ program.length = 32) ∧
      ts = [.opcode Opcode.zero, .literal program] := by
  apply Shape.exists_witness_iff.mp
  rcases shaped with shaped | shaped
  · exact ⟨.p2wpkh, .inl rfl, Shape.ofTokens?_eq_some_iff.mp shaped⟩
  · exact ⟨.p2wsh, .inr rfl, Shape.ofTokens?_eq_some_iff.mp shaped⟩

/-- The raw script of a witness script. -/
theorem encode_program
    {program : List UInt8}
    (size : program.length = 20 ∨ program.length = 32) :
    Raw.encode [.opcode Opcode.zero, .literal program] =
      .ok (Opcode.zero :: UInt8.ofNat program.length :: program) := by
  have header : Raw.pushHeader? program.length = some [UInt8.ofNat program.length] := by
    rcases size with size | size
    · rw [size]
      rfl
    · rw [size]
      rfl
  have version : Raw.tokenBytes 0 (.opcode Opcode.zero) = .ok [Opcode.zero] := by
    rfl
  have push : ∀ position, Raw.tokenBytes position (.literal program) =
      .ok (UInt8.ofNat program.length :: program) := by
    intro position
    rw [Raw.tokenBytes, header]
    rfl
  rw [Raw.encode, Raw.encodeOnto_cons_of_ok version, Raw.encodeOnto_cons_of_ok (push _)]
  simp [Raw.encodeOnto]

/-- The raw script of a witness script is read back. -/
theorem decode_program
    (zero : table.hasCode Opcode.zero = true)
    {program : List UInt8}
    (size : program.length = 20 ∨ program.length = 32) :
    Raw.decode (Opcode.zero :: UInt8.ofNat program.length :: program) table =
      .ok [.opcode Opcode.zero, .literal program] := by
  have encodable :
      ∀ t ∈ [.opcode Opcode.zero, .literal program], Token.Encodable table t := by
    simp only [List.mem_cons, List.not_mem_nil, or_false, forall_eq_or_imp, forall_eq]
    refine ⟨⟨zero, rfl⟩, ?_⟩
    simp only [Token.Encodable]
    omega
  obtain ⟨bytes, written, read⟩ := Raw.exists_encode zero encodable
  rw [encode_program size, Except.ok.injEq] at written
  -- An empty program would come back as an opcode, but a program has at least twenty bytes.
  have kept : .literal [] ∉ [Token.opcode Opcode.zero, .literal program] := by
    simpa [eq_comm] using Shape.program_ne_nil size
  rw [written, read, canonicalTokens_of_not_mem kept]

/-- The address of a witness script is the text of its raw script. -/
theorem ofTokens_witness
    (shaped :
      Shape.ofTokens? ts table = some .p2wpkh ∨ Shape.ofTokens? ts table = some .p2wsh)
    {data : List UInt8}
    (written : Raw.encode ts = .ok data) :
    ofTokens ts options table = (ofData options.address.bech32 data).map some := by
  rcases shaped with shaped | shaped
  · rw [ofTokens, shaped]
    simp only [ofShape, written]
  · rw [ofTokens, shaped]
    simp only [ofShape, written]

theorem ofData_eq_ok_iff
    {hrp : String}
    {data : List UInt8} :
    ofData hrp data = .ok address ↔ Bech32.encode hrp data = .ok address := by
  rw [ofData]
  cases Bech32.encode hrp data with
  | ok text =>
      simp
  | error e =>
      cases e with
      | hrp e =>
          simp
      | tooLong =>
          simp

/-- A witness script has an address exactly if its raw script has a text. -/
theorem ofTokens_witness_eq_ok_iff
    (shaped :
      Shape.ofTokens? ts table = some .p2wpkh ∨ Shape.ofTokens? ts table = some .p2wsh)
    {data : List UInt8}
    (written : Raw.encode ts = .ok data) :
    ofTokens ts options table = .ok (some address) ↔
      Bech32.encode options.address.bech32 data = .ok address := by
  rw [ofTokens_witness shaped written, ← ofData_eq_ok_iff]
  cases ofData options.address.bech32 data with
  | ok text =>
      simp [Except.map]
  | error e =>
      simp [Except.map]

/-- The prefix of a bech32 address is its human-readable part in lower case. -/
theorem hrpOf_encode
    {hrp : String}
    {data : List UInt8}
    (written : Bech32.encode hrp data = .ok address) :
    hrpOf address.toList = (Bech32.lowered hrp).toList := by
  obtain ⟨_, _, rfl⟩ := Bech32.encode_eq_ok_iff.mp written
  rw [String.toList_ofList]
  exact hrpOf_append _ (Bech32.separator_not_mem_symbols fun _ => Bech32.lt_of_mem_checkedGroups)

/-- A bech32 address under the configured prefix is read as the raw script it carries. -/
theorem read_ofData
    {data : List UInt8}
    (written : Bech32.encode options.address.bech32 data = .ok address)
    (reads : Raw.decode data table = .ok ts) :
    read address options table = .bech32 ts := by
  have own : sameHrp (Bech32.lowered options.address.bech32) options.address.bech32 = true :=
    sameHrp_iff.mpr (Bech32.map_toLower_lowered _)
  have found : readBech32 address options.address.bech32 table = .ok ts := by
    rw [readBech32, Bech32.decode_encode written]
    simp only [own, if_true]
    exact reads
  rw [read, hrpOf_encode written, String.ofList_toList]
  simp only [own, if_true, found]

/-- A witness script has an address under every prefix that is a human-readable part. -/
theorem exists_ofTokens_witness
    (shaped :
      Shape.ofTokens? ts table = some .p2wpkh ∨ Shape.ofTokens? ts table = some .p2wsh)
    (valid : Bech32.hrpFault? options.address.bech32 = none) :
    ∃ address, ofTokens ts options table = .ok (some address) := by
  obtain ⟨program, size, rfl⟩ := exists_program shaped
  have few : (Opcode.zero :: UInt8.ofNat program.length :: program).length ≤ 583 := by
    simp only [List.length_cons]
    omega
  obtain ⟨address, written⟩ := Bech32.exists_encode valid few
  exact ⟨address, (ofTokens_witness_eq_ok_iff shaped (encode_program size)).mpr written⟩

/-- The address of a witness script leads back to it. -/
theorem toTokens_ofTokens_witness
    (zero : table.hasCode Opcode.zero = true)
    (shaped :
      Shape.ofTokens? ts table = some .p2wpkh ∨ Shape.ofTokens? ts table = some .p2wsh)
    (addressed : ofTokens ts options table = .ok (some address)) :
    toTokens address options table = .ok ts := by
  obtain ⟨program, size, rfl⟩ := exists_program shaped
  have written := (ofTokens_witness_eq_ok_iff shaped (encode_program size)).mp addressed
  have found := read_ofData written (decode_program zero size)
  rw [toTokens, found]
  rfl

/-! ## Hashes -/

/-- The version byte of the addresses of a shape that pays to a hash. -/
def version?
    (params : AddressParams) :
    Shape → Option UInt8
  | .p2pkh => some params.pubKeyHash
  | .p2sh => some params.scriptHash
  | _ => none

section Hashes

variable {shape : Shape} {params : AddressParams} {version : UInt8} {frame : Frame}

/-- A shape that pays to a hash has a frame for twenty bytes. -/
theorem exists_frame_of_version
    (versioned : version? params shape = some version) :
    ∃ frame, shape.frame? = some frame ∧ frame.size = 20 := by
  cases shape with
  | p2pkh =>
      exact ⟨_, rfl, rfl⟩
  | p2sh =>
      exact ⟨_, rfl, rfl⟩
  | _ =>
      cases versioned

/-- A script that holds a hash in the frame of a versioned shape has the address of its version. -/
theorem ofTokens_script
    (shape : Shape)
    (versioned : version? options.address shape = some version)
    (framed : shape.frame? = some frame)
    {hash : List UInt8}
    (size : hash.length = frame.size) :
    ofTokens (frame.script hash) options table = .ok (some (ofHash version hash)) := by
  have shaped : Shape.ofTokens? (frame.script hash) table = some shape :=
    Shape.ofTokens?_eq_some_iff.mpr ((Shape.hasShape_iff_frame framed).mpr ⟨hash, size, rfl⟩)
  rw [ofTokens, shaped]
  cases shape with
  | p2pkh =>
      cases versioned
      cases framed
      rfl
  | p2sh =>
      cases versioned
      cases framed
      rfl
  | _ =>
      cases versioned

/-- A script that pays to a hash has the address of its version and the hash. -/
theorem exists_hash
    (versioned : version? options.address shape = some version)
    (shaped : Shape.ofTokens? ts table = some shape) :
    ∃ hash : List UInt8,
      hash.length = 20 ∧
      ofTokens ts options table = .ok (some (ofHash version hash)) ∧
      shape.template.instantiate [hash] table = .ok ts := by
  have shaped' := Shape.ofTokens?_eq_some_iff.mp shaped
  obtain ⟨frame, framed, twenty⟩ := exists_frame_of_version versioned
  obtain ⟨hash, size, rfl⟩ := (Shape.hasShape_iff_frame framed).mp shaped'
  exact ⟨hash, size.trans twenty, ofTokens_script shape versioned framed size,
    Shape.instantiate_frame framed size⟩

/-- A base58 address is read as the script of its version. -/
theorem readBase58_ofHash
    (distinct : params.pubKeyHash ≠ params.scriptHash)
    (versioned : version? params shape = some version)
    (hash : List UInt8) :
    readBase58 (ofHash version hash) params table = shape.template.instantiate [hash] table := by
  rw [readBase58, ofHash, Base58.decode_encode]
  cases shape with
  | p2pkh =>
      cases versioned
      simp only [if_true]
  | p2sh =>
      cases versioned
      simp only [distinct.symm, if_false, if_true]
  | _ =>
      cases versioned

/-- Under another prefix an address is read as base58. -/
theorem read_of_other_prefix
    (other : (hrpOf address.toList).map Char.toLower ≠
      options.address.bech32.toList.map Char.toLower)
    (reads : readBase58 address options.address table = .ok ts) :
    read address options table = .base58 none ts := by
  have different :
      ¬ sameHrp (String.ofList (hrpOf address.toList)) options.address.bech32 = true := by
    rw [sameHrp_iff, String.toList_ofList]
    exact other
  rw [read, if_neg different, readAsBase58, reads]

end Hashes

/-! ## Known networks -/

/-- The networks whose parameters are known. -/
def networks : List AddressParams :=
  [AddressParams.bitcoin, AddressParams.testnet, AddressParams.regtest]

/-- The base58 addresses of the known networks start with one of five characters. -/
theorem exists_head?_ofHash
    {version : UInt8}
    (known : version ∈ [0x00, 0x05, 0x6f, 0xc4])
    {hash : List UInt8}
    (size : hash.length = 20) :
    ∃ c ∈ ['1', '3', 'm', 'n', '2'], (ofHash version hash).toList.head? = some c := by
  -- A version byte fixes how many digits the twenty-five bytes have, and the first one up to one.
  have bytes : hash.length + 4 = 24 := by
    rw [size]
  simp only [List.mem_cons, List.not_mem_nil, or_false] at known
  rcases known with rfl | rfl | rfl | rfl
  · exact ⟨'1', by simp, Base58.head?_encode_zero hash⟩
  · obtain ⟨d, low, high, first⟩ := Base58.exists_head?_encode 0x05 bytes 33 2 2
      (by decide) (by decide) (by decide) (by decide) (by decide)
    obtain rfl : d = 2 := by
      omega
    exact ⟨'3', by simp, first⟩
  · obtain ⟨d, low, high, first⟩ := Base58.exists_head?_encode 0x6f bytes 33 44 45
      (by decide) (by decide) (by decide) (by decide) (by decide)
    obtain rfl | rfl : d = 44 ∨ d = 45 := by
      omega
    · exact ⟨'m', by simp, first⟩
    · exact ⟨'n', by simp, first⟩
  · obtain ⟨d, low, high, first⟩ := Base58.exists_head?_encode 0xc4 bytes 34 1 1
      (by decide) (by decide) (by decide) (by decide) (by decide)
    obtain rfl : d = 1 := by
      omega
    exact ⟨'2', by simp, first⟩

/-- No base58 address of a known network has the prefix of the network's bech32 addresses. -/
theorem hrpOf_ofHash_ne
    {params : AddressParams}
    (known : params ∈ networks)
    {shape : Shape}
    {version : UInt8}
    (versioned : version? params shape = some version)
    {hash : List UInt8}
    (size : hash.length = 20) :
    (hrpOf (ofHash version hash).toList).map Char.toLower ≠
      params.bech32.toList.map Char.toLower := by
  have versions : ∀ params ∈ networks,
      params.pubKeyHash ∈ [(0x00 : UInt8), 0x05, 0x6f, 0xc4] ∧
      params.scriptHash ∈ [(0x00 : UInt8), 0x05, 0x6f, 0xc4] := by
    decide
  have starts : ∀ params ∈ networks,
      ∃ b ∈ ['b', 't'], params.bech32.toList.head? = some b := by
    simp only [networks, List.forall_mem_cons]
    exact ⟨⟨'b', by simp, rfl⟩, ⟨'t', by simp, rfl⟩, ⟨'b', by simp, rfl⟩, by simp⟩
  have apart : ∀ a ∈ ['1', '3', 'm', 'n', '2'], ∀ b ∈ ['b', 't'], a.toLower ≠ b.toLower := by
    simp
  have known_version : version ∈ [0x00, 0x05, 0x6f, 0xc4] := by
    cases shape with
    | p2pkh =>
        cases versioned
        exact (versions params known).1
    | p2sh =>
        cases versioned
        exact (versions params known).2
    | _ =>
        cases versioned
  obtain ⟨a, listed, first⟩ := exists_head?_ofHash known_version size
  obtain ⟨b, listed', first'⟩ := starts params known
  exact hrpOf_ne_of_head? first first' (apart a listed b listed')

/-! ## Both families -/

/-- **An address leads back to the script it was made from.**  A witness address always does, and a
base58 address does if its prefix is not the one of bech32 addresses, as in the known networks. -/
theorem toTokens_ofTokens
    (distinct : options.address.pubKeyHash ≠ options.address.scriptHash)
    (addressed : ofTokens ts options Opcode.Table.standard = .ok (some address)) :
    (Shape.ofTokens? ts Opcode.Table.standard = some .p2wpkh ∨
      Shape.ofTokens? ts Opcode.Table.standard = some .p2wsh →
      toTokens address options Opcode.Table.standard = .ok ts) ∧
    (Shape.ofTokens? ts Opcode.Table.standard = some .p2pkh ∨
      Shape.ofTokens? ts Opcode.Table.standard = some .p2sh →
      ((hrpOf address.toList).map Char.toLower ≠ options.address.bech32.toList.map Char.toLower →
        toTokens address options Opcode.Table.standard = .ok ts) ∧
      (options.address ∈ networks →
        (hrpOf address.toList).map Char.toLower ≠
          options.address.bech32.toList.map Char.toLower)) := by
  have zero : Opcode.Table.standard.hasCode Opcode.zero = true := by
    decide
  constructor
  · intro shaped
    exact toTokens_ofTokens_witness zero shaped addressed
  · intro shaped
    obtain ⟨shape, version, versioned, shaped⟩ : ∃ shape version,
        version? options.address shape = some version ∧
        Shape.ofTokens? ts Opcode.Table.standard = some shape := by
      rcases shaped with shaped | shaped
      · exact ⟨.p2pkh, _, rfl, shaped⟩
      · exact ⟨.p2sh, _, rfl, shaped⟩
    obtain ⟨hash, size, written, filled⟩ := exists_hash versioned shaped
    rw [addressed, Except.ok.injEq, Option.some.injEq] at written
    subst written
    constructor
    · intro other
      have reads : readBase58 (ofHash version hash) options.address Opcode.Table.standard =
          .ok ts := by
        rw [readBase58_ofHash distinct versioned, filled]
      rw [toTokens, read_of_other_prefix other reads]
      rfl
    · intro known
      exact hrpOf_ofHash_ne known versioned size

/-- A witness script under a prefix in upper case that holds a separator, and a script that pays to
the hash of a public key on the main network. -/
theorem toTokens_ofTokens_upper_main :
    let program : List UInt8 := List.replicate 20 0x2a
    let witness : List Token := [.opcode Opcode.zero, .literal program]
    let hashed : List Token :=
      [.opcode Opcode.dup, .opcode Opcode.hash160, .literal program, .opcode Opcode.equalVerify,
       .opcode Opcode.checkSig]
    let upper : Options := { Options.default with address := ⟨0x00, 0x05, "B1C"⟩ }
    (∃ address,
      ofTokens witness upper Opcode.Table.standard = .ok (some address) ∧
      toTokens address upper Opcode.Table.standard = .ok witness) ∧
    (∃ address,
      ofTokens hashed Options.default Opcode.Table.standard = .ok (some address) ∧
      toTokens address Options.default Opcode.Table.standard = .ok hashed) := by
  intro program witness hashed upper
  have witness_shape : Shape.ofTokens? witness Opcode.Table.standard = some .p2wpkh :=
    Shape.ofTokens?_eq_some_iff.mpr
      ((Shape.hasShape_iff_frame rfl).mpr ⟨program, by decide, rfl⟩)
  have hash_shape : Shape.ofTokens? hashed Opcode.Table.standard = some .p2pkh :=
    Shape.ofTokens?_eq_some_iff.mpr
      ((Shape.hasShape_iff_frame rfl).mpr ⟨program, by decide, rfl⟩)
  constructor
  · have valid : Bech32.hrpFault? upper.address.bech32 = none := by
      decide +kernel
    obtain ⟨address, addressed⟩ := exists_ofTokens_witness (.inl witness_shape) valid
    exact ⟨address, addressed, (toTokens_ofTokens (by decide) addressed).1 (.inl witness_shape)⟩
  · have version : version? Options.default.address .p2pkh = some 0x00 := by
      rfl
    obtain ⟨hash, _, addressed, _⟩ := exists_hash version hash_shape
    obtain ⟨reads, other⟩ := (toTokens_ofTokens (by decide) addressed).2 (.inl hash_shape)
    exact ⟨_, addressed, reads (other (by decide))⟩

end Address
end ScriptCodec
