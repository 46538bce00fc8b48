import ScriptCodec.Proofs.Address.RoundTrip
import ScriptCodec.Script

/-!
# Which scripts have an address

Writing an address has four faults: a place without a hash, tokens without bytes, data that are too
many for a bech32 text, and a prefix that is no human-readable part.  A shape settles what stands in
each place of a script, so the first three never show: only the prefix, which the caller chooses,
can be at fault, and only witness scripts need it.

* `Bech32.isHrp_iff` compares human-readable parts with the search for their faults;
* `outcome_ofTokens` lists the ways in which writing an address ends;
* `Outcome.eq_error_iff` gives the only fault and says exactly when it shows;
* `ofTokens_eq_none_iff_and_eq_error_iff` puts these together, for token lists over every table and
  for scripts.
-/

namespace ScriptCodec

/-! ## Human-readable parts -/

namespace Bech32

/-- A human-readable part: one to eighty-three printable characters of ASCII other than the space,
whose letters are all of one case. -/
structure IsHrp (hrp : String) : Prop where
  some_char : 1 ≤ hrp.length
  short : hrp.length ≤ 83
  printable : ∀ c ∈ hrp.toList, 33 ≤ c.toNat ∧ c.toNat ≤ 126
  one_case : (∀ c ∈ hrp.toList, c.isUpper = false) ∨ ∀ c ∈ hrp.toList, c.isLower = false

theorem isMixedCase_eq_false_iff
    {cs : List Char} :
    isMixedCase cs = false ↔ (∀ c ∈ cs, c.isUpper = false) ∨ ∀ c ∈ cs, c.isLower = false := by
  rw [isMixedCase, Bool.and_eq_false_iff, List.any_eq_false, List.any_eq_false]
  simp

/-- Printable text has one byte per character. -/
theorem utf8ByteSize_of_printable
    {hrp : String}
    (printable : ∀ c ∈ hrp.toList, 33 ≤ c.toNat ∧ c.toNat ≤ 126) :
    hrp.utf8ByteSize = hrp.length := by
  have ascii : ∀ c ∈ hrp.toList, c.utf8Size = 1 := by
    intro c mem
    exact utf8Size_of_ascii (by have := printable c mem; omega)
  rw [← String.length_toList, ← utf8ByteSize_ofList_ascii ascii, String.ofList_toList]

/-- Human-readable parts are the texts without a fault. -/
theorem isHrp_iff
    {hrp : String} :
    IsHrp hrp ↔ hrpFault? hrp = none := by
  have some_char : 1 ≤ hrp.length ↔ hrp ≠ "" := by
    rw [Nat.one_le_iff_ne_zero, ne_eq, ← String.length_toList, List.length_eq_zero_iff,
      String.toList_eq_nil_iff]
  rw [hrpFault?_eq_none_iff, isMixedCase_eq_false_iff]
  constructor
  · intro valid
    refine ⟨some_char.mp valid.some_char, ?_, valid.printable, valid.one_case⟩
    rw [utf8ByteSize_of_printable valid.printable]
    exact valid.short
  · rintro ⟨nonempty, short, printable, one_case⟩
    rw [utf8ByteSize_of_printable printable] at short
    exact ⟨some_char.mpr nonempty, short, printable, one_case⟩

instance (hrp : String) : Decidable (IsHrp hrp) :=
  decidable_of_iff _ isHrp_iff.symm

end Bech32

/-- The shapes with an address are those that pay to a hash and the witness shapes. -/
theorem Shape.hasAddress_iff
    {shape : Shape} :
    shape.hasAddress = true ↔
      (shape = .p2pkh ∨ shape = .p2sh) ∨ (shape = .p2wpkh ∨ shape = .p2wsh) := by
  cases shape <;> simp [hasAddress]

/-! ## Writing addresses -/

namespace Address

variable {table : Opcode.Table} {ts : List Token} {options : Options}

/-- Data have no address under a prefix that is no human-readable part, however many they are. -/
theorem ofData_of_not_isHrp
    {hrp : String}
    (invalid : ¬ Bech32.IsHrp hrp)
    (data : List UInt8) :
    ofData hrp data = .error (.invalidBech32Prefix hrp) := by
  rw [Bech32.isHrp_iff] at invalid
  obtain ⟨fault, found⟩ := Option.ne_none_iff_exists'.mp invalid
  rw [ofData, Bech32.encode, found]

/-- A script that pays to a hash has an address under all options. -/
theorem exists_ofTokens_hash
    (shaped :
      Shape.ofTokens? ts table = some .p2pkh ∨ Shape.ofTokens? ts table = some .p2sh) :
    ∃ address, ofTokens ts options table = .ok (some address) := by
  obtain ⟨shape, version, versioned, found⟩ : ∃ shape version,
      version? options.address shape = some version ∧
      Shape.ofTokens? ts table = some shape := by
    rcases shaped with shaped | shaped
    · exact ⟨.p2pkh, _, rfl, shaped⟩
    · exact ⟨.p2sh, _, rfl, shaped⟩
  obtain ⟨hash, _, written, _⟩ := exists_hash versioned found
  exact ⟨_, written⟩

/-- A witness script has no address under a prefix that is no human-readable part. -/
theorem ofTokens_witness_of_not_isHrp
    (shaped :
      Shape.ofTokens? ts table = some .p2wpkh ∨ Shape.ofTokens? ts table = some .p2wsh)
    (invalid : ¬ Bech32.IsHrp options.address.bech32) :
    ofTokens ts options table = .error (.invalidBech32Prefix options.address.bech32) := by
  obtain ⟨program, size, rfl⟩ := exists_program shaped
  rw [ofTokens_witness shaped (encode_program size), ofData_of_not_isHrp invalid]
  rfl

/-! ## How writing ends -/

/-- The ways in which writing an address can end, by the shape that was found and the prefix. -/
inductive Outcome (hrp : String) : Option Shape → Except Error (Option String) → Prop
  | bare
      {found : Option Shape}
      (unaddressed : ∀ shape, found = some shape → shape.hasAddress = false) :
      Outcome hrp found (.ok none)
  | hash
      {shape : Shape}
      {address : String}
      (pays : shape = .p2pkh ∨ shape = .p2sh) :
      Outcome hrp (some shape) (.ok (some address))
  | program
      {shape : Shape}
      {address : String}
      (witness : shape = .p2wpkh ∨ shape = .p2wsh)
      (valid : Bech32.IsHrp hrp) :
      Outcome hrp (some shape) (.ok (some address))
  | refused
      {shape : Shape}
      (witness : shape = .p2wpkh ∨ shape = .p2wsh)
      (invalid : ¬ Bech32.IsHrp hrp) :
      Outcome hrp (some shape) (.error (.invalidBech32Prefix hrp))

namespace Outcome

variable {hrp : String} {found : Option Shape} {result : Except Error (Option String)}

/-- Writing ends without an address exactly if no shape with one was found. -/
theorem eq_none_iff
    (outcome : Outcome hrp found result) :
    result = .ok none ↔ ∀ shape, found = some shape → shape.hasAddress = false := by
  cases outcome with
  | bare unaddressed =>
      exact iff_of_true rfl unaddressed
  | hash pays =>
      have addressed := Shape.hasAddress_iff.mpr (.inl pays)
      simp [addressed]
  | program witness _ =>
      have addressed := Shape.hasAddress_iff.mpr (.inr witness)
      simp [addressed]
  | refused witness _ =>
      have addressed := Shape.hasAddress_iff.mpr (.inr witness)
      simp [addressed]

/-- Writing fails exactly if a witness shape was found and the prefix is none, and with that
fault. -/
theorem eq_error_iff
    (outcome : Outcome hrp found result)
    {e : Error} :
    result = .error e ↔
      (found = some .p2wpkh ∨ found = some .p2wsh) ∧
      ¬ Bech32.IsHrp hrp ∧
      e = .invalidBech32Prefix hrp := by
  cases outcome with
  | bare unaddressed =>
      refine iff_of_false (by simp) ?_
      rintro ⟨rfl | rfl, _⟩
      · cases unaddressed _ rfl
      · cases unaddressed _ rfl
  | hash pays =>
      rcases pays with rfl | rfl
      · simp
      · simp
  | program _ valid =>
      simp [valid]
  | refused witness invalid =>
      simp [witness, invalid, eq_comm]

end Outcome

/-- Writing the address of a script ends in one of these ways. -/
theorem outcome_ofTokens
    (ts : List Token)
    (options : Options)
    (table : Opcode.Table) :
    Outcome options.address.bech32 (Shape.ofTokens? ts table) (ofTokens ts options table) := by
  have pays : ∀ shape, shape = .p2pkh ∨ shape = .p2sh →
      Shape.ofTokens? ts table = some shape →
      Outcome options.address.bech32 (some shape) (ofTokens ts options table) := by
    intro shape pays found
    have shaped := pays.imp (· ▸ found) (· ▸ found)
    obtain ⟨address, written⟩ : ∃ address, ofTokens ts options table = .ok (some address) :=
      exists_ofTokens_hash shaped
    rw [written]
    exact .hash pays
  have witness : ∀ shape, shape = .p2wpkh ∨ shape = .p2wsh →
      Shape.ofTokens? ts table = some shape →
      Outcome options.address.bech32 (some shape) (ofTokens ts options table) := by
    intro shape witness found
    have shaped := witness.imp (· ▸ found) (· ▸ found)
    by_cases valid : Bech32.IsHrp options.address.bech32
    · obtain ⟨address, written⟩ := exists_ofTokens_witness shaped (Bech32.isHrp_iff.mp valid)
      rw [written]
      exact .program witness valid
    · rw [ofTokens_witness_of_not_isHrp shaped valid]
      exact .refused witness valid
  cases found : Shape.ofTokens? ts table with
  | none =>
      rw [ofTokens, found]
      exact .bare (by simp)
  | some shape =>
      cases shape with
      | p2pk =>
          rw [ofTokens, found]
          exact .bare (by simp [Shape.hasAddress])
      | p2pkh =>
          exact pays _ (.inl rfl) found
      | p2sh =>
          exact pays _ (.inr rfl) found
      | p2wpkh =>
          exact witness _ (.inl rfl) found
      | p2wsh =>
          exact witness _ (.inr rfl) found
      | multisig =>
          rw [ofTokens, found]
          exact .bare (by simp [Shape.hasAddress])

end Address

/-! ## Scripts -/

namespace Script

variable {s : Script} {options : Options}

theorem hasAddress_eq_false_iff :
    s.hasAddress = false ↔ ∀ shape, s.shape? = some shape → shape.hasAddress = false := by
  rw [hasAddress]
  cases s.shape? with
  | none =>
      simp
  | some shape =>
      simp

/-- There is no address exactly for scripts whose shape has none. -/
theorem toAddress_eq_none_iff :
    s.toAddress options = .ok none ↔ s.hasAddress = false := by
  rw [hasAddress_eq_false_iff]
  exact (Address.outcome_ofTokens s.tokens options table).eq_none_iff

/-- Under a human-readable part exactly the scripts whose shape has an address have one. -/
theorem exists_toAddress_iff
    (valid : Bech32.IsHrp options.address.bech32) :
    (∃ address, s.toAddress options = .ok (some address)) ↔ s.hasAddress = true := by
  have noFault : ∀ e, s.toAddress options ≠ .error e := by
    intro e failed
    exact ((Address.outcome_ofTokens s.tokens options table).eq_error_iff.mp failed).2.1 valid
  have nothing : s.toAddress options = .ok none ↔ s.hasAddress = false := toAddress_eq_none_iff
  rw [← Bool.not_eq_false, ← nothing]
  cases written : s.toAddress options with
  | error e =>
      exact absurd written (noFault e)
  | ok address? =>
      simp [Option.ne_none_iff_exists']

end Script

namespace Address

/-- **Which scripts have an address**, for every list of tokens, every table and all options.  None
is written exactly if no shape with an address is found.  A script that pays to a hash always has
one, a witness script has one exactly under a human-readable part, and the only fault is that its
prefix is none.  What a script says about its having an address agrees with this. -/
theorem ofTokens_eq_none_iff_and_eq_error_iff
    (ts : List Token)
    (options : Options)
    (table : Opcode.Table) :
    (ofTokens ts options table = .ok none ↔
      ∀ shape, Shape.ofTokens? ts table = some shape → shape.hasAddress = false) ∧
    (Shape.ofTokens? ts table = some .p2pkh ∨ Shape.ofTokens? ts table = some .p2sh →
      ∃ address, ofTokens ts options table = .ok (some address)) ∧
    (Shape.ofTokens? ts table = some .p2wpkh ∨ Shape.ofTokens? ts table = some .p2wsh →
      (Bech32.IsHrp options.address.bech32 →
        ∃ address, ofTokens ts options table = .ok (some address)) ∧
      (¬ Bech32.IsHrp options.address.bech32 →
        ofTokens ts options table = .error (.invalidBech32Prefix options.address.bech32))) ∧
    (∀ e, ofTokens ts options table = .error e ↔
      (Shape.ofTokens? ts table = some .p2wpkh ∨ Shape.ofTokens? ts table = some .p2wsh) ∧
      ¬ Bech32.IsHrp options.address.bech32 ∧
      e = .invalidBech32Prefix options.address.bech32) ∧
    (Script.toAddress ⟨ts⟩ options = .ok none ↔ Script.hasAddress ⟨ts⟩ = false) ∧
    (Bech32.IsHrp options.address.bech32 →
      ((∃ address, Script.toAddress ⟨ts⟩ options = .ok (some address)) ↔
        Script.hasAddress ⟨ts⟩ = true)) := by
  have outcome := outcome_ofTokens ts options table
  refine ⟨outcome.eq_none_iff, exists_ofTokens_hash, ?_, fun _ => outcome.eq_error_iff,
    Script.toAddress_eq_none_iff, Script.exists_toAddress_iff⟩
  intro witness
  constructor
  · intro valid
    exact exists_ofTokens_witness witness (Bech32.isHrp_iff.mp valid)
  · intro invalid
    exact ofTokens_witness_of_not_isHrp witness invalid

/-- Letters of both cases make no human-readable part. -/
example : Bech32.IsHrp "bcrt" ∧ ¬ Bech32.IsHrp "bcRT" := by
  decide +kernel

end Address
end ScriptCodec
