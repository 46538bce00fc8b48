import ScriptCodec.Proofs.Address.Checksum
import ScriptCodec.Proofs.Address.Prefix
import ScriptCodec.Proofs.Text.Bits

/-!
# Reading bech32 text back

A bech32 text is a human-readable part in lower case, the separator, and symbols of groups whose
last six are the check groups.  `decode_symbols` reads such a text, whatever its groups are, and
`decode_encode` gives the bytes back under the human-readable part in lower case.

Bytes have a bech32 text unless they are too many for one: `exists_encode`.
-/

namespace ScriptCodec
namespace Bech32

theorem symbol_table :
    ∀ n, n < 32 →
      symbolValue? (symbol n) = some n ∧
      (symbol n).isUpper = false ∧
      symbol n ≠ '1' ∧
      (symbol n).utf8Size = 1 := by
  decide +kernel

/-! ## The human-readable part -/

/-- A text with its letters in lower case, as human-readable parts are written. -/
def lowered
    (hrp : String) :
    String :=
  String.ofList (hrp.toList.map Char.toLower)

@[simp] theorem toList_lowered
    (hrp : String) :
    (lowered hrp).toList = hrp.toList.map Char.toLower := by
  simp [lowered]

theorem map_toLower_lowered
    (hrp : String) :
    (lowered hrp).toList.map Char.toLower = hrp.toList.map Char.toLower := by
  simp [Function.comp_def]

theorem isUpper_of_mem_lowered
    {hrp : String}
    {c : Char}
    (mem : c ∈ (lowered hrp).toList) :
    c.isUpper = false := by
  rw [toList_lowered] at mem
  obtain ⟨c', _, rfl⟩ := List.mem_map.mp mem
  exact Char.isUpper_toLower_eq_false c'

theorem utf8ByteSize_lowered
    (hrp : String) :
    (lowered hrp).utf8ByteSize = hrp.utf8ByteSize := by
  rw [utf8ByteSize_eq_sum, utf8ByteSize_eq_sum, toList_lowered, List.map_map]
  simp [Function.comp_def, utf8Size_toLower]

/-- Case does not count in the checksum. -/
theorem hrpGroups_lowered
    (hrp : String) :
    hrpGroups (lowered hrp).toList = hrpGroups hrp.toList := by
  simp [hrpGroups, Function.comp_def]

theorem isMixedCase_of_lower
    {cs : List Char}
    (lower : ∀ c ∈ cs, c.isUpper = false) :
    isMixedCase cs = false := by
  have none_upper : cs.any Char.isUpper = false := by
    simpa using lower
  rw [isMixedCase, none_upper, Bool.false_and]

/-- A human-readable part is valid if it is a short text of printable characters in one case. -/
theorem hrpFault?_eq_none_iff
    {hrp : String} :
    hrpFault? hrp = none ↔
      hrp ≠ "" ∧
      hrp.utf8ByteSize ≤ maxHrpSize ∧
      (∀ c ∈ hrp.toList, 33 ≤ c.toNat ∧ c.toNat ≤ 126) ∧
      isMixedCase hrp.toList = false := by
  have printable :
      hrp.toList.find? (fun c => c.toNat < 33 || 126 < c.toNat) = none ↔
        ∀ c ∈ hrp.toList, 33 ≤ c.toNat ∧ c.toNat ≤ 126 := by
    simp
  rw [← printable, hrpFault?]
  by_cases empty : hrp = ""
  · simp [empty]
  · by_cases long : maxHrpSize < hrp.utf8ByteSize
    · simp [empty, long]
    · simp only [String.isEmpty_iff, empty, if_false, long, ne_eq, not_false_eq_true, true_and,
        Nat.le_of_not_lt long]
      cases hrp.toList.find? (fun c => c.toNat < 33 || 126 < c.toNat) with
      | none =>
          simp
      | some c =>
          simp

/-- Whether a human-readable part in one case is valid does not depend on the case. -/
theorem hrpFault?_of_lowered_eq
    {hrp hrp' : String}
    (same : lowered hrp' = lowered hrp)
    (valid : hrpFault? hrp = none)
    (oneCase : isMixedCase hrp'.toList = false) :
    hrpFault? hrp' = none := by
  have size : hrp'.utf8ByteSize = hrp.utf8ByteSize := by
    rw [← utf8ByteSize_lowered, same, utf8ByteSize_lowered]
  have range : ∀ c : Char,
      33 ≤ c.toLower.toNat ∧ c.toLower.toNat ≤ 126 ↔ 33 ≤ c.toNat ∧ c.toNat ≤ 126 := by
    intro c
    rw [toNat_toLower]
    split
    · next upper =>
        have letter := isUpper_iff.mp upper
        omega
    · exact Iff.rfl
  have in_range : ∀ text : String,
      (∀ c ∈ text.toList, 33 ≤ c.toNat ∧ c.toNat ≤ 126) ↔
        ∀ c ∈ (lowered text).toList, 33 ≤ c.toNat ∧ c.toNat ≤ 126 := by
    intro text
    rw [toList_lowered, List.forall_mem_map]
    exact forall₂_congr fun c _ => (range c).symm
  obtain ⟨nonempty, short, printable, _⟩ := hrpFault?_eq_none_iff.mp valid
  refine hrpFault?_eq_none_iff.mpr ⟨?_, ?_, ?_, oneCase⟩
  · rw [ne_eq, ← String.utf8ByteSize_eq_zero_iff, size, String.utf8ByteSize_eq_zero_iff]
    exact nonempty
  · rw [size]
    exact short
  · rw [in_range, same, ← in_range]
    exact printable

theorem lowered_lowered
    (hrp : String) :
    lowered (lowered hrp) = lowered hrp :=
  congrArg String.ofList (map_toLower_lowered hrp)

/-- A valid human-readable part is valid in lower case. -/
theorem hrpFault?_lowered
    {hrp : String}
    (valid : hrpFault? hrp = none) :
    hrpFault? (lowered hrp) = none :=
  hrpFault?_of_lowered_eq (lowered_lowered hrp) valid
    (isMixedCase_of_lower fun _ => isUpper_of_mem_lowered)

/-! ## Writing -/

theorem length_paddedGroups
    (bytes : List UInt8) :
    (Bits.paddedGroups 5 (Bits.ofBytes bytes)).length = (bytes.length * 8 + 4) / 5 := by
  rw [Bits.paddedGroups, Bits.length_cutOnto, Bits.ofBytes, Bits.length_join, List.length_map]
  rfl

/-- The groups of bytes with their check groups. -/
def checkedGroups
    (hrp : String)
    (bytes : List UInt8) :
    List Nat :=
  let groups := Bits.paddedGroups 5 (Bits.ofBytes bytes)
  groups ++ checkGroups hrp.toList groups

theorem lt_of_mem_checkedGroups
    {hrp : String}
    {bytes : List UInt8}
    {group : Nat}
    (mem : group ∈ checkedGroups hrp bytes) :
    group < 32 := by
  rcases List.mem_append.mp mem with mem | mem
  · exact Bits.lt_of_mem_cutOnto mem
  · exact lt_of_mem_checkGroups mem

/-- What is written, and when. -/
theorem encode_eq_ok_iff
    {hrp text : String}
    {bytes : List UInt8} :
    encode hrp bytes = .ok text ↔
      hrpFault? hrp = none ∧
      hrp.utf8ByteSize + 1 + (checkedGroups hrp bytes).length ≤ maxSize ∧
      String.ofList ((lowered hrp).toList ++ '1' :: (checkedGroups hrp bytes).map symbol) =
        text := by
  have count : ∀ n, hrp.utf8ByteSize + 1 + (n + 6) = hrp.utf8ByteSize + 1 + n + 6 :=
    fun n => (Nat.add_assoc _ _ _).symm
  simp only [encode, checkedGroups, toList_lowered, List.length_append, length_checkGroups, count]
  cases hrpFault? hrp with
  | some e =>
      simp
  | none =>
      simp only [true_and]
      split
      · next long =>
          simp [Nat.not_le_of_lt long]
      · next short =>
          simp [Nat.le_of_not_lt short]

/-! ## Reading -/

section Symbols

variable {hrp : String} {groups : List Nat}

theorem separator_not_mem_symbols
    (fits : ∀ group ∈ groups, group < 32) :
    '1' ∉ groups.map symbol := by
  intro mem
  obtain ⟨group, in_groups, same⟩ := List.mem_map.mp mem
  exact (symbol_table group (fits group in_groups)).2.2.1 same

theorem find?_foreign_symbols
    (fits : ∀ group ∈ groups, group < 32) :
    (groups.map symbol).reverse.find? (fun c => (symbolValue? c).isNone) = none := by
  apply List.find?_eq_none.mpr
  intro c mem
  obtain ⟨group, in_groups, rfl⟩ := List.mem_map.mp (List.mem_reverse.mp mem)
  simp [(symbol_table group (fits group in_groups)).1]

theorem map_symbolValue?_symbols
    (fits : ∀ group ∈ groups, group < 32) :
    (groups.map symbol).map (fun c => (symbolValue? c).getD 0) = groups := by
  have each : ∀ group ∈ groups,
      ((fun c => (symbolValue? c).getD 0) ∘ symbol) group = id group := by
    intro group mem
    simp [(symbol_table group (fits group mem)).1]
  rw [List.map_map, List.map_congr_left each, List.map_id]

theorem isUpper_of_mem_text
    (lower : ∀ c ∈ hrp.toList, c.isUpper = false)
    (fits : ∀ group ∈ groups, group < 32) :
    ∀ c ∈ hrp.toList ++ '1' :: groups.map symbol, c.isUpper = false := by
  intro c mem
  rcases List.mem_append.mp mem with mem | mem
  · exact lower c mem
  · rcases List.mem_cons.mp mem with rfl | mem
    · decide
    · obtain ⟨group, in_groups, rfl⟩ := List.mem_map.mp mem
      exact (symbol_table group (fits group in_groups)).2.1

theorem utf8ByteSize_text
    (hrp : String)
    (fits : ∀ group ∈ groups, group < 32) :
    (String.ofList (hrp.toList ++ '1' :: groups.map symbol)).utf8ByteSize =
      hrp.utf8ByteSize + 1 + groups.length := by
  have symbols : (String.ofList (groups.map symbol)).utf8ByteSize = groups.length := by
    have ascii : ∀ c ∈ groups.map symbol, c.utf8Size = 1 := by
      intro c mem
      obtain ⟨group, in_groups, rfl⟩ := List.mem_map.mp mem
      exact (symbol_table group (fits group in_groups)).2.2.2
    rw [utf8ByteSize_ofList_ascii ascii, List.length_map]
  rw [utf8ByteSize_ofList] at symbols
  rw [utf8ByteSize_ofList, List.map_append, List.sum_append, ← utf8ByteSize_eq_sum, List.map_cons,
    List.sum_cons, symbols, ← Nat.add_assoc]
  rfl

/-- A text of a valid human-readable part in lower case and of symbols is read as the bytes of its
groups without the last six, if its checksum is right. -/
theorem decode_symbols
    (valid : hrpFault? hrp = none)
    (lower : ∀ c ∈ hrp.toList, c.isUpper = false)
    (fits : ∀ group ∈ groups, group < 32)
    (enough : 6 ≤ groups.length)
    (short : hrp.utf8ByteSize + 1 + groups.length ≤ maxSize)
    (checked : isChecked hrp.toList groups = true) :
    decode (String.ofList (hrp.toList ++ '1' :: groups.map symbol)) =
      .ok (hrp, Bits.toBytes (Bits.join 5 (groups.take (groups.length - 6)))) := by
  have all_lower := isMixedCase_of_lower (isUpper_of_mem_text lower fits)
  simp only [decode, String.toList_ofList, splitLast_append _ (separator_not_mem_symbols fits),
    find?_foreign_symbols fits, all_lower, String.ofList_toList, valid,
    map_symbolValue?_symbols fits, utf8ByteSize_text hrp fits, checked]
  rw [if_neg (by decide), if_neg (Nat.not_lt_of_le short), if_neg (Nat.not_lt_of_le enough),
    if_pos trivial]

end Symbols

/-- Reading gives back the bytes that were written, and the human-readable part in lower case. -/
theorem decode_encode
    {hrp text : String}
    {bytes : List UInt8}
    (written : encode hrp bytes = .ok text) :
    decode text = .ok (lowered hrp, bytes) := by
  obtain ⟨valid, short, rfl⟩ := encode_eq_ok_iff.mp written
  have checked : isChecked (lowered hrp).toList (checkedGroups hrp bytes) = true := by
    rw [isChecked, hrpGroups_lowered, checkedGroups, residue_checkGroups]
    decide
  have enough : 6 ≤ (checkedGroups hrp bytes).length := by
    simp [checkedGroups]
  rw [← utf8ByteSize_lowered] at short
  rw [decode_symbols (hrpFault?_lowered valid) (fun _ => isUpper_of_mem_lowered)
    (fun _ => lt_of_mem_checkedGroups) enough short checked]
  have data : (checkedGroups hrp bytes).take ((checkedGroups hrp bytes).length - 6) =
      Bits.paddedGroups 5 (Bits.ofBytes bytes) := by
    have size : (checkedGroups hrp bytes).length - 6 =
        (Bits.paddedGroups 5 (Bits.ofBytes bytes)).length := by
      simp [checkedGroups]
    rw [size, checkedGroups, List.take_left]
  have size : (Bits.ofBytes bytes).length = bytes.length * 8 := by
    simp [Bits.ofBytes]
  have count := length_paddedGroups bytes
  have few : (List.replicate ((Bits.paddedGroups 5 (Bits.ofBytes bytes)).length * 5 -
      (Bits.ofBytes bytes).length) false).length < 8 := by
    rw [List.length_replicate, count, size]
    omega
  rw [data, Bits.join_paddedGroups 5 (by decide), Bits.toBytes_ofBytes_append bytes few]

/-- Bytes have a text under a valid human-readable part if there are not too many of them. -/
theorem exists_encode
    {hrp : String}
    (valid : hrpFault? hrp = none)
    {bytes : List UInt8}
    (few : bytes.length ≤ 583) :
    ∃ text, encode hrp bytes = .ok text := by
  have short := (hrpFault?_eq_none_iff.mp valid).2.1
  refine ⟨_, encode_eq_ok_iff.mpr ⟨valid, ?_, rfl⟩⟩
  rw [checkedGroups, List.length_append, length_checkGroups, length_paddedGroups]
  simp only [maxHrpSize, maxSize] at *
  omega

end Bech32
end ScriptCodec
