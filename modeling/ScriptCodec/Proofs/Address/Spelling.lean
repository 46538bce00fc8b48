import ScriptCodec.Proofs.Address.Bech32

/-!
# The texts that are read as the same bytes

More bech32 texts are read than are written.  `decode_eq_ok_iff` says which texts are read, and
`IsSpelled.lowered_eq` that such a text is, letter case apart, its human-readable part with the
symbols of its groups.

A text is normal if it has the checksum of the form that is written and no groups or bits that its
bytes do not need.  `encode_eq_lowered_iff` says that exactly the normal texts are written: the six
check groups are determined by what stands before them (`eq_checkGroups`), and the others by the
bytes (`Bits.paddedGroups_toBytes_iff`).
-/

namespace ScriptCodec
namespace Bech32

/-! ## The texts that are read -/

/-- The groups behind the last separator of a text. -/
def groupsOf
    (text : String) :
    List Nat :=
  (splitLast text.toList).2.map fun c => (symbolValue? c).getD 0

/-- The groups of a text without the check groups. -/
def dataGroups
    (text : String) :
    List Nat :=
  (groupsOf text).take ((groupsOf text).length - 6)

/-- A human-readable part and checked groups, in one letter case. -/
structure IsSpelled
    (text hrp : String) :
    Prop where
  front : (splitLast text.toList).1 = some hrp.toList
  known : ∀ c ∈ (splitLast text.toList).2, ∃ group, symbolValue? c = some group
  oneCase : isMixedCase text.toList = false
  valid : hrpFault? hrp = none
  short : text.utf8ByteSize ≤ maxSize
  enough : 6 ≤ (groupsOf text).length
  checked : isChecked hrp.toList (groupsOf text) = true

/-- Which texts are read, and as which bytes. -/
theorem decode_eq_ok_iff
    {text hrp : String}
    {bytes : List UInt8} :
    decode text = .ok (hrp, bytes) ↔
      IsSpelled text hrp ∧ Bits.toBytes (Bits.join 5 (dataGroups text)) = bytes := by
  rcases parts : splitLast text.toList with ⟨hrp?, data⟩
  have groups_eq : groupsOf text = data.map fun c => (symbolValue? c).getD 0 := by
    rw [groupsOf, parts]
  have foreign_iff : data.reverse.find? (fun c => (symbolValue? c).isNone) = none ↔
      ∀ c ∈ data, ∃ group, symbolValue? c = some group := by
    simp [Option.ne_none_iff_exists']
  constructor
  · intro read
    simp only [decode, parts, ← groups_eq] at read
    split at read
    · cases read
    next foreign =>
    split at read
    · cases read
    next oneCase =>
    split at read
    · cases read
    next front =>
    split at read
    · cases read
    next valid =>
    split at read
    · cases read
    next short =>
    split at read
    · cases read
    next enough =>
    split at read
    · next checked =>
        cases read
        refine ⟨⟨?_, ?_, ?_, valid, ?_, ?_, ?_⟩, rfl⟩
        · rw [parts, String.toList_ofList]
        · rw [parts]
          exact foreign_iff.mp foreign
        · exact eq_false_of_ne_true oneCase
        · exact Nat.le_of_not_lt short
        · exact Nat.le_of_not_lt enough
        · rw [String.toList_ofList]
          exact checked
    · cases read
  · rintro ⟨⟨front, known, oneCase, valid, short, enough, checked⟩, rfl⟩
    rw [parts] at front known
    cases front
    simp only [decode, parts, ← groups_eq, foreign_iff.mpr known, oneCase, String.ofList_toList,
      valid, checked]
    rw [if_neg (by decide), if_neg (Nat.not_lt_of_le short), if_neg (Nat.not_lt_of_le enough),
      if_pos trivial]
    rfl

/-! ## Letter case -/

/-- A character that stands for a group is its symbol, letter case apart. -/
theorem symbol_of_symbolValue?
    {c : Char}
    {group : Nat}
    (found : symbolValue? c = some group) :
    group < 32 ∧ symbol group = c.toLower := by
  obtain ⟨inside, same, _⟩ := List.findIdx?_eq_some_iff_getElem.mp found
  refine ⟨inside, ?_⟩
  rw [symbol, List.getD_eq_getElem?_getD, List.getElem?_eq_getElem inside]
  exact eq_of_beq same

namespace IsSpelled

variable {text hrp : String}

theorem lt_of_mem_groupsOf
    (spelled : IsSpelled text hrp) :
    ∀ group ∈ groupsOf text, group < 32 := by
  intro group mem
  obtain ⟨c, in_data, rfl⟩ := List.mem_map.mp mem
  obtain ⟨group, found⟩ := spelled.known c in_data
  rw [found]
  exact (symbol_of_symbolValue? found).1

theorem lt_of_mem_dataGroups
    (spelled : IsSpelled text hrp) :
    ∀ group ∈ dataGroups text, group < 32 :=
  fun group mem => spelled.lt_of_mem_groupsOf group (List.mem_of_mem_take mem)

/-- The symbols of the groups are the characters they stand for in lower case. -/
theorem map_symbol_groupsOf
    (spelled : IsSpelled text hrp) :
    (groupsOf text).map symbol = (splitLast text.toList).2.map Char.toLower := by
  rw [groupsOf, List.map_map]
  apply List.map_congr_left
  intro c mem
  obtain ⟨group, found⟩ := spelled.known c mem
  rw [Function.comp_apply, found]
  exact (symbol_of_symbolValue? found).2

/-- A text in lower case is its human-readable part with the symbols of its groups. -/
theorem lowered_eq
    (spelled : IsSpelled text hrp) :
    lowered text =
      String.ofList ((lowered hrp).toList ++ '1' :: (groupsOf text).map symbol) := by
  have parts := eq_append_of_splitLast spelled.front
  have separator : Char.toLower '1' = '1' := by
    decide
  rw [spelled.map_symbol_groupsOf, lowered, toList_lowered]
  conv_lhs => rw [parts]
  rw [List.map_append, List.map_cons, separator]

theorem hrpOf_eq
    (spelled : IsSpelled text hrp) :
    Address.hrpOf text.toList = hrp.toList := by
  rw [Address.hrpOf, spelled.front]
  rfl

/-- The size of a text is that of its parts. -/
theorem utf8ByteSize_eq
    (spelled : IsSpelled text hrp) :
    text.utf8ByteSize = hrp.utf8ByteSize + 1 + (groupsOf text).length := by
  rw [← utf8ByteSize_lowered, spelled.lowered_eq, utf8ByteSize_text _ spelled.lt_of_mem_groupsOf,
    utf8ByteSize_lowered]

/-- A text has six groups more than its bytes need at least. -/
theorem length_le
    (spelled : IsSpelled text hrp) :
    8 * (Bits.toBytes (Bits.join 5 (dataGroups text))).length + 35 ≤ 5 * text.toList.length := by
  have parts := congrArg List.length (eq_append_of_splitLast spelled.front)
  have groups : (groupsOf text).length = (splitLast text.toList).2.length := by
    rw [groupsOf, List.length_map]
  have enough := spelled.enough
  rw [Bits.length_toBytes, Bits.length_join, dataGroups, List.length_take,
    Nat.min_eq_left (Nat.sub_le _ _)]
  rw [List.length_append, List.length_cons] at parts
  omega

end IsSpelled

/-- A text is read in lower case as it is read in upper case. -/
theorem decode_lowered
    {text hrp : String}
    {bytes : List UInt8}
    (read : decode text = .ok (hrp, bytes)) :
    decode (lowered text) = .ok (lowered hrp, bytes) := by
  obtain ⟨spelled, rfl⟩ := decode_eq_ok_iff.mp read
  have short := spelled.short
  rw [spelled.utf8ByteSize_eq, ← utf8ByteSize_lowered] at short
  have checked := spelled.checked
  rw [isChecked, ← hrpGroups_lowered] at checked
  rw [spelled.lowered_eq]
  exact decode_symbols (hrpFault?_lowered spelled.valid) (fun _ => isUpper_of_mem_lowered)
    spelled.lt_of_mem_groupsOf spelled.enough short checked

/-! ## Normal texts -/

/-- A text in the form that is written, letter case apart: it has the plain checksum, and what its
groups hold beyond whole bytes is less than a group and all zero. -/
structure IsNormal
    (text : String) :
    Prop where
  plain : residue (hrpGroups (Address.hrpOf text.toList) ++ groupsOf text) = plainConstant
  few : (Bits.leftOver 8 (Bits.join 5 (dataGroups text))).length < 5
  zeros : ∀ b ∈ Bits.leftOver 8 (Bits.join 5 (dataGroups text)), b = false

/-- Only one choice of six check groups gives the plain checksum. -/
theorem eq_checkGroups
    {hrp : List Char}
    {groups check : List Nat}
    (six : check.length = 6)
    (fits : ∀ group ∈ check, group < 32)
    (plain : residue (hrpGroups hrp ++ (groups ++ check)) = plainConstant) :
    check = checkGroups hrp groups := by
  have added : ∀ check : List Nat, check.length = 6 → (∀ group ∈ check, group < 32) →
      residue (hrpGroups hrp ++ (groups ++ check)) =
        (List.replicate 6 0).foldl stepResidue (residue (hrpGroups hrp ++ groups)) ^^^
          UInt32.ofNat (Radix.ofDigits 32 check) := by
    intro check six fits
    rw [← List.append_assoc, residue, List.foldl_append,
      foldl_stepResidue _ fits (Nat.le_of_eq six), six]
    rfl
  have own := residue_checkGroups hrp groups
  rw [added _ (length_checkGroups hrp groups) fun _ => lt_of_mem_checkGroups] at own
  rw [added check six fits, ← own] at plain
  have same := UInt32.toNat_inj.mpr ((UInt32.xor_right_inj _).mp plain)
  have below : ∀ check : List Nat, check.length = 6 → (∀ group ∈ check, group < 32) →
      Radix.ofDigits 32 check < 2 ^ 30 := by
    intro check six fits
    have bound := Radix.ofDigits_lt (by decide) fits
    rw [six] at bound
    exact bound
  rw [toNat_ofNat_of_lt (below check six fits),
    toNat_ofNat_of_lt (below _ (length_checkGroups hrp groups) fun _ => lt_of_mem_checkGroups)]
    at same
  exact Radix.eq_of_ofDigits_eq (by decide) (six.trans (length_checkGroups hrp groups).symm) fits
    (fun _ => lt_of_mem_checkGroups) same

/-- The groups of a text are those that are written for its bytes exactly if it is normal. -/
theorem IsSpelled.checkedGroups_eq_iff
    {text hrp hrp' : String}
    (spelled : IsSpelled text hrp)
    (same : lowered hrp' = lowered hrp) :
    checkedGroups hrp' (Bits.toBytes (Bits.join 5 (dataGroups text))) = groupsOf text ↔
      IsNormal text := by
  have fits := spelled.lt_of_mem_groupsOf
  have five : 0 < 5 := by
    decide
  have data_iff := Bits.paddedGroups_toBytes_iff five spelled.lt_of_mem_dataGroups
  have split := List.take_append_drop ((groupsOf text).length - 6) (groupsOf text)
  rw [← dataGroups] at split
  generalize check_eq : (groupsOf text).drop ((groupsOf text).length - 6) = check at split
  have six : check.length = 6 := by
    rw [← check_eq, List.length_drop]
    have enough := spelled.enough
    omega
  have fronts : hrpGroups hrp'.toList = hrpGroups (Address.hrpOf text.toList) := by
    rw [spelled.hrpOf_eq, ← hrpGroups_lowered hrp', same, hrpGroups_lowered]
  constructor
  · intro written
    have data_same := written.trans split.symm
    obtain ⟨padded, _⟩ := List.append_inj' data_same ((length_checkGroups _ _).trans six.symm)
    obtain ⟨few, zeros⟩ := data_iff.mp padded
    refine ⟨?_, few, zeros⟩
    rw [← written, ← fronts]
    exact residue_checkGroups _ _
  · rintro ⟨plain, few, zeros⟩
    have padded := data_iff.mpr ⟨few, zeros⟩
    rw [← split, ← fronts] at plain
    have check_same := eq_checkGroups six (fun group mem => fits group ?_) plain
    · rw [checkedGroups, padded, ← check_same]
      exact split
    · rw [← split]
      exact List.mem_append_right _ mem

/-- What is written for bytes under the human-readable part of a text, letter case apart, is the
text in lower case exactly if these are the bytes of the text and it is normal. -/
theorem encode_eq_lowered_iff
    {text hrp hrp' : String}
    {bytes bytes' : List UInt8}
    (read : decode text = .ok (hrp, bytes))
    (same : lowered hrp' = lowered hrp) :
    encode hrp' bytes' = .ok (lowered text) ↔
      isMixedCase hrp'.toList = false ∧ bytes' = bytes ∧ IsNormal text := by
  have read_lowered := decode_lowered read
  obtain ⟨spelled, bytes_eq⟩ := decode_eq_ok_iff.mp read
  have normal_iff := spelled.checkedGroups_eq_iff same
  rw [bytes_eq] at normal_iff
  constructor
  · intro written
    have found := (decode_encode written).symm.trans read_lowered
    obtain ⟨valid, _, text_eq⟩ := encode_eq_ok_iff.mp written
    obtain ⟨_, rfl⟩ := Prod.mk.inj (Except.ok.inj found)
    refine ⟨(hrpFault?_eq_none_iff.mp valid).2.2.2, rfl, normal_iff.mp ?_⟩
    rw [same, spelled.lowered_eq] at text_eq
    have symbols := List.append_cancel_left (String.ofList_injective text_eq)
    rw [← map_symbolValue?_symbols fun _ => lt_of_mem_checkedGroups, (List.cons.inj symbols).2,
      map_symbolValue?_symbols spelled.lt_of_mem_groupsOf]
  · rintro ⟨oneCase, rfl, normal⟩
    have groups_eq := normal_iff.mpr normal
    have short := spelled.short
    rw [spelled.utf8ByteSize_eq, ← utf8ByteSize_lowered, ← same, utf8ByteSize_lowered] at short
    refine encode_eq_ok_iff.mpr ⟨hrpFault?_of_lowered_eq same spelled.valid oneCase, ?_, ?_⟩
    · rw [groups_eq]
      exact short
    · rw [groups_eq, same, spelled.lowered_eq]

end Bech32
end ScriptCodec
