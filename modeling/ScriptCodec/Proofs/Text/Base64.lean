import ScriptCodec.Proofs.Text.Bits
import ScriptCodec.Proofs.Text.Utf8
import ScriptCodec.Text.Base64

/-!
# Reading base64 text back

A base64 text is a list of symbols that is completed by padding.  `decodeBytes_symbols` says that
such a text is read as the bits of its symbols, provided the bits that are left over are zero, and
`decode_encode` follows for the texts of bytes.
-/

namespace ScriptCodec
namespace Base64

/-- The byte of the symbol of a six-bit group. -/
def symbolByte
    (n : Nat) :
    UInt8 :=
  UInt8.ofNat (symbol n).toNat

theorem symbolByte_table :
    ∀ n, n < 64 →
      String.utf8EncodeChar (symbol n) = [symbolByte n] ∧
      symbolValue? (symbolByte n) = some n ∧
      symbolByte n ≠ pad := by
  decide

section Symbols

variable {groups : List Nat}

theorem isSome_symbolValue?
    (fits : ∀ group ∈ groups, group < 64) :
    ∀ b ∈ groups.map symbolByte, (symbolValue? b).isSome = true := by
  intro b mem
  obtain ⟨group, in_groups, rfl⟩ := List.mem_map.mp mem
  rw [(symbolByte_table group (fits group in_groups)).2.1]
  rfl

theorem firstForeign?_eq_none
    {front : List UInt8}
    (known : ∀ b ∈ front, (symbolValue? b).isSome = true)
    (offset : Nat) :
    firstForeign? offset front = none := by
  induction front generalizing offset with
  | nil =>
      rfl
  | cons b front ih =>
      rw [firstForeign?, if_pos (known b (by simp))]
      exact ih (fun b' mem => known b' (List.mem_cons_of_mem _ mem)) _

/-- The bits of symbols are the bits of their groups. -/
theorem symbolBits_symbols
    (fits : ∀ group ∈ groups, group < 64) :
    symbolBits (groups.map symbolByte) = Bits.join 6 groups := by
  have values : (groups.map symbolByte).map (fun b => (symbolValue? b).getD 0) = groups := by
    rw [List.map_map]
    have each : ∀ group ∈ groups,
        ((fun b => (symbolValue? b).getD 0) ∘ symbolByte) group = id group := by
      intro group mem
      simp [(symbolByte_table group (fits group mem)).2.1]
    rw [List.map_congr_left each, List.map_id]
  rw [symbolBits, values]

end Symbols

/-! ## The last block -/

/-- Symbols are collected until padding comes. -/
theorem readTail_symbols
    {groups : List Nat}
    (fits : ∀ group ∈ groups, group < 64)
    (base i : Nat)
    (read : List UInt8)
    (firstPad : Nat)
    (rest : List UInt8) :
    readTail base i ⟨read, firstPad, 0⟩ (groups.map symbolByte ++ rest) =
      readTail base (i + groups.length)
        ⟨(groups.map symbolByte).reverse ++ read, firstPad, 0⟩ rest := by
  induction groups generalizing i read with
  | nil =>
      rfl
  | cons group groups ih =>
      obtain ⟨_, value, noPad⟩ := symbolByte_table group (fits group (by simp))
      have known : (symbolValue? (symbolByte group)).isSome = true := by
        rw [value]
        rfl
      rw [List.map_cons, List.cons_append, readTail, if_neg noPad, if_neg (Nat.lt_irrefl 0),
        if_pos known, ih fun other mem => fits other (List.mem_cons_of_mem _ mem)]
      simp [Nat.add_assoc, Nat.add_comm 1]

/-- Padding that completes the last group is accepted. -/
theorem exists_readTail_pads
    {base i count : Nat}
    (complete : (i + count) % 4 = 0)
    (few : count ≤ 2)
    (read : List UInt8)
    (firstPad pads : Nat) :
    ∃ firstPad',
      readTail base i ⟨read, firstPad, pads⟩ (List.replicate count pad) =
        .ok ⟨read, firstPad', pads + count⟩ := by
  induction count generalizing i firstPad pads with
  | zero =>
      exact ⟨firstPad, rfl⟩
  | succ count ih =>
      have late : ¬ i % 4 < 2 := by
        omega
      have complete' : (i + 1 + count) % 4 = 0 := by
        omega
      obtain ⟨firstPad', rest⟩ :=
        ih complete' (by omega) (if pads = 0 then i else firstPad) (pads + 1)
      refine ⟨firstPad', ?_⟩
      rw [List.replicate_succ, readTail, if_pos rfl, if_neg late, rest]
      simp [Nat.add_assoc, Nat.add_comm 1]

/-- The last block is read as its symbols and the count of its padding. -/
theorem exists_readTail
    {groups : List Nat}
    (fits : ∀ group ∈ groups, group < 64)
    {pads : Nat}
    (complete : (groups.length + pads) % 4 = 0)
    (few : pads ≤ 2)
    (base : Nat) :
    ∃ firstPad,
      readTail base 0 ⟨[], 0, 0⟩ (groups.map symbolByte ++ List.replicate pads pad) =
        .ok ⟨(groups.map symbolByte).reverse, firstPad, pads⟩ := by
  have complete' : (0 + groups.length + pads) % 4 = 0 := by
    omega
  obtain ⟨firstPad, tail⟩ :
      ∃ firstPad,
        readTail base (0 + groups.length) ⟨(groups.map symbolByte).reverse, 0, 0⟩
          (List.replicate pads pad) =
        .ok ⟨(groups.map symbolByte).reverse, firstPad, 0 + pads⟩ :=
    exists_readTail_pads complete' few _ 0 0
  refine ⟨firstPad, ?_⟩
  rw [readTail_symbols fits, List.append_nil, tail, Nat.zero_add]

/-- The check of the last block passes if the bits left over are zero. -/
theorem finish_symbols
    {base pads firstPad : Nat}
    {front groups : List Nat}
    (front_fits : ∀ group ∈ front, group < 64)
    (fits : ∀ group ∈ groups, group < 64)
    (complete : (pads + groups.length) % 4 = 0)
    (zeros : ∀ last ∈ groups.getLast?, last % 2 ^ (groups.length * 6 % 8) = 0) :
    finish base (front.map symbolByte) ⟨(groups.map symbolByte).reverse, firstPad, pads⟩ =
      .ok (Bits.toBytes (Bits.join 6 (front ++ groups))) := by
  have all_fit : ∀ group ∈ front ++ groups, group < 64 := by
    intro group mem
    rcases List.mem_append.mp mem with mem | mem
    · exact front_fits group mem
    · exact fits group mem
  have bits := symbolBits_symbols all_fit
  rw [List.map_append] at bits
  rcases List.eq_nil_or_concat groups with rfl | ⟨init, last, rfl⟩
  · have padded : ¬ pads % 4 ≠ 0 := by
      simpa using complete
    simp only [List.map_nil, List.append_nil] at bits
    simp [finish, padded, bits]
  · rw [List.concat_eq_append] at *
    have small : last < 64 := fits last (by simp)
    have value : (symbolValue? (symbolByte last)).getD 0 = last := by
      rw [(symbolByte_table last small).2.1]
      rfl
    have zero : last % 2 ^ ((init.length + 1) * 6 % 8) = 0 := by
      simpa using zeros last (by simp)
    have padded : ¬ (pads + (init.length + 1)) % 4 ≠ 0 := by
      simpa using complete
    have reversed : ((init ++ [last]).map symbolByte).reverse =
        symbolByte last :: (init.map symbolByte).reverse := by
      simp
    have ordered : (symbolByte last :: (init.map symbolByte).reverse).reverse =
        (init ++ [last]).map symbolByte := by
      simp
    simp only [finish, reversed, List.length_cons, List.length_reverse, List.length_map]
    have clean : ¬ (symbolValue? (symbolByte last)).getD 0 %
        1 <<< ((init.length + 1) * 6 % 8) ≠ 0 := by
      rw [value, Nat.one_shiftLeft, zero]
      exact fun other => other rfl
    rw [if_neg padded, if_neg clean, ordered, bits]

/-! ## Whole texts -/

/-- Groups and a number of padding bytes that make a canonical text. -/
structure Canonical
    (groups : List Nat)
    (pads : Nat) :
    Prop where
  fits : ∀ group ∈ groups, group < 64
  few : pads ≤ 2
  complete : (groups.length + pads) % 4 = 0
  zeros : ∀ last ∈ groups.getLast?, last % 2 ^ (groups.length * 6 % 8) = 0

/-- A text of symbols and padding is read as the bits of its symbols. -/
theorem decodeBytes_symbols
    {groups : List Nat}
    {pads : Nat}
    (canonical : Canonical groups pads) :
    decodeBytes (groups.map symbolByte ++ List.replicate pads pad) =
      .ok (Bits.toBytes (Bits.join 6 groups)) := by
  obtain ⟨fits, few, complete, zeros⟩ := canonical
  have size : (groups.map symbolByte ++ List.replicate pads pad).length =
      groups.length + pads := by
    simp
  have aligned : ¬ (groups.length + pads) % 4 = 1 := by
    omega
  simp only [decodeBytes, size]
  rw [if_neg aligned]
  generalize base_eq : (groups.length + pads - 1) / 8 * 8 = base
  have inside : base ≤ groups.length := by
    omega
  have front_fits : ∀ group ∈ groups.take base, group < 64 :=
    fun group mem => fits group (List.mem_of_mem_take mem)
  have back_fits : ∀ group ∈ groups.drop base, group < 64 :=
    fun group mem => fits group (List.mem_of_mem_drop mem)
  have front : (groups.map symbolByte ++ List.replicate pads pad).take base =
      (groups.take base).map symbolByte := by
    rw [List.take_append_of_le_length (by simpa using inside), List.map_take]
  have back : (groups.map symbolByte ++ List.replicate pads pad).drop base =
      (groups.drop base).map symbolByte ++ List.replicate pads pad := by
    rw [List.drop_append_of_le_length (by simpa using inside), List.map_drop]
  have block : ((groups.drop base).length + pads) % 4 = 0 := by
    rw [List.length_drop]
    omega
  have zeros' : ∀ last ∈ (groups.drop base).getLast?,
      last % 2 ^ ((groups.drop base).length * 6 % 8) = 0 := by
    intro last mem
    have same : (groups.drop base).length * 6 % 8 = groups.length * 6 % 8 := by
      rw [List.length_drop]
      omega
    rw [List.getLast?_drop] at mem
    split at mem
    · cases mem
    · rw [same]
      exact zeros last mem
  obtain ⟨firstPad, tail⟩ := exists_readTail back_fits block few base
  have found : finish base ((groups.take base).map symbolByte)
        ⟨((groups.drop base).map symbolByte).reverse, firstPad, pads⟩ =
      .ok (Bits.toBytes (Bits.join 6 (groups.take base ++ groups.drop base))) :=
    finish_symbols front_fits back_fits (by rwa [Nat.add_comm]) zeros'
  rw [front, back, firstForeign?_eq_none (isSome_symbolValue? front_fits)]
  simp only [tail]
  rw [found, List.take_append_drop]

/-- The UTF-8 form of symbols and padding. -/
theorem utf8Bytes_symbols
    {groups : List Nat}
    (fits : ∀ group ∈ groups, group < 64)
    (pads : Nat) :
    utf8Bytes (String.ofList (groups.map symbol ++ List.replicate pads '=')) =
      groups.map symbolByte ++ List.replicate pads pad := by
  have symbols := utf8Bytes_ofList_map fun group mem => (symbolByte_table group (fits group mem)).1
  have padding : utf8Bytes (String.ofList (List.replicate pads '=')) = List.replicate pads pad := by
    have single : ∀ x ∈ List.replicate pads (), String.utf8EncodeChar '=' = [pad] :=
      fun _ _ => rfl
    simpa using utf8Bytes_ofList_map single
  rw [String.ofList_append, utf8Bytes_append, symbols, padding]

/-- Reading gives back the bytes that were written. -/
theorem decode_encode
    (bytes : List UInt8) :
    decode (encode bytes) = .ok bytes := by
  generalize groups_eq : Bits.paddedGroups 6 (Bits.ofBytes bytes) = groups
  have size : (Bits.ofBytes bytes).length = bytes.length * 8 := by
    simp [Bits.ofBytes]
  have count : groups.length = (bytes.length * 8 + 5) / 6 := by
    rw [← groups_eq, Bits.paddedGroups, Bits.length_cutOnto, size]
    rfl
  have fits : ∀ group ∈ groups, group < 64 := by
    rw [← groups_eq]
    intro group mem
    exact Bits.lt_of_mem_cutOnto mem
  have filled := Bits.join_paddedGroups 6 (by decide) (Bits.ofBytes bytes)
  rw [groups_eq, size] at filled
  have zeros : ∀ last ∈ groups.getLast?, last % 2 ^ (groups.length * 6 % 8) = 0 := by
    intro last mem
    obtain ⟨init, rfl⟩ := List.getLast?_eq_some_iff.mp mem
    have left_over : (init ++ [last]).length * 6 % 8 =
        (init ++ [last]).length * 6 - bytes.length * 8 := by
      omega
    have short : (init ++ [last]).length * 6 - bytes.length * 8 ≤ 6 := by
      omega
    have single : Bits.join 6 [last] = Bits.ofNat 6 last := by
      simp [Bits.join]
    rw [Bits.join_append, single] at filled
    rw [left_over]
    exact Bits.last_group_mod (fits last (by simp)) short filled
  have few : (4 - groups.length % 4) % 4 ≤ 2 := by
    omega
  have complete : (groups.length + (4 - groups.length % 4) % 4) % 4 = 0 := by
    omega
  have short : (List.replicate (groups.length * 6 - bytes.length * 8) false).length < 8 := by
    rw [List.length_replicate]
    omega
  simp only [decode, encode, groups_eq, List.length_map]
  rw [utf8Bytes_symbols fits, decodeBytes_symbols ⟨fits, few, complete, zeros⟩, filled,
    Bits.toBytes_ofBytes_append bytes short]

end Base64
end ScriptCodec
