import ScriptCodec.Proofs.Text.Base64

/-!
# The base64 texts that are read

A text that is read consists of symbols and of padding that completes the last group, and the bits
that its last symbol leaves over are zero.  Such a text is the one that is written for its bytes, so
no bytes have two texts.

* `exists_symbols_of_readTail` inverts the reading of the last block;
* `exists_canonical_of_decodeBytes` says what a text that is read looks like;
* `decode_eq_ok_iff` is the converse of reading what was written.
-/

namespace ScriptCodec
namespace Base64

/-! ## Symbols -/

/-- A byte of the alphabet is the symbol of its value. -/
theorem symbolByte_of_symbolValue?
    {b : UInt8}
    {n : Nat}
    (value : symbolValue? b = some n) :
    n < 64 ∧ b = symbolByte n := by
  have table : ∀ k < 256, ∀ n ∈ symbolValue? (UInt8.ofNat k),
      n < 64 ∧ UInt8.ofNat k = symbolByte n := by
    decide +kernel
  have found := table b.toNat b.toNat_lt n
  rw [UInt8.ofNat_toNat] at found
  exact found value

/-- Bytes of the alphabet are symbols of groups. -/
theorem exists_groups
    {bytes : List UInt8}
    (known : ∀ b ∈ bytes, (symbolValue? b).isSome = true) :
    ∃ groups : List Nat,
      (∀ group ∈ groups, group < 64) ∧
      bytes = groups.map symbolByte := by
  induction bytes with
  | nil =>
      exact ⟨[], by simp, rfl⟩
  | cons b bytes ih =>
      obtain ⟨n, value⟩ := Option.isSome_iff_exists.mp (known b (by simp))
      obtain ⟨small, symbol⟩ := symbolByte_of_symbolValue? value
      obtain ⟨groups, fits, same⟩ := ih fun b' mem => known b' (List.mem_cons_of_mem _ mem)
      refine ⟨n :: groups, ?_, ?_⟩
      · intro group mem
        rcases List.mem_cons.mp mem with rfl | mem
        · exact small
        · exact fits group mem
      · rw [List.map_cons, ← symbol, ← same]

/-- Where nothing foreign is found, all bytes are in the alphabet. -/
theorem isSome_of_firstForeign?
    {front : List UInt8}
    {offset : Nat}
    (none_found : firstForeign? offset front = none) :
    ∀ b ∈ front, (symbolValue? b).isSome = true := by
  induction front generalizing offset with
  | nil =>
      simp
  | cons b front ih =>
      rw [firstForeign?] at none_found
      split at none_found
      · next known =>
          intro b' mem
          rcases List.mem_cons.mp mem with rfl | mem
          · exact known
          · exact ih none_found b' mem
      · cases none_found

/-! ## The last block -/

/-- A block that is read is symbols and padding, with no symbol behind padding and no padding in
the front half of a group. -/
theorem exists_symbols_of_readTail
    {base i : Nat}
    {tail tail' : Tail}
    {block : List UInt8}
    (read : readTail base i tail block = .ok tail') :
    ∃ (symbols : List UInt8) (count : Nat),
      block = symbols ++ List.replicate count pad ∧
      (∀ b ∈ symbols, (symbolValue? b).isSome = true) ∧
      (0 < tail.pads → symbols = []) ∧
      tail'.symbols = symbols.reverse ++ tail.symbols ∧
      tail'.pads = tail.pads + count ∧
      ∀ j < count, 2 ≤ (i + symbols.length + j) % 4 := by
  fun_induction readTail base i tail block with
  | case1 i tail =>
      cases read
      exact ⟨[], 0, rfl, by simp, fun _ => rfl, rfl, rfl, by simp⟩
  | case2 =>
      cases read
  | case3 i tail rest first late ih =>
      obtain ⟨symbols, count, block, known, behind, read_symbols, pads, places⟩ := ih read
      obtain rfl := behind (Nat.succ_pos _)
      refine ⟨[], count + 1, ?_, by simp, fun _ => rfl, read_symbols, ?_, ?_⟩
      · rw [block, List.replicate_succ]
        rfl
      · rw [pads]
        simp only [Nat.add_assoc, Nat.add_comm 1]
      · intro j small
        cases j with
        | zero =>
            exact Nat.le_of_not_lt late
        | succ j =>
            have place := places j (Nat.lt_of_succ_lt_succ small)
            simp only [List.length_nil] at place ⊢
            omega
  | case4 =>
      cases read
  | case5 i tail b rest symbol open_block known ih =>
      obtain ⟨symbols, count, block, known', behind, read_symbols, pads, places⟩ := ih read
      refine ⟨b :: symbols, count, ?_, ?_, ?_, ?_, pads, ?_⟩
      · rw [block]
        rfl
      · intro b' mem
        rcases List.mem_cons.mp mem with rfl | mem
        · exact known
        · exact known' b' mem
      · intro padded
        exact absurd padded open_block
      · rw [read_symbols]
        simp
      · intro j small
        have place := places j small
        rw [List.length_cons]
        omega
  | case6 =>
      cases read

/-- Padding stands in the back half of one group. -/
theorem pads_le_two
    {start count : Nat}
    (places : ∀ j < count, 2 ≤ (start + j) % 4) :
    count ≤ 2 := by
  rcases Nat.lt_or_ge 2 count with more | few
  · have first := places 0 (by omega)
    have second := places 1 (by omega)
    have third := places 2 (by omega)
    omega
  · exact few

/-- The check of the last block passes only for whole groups whose last symbol leaves zeros over. -/
theorem finish_eq_ok
    {base : Nat}
    {front : List UInt8}
    {tail : Tail}
    {bytes : List UInt8}
    (passed : finish base front tail = .ok bytes) :
    (tail.pads + tail.symbols.length) % 4 = 0 ∧
    (∀ last ∈ tail.symbols.head?,
      (symbolValue? last).getD 0 % 2 ^ (tail.symbols.length * 6 % 8) = 0) ∧
    bytes = Bits.toBytes (symbolBits (front ++ tail.symbols.reverse)) := by
  simp only [finish] at passed
  split at passed
  · cases passed
  · next complete =>
      refine ⟨Nat.eq_zero_of_not_pos fun pos => complete (Nat.ne_of_gt pos), ?_⟩
      split at passed
      · next empty =>
          cases passed
          simp [empty]
      · next last symbols some_symbol =>
          split at passed
          · cases passed
          · next clean =>
              cases passed
              rw [Nat.one_shiftLeft, not_not] at clean
              refine ⟨?_, rfl⟩
              intro last' mem
              rw [some_symbol, List.head?_cons, Option.mem_some_iff] at mem
              rw [← mem, clean]

/-! ## Whole texts -/

/-- Whole blocks in front of the last one do not change which bits are left over. -/
theorem zeros_append
    {front back : List Nat}
    (blocks : front.length % 8 = 0)
    (zeros : ∀ last ∈ back.getLast?, last % 2 ^ (back.length * 6 % 8) = 0) :
    ∀ last ∈ (front ++ back).getLast?, last % 2 ^ ((front ++ back).length * 6 % 8) = 0 := by
  intro last mem
  rcases List.eq_nil_or_concat back with rfl | ⟨init, last', rfl⟩
  · have none_over : (front ++ []).length * 6 % 8 = 0 := by
      rw [List.append_nil]
      omega
    rw [none_over, Nat.pow_zero, Nat.mod_one]
  · have same : (front ++ init.concat last').length * 6 % 8 =
        (init.concat last').length * 6 % 8 := by
      rw [List.length_append]
      omega
    rw [same]
    apply zeros
    simpa using mem

/-- A text that is read passes the checks of its whole blocks, of its last block and of the last
symbol. -/
theorem exists_blocks_of_decodeBytes
    {text bytes : List UInt8}
    (read : decodeBytes text = .ok bytes) :
    ∃ base tail,
      base % 8 = 0 ∧
      base ≤ text.length ∧
      firstForeign? 0 (text.take base) = none ∧
      readTail base 0 ⟨[], 0, 0⟩ (text.drop base) = .ok tail ∧
      finish base (text.take base) tail = .ok bytes := by
  simp only [decodeBytes] at read
  split at read
  · split at read
    · cases read
    · cases read
  · split at read
    · cases read
    · next none_found =>
        split at read
        · cases read
        · next tail tail_read =>
            exact ⟨_, tail, Nat.mul_mod_left _ _, by omega, none_found, tail_read, read⟩

/-- A text that is read is the canonical text of groups and is read as their bits. -/
theorem exists_canonical_of_decodeBytes
    {text bytes : List UInt8}
    (read : decodeBytes text = .ok bytes) :
    ∃ (groups : List Nat) (pads : Nat),
      Canonical groups pads ∧
      text = groups.map symbolByte ++ List.replicate pads pad ∧
      bytes = Bits.toBytes (Bits.join 6 groups) := by
  obtain ⟨base, tail, blocks, inside, none_found, tail_read, passed⟩ :=
    exists_blocks_of_decodeBytes read
  obtain ⟨front, front_fits, front_eq⟩ := exists_groups (isSome_of_firstForeign? none_found)
  obtain ⟨symbols, pads, block, known, _, tail_symbols, tail_pads, places⟩ :=
    exists_symbols_of_readTail tail_read
  obtain ⟨back, back_fits, rfl⟩ := exists_groups known
  obtain ⟨complete, clean, rfl⟩ := finish_eq_ok passed
  simp only [List.append_nil, Nat.zero_add] at tail_symbols tail_pads
  rw [tail_symbols, tail_pads, List.length_reverse, List.length_map] at complete
  rw [tail_symbols, List.length_reverse, List.length_map, List.head?_reverse,
    List.getLast?_map] at clean
  have front_size : front.length = base := by
    have sizes := congrArg List.length front_eq
    rw [List.length_take, List.length_map] at sizes
    omega
  have fits : ∀ group ∈ front ++ back, group < 64 := by
    intro group mem
    rcases List.mem_append.mp mem with mem | mem
    · exact front_fits group mem
    · exact back_fits group mem
  have back_zeros : ∀ last ∈ back.getLast?, last % 2 ^ (back.length * 6 % 8) = 0 := by
    intro last mem
    have value := (symbolByte_table last (back_fits last (List.mem_of_getLast? mem))).2.1
    have zero := clean (symbolByte last) (Option.mem_map_of_mem symbolByte mem)
    rwa [value] at zero
  have canonical : Canonical (front ++ back) pads := by
    refine ⟨fits, pads_le_two places, ?_, zeros_append (by omega) back_zeros⟩
    rw [List.length_append]
    omega
  refine ⟨front ++ back, pads, canonical, ?_, ?_⟩
  · rw [List.map_append, List.append_assoc, ← front_eq, ← block, List.take_append_drop]
  · rw [tail_symbols, List.reverse_reverse, front_eq, ← List.map_append, symbolBits_symbols fits]

/-- The groups of a canonical text are those that are written for its bytes. -/
theorem Canonical.paddedGroups_eq
    {groups : List Nat}
    {pads : Nat}
    (canonical : Canonical groups pads) :
    Bits.paddedGroups 6 (Bits.ofBytes (Bits.toBytes (Bits.join 6 groups))) = groups := by
  have few := canonical.few
  have complete := canonical.complete
  have short : groups.length * 6 % 8 < 6 := by
    omega
  apply (Bits.paddedGroups_toBytes_iff (by decide) canonical.fits).mpr
  rw [Bits.leftOver_join (Nat.le_of_lt short) canonical.zeros, List.length_replicate]
  exact ⟨short, fun _ => List.eq_of_mem_replicate⟩

/-- A text is read as bytes exactly if it is what is written for them. -/
theorem decode_eq_ok_iff
    {text : String}
    {bytes : List UInt8} :
    decode text = .ok bytes ↔ encode bytes = text := by
  constructor
  · intro read
    obtain ⟨groups, pads, canonical, spelled, rfl⟩ := exists_canonical_of_decodeBytes read
    have few := canonical.few
    have complete := canonical.complete
    have padding : (4 - groups.length % 4) % 4 = pads := by
      omega
    apply eq_of_utf8Bytes_eq
    simp only [encode, canonical.paddedGroups_eq, List.length_map, padding]
    rw [utf8Bytes_symbols canonical.fits, spelled]
  · rintro rfl
    exact decode_encode bytes

/-- The last symbol may not have bits that no byte takes up. -/
example :
    (decode "AA==").toOption = some [0] ∧
    (decode "AB==").toOption = none := by
  decide +kernel

end Base64
end ScriptCodec
