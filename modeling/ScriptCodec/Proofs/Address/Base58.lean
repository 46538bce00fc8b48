import ScriptCodec.Base58
import ScriptCodec.Proofs.Text.Radix
import ScriptCodec.Proofs.Text.Utf8

/-!
# Reading base58 text back

A base58 text is a numeral in base 58 that has the leading zeros of its bytes, so both directions
are changes of base: `encodePlain_eq` and `decodePlain_symbols`.  With the checksum, exactly the
texts that are written are read: `decode_eq_ok_iff`.

The first character of a text is the leading digit of a number whose size is known from the count
and the first of the bytes: `exists_head?_encode`.
-/

namespace ScriptCodec
namespace Base58

/-- The byte of the symbol of a digit. -/
def symbolByte
    (d : Nat) :
    UInt8 :=
  UInt8.ofNat (symbol d).toNat

theorem symbolByte_table :
    ∀ d, d < 58 →
      String.utf8EncodeChar (symbol d) = [symbolByte d] ∧
      digit? (symbolByte d) = some d := by
  decide +kernel

/-- Bytes are digits in base 256. -/
theorem toNat_lt_of_mem
    (bytes : List UInt8) :
    ∀ d ∈ bytes.map UInt8.toNat, d < 256 := by
  intro d mem
  obtain ⟨b, _, rfl⟩ := List.mem_map.mp mem
  exact b.toNat_lt

/-! ## Without a checksum -/

/-- The symbols of bytes are their numeral in base 58. -/
theorem encodePlain_eq
    (bytes : List UInt8) :
    encodePlain bytes =
      String.ofList
        ((Radix.rebase 256 58 (by decide) (bytes.map UInt8.toNat)).map symbol) := by
  have zeros : ((bytes.map UInt8.toNat).takeWhile (· == 0)).length =
      (bytes.takeWhile (· == 0)).length := by
    rw [List.takeWhile_map, List.length_map]
    congr 2
    funext b
    simp [← UInt8.toNat_inj]
  rw [Radix.rebase, zeros, List.map_append, List.map_replicate]
  rfl

/-- Symbols are read as their digits. -/
theorem digitsOnto_symbols
    {digits : List Nat}
    (fits : ∀ d ∈ digits, d < 58)
    (read : List Nat) :
    digitsOnto read (digits.map symbolByte) = .ok (read.reverse ++ digits) := by
  induction digits generalizing read with
  | nil =>
      simp [digitsOnto]
  | cons d digits ih =>
      have value := (symbolByte_table d (fits d (by simp))).2
      rw [List.map_cons, digitsOnto, value]
      simp only [ih fun d' mem => fits d' (List.mem_cons_of_mem _ mem), List.reverse_cons,
        List.append_assoc, List.singleton_append]

/-- A text of symbols is read as the numeral of its digits in base 256. -/
theorem decodePlain_symbols
    {digits : List Nat}
    (fits : ∀ d ∈ digits, d < 58) :
    decodePlain (String.ofList (digits.map symbol)) =
      .ok ((Radix.rebase 58 256 (by decide) digits).map UInt8.ofNat) := by
  have bytes := utf8Bytes_ofList_map fun d mem => (symbolByte_table d (fits d mem)).1
  rw [decodePlain, bytes, digitsOnto_symbols fits, Radix.rebase, List.map_append,
    List.map_replicate]
  rfl

theorem decodePlain_encodePlain
    (bytes : List UInt8) :
    decodePlain (encodePlain bytes) = .ok bytes := by
  rw [encodePlain_eq, decodePlain_symbols fun _ => Radix.lt_of_mem_rebase,
    Radix.rebase_rebase _ _ (toNat_lt_of_mem bytes), List.map_map]
  simp [Function.comp_def]

/-- A byte is a digit only if it is the byte of the digit's symbol. -/
theorem eq_symbolByte_of_digit?
    {b : UInt8}
    {d : Nat}
    (value : digit? b = some d) :
    d < 58 ∧ b = symbolByte d := by
  obtain ⟨inside, same, _⟩ := List.findIdx?_eq_some_iff_getElem.mp value
  have found : symbol d = alphabet[d] := by
    rw [symbol, List.getD_eq_getElem?_getD, List.getElem?_eq_getElem inside, Option.getD_some]
  constructor
  · exact inside
  · rw [symbolByte, found, eq_of_beq same, UInt8.ofNat_toNat]

/-- What is read as digits is their symbols. -/
theorem symbols_of_digitsOnto
    {bytes : List UInt8}
    {read all : List Nat}
    (found : digitsOnto read bytes = .ok all) :
    ∃ digits : List Nat,
      (∀ d ∈ digits, d < 58) ∧
      bytes = digits.map symbolByte := by
  induction bytes generalizing read with
  | nil =>
      exact ⟨[], by simp, rfl⟩
  | cons b bytes ih =>
      rw [digitsOnto] at found
      cases value : digit? b with
      | none =>
          simp [value] at found
      | some d =>
          rw [value] at found
          obtain ⟨digits, fits, rfl⟩ := ih found
          obtain ⟨small, rfl⟩ := eq_symbolByte_of_digit? value
          exact ⟨d :: digits, List.forall_mem_cons.mpr ⟨small, fits⟩, rfl⟩

/-- Every text that is read without a checksum is the text of its bytes. -/
theorem encodePlain_decodePlain
    {text : String}
    {bytes : List UInt8}
    (read : decodePlain text = .ok bytes) :
    encodePlain bytes = text := by
  cases found : digitsOnto [] (utf8Bytes text) with
  | error e =>
      simp [decodePlain, found] at read
  | ok all =>
      obtain ⟨digits, fits, spelled⟩ := symbols_of_digitsOnto found
      have single := utf8Bytes_ofList_map fun d mem => (symbolByte_table d (fits d mem)).1
      obtain rfl : text = String.ofList (digits.map symbol) :=
        eq_of_utf8Bytes_eq (spelled.trans single.symm)
      rw [decodePlain_symbols fits, Except.ok.injEq] at read
      have numbers : bytes.map UInt8.toNat = Radix.rebase 58 256 (by decide) digits := by
        have each : ∀ d ∈ Radix.rebase 58 256 (by decide) digits,
            (UInt8.toNat ∘ UInt8.ofNat) d = id d := by
          intro d mem
          exact UInt8.toNat_ofNat_of_lt' (Radix.lt_of_mem_rebase mem)
        rw [← read, List.map_map, List.map_congr_left each, List.map_id]
      rw [encodePlain_eq, numbers, Radix.rebase_rebase _ _ fits]

/-! ## With a checksum -/

@[simp] theorem length_checksum
    (payload : List UInt8) :
    (checksum payload).length = 4 := by
  simp [checksum]

/-- Reading gives back the payload that was written. -/
theorem decode_encode
    (payload : List UInt8) :
    decode (encode payload) = .ok payload := by
  have size : (payload ++ checksum payload).length - 4 = payload.length := by
    simp
  have enough : ¬ (payload ++ checksum payload).length < 4 := by
    simp
  rw [decode, encode, decodePlain_encodePlain]
  simp only [size, if_neg enough, List.take_left, List.drop_left, if_pos]

/-- Exactly the texts of payloads are read. -/
theorem decode_eq_ok_iff
    {text : String}
    {payload : List UInt8} :
    decode text = .ok payload ↔ text = encode payload := by
  constructor
  · intro read
    cases plain : decodePlain text with
    | error e =>
        simp [decode, plain] at read
    | ok bytes =>
        simp only [decode, plain] at read
        split at read
        · cases read
        split at read
        · next checked =>
            rw [Except.ok.injEq] at read
            rw [← encodePlain_decodePlain plain, encode, ← read, ← checked,
              List.take_append_drop]
        · cases read
  · rintro rfl
    exact decode_encode payload

/-- How long the text of a payload can be. -/
theorem length_encode_le
    (payload : List UInt8) :
    2 * (encode payload).toList.length ≤ 3 * payload.length + 13 := by
  have worth : 256 ^ 2 ≤ 58 ^ 3 := by
    decide
  have bound := Radix.two_mul_length_rebase_le (by decide) (by decide) worth
    (toNat_lt_of_mem (payload ++ checksum payload))
  rw [encode, encodePlain_eq, String.toList_ofList, List.length_map]
  simp only [List.length_map, List.length_append, length_checksum] at bound
  omega

/-! ## The first character -/

theorem head?_encode_zero
    (payload : List UInt8) :
    (encode (0 :: payload)).toList.head? = some '1' := by
  simp [encode, encodePlain, List.replicate_succ]

/-- The first character of a text is the leading digit of the number of its bytes. -/
theorem exists_head?_encode
    (version : UInt8)
    {payload : List UInt8}
    {n : Nat}
    (size : payload.length + 4 = n)
    (k low high : Nat)
    (nonzero : version ≠ 0)
    (above : low * 58 ^ k ≤ version.toNat * 256 ^ n)
    (below : (version.toNat + 1) * 256 ^ n ≤ (high + 1) * 58 ^ k)
    (pos : 0 < low)
    (digit : high < 58) :
    ∃ d, low ≤ d ∧ d ≤ high ∧ (encode (version :: payload)).toList.head? = some (symbol d) := by
  generalize tail_eq : (payload ++ checksum (version :: payload)).map UInt8.toNat = tail
  have tail_size : tail.length = n := by
    simp [← tail_eq, size]
  have fits : ∀ d ∈ tail, d < 256 := by
    rw [← tail_eq]
    exact toNat_lt_of_mem _
  obtain ⟨least, most⟩ := Radix.ofDigits_cons_bounds (by decide) version.toNat fits
  rw [tail_size] at least most
  generalize number_eq : Radix.ofDigits 256 (version.toNat :: tail) = number at least most
  replace least : low * 58 ^ k ≤ number := Nat.le_trans above least
  replace most : number < (high + 1) * 58 ^ k := Nat.lt_of_lt_of_le most below
  have power : 0 < 58 ^ k := Nat.pow_pos (by decide)
  have enough : 58 ^ k ≤ number := Nat.le_trans (Nat.le_mul_of_pos_left _ pos) least
  have few : number < 58 ^ (k + 1) := by
    rw [Nat.pow_succ, Nat.mul_comm]
    exact Nat.lt_of_lt_of_le most (Nat.mul_le_mul_right _ digit)
  refine ⟨number / 58 ^ k, ?_, ?_, ?_⟩
  · exact (Nat.le_div_iff_mul_le power).mpr least
  · exact Nat.le_of_lt_succ ((Nat.div_lt_iff_lt_mul power).mpr most)
  · have no_zeros : ((version :: payload) ++ checksum (version :: payload)).takeWhile (· == 0) =
        [] := by
      rw [List.cons_append, List.takeWhile_cons_of_neg (by simpa using nonzero)]
    have numeral : ((version :: payload) ++ checksum (version :: payload)).map UInt8.toNat =
        version.toNat :: tail := by
      rw [← tail_eq, List.cons_append, List.map_cons]
    have first := Radix.head?_toDigits (h := by decide) enough few
    rw [encode, encodePlain]
    simp only [no_zeros, numeral, number_eq, String.toList_ofList, List.length_nil,
      List.replicate_zero, List.nil_append, List.head?_map, first, Option.map_some]

end Base58
end ScriptCodec
