import Mathlib.Algebra.Group.Nat.Defs
import ScriptCodec.Proofs.Opcode.Lookup
import ScriptCodec.Raw

/-!
# One token of a raw script

A raw script is read token by token.  A step of reading either finds a push, announced by an opcode
and a length field, or an opcode that stands alone.  `step_push` and `step_opcode` say that a step
finds what stands at the front, and `step_item_cases` that it finds nothing else.
-/

namespace ScriptCodec

namespace Raw

/-! ## Announcements of pushes -/

/-- Taking as many bytes as stand in front gives these bytes and leaves the others. -/
theorem take_append
    (position : Nat)
    (data rest : List UInt8) :
    take position data.length (data ++ rest) = .ok (data, rest) := by
  simp [take]

/-- A length field holds the length that was written, as far as it fits. -/
theorem littleEndian_lengthField
    {width n : Nat}
    (fits : n < 256 ^ width) :
    littleEndian (lengthField width n) = n := by
  induction width generalizing n with
  | zero =>
      have zero : n = 0 := by
        simpa using fits
      subst zero
      rfl
  | succ w ih =>
      have small : n / 256 < 256 ^ w := by
        apply Nat.div_lt_of_lt_mul
        rwa [Nat.pow_succ, Nat.mul_comm] at fits
      have low : (UInt8.ofNat n).toNat = n % 256 := by
        simp
      have tail := ih small
      simp only [littleEndian, lengthField, List.foldr_cons] at tail ⊢
      rw [tail, low]
      exact Nat.mod_add_div n 256

/-- A push opcode with its length field, from which the size is read back. -/
structure Announces
    (op : UInt8)
    (field : List UInt8)
    (size : Nat) : Prop where
  push : Opcode.isPush op = true
  width : field.length = lengthWidth op
  reads : ∀ position body, readLength position op (field ++ body) = .ok (size, body)

/-- A small size is its own announcement. -/
theorem announces_direct
    {size : Nat}
    (pos : 0 < size)
    (small : size ≤ 75) :
    Announces (UInt8.ofNat size) [] size := by
  have value : (UInt8.ofNat size).toNat = size := by
    rw [UInt8.toNat_ofNat']
    omega
  have other : ∀ code : UInt8, 75 < code.toNat → UInt8.ofNat size ≠ code := by
    intro code big same
    rw [← same] at big
    omega
  have width : lengthWidth (UInt8.ofNat size) = 0 := by
    simp [lengthWidth, other Opcode.pushData1 (by decide), other Opcode.pushData2 (by decide),
      other Opcode.pushData4 (by decide)]
  constructor
  · rw [Opcode.isPush_iff, value]
    omega
  · simp [width]
  · intro position body
    simp only [readLength, width, if_true, value, List.nil_append]

/-- A length field announces every size that fits it. -/
theorem announces_field
    {op : UInt8}
    {size : Nat}
    (push : Opcode.isPush op = true)
    (wide : 0 < lengthWidth op)
    (fits : size < 256 ^ lengthWidth op) :
    Announces op (lengthField (lengthWidth op) size) size := by
  constructor
  · exact push
  · simp
  · intro position body
    have field :=
      take_append position (lengthField (lengthWidth op) size) body
    rw [length_lengthField] at field
    have narrow : lengthWidth op ≠ 0 := by
      omega
    simp only [readLength, narrow, if_false, field]
    rw [littleEndian_lengthField fits]

/-- Every push of data below the size limit has an announcement. -/
theorem exists_pushHeader
    {size : Nat}
    (pos : 0 < size)
    (fits : size < 2 ^ 32) :
    ∃ op field,
      pushHeader? size = some (op :: field) ∧
      Announces op field size := by
  have direct : Opcode.maxDirectPush.toNat = 75 := by
    rfl
  by_cases h₀ : size ≤ 75
  · refine ⟨UInt8.ofNat size, [], ?_, announces_direct pos h₀⟩
    rw [pushHeader?, direct, if_pos h₀]
  · by_cases h₁ : size < UInt8.size
    · refine ⟨Opcode.pushData1, lengthField 1 size, ?_, announces_field rfl (by decide) h₁⟩
      rw [pushHeader?, direct, if_neg h₀, if_pos h₁]
    · by_cases h₂ : size < UInt16.size
      · refine ⟨Opcode.pushData2, lengthField 2 size, ?_, announces_field rfl (by decide) h₂⟩
        rw [pushHeader?, direct, if_neg h₀, if_neg h₁, if_pos h₂]
      · refine ⟨Opcode.pushData4, lengthField 4 size, ?_, announces_field rfl (by decide) fits⟩
        have fits' : size < UInt32.size := fits
        rw [pushHeader?, direct, if_neg h₀, if_neg h₁, if_neg h₂, if_pos fits']

/-! ## Steps -/

/-- One step of reading over an announced push. -/
theorem step_push
    {table : Opcode.Table}
    {op : UInt8}
    {field : List UInt8}
    (data : List UInt8)
    (announced : Announces op field data.length)
    (position : Nat)
    (rest : List UInt8) :
    step table ⟨position, (op :: field ++ data) ++ rest⟩ =
      .item
        ⟨.literal data, ⟨position, position + (op :: field ++ data).length⟩⟩
        ⟨position + (op :: field ++ data).length, rest⟩ := by
  have size :
      position + (op :: field ++ data).length =
        position + 1 + lengthWidth op + data.length := by
    simp only [List.cons_append, List.length_cons, List.length_append, announced.width]
    omega
  rw [size]
  simp only [List.cons_append, List.append_assoc]
  simp only [step, announced.push, if_true, announced.reads, take_append]

/-- One step of reading over an opcode that stands alone. -/
theorem step_opcode
    {table : Opcode.Table}
    {code : UInt8}
    (alone : table.StandsAlone code)
    (position : Nat)
    (rest : List UInt8) :
    step table ⟨position, [code] ++ rest⟩ =
      .item
        ⟨.opcode code, ⟨position, position + 1⟩⟩
        ⟨position + 1, rest⟩ := by
  obtain ⟨row, noPush⟩ := alone
  simp [step, row, noPush]

/-- A successful take splits the bytes. -/
theorem take_eq_ok
    {position size : Nat}
    {bytes data rest : List UInt8}
    (taken : take position size bytes = .ok (data, rest)) :
    bytes = data ++ rest ∧ data.length = size := by
  simp only [take] at taken
  split at taken
  · simp at taken
  · next enough =>
      simp only [Except.ok.injEq, Prod.mk.injEq] at taken
      obtain ⟨rfl, rfl⟩ := taken
      constructor
      · exact (List.take_append_drop size bytes).symm
      · rw [List.length_take] at enough ⊢
        omega

/-- What is read as a length is announced by what stands in front. -/
theorem readLength_eq_ok
    {position size : Nat}
    {op : UInt8}
    {body rest : List UInt8}
    (push : Opcode.isPush op = true)
    (read : readLength position op body = .ok (size, rest)) :
    ∃ field, body = field ++ rest ∧ Announces op field size := by
  simp only [readLength] at read
  split at read
  · next direct =>
      simp only [Except.ok.injEq, Prod.mk.injEq] at read
      obtain ⟨rfl, rfl⟩ := read
      refine ⟨[], rfl, push, by simp [direct], ?_⟩
      intro position body
      simp [readLength, direct]
  · next wide =>
      split at read
      · simp at read
      · next field rest' taken =>
          simp only [Except.ok.injEq, Prod.mk.injEq] at read
          obtain ⟨rfl, rfl⟩ := read
          obtain ⟨split, width⟩ := take_eq_ok taken
          refine ⟨field, split, push, width, ?_⟩
          intro position body
          have again := take_append position field body
          rw [width] at again
          simp only [readLength, wide, if_false, again]

/-- A step that finds a token finds an announced push or an opcode that stands alone, and moves
over exactly its bytes. -/
theorem step_item_cases
    {table : Opcode.Table}
    {c behind : Cursor UInt8}
    {s : Located}
    (found : step table c = .item s behind) :
    (∃ op field data,
      Announces op field data.length ∧
      c.rest = (op :: field ++ data) ++ behind.rest ∧
      behind.pos = c.pos + (op :: field ++ data).length ∧
      s = ⟨.literal data, ⟨c.pos, behind.pos⟩⟩)
      ∨
    (∃ code,
      table.StandsAlone code ∧
      c.rest = [code] ++ behind.rest ∧
      behind.pos = c.pos + 1 ∧
      s = ⟨.opcode code, ⟨c.pos, behind.pos⟩⟩) := by
  unfold step at found
  split at found
  · simp at found
  · next op body rest_eq =>
      split at found
      · next push =>
          left
          split at found
          · simp at found
          · next size body' length_read =>
              split at found
              · simp at found
              · next data rest taken =>
                  simp only [Step.item.injEq] at found
                  obtain ⟨rfl, rfl⟩ := found
                  obtain ⟨field, rfl, announced⟩ := readLength_eq_ok push length_read
                  obtain ⟨rfl, rfl⟩ := take_eq_ok taken
                  refine ⟨op, field, data, announced, ?_, ?_, rfl⟩
                  · simp [rest_eq]
                  · simp only [List.cons_append, List.length_cons, List.length_append,
                      announced.width]
                    omega
      · next noPush =>
          right
          split at found
          · next row =>
              simp only [Step.item.injEq] at found
              obtain ⟨rfl, rfl⟩ := found
              exact ⟨op, ⟨row, eq_false_of_ne_true noPush⟩, by simp [rest_eq], rfl, rfl⟩
          · simp at found

/-! ## Sizes -/

/-- A length field holds a number below the power of its width. -/
theorem littleEndian_lt
    (bytes : List UInt8) :
    littleEndian bytes < 256 ^ bytes.length := by
  induction bytes with
  | nil =>
      simp [littleEndian]
  | cons b bytes ih =>
      have low := b.toNat_lt
      simp only [littleEndian, List.foldr_cons, List.length_cons, Nat.pow_succ] at ih ⊢
      omega

theorem lengthWidth_le
    (op : UInt8) :
    lengthWidth op ≤ 4 := by
  unfold lengthWidth
  split
  · decide
  · split
    · decide
    · split <;> decide

/-- No announcement reaches the size limit. -/
theorem Announces.size_lt
    {op : UInt8}
    {field : List UInt8}
    {size : Nat}
    (announced : Announces op field size) :
    size < 2 ^ 32 := by
  have read := announced.reads 0 []
  simp only [readLength] at read
  split at read
  · simp only [Except.ok.injEq, Prod.mk.injEq] at read
    have := op.toNat_lt
    omega
  · have all := take_append 0 field []
    rw [announced.width] at all
    rw [all] at read
    simp only [Except.ok.injEq, Prod.mk.injEq] at read
    have value := littleEndian_lt field
    have power : 256 ^ field.length ≤ 256 ^ 4 := by
      apply Nat.pow_le_pow_right (by decide)
      rw [announced.width]
      exact lengthWidth_le op
    omega

end Raw
end ScriptCodec
