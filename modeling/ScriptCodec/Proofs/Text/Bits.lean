import Mathlib.Algebra.Group.Nat.Defs
import ScriptCodec.Text.Bits

/-!
# Laws of bit strings

A bit string is the numeral of a number: `toNat_append` splits numerals and `ofNat_toNat` goes back
from the number to the bits.  Cutting a bit string into groups loses nothing, which is `join_cut`,
and groups that are joined are cut again, which is `cut_join`.

The consequences that carry bytes in narrower groups are `join_paddedGroups`, and
`toBytes_ofBytes_append` for the way back.  Other groups can hold the same bytes:
`paddedGroups_toBytes_iff` tells those that are written from the others by the bits that are left
over.
-/

namespace ScriptCodec
namespace Bits

/-! ## Numerals -/

theorem toNat_append
    (front back : List Bool) :
    toNat (front ++ back) = toNat front * 2 ^ back.length + toNat back := by
  have general : ∀ start,
      back.foldl (fun n b => 2 * n + b.toNat) start = start * 2 ^ back.length + toNat back := by
    induction back with
    | nil =>
        intro start
        simp [toNat]
    | cons b back ih =>
        intro start
        simp only [toNat, List.foldl_cons, List.length_cons]
        rw [ih, ih (2 * 0 + b.toNat), Nat.pow_succ, Nat.add_mul, Nat.mul_zero, Nat.zero_add,
          Nat.mul_comm 2 start, Nat.mul_assoc, Nat.mul_comm 2 (2 ^ back.length), Nat.add_assoc]
  rw [toNat, List.foldl_append]
  exact general _

theorem toNat_cons
    (b : Bool)
    (bits : List Bool) :
    toNat (b :: bits) = 2 ^ bits.length * b.toNat + toNat bits := by
  have split := toNat_append [b] bits
  simpa [toNat, Nat.mul_comm] using split

theorem toNat_lt
    (bits : List Bool) :
    toNat bits < 2 ^ bits.length := by
  induction bits with
  | nil =>
      decide
  | cons b bits ih =>
      rw [toNat_cons, List.length_cons, Nat.pow_succ]
      cases b with
      | false =>
          simp only [Bool.toNat_false]
          omega
      | true =>
          simp only [Bool.toNat_true]
          omega

@[simp] theorem toNat_replicate_false
    (k : Nat) :
    toNat (List.replicate k false) = 0 := by
  induction k with
  | zero =>
      rfl
  | succ k ih =>
      rw [List.replicate_succ, toNat_cons, ih]
      simp

/-- The bits of a number denote it, as far as it fits. -/
theorem toNat_ofNat
    (width n : Nat)
    (fits : n < 2 ^ width) :
    toNat (ofNat width n) = n := by
  have low : toNat (ofNat width n) = n % 2 ^ width := by
    clear fits
    induction width with
    | zero =>
        simp [ofNat, toNat, Nat.mod_one]
    | succ w ih =>
        have bit : (n.testBit w).toNat = n / 2 ^ w % 2 := by
          rw [Nat.testBit_eq_decide_div_mod_eq]
          rcases Nat.mod_two_eq_zero_or_one (n / 2 ^ w) with even | odd
          · simp [even]
          · simp [odd]
        rw [ofNat, toNat_cons, length_ofNat, bit, ih, Nat.pow_succ, Nat.mod_mul, Nat.add_comm]
  rw [low, Nat.mod_eq_of_lt fits]

/-- Only the low bits of a number matter. -/
theorem ofNat_two_pow_mul_add
    {v w : Nat}
    (le : v ≤ w)
    (high : Nat)
    {low : Nat}
    (small : low < 2 ^ w) :
    ofNat v (2 ^ w * high + low) = ofNat v low := by
  induction v with
  | zero =>
      rfl
  | succ v ih =>
      have inside : v < w := by
        omega
      rw [ofNat, ofNat, ih (Nat.le_of_lt inside), Nat.testBit_two_pow_mul_add high small,
        if_pos inside]

/-- The numeral of a number gives the bits back. -/
theorem ofNat_toNat
    (bits : List Bool) :
    ofNat bits.length (toNat bits) = bits := by
  induction bits with
  | nil =>
      rfl
  | cons b bits ih =>
      have small := toNat_lt bits
      rw [toNat_cons, List.length_cons, ofNat, ofNat_two_pow_mul_add (Nat.le_refl _) _ small, ih,
        Nat.testBit_two_pow_mul_add _ small, if_neg (Nat.lt_irrefl _), Nat.sub_self]
      cases b with
      | false =>
          rfl
      | true =>
          rfl

/-! ## Groups -/

theorem join_cons
    (width group : Nat)
    (groups : List Nat) :
    join width (group :: groups) = ofNat width group ++ join width groups := by
  rfl

theorem join_append
    (width : Nat)
    (front back : List Nat) :
    join width (front ++ back) = join width front ++ join width back :=
  List.flatMap_append

@[simp] theorem length_join
    (width : Nat)
    (groups : List Nat) :
    (join width groups).length = groups.length * width := by
  induction groups with
  | nil =>
      simp [join]
  | cons group groups ih =>
      rw [join_cons, List.length_append, length_ofNat, ih, List.length_cons, Nat.add_mul,
        Nat.one_mul, Nat.add_comm]

/-- What was cut before stays in front. -/
theorem cutOnto_eq
    (width : Nat)
    (cut : List Nat)
    (count : Nat)
    (bits : List Bool) :
    cutOnto width cut count bits = cut.reverse ++ cutOnto width [] count bits := by
  induction count generalizing cut bits with
  | zero =>
      simp [cutOnto]
  | succ k ih =>
      rw [cutOnto, cutOnto, ih, ih [_]]
      simp

theorem cutOnto_succ
    (width k : Nat)
    (bits : List Bool) :
    cutOnto width [] (k + 1) bits =
      toNat (bits.take width) :: cutOnto width [] k (bits.drop width) := by
  rw [cutOnto, cutOnto_eq]
  rfl

@[simp] theorem length_cutOnto
    (width count : Nat)
    (bits : List Bool) :
    (cutOnto width [] count bits).length = count := by
  induction count generalizing bits with
  | zero =>
      rfl
  | succ k ih =>
      rw [cutOnto_succ, List.length_cons, ih]

theorem lt_of_mem_cutOnto
    {width count : Nat}
    {bits : List Bool}
    {group : Nat}
    (mem : group ∈ cutOnto width [] count bits) :
    group < 2 ^ width := by
  induction count generalizing bits with
  | zero =>
      simp [cutOnto] at mem
  | succ k ih =>
      rw [cutOnto_succ] at mem
      rcases List.mem_cons.mp mem with rfl | mem
      · apply Nat.lt_of_lt_of_le (toNat_lt _)
        apply Nat.pow_le_pow_right (by decide)
        rw [List.length_take]
        exact Nat.min_le_left _ _
      · exact ih mem

/-- A bit string of whole groups is the join of its groups. -/
theorem join_cut
    {width count : Nat}
    {bits : List Bool}
    (whole : bits.length = count * width) :
    join width (cutOnto width [] count bits) = bits := by
  induction count generalizing bits with
  | zero =>
      rw [Nat.zero_mul, List.length_eq_zero_iff] at whole
      rw [whole]
      rfl
  | succ k ih =>
      rw [Nat.add_mul, Nat.one_mul] at whole
      have first : (bits.take width).length = width := by
        rw [List.length_take]
        omega
      have others : (bits.drop width).length = k * width := by
        rw [List.length_drop]
        omega
      have group := ofNat_toNat (bits.take width)
      rw [first] at group
      rw [cutOnto_succ, join_cons, group, ih others, List.take_append_drop]

/-- Groups that were joined are cut again, whatever follows them. -/
theorem cut_join
    {width : Nat}
    {groups : List Nat}
    (fits : ∀ group ∈ groups, group < 2 ^ width)
    (extra : List Bool) :
    cutOnto width [] groups.length (join width groups ++ extra) = groups := by
  induction groups with
  | nil =>
      rfl
  | cons group groups ih =>
      have size : (ofNat width group).length = width := length_ofNat width group
      rw [List.length_cons, cutOnto_succ, join_cons, List.append_assoc,
        List.take_left' size, List.drop_left' size,
        toNat_ofNat width group (fits group (by simp)),
        ih fun other mem => fits other (List.mem_cons_of_mem _ mem)]

/-! ## Bytes -/

/-- The groups of a bit string are its bits, filled up with zeros. -/
theorem join_paddedGroups
    (width : Nat)
    (pos : 0 < width)
    (bits : List Bool) :
    join width (paddedGroups width bits) =
      bits ++ List.replicate ((paddedGroups width bits).length * width - bits.length) false := by
  have enough : bits.length ≤ (bits.length + width - 1) / width * width := by
    have round := Nat.div_add_mod (bits.length + width - 1) width
    have rest := Nat.mod_lt (bits.length + width - 1) pos
    rw [Nat.mul_comm] at round
    omega
  simp only [paddedGroups, length_cutOnto]
  apply join_cut
  rw [List.length_append, List.length_replicate]
  omega

/-- Bytes are read from their bits, whatever less than a byte follows. -/
theorem toBytes_ofBytes_append
    (bytes : List UInt8)
    {extra : List Bool}
    (short : extra.length < 8) :
    toBytes (ofBytes bytes ++ extra) = bytes := by
  have fits : ∀ group ∈ bytes.map UInt8.toNat, group < 2 ^ 8 := by
    intro group mem
    obtain ⟨b, _, rfl⟩ := List.mem_map.mp mem
    exact b.toNat_lt
  have count : (ofBytes bytes ++ extra).length / 8 = (bytes.map UInt8.toNat).length := by
    rw [ofBytes, List.length_append, length_join]
    omega
  rw [toBytes, wholeGroups, count, ofBytes, cut_join fits, List.map_map]
  simp [Function.comp_def]

theorem length_toBytes
    (bits : List Bool) :
    (toBytes bits).length = bits.length / 8 := by
  rw [toBytes, List.length_map, wholeGroups, length_cutOnto]

/-- The bits behind the last whole group. -/
def leftOver
    (width : Nat)
    (bits : List Bool) :
    List Bool :=
  bits.drop (bits.length / width * width)

/-- The bytes of a bit string have its bits, without those that are left over. -/
theorem ofBytes_toBytes
    (bits : List Bool) :
    ofBytes (toBytes bits) = bits.take (bits.length / 8 * 8) := by
  have numbers : (toBytes bits).map UInt8.toNat = wholeGroups 8 bits := by
    have each : ∀ group ∈ wholeGroups 8 bits,
        (UInt8.toNat ∘ UInt8.ofNat) group = id group := by
      intro group mem
      exact UInt8.toNat_ofNat_of_lt' (lt_of_mem_cutOnto mem)
    rw [toBytes, List.map_map, List.map_congr_left each, List.map_id]
  have whole : (bits.take (bits.length / 8 * 8)).length = bits.length / 8 * 8 := by
    rw [List.length_take, Nat.min_eq_left (Nat.div_mul_le_self _ _)]
  have cut : wholeGroups 8 bits =
      cutOnto 8 [] (bits.length / 8) (bits.take (bits.length / 8 * 8)) := by
    have fits : ∀ group ∈ cutOnto 8 [] (bits.length / 8) (bits.take (bits.length / 8 * 8)),
        group < 2 ^ 8 :=
      fun _ => lt_of_mem_cutOnto
    have again := cut_join fits (bits.drop (bits.length / 8 * 8))
    rw [length_cutOnto, join_cut whole, List.take_append_drop] at again
    exact again
  rw [ofBytes, numbers, cut, join_cut whole]

/-- Groups are those that are written for the bytes they hold exactly if the bits that are left over
are fewer than a group has, and all zero. -/
theorem paddedGroups_toBytes_iff
    {width : Nat}
    (pos : 0 < width)
    {groups : List Nat}
    (fits : ∀ group ∈ groups, group < 2 ^ width) :
    paddedGroups width (ofBytes (toBytes (join width groups))) = groups ↔
      (leftOver 8 (join width groups)).length < width ∧
      ∀ b ∈ leftOver 8 (join width groups), b = false := by
  have size := length_join width groups
  generalize bits_eq : join width groups = bits at *
  have inside : bits.length / 8 * 8 ≤ bits.length :=
    Nat.div_mul_le_self _ _
  have whole : (bits.take (bits.length / 8 * 8)).length = bits.length / 8 * 8 := by
    rw [List.length_take, Nat.min_eq_left inside]
  have split := List.take_append_drop (bits.length / 8 * 8) bits
  rw [ofBytes_toBytes, leftOver, List.length_drop]
  constructor
  · intro same
    have filled := join_paddedGroups width pos (bits.take (bits.length / 8 * 8))
    rw [same, bits_eq, whole, ← size] at filled
    have count := congrArg List.length same
    rw [paddedGroups, length_cutOnto, whole] at count
    have round := Nat.div_mul_le_self (bits.length / 8 * 8 + width - 1) width
    rw [count, ← size] at round
    constructor
    · omega
    · have zeros := List.append_cancel_left (split.trans filled)
      intro b mem
      rw [zeros] at mem
      exact List.eq_of_mem_replicate mem
  · rintro ⟨few, zeros⟩
    have count : (bits.length / 8 * 8 + width - 1) / width = groups.length := by
      apply Nat.div_eq_of_lt_le
      · omega
      · rw [Nat.add_mul, Nat.one_mul]
        omega
    have zeros := List.eq_replicate_of_mem zeros
    rw [List.length_drop] at zeros
    have again := cut_join fits []
    rw [List.append_nil, bits_eq, ← split, zeros] at again
    simp only [paddedGroups, whole, count, ← size]
    exact again

/-- Zeros at the end of joined groups are zeros of the last group. -/
theorem last_group_mod
    {width : Nat}
    {front : List Bool}
    {last : Nat}
    (small : last < 2 ^ width)
    {bits : List Bool}
    {k : Nat}
    (short : k ≤ width)
    (filled : front ++ ofNat width last = bits ++ List.replicate k false) :
    last % 2 ^ k = 0 := by
  have sizes := congrArg List.length filled
  simp only [List.length_append, length_ofNat, List.length_replicate] at sizes
  have inside : front.length ≤ bits.length := by
    omega
  have tail : ofNat width last = bits.drop front.length ++ List.replicate k false := by
    rw [← List.drop_append_of_le_length inside, ← filled, List.drop_left]
  have value := congrArg toNat tail
  rw [toNat_ofNat width last small, toNat_append, toNat_replicate_false,
    List.length_replicate] at value
  rw [value, Nat.add_zero, Nat.mul_mod_left]

/-- The last bits of a number are the bits of its remainder. -/
theorem drop_ofNat
    {width k : Nat}
    (short : k ≤ width)
    (n : Nat) :
    (ofNat width n).drop (width - k) = ofNat k n := by
  induction width with
  | zero =>
      rw [Nat.le_zero.mp short]
      rfl
  | succ w ih =>
      rcases Nat.lt_or_eq_of_le short with shorter | same
      · have inside : w + 1 - k = (w - k) + 1 := by
          omega
        rw [ofNat, inside, List.drop_succ_cons, ih (Nat.le_of_lt_succ shorter)]
      · rw [same, Nat.sub_self, List.drop_zero]

theorem ofNat_zero
    (k : Nat) :
    ofNat k 0 = List.replicate k false := by
  induction k with
  | zero =>
      rfl
  | succ k ih =>
      rw [ofNat, Nat.zero_testBit, ih, List.replicate_succ]

/-- Zeros of the last group are zeros at the end of joined groups. -/
theorem leftOver_join
    {width : Nat}
    {groups : List Nat}
    (short : groups.length * width % 8 ≤ width)
    (zeros : ∀ last ∈ groups.getLast?, last % 2 ^ (groups.length * width % 8) = 0) :
    leftOver 8 (join width groups) = List.replicate (groups.length * width % 8) false := by
  rcases List.eq_nil_or_concat groups with rfl | ⟨init, last, rfl⟩
  · simp [join, leftOver]
  · rw [List.concat_eq_append] at *
    have count : (init ++ [last]).length * width = init.length * width + width := by
      rw [List.length_append, List.length_singleton, Nat.add_mul, Nat.one_mul]
    have zero := zeros last (by simp)
    rw [count] at short zero ⊢
    generalize rest_eq : (init.length * width + width) % 8 = k at short zero ⊢
    have place : (init.length * width + width) / 8 * 8 =
        (join width init).length + (width - k) := by
      rw [length_join]
      omega
    have high : last = 2 ^ k * (last / 2 ^ k) + 0 := by
      rw [← zero, Nat.div_add_mod]
    have single : join width [last] = ofNat width last := by
      simp [join]
    have same := ofNat_two_pow_mul_add (Nat.le_refl k) (last / 2 ^ k) (Nat.two_pow_pos k)
    rw [← high] at same
    rw [leftOver, length_join, count, place, join_append, single, List.drop_append,
      List.drop_eq_nil_of_le (Nat.le_add_right _ _), List.nil_append, Nat.add_sub_cancel_left,
      drop_ofNat short, same, ofNat_zero]

end Bits
end ScriptCodec
