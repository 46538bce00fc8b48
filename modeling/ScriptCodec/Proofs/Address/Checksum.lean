import ScriptCodec.Bech32
import ScriptCodec.Proofs.Text.Radix

/-!
# The bech32 checksum

Taking a group into a residue is linear over exclusive or: `stepResidue_xor`.  Six groups that
follow a text therefore add to its residue the number whose digits they are, and nothing else, which
is `foldl_stepResidue`.  The check groups are the digits of what the residue lacks, so
`residue_checkGroups` finds the constant.
-/

namespace ScriptCodec
namespace Bech32

/-! ## The feedback -/

/-- The remainder that one of the top bits selects. -/
def selected
    (top : UInt32)
    (entry : UInt32 × Nat) :
    UInt32 :=
  if top.toNat.testBit entry.2 then entry.1 else 0

theorem feedback_eq
    (top : UInt32) :
    feedback top = (generators.zipIdx.map (selected top)).foldl (· ^^^ ·) 0 := by
  rfl

theorem selected_xor
    (a b : UInt32)
    (entry : UInt32 × Nat) :
    selected (a ^^^ b) entry = selected a entry ^^^ selected b entry := by
  simp only [selected, UInt32.toNat_xor, Nat.testBit_xor]
  cases a.toNat.testBit entry.2 with
  | false =>
      simp
  | true =>
      cases b.toNat.testBit entry.2 with
      | false =>
          simp
      | true =>
          simp

theorem foldl_selected_xor
    (a b x y : UInt32)
    (entries : List (UInt32 × Nat)) :
    (entries.map (selected (a ^^^ b))).foldl (· ^^^ ·) (x ^^^ y) =
      (entries.map (selected a)).foldl (· ^^^ ·) x ^^^
        (entries.map (selected b)).foldl (· ^^^ ·) y := by
  induction entries generalizing x y with
  | nil =>
      rfl
  | cons entry entries ih =>
      have regroup : x ^^^ y ^^^ (selected a entry ^^^ selected b entry) =
          (x ^^^ selected a entry) ^^^ (y ^^^ selected b entry) := by
        ac_rfl
      simp only [List.map_cons, List.foldl_cons, selected_xor, regroup, ih]

theorem feedback_xor
    (a b : UInt32) :
    feedback (a ^^^ b) = feedback a ^^^ feedback b := by
  have zero : (0 : UInt32) = 0 ^^^ 0 := by
    rfl
  rw [feedback_eq, zero, foldl_selected_xor]
  rfl

theorem foldl_selected_lt
    (top x : UInt32)
    {entries : List (UInt32 × Nat)}
    (fits : ∀ entry ∈ entries, entry.1.toNat < 2 ^ 30)
    (small : x.toNat < 2 ^ 30) :
    ((entries.map (selected top)).foldl (· ^^^ ·) x).toNat < 2 ^ 30 := by
  induction entries generalizing x with
  | nil =>
      exact small
  | cons entry entries ih =>
      apply ih _ fun other mem => fits other (List.mem_cons_of_mem _ mem)
      rw [UInt32.toNat_xor]
      apply Nat.xor_lt_two_pow small
      rw [selected]
      split
      · exact fits entry (by simp)
      · decide

/-! ## One step -/

/-- Taking in a group is linear. -/
theorem stepResidue_xor
    (r s : UInt32)
    (group : Nat) :
    stepResidue (r ^^^ s) group = stepResidue r 0 ^^^ stepResidue s group := by
  have masked : (r ^^^ s) &&& 0x1ffffff = (r &&& 0x1ffffff) ^^^ (s &&& 0x1ffffff) := by
    apply UInt32.toNat_inj.mp
    simp only [UInt32.toNat_and, UInt32.toNat_xor, Nat.and_xor_distrib_right]
  have none_taken : UInt32.ofNat 0 = 0 := by
    rfl
  simp only [stepResidue, masked, UInt32.shiftLeft_xor, UInt32.shiftRight_xor, feedback_xor,
    none_taken, UInt32.xor_zero]
  ac_rfl

theorem toNat_masked
    (r : UInt32) :
    (r &&& 0x1ffffff).toNat = r.toNat % 2 ^ 25 :=
  Nat.and_two_pow_sub_one_eq_mod r.toNat 25

theorem toNat_shifted
    (r : UInt32) :
    ((r &&& 0x1ffffff) <<< 5).toNat = r.toNat % 2 ^ 25 * 32 := by
  have small : r.toNat % 2 ^ 25 < 2 ^ 25 := Nat.mod_lt _ (by decide)
  rw [UInt32.toNat_shiftLeft, toNat_masked]
  simp only [UInt32.reduceToNat, Nat.reduceMod, Nat.shiftLeft_eq]
  omega

theorem toNat_ofNat_of_lt
    {n : Nat}
    (small : n < 2 ^ 30) :
    (UInt32.ofNat n).toNat = n :=
  UInt32.toNat_ofNat_of_lt' (Nat.lt_trans small (by decide))

/-- A digit fills the bits that moving up leaves clear. -/
theorem mul_xor_eq_add
    (n : Nat)
    {group : Nat}
    (fits : group < 32) :
    n * 32 ^^^ group = n * 32 + group := by
  have power : 32 = 2 ^ 5 := by
    rfl
  apply Nat.eq_of_testBit_eq
  intro i
  rw [power] at fits ⊢
  rw [Nat.mul_comm, Nat.testBit_xor, Nat.testBit_two_pow_mul, Nat.testBit_two_pow_mul_add n fits]
  by_cases low : i < 5
  · simp [low, Nat.not_le_of_lt low]
  · have high : group < 2 ^ i :=
      Nat.lt_of_lt_of_le fits (Nat.pow_le_pow_right (by decide) (Nat.le_of_not_lt low))
    simp [low, Nat.le_of_not_lt low, Nat.testBit_lt_two_pow high]

/-- As long as the top bits are clear, taking in a group appends a digit. -/
theorem stepResidue_ofNat
    {n group : Nat}
    (small : n < 2 ^ 25)
    (fits : group < 32) :
    stepResidue (UInt32.ofNat n) group = UInt32.ofNat (n * 32 + group) := by
  have number : (UInt32.ofNat n).toNat = n := toNat_ofNat_of_lt (by omega)
  have top : UInt32.ofNat n >>> 25 = 0 := by
    apply UInt32.toNat_inj.mp
    rw [UInt32.toNat_shiftRight, number]
    simp only [UInt32.reduceToNat, Nat.reduceMod, Nat.shiftRight_eq_div_pow]
    omega
  have shifted : (UInt32.ofNat n &&& 0x1ffffff) <<< 5 = UInt32.ofNat (n * 32) := by
    apply UInt32.toNat_inj.mp
    rw [toNat_shifted, number, toNat_ofNat_of_lt (by omega)]
    omega
  have silent : feedback 0 = 0 := by
    decide
  rw [stepResidue, top, silent, shifted, UInt32.xor_zero, ← UInt32.ofNat_xor,
    mul_xor_eq_add n fits]

/-- A residue has thirty bits. -/
theorem stepResidue_lt
    (r : UInt32)
    {group : Nat}
    (fits : group < 32) :
    (stepResidue r group).toNat < 2 ^ 30 := by
  have shifted : ((r &&& 0x1ffffff) <<< 5).toNat < 2 ^ 30 := by
    rw [toNat_shifted]
    omega
  have taken : (UInt32.ofNat group).toNat < 2 ^ 30 := by
    rw [toNat_ofNat_of_lt (by omega)]
    omega
  have remainders : (feedback (r >>> 25)).toNat < 2 ^ 30 :=
    foldl_selected_lt (r >>> 25) 0 (by decide) (by decide)
  rw [stepResidue, UInt32.toNat_xor, UInt32.toNat_xor]
  exact Nat.xor_lt_two_pow (Nat.xor_lt_two_pow shifted taken) remainders

/-! ## Six check groups -/

/-- Up to six groups that follow add the number that they denote to the residue. -/
theorem foldl_stepResidue
    (r : UInt32)
    {groups : List Nat}
    (fits : ∀ group ∈ groups, group < 32)
    (few : groups.length ≤ 6) :
    groups.foldl stepResidue r =
      (List.replicate groups.length 0).foldl stepResidue r ^^^
        UInt32.ofNat (Radix.ofDigits 32 groups) := by
  -- From the last group on: what was taken in before moves up by one digit.
  induction groups using List.reverseRecOn with
  | nil =>
      simp [Radix.ofDigits]
  | append_singleton groups group ih =>
      have fits' : ∀ other ∈ groups, other < 32 := fun other mem =>
        fits other (List.mem_append_left _ mem)
      have few' : groups.length ≤ 5 := by
        simpa [Nat.lt_succ_iff] using few
      have small : Radix.ofDigits 32 groups < 2 ^ 25 :=
        calc
          Radix.ofDigits 32 groups < 32 ^ groups.length := Radix.ofDigits_lt (by decide) fits'
          _ ≤ 32 ^ 5 := Nat.pow_le_pow_right (by decide) few'
          _ = 2 ^ 25 := by decide
      have zeros : List.replicate (groups ++ [group]).length 0 =
          List.replicate groups.length 0 ++ [0] := by
        simp [List.replicate_succ']
      rw [zeros, List.foldl_append, List.foldl_append, ih fits' (by omega),
        Radix.ofDigits_append_singleton]
      simp only [List.foldl_cons, List.foldl_nil]
      rw [stepResidue_xor, stepResidue_ofNat small (fits group (by simp))]

/-- The six digits of a number of thirty bits denote it. -/
theorem ofDigits_shifts
    {n : Nat}
    (small : n < 2 ^ 30) :
    Radix.ofDigits 32 ([5, 4, 3, 2, 1, 0].map fun i => (n >>> (5 * i)) % 32) = n := by
  simp only [List.map_cons, List.map_nil, Radix.ofDigits, List.foldl_cons, List.foldl_nil,
    Nat.shiftRight_eq_div_pow, Nat.reduceMul, Nat.reducePow]
  omega

theorem lt_of_mem_checkGroups
    {hrp : List Char}
    {groups : List Nat}
    {group : Nat}
    (mem : group ∈ checkGroups hrp groups) :
    group < 32 := by
  obtain ⟨i, _, rfl⟩ := List.mem_map.mp mem
  exact Nat.mod_lt _ (by decide)

@[simp] theorem length_checkGroups
    (hrp : List Char)
    (groups : List Nat) :
    (checkGroups hrp groups).length = 6 := by
  rfl

/-- The check groups are the digits of what the residue lacks. -/
theorem ofDigits_checkGroups
    (hrp : List Char)
    (groups : List Nat) :
    Radix.ofDigits 32 (checkGroups hrp groups) =
      (residue (hrpGroups hrp ++ groups ++ List.replicate 6 0) ^^^ plainConstant).toNat := by
  apply ofDigits_shifts
  rw [UInt32.toNat_xor]
  apply Nat.xor_lt_two_pow
  · have last : List.replicate 6 0 = List.replicate 5 0 ++ [0] := by
      rfl
    rw [residue, last, ← List.append_assoc, List.foldl_append]
    exact stepResidue_lt _ (by decide)
  · decide

/-- The residue of a text with its check groups is the constant. -/
theorem residue_checkGroups
    (hrp : List Char)
    (groups : List Nat) :
    residue (hrpGroups hrp ++ (groups ++ checkGroups hrp groups)) = plainConstant := by
  have number := ofDigits_checkGroups hrp groups
  have sum := foldl_stepResidue (residue (hrpGroups hrp ++ groups))
    (fun _ => lt_of_mem_checkGroups) (Nat.le_of_eq (length_checkGroups hrp groups))
  have zeros : (List.replicate 6 0).foldl stepResidue (residue (hrpGroups hrp ++ groups)) =
      residue (hrpGroups hrp ++ groups ++ List.replicate 6 0) := by
    simp only [residue, List.foldl_append]
  rw [number, UInt32.ofNat_toNat, length_checkGroups, zeros, ← UInt32.xor_assoc,
    UInt32.xor_self, UInt32.zero_xor] at sum
  rw [← List.append_assoc, residue, List.foldl_append]
  exact sum

end Bech32
end ScriptCodec
