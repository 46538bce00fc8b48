import Mathlib.Data.List.TakeWhile
import Mathlib.Data.Nat.Digits.Lemmas
import ScriptCodec.Text.Radix

/-!
# Laws of positional numerals

`toDigits_eq` and `ofDigits_eq` identify numerals with the digit lists of the library, which have
the least significant digit first, and carry their laws over.

A byte string is more than a number: zeros in front of it count.  `rebase` changes the base of a
numeral and keeps its leading zeros, and `rebase_rebase` says that nothing is lost.  How long the
numeral becomes is bounded by `two_mul_length_rebase_le`.
-/

namespace ScriptCodec
namespace Radix

variable {base : Nat} {digits : List Nat}

theorem ofDigits_append_singleton
    (base : Nat)
    (digits : List Nat)
    (d : Nat) :
    ofDigits base (digits ++ [d]) = ofDigits base digits * base + d := by
  rw [ofDigits, List.foldl_append]
  rfl

/-- A numeral denotes what the digits of the library denote, the other way round. -/
theorem ofDigits_eq
    (base : Nat)
    (digits : List Nat) :
    ofDigits base digits = Nat.ofDigits base digits.reverse := by
  induction digits using List.reverseRecOn with
  | nil =>
      rfl
  | append_singleton digits d ih =>
      rw [ofDigits_append_singleton, ih, List.reverse_append, List.reverse_singleton,
        List.singleton_append, Nat.ofDigits_cons, Nat.mul_comm, Nat.add_comm]

/-- The numeral of a number has the digits of the library, the other way round. -/
theorem toDigits_eq
    (base : Nat)
    (h : 1 < base)
    (n : Nat) :
    toDigits base h n = (Nat.digits base n).reverse := by
  have general : ∀ after, toDigitsOnto base h after n = (Nat.digits base n).reverse ++ after := by
    induction n using Nat.strongRecOn with
    | _ n ih =>
        intro after
        unfold toDigitsOnto
        split
        · next zero =>
            simp [zero]
        · next pos =>
            rw [ih (n / base) (Nat.div_lt_self (Nat.pos_of_ne_zero pos) h),
              Nat.digits_eq_cons_digits_div h pos, List.reverse_cons, List.append_assoc,
              List.singleton_append]
  rw [toDigits, general, List.append_nil]

theorem lt_of_mem_toDigits
    {h : 1 < base}
    {n d : Nat}
    (mem : d ∈ toDigits base h n) :
    d < base := by
  rw [toDigits_eq, List.mem_reverse] at mem
  exact Nat.digits_lt_base h mem

/-- A numeral without leading zeros is the numeral of what it denotes. -/
theorem toDigits_ofDigits
    (h : 1 < base)
    (fits : ∀ d ∈ digits, d < base)
    (first : ∀ d ∈ digits.head?, d ≠ 0) :
    toDigits base h (ofDigits base digits) = digits := by
  have last : ∀ nonempty : digits.reverse ≠ [], digits.reverse.getLast nonempty ≠ 0 := by
    intro nonempty
    apply first
    rw [Option.mem_def, ← List.getLast?_reverse, List.getLast?_eq_some_getLast nonempty]
  rw [toDigits_eq, ofDigits_eq, Nat.digits_ofDigits base h _ (by simpa using fits) last,
    List.reverse_reverse]

theorem head?_toDigits_ne_zero
    {h : 1 < base}
    {n : Nat} :
    ∀ d ∈ (toDigits base h n).head?, d ≠ 0 := by
  intro d mem
  rw [toDigits_eq, List.head?_reverse] at mem
  have nonempty : Nat.digits base n ≠ [] := by
    intro empty
    simp [empty] at mem
  rw [List.getLast?_eq_some_getLast nonempty, Option.mem_def, Option.some.injEq] at mem
  rw [← mem]
  exact Nat.getLast_digit_ne_zero base (Nat.digits_ne_nil_iff_ne_zero.mp nonempty)

/-- The first digit of a number with `k + 1` digits. -/
theorem head?_toDigits
    {h : 1 < base}
    {n k : Nat}
    (low : base ^ k ≤ n)
    (high : n < base ^ (k + 1)) :
    (toDigits base h n).head? = some (n / base ^ k) := by
  have size : (Nat.digits base n).length = k + 1 := by
    have atMost := (Nat.digits_length_le_iff h n).mpr high
    have more := (Nat.lt_digits_length_iff h n).mpr low
    omega
  have small : n / base ^ k < base := by
    apply Nat.div_lt_of_lt_mul
    rwa [← Nat.pow_succ]
  have digit := Nat.getD_digits n k h
  rw [Nat.mod_eq_of_lt small] at digit
  rw [toDigits_eq, List.head?_reverse, List.getLast?_eq_getElem?, size, Nat.add_sub_cancel,
    ← digit, List.getD_eq_getElem?_getD, List.getElem?_eq_getElem (by omega), Option.getD_some]

theorem ofDigits_lt
    (h : 1 < base)
    (fits : ∀ d ∈ digits, d < base) :
    ofDigits base digits < base ^ digits.length := by
  have bound := Nat.ofDigits_lt_base_pow_length h (l := digits.reverse) (by simpa using fits)
  rwa [← ofDigits_eq, List.length_reverse] at bound

/-- Numerals with the same number of digits that denote the same number are the same. -/
theorem eq_of_ofDigits_eq
    (h : 1 < base)
    {digits' : List Nat}
    (size : digits.length = digits'.length)
    (fits : ∀ d ∈ digits, d < base)
    (fits' : ∀ d ∈ digits', d < base)
    (same : ofDigits base digits = ofDigits base digits') :
    digits = digits' := by
  rw [ofDigits_eq, ofDigits_eq] at same
  apply List.reverse_injective
  apply Nat.ofDigits_inj_of_len_eq h _ _ _ same
  · simpa using size
  · simpa using fits
  · simpa using fits'

/-- A numeral lies between the multiples of a power that its first digit names. -/
theorem ofDigits_cons_bounds
    (h : 1 < base)
    (d : Nat)
    (fits : ∀ d' ∈ digits, d' < base) :
    d * base ^ digits.length ≤ ofDigits base (d :: digits) ∧
    ofDigits base (d :: digits) < (d + 1) * base ^ digits.length := by
  have tail := ofDigits_lt h fits
  have whole : ofDigits base (d :: digits) = ofDigits base digits + d * base ^ digits.length := by
    rw [ofDigits_eq, Nat.ofDigits_reverse_cons, ← ofDigits_eq, Nat.mul_comm]
  constructor
  · omega
  · rw [whole, Nat.add_mul, Nat.one_mul]
    omega

/-! ## Leading zeros -/

/-- The numeral in another base, with as many leading zeros. -/
def rebase
    (source target : Nat)
    (h : 1 < target)
    (digits : List Nat) :
    List Nat :=
  List.replicate (digits.takeWhile (· == 0)).length 0 ++
    toDigits target h (ofDigits source digits)

theorem ofDigits_zeros_append
    (base k : Nat)
    (digits : List Nat) :
    ofDigits base (List.replicate k 0 ++ digits) = ofDigits base digits := by
  rw [ofDigits_eq, ofDigits_eq, List.reverse_append, List.reverse_replicate,
    Nat.ofDigits_append_replicate_zero]

theorem takeWhile_zero_eq
    (digits : List Nat) :
    digits.takeWhile (· == 0) = List.replicate (digits.takeWhile (· == 0)).length 0 := by
  apply List.eq_replicate_of_mem
  intro d mem
  simpa using List.mem_takeWhile_imp mem

/-- A numeral is its leading zeros and the numeral of what it denotes. -/
theorem zeros_append_toDigits
    (h : 1 < base)
    (fits : ∀ d ∈ digits, d < base) :
    List.replicate (digits.takeWhile (· == 0)).length 0 ++
      toDigits base h (ofDigits base digits) = digits := by
  have parts := List.takeWhile_append_dropWhile (p := (· == 0)) (l := digits)
  have zeros := takeWhile_zero_eq digits
  have value : ofDigits base digits = ofDigits base (digits.dropWhile (· == 0)) := by
    conv_lhs => rw [← parts, zeros]
    exact ofDigits_zeros_append _ _ _
  have first : ∀ d ∈ (digits.dropWhile (· == 0)).head?, d ≠ 0 := by
    intro d mem
    have stops := List.head?_dropWhile_not (· == 0) digits
    rw [Option.mem_def.mp mem] at stops
    simpa using stops
  have rest : ∀ d ∈ digits.dropWhile (· == 0), d < base :=
    fun d mem => fits d (List.dropWhile_subset _ mem)
  rw [value, toDigits_ofDigits h rest first, ← zeros, parts]

/-- Changing the base keeps the leading zeros. -/
theorem takeWhile_rebase
    (source : Nat)
    (h : 1 < base)
    (digits : List Nat) :
    (rebase source base h digits).takeWhile (· == 0) =
      List.replicate (digits.takeWhile (· == 0)).length 0 := by
  rw [rebase, List.takeWhile_append_of_pos (by simp)]
  have first := head?_toDigits_ne_zero (h := h) (n := ofDigits source digits)
  cases number : toDigits base h (ofDigits source digits) with
  | nil =>
      simp
  | cons d rest =>
      rw [number] at first
      rw [List.takeWhile_cons_of_neg (by simpa using first d rfl), List.append_nil]

/-- Changing the base and changing it back gives the same numeral. -/
theorem rebase_rebase
    {source target : Nat}
    (h : 1 < source)
    (h' : 1 < target)
    (fits : ∀ d ∈ digits, d < source) :
    rebase target source h (rebase source target h' digits) = digits := by
  have zeros := takeWhile_rebase source h' digits
  have value : ofDigits target (rebase source target h' digits) = ofDigits source digits := by
    rw [rebase, ofDigits_zeros_append, ofDigits_toDigits]
  rw [rebase, zeros, List.length_replicate, value, zeros_append_toDigits h fits]

/-- The digits of a numeral in another base. -/
theorem lt_of_mem_rebase
    {source target : Nat}
    {h : 1 < target}
    {d : Nat}
    (mem : d ∈ rebase source target h digits) :
    d < target := by
  rcases List.mem_append.mp mem with mem | mem
  · rw [List.eq_of_mem_replicate mem]
    omega
  · exact lt_of_mem_toDigits mem

/-- If three digits of one base are worth two of another, so are half as many again, rounded up. -/
theorem pow_le_pow_of_sq_le_cube
    {source target : Nat}
    (h : 1 < target)
    (worth : source ^ 2 ≤ target ^ 3)
    (m : Nat) :
    source ^ m ≤ target ^ ((3 * m + 1) / 2) := by
  apply (Nat.pow_le_pow_iff_left (by decide : 2 ≠ 0)).mp
  calc
    (source ^ m) ^ 2 = (source ^ 2) ^ m := by
      rw [← Nat.pow_mul, ← Nat.pow_mul, Nat.mul_comm]
    _ ≤ (target ^ 3) ^ m := Nat.pow_le_pow_left worth _
    _ = target ^ (3 * m) := by rw [← Nat.pow_mul]
    _ ≤ target ^ ((3 * m + 1) / 2 * 2) :=
      Nat.pow_le_pow_right (Nat.zero_lt_of_lt h) (by omega)
    _ = (target ^ ((3 * m + 1) / 2)) ^ 2 := Nat.pow_mul _ _ _

/-- If three digits of the target base are worth two of the source base, changing the base makes a
numeral at most half as long again. -/
theorem two_mul_length_rebase_le
    {source target : Nat}
    (h : 1 < source)
    (h' : 1 < target)
    (worth : source ^ 2 ≤ target ^ 3)
    (fits : ∀ d ∈ digits, d < source) :
    2 * (rebase source target h' digits).length ≤ 3 * digits.length + 1 := by
  have parts := List.takeWhile_append_dropWhile (p := (· == 0)) (l := digits)
  have zeros := takeWhile_zero_eq digits
  generalize front_eq : (digits.takeWhile (· == 0)).length = z at zeros
  generalize digits.dropWhile (· == 0) = rest at parts
  have value : ofDigits source digits = ofDigits source rest := by
    rw [← parts, zeros, ofDigits_zeros_append]
  have size : digits.length = z + rest.length := by
    rw [← parts, List.length_append, front_eq]
  have fits' : ∀ d ∈ rest, d < source := by
    intro d mem
    apply fits
    rw [← parts]
    exact List.mem_append_right _ mem
  have below : ofDigits source rest < target ^ ((3 * rest.length + 1) / 2) :=
    Nat.lt_of_lt_of_le (ofDigits_lt h fits') (pow_le_pow_of_sq_le_cube h' worth _)
  have few : (toDigits target h' (ofDigits source digits)).length ≤ (3 * rest.length + 1) / 2 := by
    rw [value, toDigits_eq, List.length_reverse]
    exact (Nat.digits_length_le_iff h' _).mpr below
  rw [rebase, front_eq, List.length_append, List.length_replicate]
  omega

end Radix
end ScriptCodec
