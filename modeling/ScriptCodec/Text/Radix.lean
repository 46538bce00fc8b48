/-!
# Positional numerals

Digits of a number in any base, most significant first and without leading zeros, and the number
that digits denote.  `ofDigits_toDigits` states that the second undoes the first.
-/

namespace ScriptCodec
namespace Radix

/-- The number that digits in `base` denote. -/
def ofDigits (base : Nat) (digits : List Nat) : Nat :=
  digits.foldl (fun n d => n * base + d) 0

/-- Puts the digits of `n` in front of `after`. -/
def toDigitsOnto (base : Nat) (h : 1 < base) (after : List Nat) (n : Nat) : List Nat :=
  if _pos : n = 0 then after
  else toDigitsOnto base h (n % base :: after) (n / base)
termination_by n
decreasing_by exact Nat.div_lt_self (Nat.pos_of_ne_zero _pos) h

/-- The digits of `n` in `base`; zero has none. -/
def toDigits (base : Nat) (h : 1 < base) (n : Nat) : List Nat :=
  toDigitsOnto base h [] n

theorem foldl_toDigitsOnto
    (base : Nat)
    (h : 1 < base)
    (after : List Nat)
    (n : Nat) :
    ofDigits base (toDigitsOnto base h after n) =
      after.foldl (fun n d => n * base + d) n := by
  induction n using Nat.strongRecOn generalizing after with
  | _ n ih =>
    unfold toDigitsOnto
    split
    · next zero => rw [zero, ofDigits]
    · next pos =>
      rw [ih (n / base) (Nat.div_lt_self (Nat.pos_of_ne_zero pos) h)]
      simp only [List.foldl_cons]
      rw [Nat.mul_comm, Nat.div_add_mod]

/-- The digits of a number denote it. -/
theorem ofDigits_toDigits
    (base : Nat)
    (h : 1 < base)
    (n : Nat) :
    ofDigits base (toDigits base h n) = n := by
  rw [toDigits, foldl_toDigitsOnto]
  rfl

end Radix
end ScriptCodec
