import ScriptCodec.Proofs.Script.Carrying
import ScriptCodec.Proofs.Script.Plain

/-!
# Redeeming scripts

A script that is one literal may hold another script.  Wrapping the bytes of a script into a literal
and redeeming the literal gives the script back in canonical form.  What is redeemed is shorter than
the literal that held it, so that redeeming over and over ends, however deep scripts are nested.

* `redeem?_wrapped` takes a script out of its wrapping;
* `redeemBound_lt` is the measure that one step lowers, and `redeemTimes_eq_none` bounds the steps
  of a whole run by it;
* `redeeming_ends` puts these results together.
-/

namespace ScriptCodec
namespace Script

variable {s redeemed : Script}

/-! ## One step -/

/-- A script is redeemed from a literal that holds its bytes. -/
theorem redeem?_wrapped
    {ts : List Token}
    (encodable : ∀ t ∈ ts, t.Encodable table) :
    ∃ bytes,
      toBytes ⟨ts⟩ = .ok bytes ∧
      redeem? ⟨[.literal bytes]⟩ = some (canonical ⟨ts⟩) := by
  obtain ⟨bytes, written, read⟩ := exists_toBytes (s := ⟨ts⟩) encodable
  exact ⟨bytes, written, redeem?_eq_some_iff.mpr ⟨bytes, rfl, read⟩⟩

/-- A redeem script has been read from the only literal of the script. -/
theorem redeem?_eq_some_iff_decode :
    s.redeem? = some redeemed ↔
      ∃ data, s.tokens = [.literal data] ∧ Raw.decode data table = .ok redeemed.tokens := by
  simp only [redeem?_eq_some_iff, ofBytes, map_mk_eq_ok_iff]

/-- Every literal of a redeem script is shorter than the literal that held it. -/
theorem exists_literal_of_redeem?
    {inner : List UInt8}
    (found : s.redeem? = some redeemed)
    (mem : .literal inner ∈ redeemed.tokens) :
    ∃ outer, s.tokens = [.literal outer] ∧ inner.length < outer.length := by
  obtain ⟨outer, only, read⟩ := redeem?_eq_some_iff_decode.mp found
  exact ⟨outer, only, Raw.length_lt_of_decode read mem⟩

/-! ## Many steps -/

/-- How often a script can be redeemed, at most: once more than the bytes of its only literal. -/
def redeemBound
    (s : Script) :
    Nat :=
  match s.tokens with
  | [.literal data] => data.length + 1
  | _ => 0

theorem redeemBound_literal
    {data : List UInt8}
    (only : s.tokens = [.literal data]) :
    s.redeemBound = data.length + 1 := by
  rw [redeemBound, only]

/-- Redeeming lowers the bound. -/
theorem redeemBound_lt
    (found : s.redeem? = some redeemed) :
    redeemed.redeemBound < s.redeemBound := by
  obtain ⟨outer, only, _⟩ := redeem?_eq_some_iff.mp found
  rw [redeemBound_literal only]
  unfold redeemBound
  split
  · next inner only' =>
      have mem : .literal inner ∈ redeemed.tokens := by
        simp [only']
      obtain ⟨outer', same, shorter⟩ := exists_literal_of_redeem? found mem
      rw [only] at same
      cases same
      omega
  · exact Nat.zero_lt_succ _

/-- The script that is found by redeeming as often as is said, if there is one. -/
def redeemTimes : Nat → Script → Option Script
  | 0, s => some s
  | n + 1, s => s.redeem?.bind (redeemTimes n)

/-- A script cannot be redeemed more often than its bound says. -/
theorem redeemTimes_eq_none
    {n : Nat}
    (more : s.redeemBound < n) :
    redeemTimes n s = none := by
  induction n generalizing s with
  | zero =>
      exact absurd more (Nat.not_lt_zero _)
  | succ n ih =>
      cases found : s.redeem? with
      | none =>
          simp [redeemTimes, found]
      | some redeemed =>
          have fewer := redeemBound_lt found
          rw [redeemTimes, found, Option.bind_some]
          exact ih (by omega)

/-- The size of the first literal of a script. -/
def firstSize
    (s : Script) :
    Nat :=
  ((s.tokens.findSome? Token.data?).map List.length).getD 0

theorem redeemBound_le
    (s : Script) :
    s.redeemBound ≤ s.firstSize + 1 := by
  unfold redeemBound
  split
  · next data only =>
      simp [firstSize, only, Token.data?]
  · exact Nat.zero_le _

/-- **Redeeming undoes wrapping and ends.**  From a literal with the bytes of a script, the script is
redeemed in canonical form.  A script has a redeem script exactly if it is one literal that is read
as this script; a single literal in its place is shorter.  So redeeming over and over stops after
at most two steps more than the first literal has bytes. -/
theorem redeeming_ends :
    (∀ ts : List Token, (∀ t ∈ ts, t.Encodable table) →
      ∃ bytes,
        toBytes ⟨ts⟩ = .ok bytes ∧
        redeem? ⟨[.literal bytes]⟩ = some ⟨canonicalTokens ts⟩) ∧
    (∀ s redeemed : Script,
      s.redeem? = some redeemed ↔
        ∃ data, s.tokens = [.literal data] ∧ Raw.decode data table = .ok redeemed.tokens) ∧
    (∀ (s redeemed : Script) (inner : List UInt8),
      s.redeem? = some redeemed →
      redeemed.tokens = [.literal inner] →
      ∃ outer, s.tokens = [.literal outer] ∧ inner.length < outer.length) ∧
    ∀ (s : Script) (n : Nat), s.firstSize + 2 ≤ n → redeemTimes n s = none := by
  refine ⟨fun _ => redeem?_wrapped, fun _ _ => redeem?_eq_some_iff_decode, ?_, ?_⟩
  · intro s redeemed inner found only
    exact exists_literal_of_redeem? found (by simp [only])
  · intro s n enough
    have bound := s.redeemBound_le
    exact redeemTimes_eq_none (by omega)

end Script
end ScriptCodec
