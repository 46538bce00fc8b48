import ScriptCodec.Address
import ScriptCodec.Proofs.Text.LetterCase

/-!
# The prefix of an address

The prefix of an address ends at its last separator.  `hrpOf_append` says which part that is, and
`sameHrp_iff` says that comparing sizes first and characters as far as both texts reach is the same
as comparing the texts with their letters in lower case.  `sameHrp_iff_and_sameHrp_hrpOf` puts the
two together: an address agrees with the human-readable part it was made from.
-/

namespace ScriptCodec

/-! ## The last separator -/

namespace Bech32

theorem ne_separator
    {text : List Char}
    (none_there : '1' ∉ text) :
    ∀ c ∈ text.reverse, (c != '1') = true := by
  intro c mem
  rw [bne_iff_ne]
  rintro rfl
  exact none_there (List.mem_reverse.mp mem)

/-- A text is split at its last separator. -/
theorem splitLast_append
    (front : List Char)
    {back : List Char}
    (last : '1' ∉ back) :
    splitLast (front ++ '1' :: back) = (some front, back) := by
  have stop := ne_separator last
  have reversed : (front ++ '1' :: back).reverse = back.reverse ++ '1' :: front.reverse := by
    simp
  simp only [splitLast, reversed, List.takeWhile_append_of_pos stop,
    List.dropWhile_append_of_pos stop]
  simp

/-- A text without a separator is not split. -/
theorem splitLast_of_not_mem
    {text : List Char}
    (none_there : '1' ∉ text) :
    splitLast text = (none, text) := by
  have taken := List.takeWhile_eq_self_iff.mpr (ne_separator none_there)
  have dropped := List.dropWhile_eq_nil_iff.mpr (ne_separator none_there)
  simp only [splitLast, taken, dropped, List.reverse_reverse]

/-- Every text with a separator has a last one. -/
theorem exists_last_separator
    {text : List Char}
    (mem : '1' ∈ text) :
    ∃ front back, text = front ++ '1' :: back ∧ '1' ∉ back := by
  obtain ⟨back, front, reversed, first⟩ := List.eq_append_cons_of_mem (List.mem_reverse.mpr mem)
  refine ⟨front.reverse, back.reverse, ?_, by simpa using first⟩
  rw [← List.reverse_reverse text, reversed]
  simp

/-- A text that is split is what stands before the separator and what follows it. -/
theorem eq_append_of_splitLast
    {text front : List Char}
    (split : (splitLast text).1 = some front) :
    text = front ++ '1' :: (splitLast text).2 := by
  by_cases mem : '1' ∈ text
  · obtain ⟨front', back, rfl, last⟩ := exists_last_separator mem
    rw [splitLast_append front' last] at split ⊢
    cases split
    rfl
  · rw [splitLast_of_not_mem mem] at split
    cases split

end Bech32

namespace Address

/-- The prefix ends at the last separator. -/
theorem hrpOf_append
    (front : List Char)
    {back : List Char}
    (last : '1' ∉ back) :
    hrpOf (front ++ '1' :: back) = front := by
  rw [hrpOf, Bech32.splitLast_append front last]
  rfl

/-- Without a separator all of the address is its prefix. -/
theorem hrpOf_of_not_mem
    {address : List Char}
    (none_there : '1' ∉ address) :
    hrpOf address = address := by
  rw [hrpOf, Bech32.splitLast_of_not_mem none_there]
  rfl

theorem hrpOf_prefix
    (address : List Char) :
    hrpOf address <+: address := by
  by_cases mem : '1' ∈ address
  · obtain ⟨front, back, rfl, last⟩ := Bech32.exists_last_separator mem
    rw [hrpOf_append front last]
    exact List.prefix_append front _
  · rw [hrpOf_of_not_mem mem]

/-- An address that starts otherwise than a prefix does not have that prefix. -/
theorem hrpOf_ne_of_head?
    {address hrp : List Char}
    {a b : Char}
    (first : address.head? = some a)
    (first' : hrp.head? = some b)
    (other : a.toLower ≠ b.toLower) :
    (hrpOf address).map Char.toLower ≠ hrp.map Char.toLower := by
  intro same
  have heads := congrArg List.head? same
  rw [List.head?_map, List.head?_map, first'] at heads
  obtain ⟨tail, split⟩ := hrpOf_prefix address
  cases part : hrpOf address with
  | nil =>
      simp [part] at heads
  | cons c rest =>
      rw [← split, part] at first
      rw [part] at heads
      simp only [List.cons_append, List.head?_cons, Option.some.injEq] at first
      simp only [List.head?_cons, Option.map_some, Option.some.injEq] at heads
      exact other (by rw [← first, heads])

/-! ## Comparing prefixes -/

/-- Of two texts of one size, agreement as far as both reach is agreement of the whole. -/
theorem sum_eq_and_all_zip_iff
    {as bs : List Char} :
    ((as.map Char.utf8Size).sum = (bs.map Char.utf8Size).sum ∧
      ((as.zip bs).all fun (x, y) => x.toLower == y.toLower) = true) ↔
    as.map Char.toLower = bs.map Char.toLower := by
  induction as generalizing bs with
  | nil =>
      cases bs with
      | nil =>
          simp
      | cons b bs =>
          have pos := b.utf8Size_pos
          simp
          omega
  | cons a as ih =>
      cases bs with
      | nil =>
          have pos := a.utf8Size_pos
          simp
          omega
      | cons b bs =>
          simp only [List.map_cons, List.sum_cons, List.zip_cons_cons, List.all_cons,
            Bool.and_eq_true, beq_iff_eq, List.cons.injEq, ← ih]
          constructor
          · rintro ⟨sizes, same, each⟩
            have size : a.utf8Size = b.utf8Size := by
              rw [← utf8Size_toLower a, same, utf8Size_toLower]
            exact ⟨same, by omega, each⟩
          · rintro ⟨same, sizes, each⟩
            have size : a.utf8Size = b.utf8Size := by
              rw [← utf8Size_toLower a, same, utf8Size_toLower]
            exact ⟨by omega, same, each⟩

/-- Prefixes agree exactly if they are the same text in lower case. -/
theorem sameHrp_iff
    {a b : String} :
    sameHrp a b = true ↔ a.toList.map Char.toLower = b.toList.map Char.toLower := by
  rw [sameHrp, Bool.and_eq_true, beq_iff_eq, utf8ByteSize_eq_sum, utf8ByteSize_eq_sum]
  exact sum_eq_and_all_zip_iff

/-- **Prefixes of addresses**: texts of any characters agree as prefixes exactly if they are the
same text in lower case, and an address that is put together from a human-readable part, a separator
and data without a separator has that part as its prefix, valid or not, with separators in it or
without. -/
theorem sameHrp_iff_and_sameHrp_hrpOf :
    (∀ a b : String, sameHrp a b = true ↔ a.toLower = b.toLower) ∧
    ∀ hrp data : String,
      '1' ∉ data.toList →
      sameHrp (String.ofList (hrpOf (hrp ++ "1" ++ data).toList)) hrp = true := by
  constructor
  · intro a b
    rw [sameHrp_iff, ← toList_toLower, ← toList_toLower, String.toList_inj]
  · intro hrp data last
    have address : (hrp ++ "1" ++ data).toList = hrp.toList ++ '1' :: data.toList := by
      simp
    rw [address, hrpOf_append hrp.toList last, String.ofList_toList, sameHrp_iff]

/-- A human-readable part that has separators of its own, with an address that repeats them. -/
theorem sameHrp_iff_and_sameHrp_hrpOf_separators :
    '1' ∉ "qqqqqq".toList ∧
    sameHrp (String.ofList (hrpOf ("a1b1" ++ "1" ++ "qqqqqq").toList)) "a1b1" = true :=
  ⟨by decide, sameHrp_iff_and_sameHrp_hrpOf.2 "a1b1" "qqqqqq" (by decide)⟩

/-- Two bytes are not enough to agree: one character against two. -/
example : sameHrp "\u00e9" "ab" = false := by
  decide

end Address
end ScriptCodec
