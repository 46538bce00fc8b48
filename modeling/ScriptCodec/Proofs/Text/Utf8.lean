import Mathlib.Algebra.GroupWithZero.Nat
import ScriptCodec.Text.Utf8

/-!
# Bytes of texts

A text is determined by its bytes.  Where every character of a text has one byte, the text has as
many bytes as characters, and the bytes are found character by character.
-/

namespace ScriptCodec

/-- The size of a text is the sum of the sizes of its characters. -/
theorem utf8ByteSize_ofList
    (cs : List Char) :
    (String.ofList cs).utf8ByteSize = (cs.map Char.utf8Size).sum := by
  induction cs with
  | nil =>
      rfl
  | cons c cs ih =>
      rw [← List.singleton_append, String.ofList_append, String.utf8ByteSize_append, ih,
        ← String.singleton_eq_ofList, String.utf8ByteSize_singleton, List.map_append,
        List.sum_append]
      simp

theorem utf8ByteSize_eq_sum
    (text : String) :
    text.utf8ByteSize = (text.toList.map Char.utf8Size).sum := by
  rw [← utf8ByteSize_ofList, String.ofList_toList]

/-- The UTF-8 form of an ASCII text has one byte per character. -/
theorem utf8ByteSize_ofList_ascii
    {cs : List Char}
    (ascii : ∀ c ∈ cs, c.utf8Size = 1) :
    (String.ofList cs).utf8ByteSize = cs.length := by
  rw [utf8ByteSize_ofList, List.map_congr_left ascii, List.map_const', List.sum_replicate_nat,
    Nat.mul_one]

theorem utf8Bytes_append
    (front back : String) :
    utf8Bytes (front ++ back) = utf8Bytes front ++ utf8Bytes back := by
  rw [utf8Bytes, String.toList_append, List.flatMap_append]
  rfl

/-- A text is determined by its bytes. -/
theorem eq_of_utf8Bytes_eq
    {text text' : String}
    (same : utf8Bytes text = utf8Bytes text') :
    text = text' := by
  apply String.toByteArray_inj.mp
  rw [← String.utf8Encode_toList, ← String.utf8Encode_toList]
  exact congrArg List.toByteArray same

/-- The bytes of symbols that have one byte each. -/
theorem utf8Bytes_ofList_map
    {α : Type}
    {symbol : α → Char}
    {byte : α → UInt8}
    {xs : List α}
    (single : ∀ x ∈ xs, String.utf8EncodeChar (symbol x) = [byte x]) :
    utf8Bytes (String.ofList (xs.map symbol)) = xs.map byte := by
  rw [utf8Bytes, String.toList_ofList]
  induction xs with
  | nil =>
      rfl
  | cons x xs ih =>
      rw [List.map_cons, List.flatMap_cons, single x (by simp),
        ih fun x' mem => single x' (List.mem_cons_of_mem _ mem)]
      rfl

end ScriptCodec
