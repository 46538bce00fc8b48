import ScriptCodec.Proofs.Raw.Shortest

/-!
# Appending tokens

A token is appended to what is already written in one piece or not at all.  `Token.refusal?` says
when and why a token is refused, and `Token.bytes` are its bytes, the same wherever it stands.

* `append_onto` is one call: it adds the bytes of the token, or leaves everything as it was;
* `appendEach_written` is what a sequence of calls that goes on after errors has written;
* `encode_eq_ok_iff` and `encode_eq_error_iff` say that a whole script is written with the bytes of
  its tokens, or fails with the first token that is refused.

`appendEach_eq_encode_filter` has all of this.
-/

namespace ScriptCodec

namespace Token

/-- Why a token cannot be written behind `size` bytes, if it cannot. -/
def refusal?
    (size : Nat) :
    Token → Option Error
  | .literal data =>
      if data.length < 2 ^ 32 then none else some (.literalTooLarge data.length)
  | .opcode code =>
      if 1 ≤ code.toNat ∧ code.toNat ≤ 78 then some (.invalidOpcode code size) else none
  | .placeholder _ => some (.unencodableToken .placeholder)
  | .repetition => some (.unencodableToken .repetition)

/-- Whether a token can be written. -/
def isWritable
    (t : Token) :
    Bool :=
  (t.refusal? 0).isNone

/-- The bytes of a token that can be written. -/
def bytes
    (t : Token) :
    List UInt8 :=
  (Raw.tokenBytes 0 t).toOption.getD []

/-- Where a token stands is part of the reason why it is refused, but makes no other difference. -/
theorem refusal?_eq_none_iff
    {t : Token}
    {size : Nat} :
    t.refusal? size = none ↔ t.isWritable = true := by
  cases t with
  | literal data =>
      simp [refusal?, isWritable]
  | opcode code =>
      simp [refusal?, isWritable]
  | placeholder text =>
      simp [refusal?, isWritable]
  | repetition =>
      simp [refusal?, isWritable]

end Token

namespace Raw

/-! ## One token -/

/-- A token is refused, or has bytes that do not depend on where they stand. -/
theorem tokenBytes_eq
    (position : Nat)
    (t : Token) :
    tokenBytes position t =
      match t.refusal? position with
      | some e => .error e
      | none => .ok t.bytes := by
  cases t with
  | literal data =>
      by_cases small : data.length < 2 ^ 32
      · obtain ⟨header, announced, _⟩ := exists_pushHeader?_length small
        simp only [tokenBytes, Token.refusal?, Token.bytes, announced, small, if_true,
          Except.toOption, Option.getD_some]
      · have unannounced : pushHeader? data.length = none := by
          cases announced : pushHeader? data.length with
          | none =>
              rfl
          | some header =>
              exact absurd (size_lt_of_pushHeader? announced) small
        simp only [tokenBytes, Token.refusal?, unannounced, small, if_false]
  | opcode code =>
      by_cases push : 1 ≤ code.toNat ∧ code.toNat ≤ 78
      · simp [tokenBytes, Token.refusal?, push]
      · have alone : Opcode.isPush code = false := by
          rwa [← Bool.not_eq_true, Opcode.isPush_iff]
        simp [tokenBytes, Token.refusal?, Token.bytes, push, alone, Except.toOption]
  | placeholder text =>
      rfl
  | repetition =>
      rfl

@[simp] theorem put_onto
    (own written : List UInt8) :
    (put own).onto written = (.ok (), written ++ own) := by
  rfl

@[simp] theorem put_bind_onto
    {α : Type}
    (own written : List UInt8)
    (next : Unit → Writer α) :
    (put own >>= next).onto written = (next ()).onto (written ++ own) := by
  rfl

/-- Appending writes what a token has bytes for, in one piece. -/
theorem append_onto_tokenBytes
    (t : Token)
    (written : List UInt8) :
    (append t).onto written =
      match tokenBytes written.length t with
      | .error e => (.error e, written)
      | .ok own => (.ok (), written ++ own) := by
  cases t with
  | literal data =>
      cases announced : pushHeader? data.length with
      | none =>
          simp only [append, tokenBytes, announced]
          rfl
      | some header =>
          simp only [append, tokenBytes, announced, put_bind_onto, put_onto, List.append_assoc]
  | opcode code =>
      cases push : Opcode.isPush code with
      | true =>
          simp only [append, tokenBytes, push, if_true]
          rfl
      | false =>
          simp only [append, tokenBytes, push]
          rfl
  | placeholder text =>
      rfl
  | repetition =>
      rfl

/-- A token that is refused leaves everything as it was, and any other one adds its own bytes. -/
theorem append_onto
    (t : Token)
    (written : List UInt8) :
    (append t).onto written =
      match t.refusal? written.length with
      | some e => (.error e, written)
      | none => (.ok (), written ++ t.bytes) := by
  rw [append_onto_tokenBytes, tokenBytes_eq]
  cases t.refusal? written.length with
  | some e =>
      rfl
  | none =>
      rfl

/-! ## Whole scripts -/

section Scripts

variable
  {before after ts : List Token}
  {t : Token}
  {e : Error}

/-- Tokens that can be written are written with their own bytes, one after the other. -/
theorem encodeOnto_append
    (writable : ∀ u ∈ before, u.isWritable = true)
    (written : List UInt8)
    (size : Nat) :
    encodeOnto written size (before ++ after) =
      encodeOnto ((before.flatMap Token.bytes).reverse ++ written)
        (size + (before.flatMap Token.bytes).length) after := by
  induction before generalizing written size with
  | nil =>
      rfl
  | cons u before ih =>
      have first : tokenBytes size u = .ok u.bytes := by
        rw [tokenBytes_eq, Token.refusal?_eq_none_iff.mpr (writable u (by simp))]
      rw [List.cons_append, encodeOnto_cons_of_ok first,
        ih fun v mem => writable v (List.mem_cons_of_mem _ mem)]
      simp only [List.flatMap_cons, List.reverse_append, List.append_assoc, List.length_append,
        Nat.add_assoc]

theorem encode_of_writable
    (writable : ∀ u ∈ ts, u.isWritable = true) :
    encode ts = .ok (ts.flatMap Token.bytes) := by
  have all : encodeOnto [] 0 (ts ++ []) = _ := encodeOnto_append writable [] 0
  rw [List.append_nil] at all
  rw [encode, all, encodeOnto]
  simp

/-- The first token that is refused ends the writing of a script. -/
theorem encode_of_refused
    (writable : ∀ u ∈ before, u.isWritable = true)
    (refused : t.refusal? (before.flatMap Token.bytes).length = some e) :
    encode (before ++ t :: after) = .error e := by
  have own : tokenBytes (0 + (before.flatMap Token.bytes).length) t = .error e := by
    rw [Nat.zero_add, tokenBytes_eq, refused]
  rw [encode, encodeOnto_append writable, encodeOnto_cons_of_error own]

/-- Tokens can all be written, or there is a first one that is refused. -/
theorem writable_or_first_refused
    (ts : List Token) :
    (∀ u ∈ ts, u.isWritable = true) ∨
    ∃ before t after,
      ts = before ++ t :: after ∧
      (∀ u ∈ before, u.isWritable = true) ∧
      t.isWritable = false := by
  cases found : ts.find? fun u => !u.isWritable with
  | none =>
      left
      simpa using found
  | some t =>
      right
      obtain ⟨refused, before, after, split, writable⟩ := List.find?_eq_some_iff_append.mp found
      exact ⟨before, t, after, split, by simpa using writable, by simpa using refused⟩

theorem exists_refusal
    (refused : t.isWritable = false)
    (size : Nat) :
    ∃ e, t.refusal? size = some e := by
  rw [← Option.ne_none_iff_exists']
  intro none
  rw [Token.refusal?_eq_none_iff.mp none] at refused
  cases refused

/-- A script that has bytes consists of tokens that can be written, and has their bytes. -/
theorem encode_eq_ok_iff
    {bytes : List UInt8} :
    encode ts = .ok bytes ↔
      (∀ u ∈ ts, u.isWritable = true) ∧ bytes = ts.flatMap Token.bytes := by
  constructor
  · intro written
    rcases writable_or_first_refused ts with writable | ⟨before, t, after, rfl, writable, refused⟩
    · rw [encode_of_writable writable] at written
      exact ⟨writable, (Except.ok.inj written).symm⟩
    · obtain ⟨e, reason⟩ := exists_refusal refused (before.flatMap Token.bytes).length
      rw [encode_of_refused writable reason] at written
      cases written
  · rintro ⟨writable, rfl⟩
    exact encode_of_writable writable

/-- A script fails with the first token that is refused, behind the bytes of those in front. -/
theorem encode_eq_error_iff :
    encode ts = .error e ↔
      ∃ before t after bytes,
        ts = before ++ t :: after ∧
        encode before = .ok bytes ∧
        t.refusal? bytes.length = some e := by
  constructor
  · intro failed
    rcases writable_or_first_refused ts with writable | ⟨before, t, after, rfl, writable, refused⟩
    · rw [encode_of_writable writable] at failed
      cases failed
    · obtain ⟨e', reason⟩ := exists_refusal refused (before.flatMap Token.bytes).length
      rw [encode_of_refused writable reason] at failed
      cases failed
      exact ⟨before, t, after, _, rfl, encode_of_writable writable, reason⟩
  · rintro ⟨before, t, after, bytes, rfl, written, refused⟩
    obtain ⟨writable, rfl⟩ := encode_eq_ok_iff.mp written
    exact encode_of_refused writable refused

/-- A script fails exactly if one of its tokens is refused. -/
theorem exists_encode_error_iff :
    (∃ e, encode ts = .error e) ↔ ∃ t ∈ ts, t.isWritable = false := by
  constructor
  · rintro ⟨e, failed⟩
    obtain ⟨before, t, after, bytes, rfl, _, refused⟩ := encode_eq_error_iff.mp failed
    refine ⟨t, by simp, eq_false_of_ne_true fun writable => ?_⟩
    rw [Token.refusal?_eq_none_iff.mpr writable] at refused
    cases refused
  · rintro ⟨t, mem, refused⟩
    cases written : encode ts with
    | error e =>
        exact ⟨e, rfl⟩
    | ok bytes =>
        rw [(encode_eq_ok_iff.mp written).1 t mem] at refused
        cases refused

/-! ## Sequences of calls -/

/-- What the calls before have written is all that the calls after them find. -/
theorem appendEach_append
    (written : List UInt8) :
    appendEach written (before ++ after) =
      ((appendEach written before).1 ++ (appendEach (appendEach written before).2 after).1,
        (appendEach (appendEach written before).2 after).2) := by
  induction before generalizing written with
  | nil =>
      rfl
  | cons u before ih =>
      simp only [List.cons_append, appendEach, ih]

/-- Every call gives something. -/
theorem length_appendEach
    (written : List UInt8) :
    (appendEach written ts).1.length = ts.length := by
  induction ts generalizing written with
  | nil =>
      rfl
  | cons u ts ih =>
      simp only [appendEach, List.length_cons, ih]

/-- A call in a sequence does what it does alone, behind what the calls before have written. -/
theorem appendEach_outcome
    (written : List UInt8) :
    (appendEach written (before ++ t :: after)).1[before.length]? =
      some (match t.refusal? (appendEach written before).2.length with
        | some e => .error e
        | none => .ok ((appendEach written before).2 ++ t.bytes)) := by
  -- each of the calls before has given one outcome, so this is the next one
  have place : (appendEach written before).1.length = before.length := length_appendEach written
  rw [appendEach_append, ← place, List.getElem?_append_right (Nat.le_refl _), Nat.sub_self]
  simp only [appendEach, append_onto, List.getElem?_cons_zero]
  cases t.refusal? (appendEach written before).2.length with
  | some e =>
      rfl
  | none =>
      rfl

/-- In the end the bytes of the tokens that can be written are written, and nothing else. -/
theorem appendEach_written
    (written : List UInt8) :
    (appendEach written ts).2 =
      written ++ (ts.filter Token.isWritable).flatMap Token.bytes := by
  induction ts generalizing written with
  | nil =>
      simp [appendEach]
  | cons u ts ih =>
      simp only [appendEach, ih, append_onto]
      cases writable : u.isWritable with
      | true =>
          simp [Token.refusal?_eq_none_iff.mpr writable, writable]
      | false =>
          obtain ⟨e, reason⟩ := exists_refusal writable written.length
          simp [reason, writable]

end Scripts

/-- **Appending is atomic and looks at nothing but the place.**  A call that refuses a token leaves
everything as it was, and any other call adds bytes that depend on the token alone.  In a sequence
of calls that goes on after errors every call finds what the calls before it have written, so that
in the end the script of the tokens that can be written stands behind what was there at first.  A
script as a whole fails exactly if a token is refused, with the first such token and with the place
behind the tokens in front of it. -/
theorem appendEach_eq_encode_filter
    (written : List UInt8)
    (ts : List Token) :
    (∀ t : Token,
      (append t).onto written =
        match t.refusal? written.length with
        | some e => (.error e, written)
        | none => (.ok (), written ++ t.bytes)) ∧
    (appendEach written ts).1.length = ts.length ∧
    (∀ before t after,
      ts = before ++ t :: after →
      (appendEach written ts).1[before.length]? =
        some (match t.refusal? (appendEach written before).2.length with
          | some e => .error e
          | none => .ok ((appendEach written before).2 ++ t.bytes))) ∧
    (∃ bytes,
      encode (ts.filter Token.isWritable) = .ok bytes ∧
      (appendEach written ts).2 = written ++ bytes) ∧
    ((∃ e, encode ts = .error e) ↔ ∃ t ∈ ts, t.isWritable = false) ∧
    ∀ e,
      encode ts = .error e ↔
        ∃ before t after bytes,
          ts = before ++ t :: after ∧
          encode before = .ok bytes ∧
          t.refusal? bytes.length = some e := by
  refine ⟨fun t => append_onto t written, length_appendEach written, ?_, ?_,
    exists_encode_error_iff, fun _ => encode_eq_error_iff⟩
  · rintro before t after rfl
    exact appendEach_outcome written
  · refine ⟨_, encode_of_writable ?_, appendEach_written written⟩
    intro u mem
    exact (List.mem_filter.mp mem).2

end Raw
end ScriptCodec
