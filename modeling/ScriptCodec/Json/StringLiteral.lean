import ScriptCodec.Json.Error
import ScriptCodec.Text.Hex

/-!
# String literals of JSON

The readers here start behind the opening quote.  `readString` decodes escapes, and code points
beyond the basic plane are written as two escapes in a row.  `skipString` passes over a string
whose content is not wanted: it checks the form of escapes but not the pairing of halves.
-/

namespace ScriptCodec
namespace Json

/-- Four hex digits of a code unit.  The text ends too early if fewer than four bytes are left. -/
def readCodeUnit : Read Nat
  | a :: b :: c :: d :: rest =>
      match Hex.digit? a, Hex.digit? b, Hex.digit? c, Hex.digit? d with
      | some w, some x, some y, some z => .ok (((w * 16 + x) * 16 + y) * 16 + z, rest)
      | _, _, _, _ => .error .malformed
  | few =>
      .error (if (few.flatMap String.utf8EncodeChar).length < 4 then .endOfText else .malformed)

theorem readCodeUnit_shrinks
    {cs rest : List Char}
    {n : Nat}
    (h : readCodeUnit cs = .ok (n, rest)) :
    rest.length < cs.length := by
  unfold readCodeUnit at h
  split at h
  · split at h
    · simp only [Except.ok.injEq, Prod.mk.injEq] at h
      simp [← h.2]
      omega
    · simp at h
  · simp at h

/-- The second half of a pair of code units, escape sign included. -/
def readLowHalf (high : Nat) : Read Char
  | [] => .error .endOfText
  | '\\' :: [] => .error .endOfText
  | '\\' :: 'u' :: rest =>
      match readCodeUnit rest with
      | .error e => .error e
      | .ok (low, rest) =>
          if 0xDC00 ≤ low ∧ low ≤ 0xDFFF then
            .ok (Char.ofNat ((high - 0xD800) * 0x400 + (low - 0xDC00) + 0x10000), rest)
          else .error .malformed
  | _ => .error .malformed

/-- The character of an escape, behind the backslash. -/
def readEscape : Read Char
  | [] => .error .endOfText
  | c :: rest =>
      if c = '"' ∨ c = '\\' ∨ c = '/' then .ok (c, rest)
      else if c = 'b' then .ok (Char.ofNat 8, rest)
      else if c = 'f' then .ok (Char.ofNat 12, rest)
      else if c = 'n' then .ok ('\n', rest)
      else if c = 'r' then .ok ('\r', rest)
      else if c = 't' then .ok ('\t', rest)
      else if c = 'u' then
        match readCodeUnit rest with
        | .error e => .error e
        | .ok (n, rest) =>
            if 0xDC00 ≤ n ∧ n ≤ 0xDFFF then .error .malformed
            else if 0xD800 ≤ n ∧ n ≤ 0xDBFF then readLowHalf n rest
            else .ok (Char.ofNat n, rest)
      else .error .malformed

theorem readLowHalf_shrinks
    {high : Nat}
    {cs rest : List Char}
    {c : Char}
    (h : readLowHalf high cs = .ok (c, rest)) :
    rest.length < cs.length := by
  unfold readLowHalf at h
  split at h
  · simp at h
  · simp at h
  · split at h
    · simp at h
    · next low rest' hu =>
      split at h
      · simp only [Except.ok.injEq, Prod.mk.injEq] at h
        have := readCodeUnit_shrinks hu
        simp only [List.length_cons, ← h.2]
        omega
      · simp at h
  · simp at h

theorem readEscape_shrinks
    {cs rest : List Char}
    {c : Char}
    (h : readEscape cs = .ok (c, rest)) :
    rest.length < cs.length := by
  unfold readEscape at h
  split at h
  · simp at h
  · next d tail =>
    simp only [List.length_cons]
    have plain : ∀ x : Char, Except.ok (ε := Error) (x, tail) = .ok (c, rest) →
        rest.length < tail.length + 1 := by
      intro x hx
      simp only [Except.ok.injEq, Prod.mk.injEq] at hx
      simp [← hx.2]
    repeat' split at h
    all_goals first
      | exact plain _ h
      | (simp at h; done)
      | skip
    · have hl := readLowHalf_shrinks h
      have hu := readCodeUnit_shrinks (by assumption)
      omega
    · have hu := readCodeUnit_shrinks (by assumption)
      simp only [Except.ok.injEq, Prod.mk.injEq] at h
      simp only [← h.2]
      omega

/-- Reads to the closing quote with `read` already read, latest first. -/
def readStringOnto (read : List Char) (cs : List Char) : Except Error (String × List Char) :=
  match cs with
  | [] => .error .endOfText
  | c :: rest =>
      if c = '"' then .ok (String.ofList read.reverse, rest)
      else if c = '\\' then
        match _h : readEscape rest with
        | .error e => .error e
        | .ok (d, rest) => readStringOnto (d :: read) rest
      else if c < ' ' then .error .malformed
      else readStringOnto (c :: read) rest
termination_by cs.length
decreasing_by
  · have := readEscape_shrinks _h
    simp only [List.length_cons]
    omega
  · simp

/-- The content of a string up to its closing quote. -/
def readString : Read String :=
  readStringOnto []

/-- Passes over an escape, behind the backslash. -/
def skipEscape (cs : List Char) : Except Error (List Char) :=
  match cs with
  | [] => .error .endOfText
  | c :: rest =>
      if c = 'u' then
        match readCodeUnit rest with
        | .error e => .error e
        | .ok (_, rest) => .ok rest
      else if c ∈ ['"', '\\', '/', 'b', 'f', 'n', 'r', 't'] then .ok rest
      else .error .malformed

theorem skipEscape_shrinks
    {cs rest : List Char}
    (h : skipEscape cs = .ok rest) :
    rest.length < cs.length := by
  unfold skipEscape at h
  split at h
  · simp at h
  · simp only [List.length_cons]
    split at h
    · split at h
      · simp at h
      · next hu =>
        have := readCodeUnit_shrinks hu
        simp only [Except.ok.injEq] at h
        simp only [← h]
        omega
    · split at h
      · simp only [Except.ok.injEq] at h
        simp [← h]
      · simp at h

/-- Passes over a string up to its closing quote. -/
def skipString (cs : List Char) : Except Error (List Char) :=
  match cs with
  | [] => .error .endOfText
  | c :: rest =>
      if c = '"' then .ok rest
      else if c = '\\' then
        match _h : skipEscape rest with
        | .error e => .error e
        | .ok rest => skipString rest
      else if c < ' ' then .error .malformed
      else skipString rest
termination_by cs.length
decreasing_by
  · have := skipEscape_shrinks _h
    simp only [List.length_cons]
    omega
  · simp

end Json
end ScriptCodec
