import ScriptCodec.Error
import ScriptCodec.Scan

/-!
# Offsets

Positions in texts and in raw scripts count from the start of the whole input.  An input that stands
behind another one has the same tokens and faults as on its own, with all positions moved by what is
in front of it: `shift` moves cursors, spans, tokens and errors.  `Span.slice` is the part of an
input that a span covers.
-/

namespace ScriptCodec

/-- The cursor on the same elements, `k` offsets further on. -/
def Cursor.shift
    {α : Type}
    (k : Nat)
    (c : Cursor α) :
    Cursor α :=
  ⟨c.pos + k, c.rest⟩

/-- The span `k` offsets further on. -/
def Span.shift
    (k : Nat)
    (s : Span) :
    Span :=
  ⟨s.start + k, s.stop + k⟩

/-- The same token, `k` offsets further on. -/
def Located.shift
    (k : Nat)
    (s : Located) :
    Located :=
  ⟨s.token, s.span.shift k⟩

/-- The same error, with its position `k` offsets further on if it has one. -/
def Error.shift
    (k : Nat) :
    Error → Error
  | .truncatedScript position needed available =>
      .truncatedScript (position + k) needed available
  | .invalidOpcode code position => .invalidOpcode code (position + k)
  | .unterminatedLiteral position => .unterminatedLiteral (position + k)
  | .unterminatedPlaceholder position => .unterminatedPlaceholder (position + k)
  | .unexpectedCharacter position => .unexpectedCharacter (position + k)
  | .invalidHexLiteral position => .invalidHexLiteral (position + k)
  | .unknownTerm term position => .unknownTerm term (position + k)
  | .invalidPushdataSize position => .invalidPushdataSize (position + k)
  | .pushdataMissingLiteral position => .pushdataMissingLiteral (position + k)
  | .pushdataSizeMismatch position expected actual =>
      .pushdataSizeMismatch (position + k) expected actual
  | e => e

/-- The elements of a list that a span covers. -/
def Span.slice
    {α : Type}
    (s : Span)
    (xs : List α) :
    List α :=
  (xs.drop s.start).take s.size

namespace Cursor

variable {α : Type}

@[simp] theorem shift_pos
    (k : Nat)
    (c : Cursor α) :
    (c.shift k).pos = c.pos + k := by
  rfl

@[simp] theorem shift_rest
    (k : Nat)
    (c : Cursor α) :
    (c.shift k).rest = c.rest := by
  rfl

@[simp] theorem advance_shift
    (k n : Nat)
    (c : Cursor α) :
    (c.shift k).advance n = (c.advance n).shift k := by
  simp [advance, shift, Nat.add_right_comm]

@[simp] theorem skipWhile_shift
    (k : Nat)
    (p : α → Bool)
    (c : Cursor α) :
    (c.shift k).skipWhile p = (c.skipWhile p).shift k := by
  simp [skipWhile, shift, Nat.add_right_comm]

end Cursor

end ScriptCodec
