import ScriptCodec.Proofs.Asm.Cut
import ScriptCodec.Proofs.Asm.Nesting

/-!
# Where tokens and faults stand

A step of reading starts behind white space.  The token that it finds covers all characters from
there up to where the cursor is left, whatever headers it has, and the fault that it reports stands
at one of the characters from there on: `step_span` and `step_fault_inside`.

Size headers are followed by recursion here.  A header hands on what is found behind it, so the two
statements are made together along the headers, in `token_positions`.
-/

namespace ScriptCodec

/-- The position that an error reports, if it reports one. -/
def Error.position? : Error → Option Nat
  | .truncatedScript position _ _ => some position
  | .invalidOpcode _ position => some position
  | .unterminatedLiteral position => some position
  | .unterminatedPlaceholder position => some position
  | .unexpectedCharacter position => some position
  | .invalidHexLiteral position => some position
  | .unknownTerm _ position => some position
  | .invalidPushdataSize position => some position
  | .pushdataMissingLiteral position => some position
  | .pushdataSizeMismatch position _ _ => some position
  | _ => none

@[simp] theorem Error.position?_shift
    (k : Nat)
    (e : Error) :
    (e.shift k).position? = e.position?.map (· + k) := by
  cases e with
  | _ =>
      rfl

namespace Asm

/-- An error reports a position only among the characters that are left. -/
def Inside
    (c : Cursor Char)
    (e : Error) : Prop :=
  ∀ p ∈ e.position?, c.pos ≤ p ∧ p < c.pos + c.rest.length

/-- Errors that report no position report none outside. -/
theorem inside_of_none
    {c : Cursor Char}
    {e : Error}
    (none : e.position? = none) :
    Inside c e := by
  intro p mem
  rw [none] at mem
  cases mem

/-- What is inside what is left later on is inside what was left before. -/
theorem Inside.of_reaches
    {c d : Cursor Char}
    {e : Error}
    (inside : Inside d e)
    (reaches : c.Reaches d) :
    Inside c e := by
  intro p mem
  have ended := reaches.end_eq
  obtain ⟨taken, rest, pos⟩ := reaches
  have bounds := inside p mem
  omega

/-- An error at a character that is reached is inside. -/
theorem inside_of_reaches
    {c d : Cursor Char}
    {e : Error}
    (reaches : c.Reaches d)
    (more : d.rest ≠ [])
    (reported : e.position? = some d.pos) :
    Inside c e := by
  apply Inside.of_reaches _ reaches
  intro p mem
  rw [reported] at mem
  cases mem
  have left := List.length_pos_iff.mpr more
  omega

/-- An error at the first character that is left is inside. -/
theorem inside_of_start
    {c : Cursor Char}
    {e : Error}
    (more : c.rest ≠ [])
    (reported : e.position? = some c.pos) :
    Inside c e :=
  inside_of_reaches (.refl c) more reported

section Faults

variable
  {lexicon : Lexicon}
  {placeholders : Bool}
  {here c : Cursor Char}
  {e : Error}

/-! ## Tokens without a size header -/

theorem finishLiteral_fault
    {start : Nat}
    {digits : List Char}
    (failed : finishLiteral start digits c = .error e) :
    e = .invalidHexLiteral start := by
  unfold finishLiteral at failed
  split at failed
  · cases failed
  · cases failed
    rfl

/-- A character that is found in a leading run of characters is reached. -/
theorem inside_of_findIdx
    {p q : Char → Bool}
    {i : Nat}
    (reaches : here.Reaches c)
    (found : (c.rest.takeWhile p).findIdx? q = some i) :
    Inside here (.unexpectedCharacter (c.pos + i)) := by
  obtain ⟨inside, _⟩ := List.findIdx?_eq_some_iff_getElem.mp found
  have inside : i < c.rest.length :=
    Nat.lt_of_lt_of_le inside (List.takeWhile_sublist p).length_le
  have more : (c.advance i).rest ≠ [] := by
    intro nothing
    have size := Cursor.length_rest_advance i c
    rw [nothing, List.length_nil] at size
    omega
  exact inside_of_reaches (reaches.trans (Cursor.reaches_advance (Nat.le_of_lt inside))) more rfl

theorem bareLiteral_fault_inside
    (reaches : here.Reaches c)
    (more : here.rest ≠ [])
    (failed : bareLiteral here.pos c = .error e) :
    Inside here e := by
  simp only [bareLiteral] at failed
  split at failed
  · next i found =>
      cases failed
      exact inside_of_findIdx reaches found
  · rw [finishLiteral_fault failed]
    exact inside_of_start more rfl

theorem bracketLiteral_fault_inside
    (reaches : here.Reaches c)
    (more : here.rest ≠ [])
    (failed : bracketLiteral here.pos c = .error e) :
    Inside here e := by
  simp only [bracketLiteral] at failed
  split at failed
  · cases failed
    exact inside_of_start more rfl
  · next ch body stop =>
      split at failed
      · rw [finishLiteral_fault failed]
        exact inside_of_start more rfl
      · cases failed
        apply inside_of_reaches (reaches.trans (Cursor.reaches_skipWhile isBracketed c))
        · simp [stop]
        · rfl

theorem placeholder_fault_inside
    (more : here.rest ≠ [])
    (failed : placeholder here.pos c = .error e) :
    Inside here e := by
  simp only [placeholder] at failed
  split at failed
  · cases failed
    exact inside_of_start more rfl
  · cases failed

/-- A word that is not known reports its position, or names a word without an opcode of its own. -/
theorem opcodeOf_fault
    {word : String}
    {position : Nat}
    (failed : lexicon.opcodeOf word position = .error e) :
    e = .unknownTerm word position ∨ e = .unknownWord word := by
  unfold Lexicon.opcodeOf at failed
  split at failed
  · cases failed
  · split at failed
    · right
      unfold Opcode.Table.codeOfWord at failed
      split at failed
      · cases failed
      · cases failed
        rfl
    · left
      cases failed
      rfl

theorem readTerm_fault_inside
    (more : here.rest ≠ [])
    (failed :
      lexicon.readTerm (here.rest.takeWhile fun ch => !isSpace ch) here.pos = .error e) :
    Inside here e := by
  unfold Lexicon.readTerm at failed
  split at failed
  · next i found =>
      cases failed
      exact inside_of_findIdx (.refl here) found
  · split at failed
    · next e' unknown =>
        cases failed
        rcases opcodeOf_fault unknown with rfl | rfl
        · exact inside_of_start more rfl
        · exact inside_of_none rfl
    · split at failed
      · cases failed
        exact inside_of_start more rfl
      · cases failed

theorem word_fault_inside
    (more : here.rest ≠ [])
    (failed : word lexicon here = .error e) :
    Inside here e := by
  simp only [word] at failed
  split at failed
  · cases failed
  · next e' unread =>
      split at failed
      · exact bareLiteral_fault_inside (.refl here) more failed
      · cases failed
        exact readTerm_fault_inside more unread

theorem plainToken_fault_inside
    (more : here.rest ≠ [])
    (failed : plainToken lexicon placeholders here = .error e) :
    Inside here e := by
  unfold plainToken at failed
  split at failed
  · next nothing =>
      exact absurd nothing more
  · next ch body rest =>
      have one : here.Reaches (here.advance 1) :=
        Cursor.reaches_advance_one rest
      split at failed
      · exact bracketLiteral_fault_inside one more failed
      split at failed
      · exact placeholder_fault_inside more failed
      split at failed
      · split at failed
        · cases failed
        · cases failed
          exact inside_of_start more rfl
      split at failed
      · next mark =>
          have two : here.Reaches (here.advance 2) := by
            apply Cursor.reaches_advance
            have one := one_le_length_of_hexMark mark.2
            rw [rest, List.length_cons]
            omega
          exact bareLiteral_fault_inside two more failed
      split at failed
      · cases failed
      split at failed
      · exact word_fault_inside more failed
      · cases failed
        exact inside_of_start more rfl

/-! ## Size headers -/

theorem rest_ne_nil_of_mark
    (mark : headerMark.isPrefixOf here.rest = true) :
    here.rest ≠ [] := by
  intro nothing
  rw [nothing] at mark
  cases mark

theorem header_fault_inside
    (mark : headerMark.isPrefixOf here.rest = true)
    (failed : header here = .error e) :
    Inside here e := by
  have more := rest_ne_nil_of_mark mark
  have reaches : here.Reaches (here.advance headerMark.length) :=
    Cursor.reaches_advance (List.isPrefixOf_iff_prefix.mp mark).length_le
  simp only [header] at failed
  split at failed
  · cases failed
    exact inside_of_start more rfl
  · next ch body stop =>
      -- The size is reported where it starts, and at least the character behind it is there.
      have size_inside : Inside here
          (.invalidPushdataSize (here.advance headerMark.length).pos) := by
        apply inside_of_reaches reaches _ rfl
        intro nothing
        simp [Cursor.skipWhile, nothing] at stop
      split at failed
      · split at failed
        · cases failed
        · cases failed
          exact size_inside
      · cases failed
        exact size_inside

theorem header_start
    {behind : Cursor Char}
    {h : Header}
    (read : header c = .ok (h, behind)) :
    h.start = c.pos := by
  simp only [header] at read
  split at read
  · cases read
  · split at read
    · split at read
      · simp only [Except.ok.injEq, Prod.mk.injEq] at read
        rw [← read.1]
      · cases read
    · cases read

end Faults

/-! ## Steps -/

namespace Recursive

variable {lexicon : Lexicon} {placeholders : Bool} {here : Cursor Char}

/-- What is found from `here` on stands where it should: a token covers the characters up to the
cursor behind it, and an error is inside. -/
def Placed
    (here : Cursor Char) :
    Found → Prop
  | .error e => Inside here e
  | .ok none => True
  | .ok (some (s, behind)) => here.rest ≠ [] ∧ s.span = ⟨here.pos, behind.pos⟩

theorem placed_plain
    (here : Cursor Char) :
    Placed here (plain lexicon placeholders here) := by
  unfold plain
  split
  · trivial
  · next more =>
      have more : here.rest ≠ [] := by
        simpa using more
      cases read : plainToken lexicon placeholders here with
      | error e =>
          exact plainToken_fault_inside more read
      | ok found =>
          exact ⟨more, rfl⟩

/-- A header lets the literal behind it start at the header, and reports what it misses there. -/
theorem placed_demand
    {h : Header}
    {next : Cursor Char}
    {found : Found}
    (more : here.rest ≠ [])
    (start : h.start = here.pos)
    (reaches : here.Reaches next)
    (placed : Placed next found) :
    Placed here (demand h found) := by
  have missing : Inside here (.pushdataMissingLiteral h.start) := by
    rw [start]
    exact inside_of_start more rfl
  match found, placed with
  | .error e, inside =>
      exact Inside.of_reaches inside reaches
  | .ok none, _ =>
      exact missing
  | .ok (some (⟨t, span⟩, behind)), ⟨next_more, covers⟩ =>
      subst covers
      cases t with
      | literal data =>
          simp only [demand]
          split
          · exact ⟨more, by rw [start]⟩
          · exact inside_of_reaches reaches next_more rfl
      | _ =>
          exact missing

theorem placed_token
    (placeholders : Bool)
    (c : Cursor Char) :
    Placed (c.skipWhile isSpace) (token lexicon placeholders c) := by
  -- Behind a header less is left of the text.
  induction left : c.rest.length using Nat.strongRecOn generalizing c placeholders with
  | _ n ih =>
      cases mark : headerMark.isPrefixOf (c.skipWhile isSpace).rest with
      | false =>
          rw [token_of_no_mark mark]
          exact placed_plain _
      | true =>
          rw [token_of_mark mark]
          cases read : header (c.skipWhile isSpace) with
          | error e =>
              exact header_fault_inside mark read
          | ok found =>
              obtain ⟨h, behind⟩ := found
              have shorter : behind.rest.length < n := by
                have skipped := Cursor.length_rest_skipWhile_le isSpace c
                have taken := header_shrinks read
                omega
              exact placed_demand (rest_ne_nil_of_mark mark) (header_start read)
                ((header_reaches read).trans (Cursor.reaches_skipWhile isSpace behind))
                (ih _ shorter false behind rfl)

end Recursive

section Steps

variable
  {lexicon : Lexicon}
  {placeholders : Bool}
  {c behind : Cursor Char}

/-- A token covers the characters from behind the white space up to the cursor behind it. -/
theorem step_span
    {s : Located}
    (found : step lexicon placeholders c = .item s behind) :
    s.span = ⟨(c.skipWhile isSpace).pos, behind.pos⟩ := by
  have placed : Recursive.Placed (c.skipWhile isSpace)
      (Recursive.token lexicon placeholders c) :=
    Recursive.placed_token placeholders c
  rw [← Recursive.step_eq, Recursive.step] at found
  split at found
  · cases found
  · cases found
  · next s' behind' read =>
      cases found
      rw [read] at placed
      exact placed.2

/-- A fault stands at a character from behind the white space on. -/
theorem step_fault_inside
    {e : Error}
    (failed : step lexicon placeholders c = .fault e) :
    Inside (c.skipWhile isSpace) e := by
  have placed : Recursive.Placed (c.skipWhile isSpace)
      (Recursive.token lexicon placeholders c) :=
    Recursive.placed_token placeholders c
  rw [← Recursive.step_eq, Recursive.step] at failed
  split at failed
  · next e' read =>
      cases failed
      rw [read] at placed
      exact placed
  · cases failed
  · cases failed

end Steps

end Asm
end ScriptCodec
