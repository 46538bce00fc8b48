import ScriptCodec.Opcode.Standard
import ScriptCodec.Proofs.Asm.Composition
import ScriptCodec.Proofs.Text.Hex

/-!
# Letter case in texts

Words, hex digits and the mark of hex literals are read alike in either case.  Only the mark of a
size header is in capitals, and the text of a placeholder is kept as it stands.  Where neither can
stand, because no bracket or opening mark is there for it, a text is read as it would be in lower
case: `step_lower` says so for one step, and `decodeLocated_eq_of_toLower_eq` compares two texts
that differ in letter case only.
-/

namespace ScriptCodec

/-! ## Tests that are blind for letter case -/

/-- A test that a letter passes in either case or in none. -/
def CaseBlind
    (p : Char → Bool) : Prop :=
  ∀ c, p c.toLower = p c

namespace CaseBlind

variable {p : Char → Bool} (blind : CaseBlind p)

include blind

theorem comp_toLower :
    p ∘ Char.toLower = p :=
  funext blind

theorem not :
    CaseBlind fun c => !p c := by
  intro c
  simp only [blind c]

theorem takeWhile_map
    (cs : List Char) :
    (cs.map Char.toLower).takeWhile p = (cs.takeWhile p).map Char.toLower := by
  rw [List.takeWhile_map, blind.comp_toLower]

theorem dropWhile_map
    (cs : List Char) :
    (cs.map Char.toLower).dropWhile p = (cs.dropWhile p).map Char.toLower := by
  rw [List.dropWhile_map, blind.comp_toLower]

theorem filter_map
    (cs : List Char) :
    (cs.map Char.toLower).filter p = (cs.filter p).map Char.toLower := by
  rw [List.filter_map, blind.comp_toLower]

theorem findIdx?_map
    (cs : List Char) :
    (cs.map Char.toLower).findIdx? p = cs.findIdx? p := by
  rw [List.findIdx?_map, blind.comp_toLower]

theorem all_map
    (cs : List Char) :
    (cs.map Char.toLower).all p = cs.all p := by
  rw [List.all_map, blind.comp_toLower]

end CaseBlind

namespace Hex

theorem caseBlind_isDigit :
    CaseBlind isDigit := by
  intro c
  rw [isDigit, digit?_toLower, isDigit]

theorem ofDigits?_map_toLower
    (cs : List Char) :
    ofDigits? (cs.map Char.toLower) = ofDigits? cs :=
  ofDigitsOnto_map_toLower [] cs

end Hex

/-- Terms have one normal form in either case. -/
theorem Term.normalize_map_toLower
    (term : List Char) :
    Term.normalize (term.map Char.toLower) = Term.normalize term := by
  have upper : (term.map Char.toLower).map Char.toUpper = term.map Char.toUpper := by
    rw [List.map_map]
    exact List.map_congr_left fun c _ => Char.toUpper_toLower_eq_toUpper c
  rw [normalize, normalize, normalChars, normalChars, upper]

/-- The cursor in front of the same characters in lower case. -/
def Cursor.lower
    (c : Cursor Char) :
    Cursor Char :=
  ⟨c.pos, c.rest.map Char.toLower⟩

namespace Cursor

@[simp] theorem lower_pos
    (c : Cursor Char) :
    c.lower.pos = c.pos := by
  rfl

@[simp] theorem lower_rest
    (c : Cursor Char) :
    c.lower.rest = c.rest.map Char.toLower := by
  rfl

theorem lower_advance
    (n : Nat)
    (c : Cursor Char) :
    c.lower.advance n = (c.advance n).lower := by
  simp [advance, lower, List.map_drop]

theorem lower_skipWhile
    {p : Char → Bool}
    (blind : CaseBlind p)
    (c : Cursor Char) :
    c.lower.skipWhile p = (c.skipWhile p).lower := by
  simp [skipWhile, lower, blind.takeWhile_map, blind.dropWhile_map]

end Cursor

namespace Asm

theorem caseBlind_isTermChar :
    CaseBlind isTermChar := by
  intro c
  by_cases upper : c.isUpper
  · have letter : c.isAlpha = true := by
      rw [Char.isAlpha, upper, Bool.true_or]
    have lower : c.toLower.isAlpha = true := by
      rw [Char.isAlpha_toLower_eq_isAlpha, letter]
    simp only [isTermChar, Char.isAlphanum, letter, lower, Bool.true_or]
  · rw [Char.toLower_eq_of_not_isUpper upper]

theorem caseBlind_isSpace :
    CaseBlind isSpace := by
  intro c
  by_cases upper : c.isUpper
  · have letter : isTermChar c = true := by
      rw [isTermChar, Char.isAlphanum, Char.isAlpha, upper]
      rfl
    rw [not_isSpace_of_isTermChar letter]
    apply not_isSpace_of_isTermChar
    rw [caseBlind_isTermChar, letter]
  · rw [Char.toLower_eq_of_not_isUpper upper]

theorem caseBlind_isBracketed :
    CaseBlind isBracketed := by
  intro c
  rw [isBracketed, caseBlind_isSpace, Hex.caseBlind_isDigit, isBracketed]

/-- The letter of the mark of hex literals is the same in either case. -/
theorem toLower_eq_hexMark_iff
    (c : Char) :
    (c.toLower = 'x' ∨ c.toLower = 'X') ↔ (c = 'x' ∨ c = 'X') := by
  by_cases upper : c.isUpper
  · have lower := toNat_toLower c
    rw [if_pos upper] at lower
    constructor
    · rintro (mark | mark)
      · right
        have same : 'X'.toNat + 32 = c.toNat + 32 := by
          rw [← lower, mark]
          rfl
        exact Char.toNat_inj.mp (Nat.add_right_cancel same).symm
      · have noUpper := Char.isUpper_toLower_eq_false c
        rw [mark] at noUpper
        cases noUpper
    · rintro (rfl | rfl)
      · cases upper
      · exact .inl rfl
  · rw [Char.toLower_eq_of_not_isUpper upper]

theorem head?_map_hexMark
    (body : List Char) :
    ((body.map Char.toLower).head? = some 'x' ∨ (body.map Char.toLower).head? = some 'X') ↔
      (body.head? = some 'x' ∨ body.head? = some 'X') := by
  cases body with
  | nil =>
      rfl
  | cons ch body =>
      simpa using toLower_eq_hexMark_iff ch

theorem head?_map_all_isSpace
    (body : List Char) :
    (body.map Char.toLower).head?.all isSpace = body.head?.all isSpace := by
  cases body with
  | nil =>
      rfl
  | cons ch body =>
      exact caseBlind_isSpace ch

/-- Characters that are no letters are found in lower case where they stand. -/
theorem map_toLower_eq_iff
    {marks : List Char}
    (noLetters : ∀ mark ∈ marks, mark.isAlpha = false)
    (cs : List Char) :
    cs.map Char.toLower = marks ↔ cs = marks := by
  induction marks generalizing cs with
  | nil =>
      exact List.map_eq_nil_iff
  | cons mark marks ih =>
      obtain ⟨first, others⟩ := List.forall_mem_cons.mp noLetters
      cases cs with
      | nil =>
          rfl
      | cons c cs =>
          rw [List.map_cons, List.cons.injEq, List.cons.injEq, toLower_eq_iff mark first, ih others]

/-- A result of reading, with the cursor behind it in front of lower case. -/
def lowerReading : Reading → Reading
  | .ok (t, behind) => .ok (t, behind.lower)
  | .error e => .error e

section Pieces

variable (lexicon : Lexicon) (start : Nat) (c : Cursor Char)

/-! ## Tokens without a size header -/

theorem finishLiteral_lower
    (digits : List Char) :
    finishLiteral start (digits.map Char.toLower) c.lower =
      lowerReading (finishLiteral start digits c) := by
  rw [finishLiteral, Hex.ofDigits?_map_toLower, finishLiteral]
  cases Hex.ofDigits? digits with
  | none =>
      rfl
  | some data =>
      rfl

theorem bareLiteral_lower :
    bareLiteral start c.lower = lowerReading (bareLiteral start c) := by
  simp only [bareLiteral, Cursor.lower_rest, Cursor.lower_pos,
    caseBlind_isSpace.not.takeWhile_map, Hex.caseBlind_isDigit.not.findIdx?_map,
    Cursor.lower_skipWhile caseBlind_isSpace.not]
  split
  · rfl
  · exact finishLiteral_lower start _ _

theorem bracketLiteral_lower :
    bracketLiteral start c.lower = lowerReading (bracketLiteral start c) := by
  simp only [bracketLiteral, Cursor.lower_rest, caseBlind_isBracketed.takeWhile_map,
    Hex.caseBlind_isDigit.filter_map, Cursor.lower_skipWhile caseBlind_isBracketed,
    Cursor.lower_advance, Cursor.lower_pos]
  cases (c.skipWhile isBracketed).rest with
  | nil =>
      rfl
  | cons ch body =>
      simp only [List.map_cons, toLower_eq_iff ']' rfl]
      split
      · exact finishLiteral_lower start _ _
      · rfl

theorem readTerm_lower
    (run : List Char)
    (position : Nat) :
    lexicon.readTerm (run.map Char.toLower) position = lexicon.readTerm run position := by
  rw [Lexicon.readTerm, Lexicon.readTerm, caseBlind_isTermChar.not.findIdx?_map,
    Term.normalize_map_toLower]

theorem word_lower :
    word lexicon c.lower = lowerReading (word lexicon c) := by
  simp only [word, Cursor.lower_rest, Cursor.lower_pos, caseBlind_isSpace.not.takeWhile_map,
    readTerm_lower, Hex.caseBlind_isDigit.all_map, Cursor.lower_skipWhile caseBlind_isSpace.not,
    bareLiteral_lower]
  split
  · rfl
  · split
    · rfl
    · rfl

/-- A token that is no placeholder is read alike in either case. -/
theorem plainToken_lower
    (placeholders : Bool)
    (noEntry : '<' ∉ c.rest) :
    plainToken lexicon placeholders c.lower =
      lowerReading (plainToken lexicon placeholders c) := by
  unfold plainToken
  cases rest : c.rest with
  | nil =>
      simp only [Cursor.lower_rest, rest, List.map_nil]
      rfl
  | cons ch body =>
      have noOpening : ch ≠ '<' := by
        rintro rfl
        exact noEntry (by simp [rest])
      have dots : (body.map Char.toLower).take 2 = ['.', '.'] ↔ body.take 2 = ['.', '.'] := by
        rw [← List.map_take]
        exact map_toLower_eq_iff (by simp) _
      simp only [Cursor.lower_rest, rest, List.map_cons, Cursor.lower_pos, Cursor.lower_advance,
        word_lower, bareLiteral_lower, bracketLiteral_lower, dots, head?_map_hexMark,
        head?_map_all_isSpace, caseBlind_isTermChar ch, toLower_eq_iff '[' rfl,
        toLower_eq_iff '<' rfl, toLower_eq_iff '.' rfl,
        toLower_eq_iff '0' rfl, noOpening, and_false, if_false]
      repeat' split
      all_goals rfl

/-! ## Steps and runs -/

/-- Size headers and placeholders are not to be found in a text. -/
def Foldable
    (text : List Char) : Prop :=
  '(' ∉ text ∧ '<' ∉ text

theorem Foldable.suffix
    {text back : List Char}
    (foldable : Foldable text)
    (suffix : back <:+ text) :
    Foldable back :=
  ⟨fun mem => foldable.1 (suffix.subset mem), fun mem => foldable.2 (suffix.subset mem)⟩

theorem Foldable.noMark
    {text : List Char}
    (foldable : Foldable text) :
    headerMark.isPrefixOf text = false :=
  noMark_of_noBracket foldable.1

theorem Foldable.lower
    {text : List Char}
    (foldable : Foldable text) :
    Foldable (text.map Char.toLower) := by
  constructor
  · intro mem
    obtain ⟨c, mem, same⟩ := List.mem_map.mp mem
    rw [(toLower_eq_iff '(' rfl c).mp same] at mem
    exact foldable.1 mem
  · intro mem
    obtain ⟨c, mem, same⟩ := List.mem_map.mp mem
    rw [(toLower_eq_iff '<' rfl c).mp same] at mem
    exact foldable.2 mem

theorem step_lower
    (placeholders : Bool)
    (foldable : Foldable c.rest) :
    step lexicon placeholders c.lower =
      (step lexicon placeholders c).map Cursor.lower id id := by
  have skipped := Cursor.lower_skipWhile caseBlind_isSpace c
  have behind : Foldable (c.skipWhile isSpace).rest :=
    foldable.suffix (List.dropWhile_suffix isSpace)
  have lower_noMark : headerMark.isPrefixOf (c.lower.skipWhile isSpace).rest = false := by
    rw [skipped]
    exact behind.lower.noMark
  simp only [step, headers_of_no_mark behind.noMark, headers_of_no_mark lower_noMark, skipped,
    Cursor.lower_rest, List.isEmpty_map, plainToken_lower _ _ _ behind.2]
  split
  · rfl
  · cases plainToken lexicon placeholders (c.skipWhile isSpace) with
    | error e =>
        rfl
    | ok found =>
        rfl

/-- A text without size headers and placeholders is read as it is in lower case. -/
theorem run_lower
    (placeholders : Bool)
    (foldable : Foldable c.rest) :
    (reader lexicon placeholders).run c.lower = (reader lexicon placeholders).run c := by
  have keeps : ∀ (c : Cursor Char) s behind,
      Foldable c.rest →
      (reader lexicon placeholders).step c = .item s behind →
      Foldable behind.rest := by
    intro c s behind foldable found
    obtain ⟨taken, split, _⟩ := step_reaches found
    exact foldable.suffix ⟨taken, split.symm⟩
  have same : (reader lexicon placeholders).run c.lower =
      ((reader lexicon placeholders).run c).map id id :=
    Reader.run_map_of_invariant keeps
      (fun c foldable => step_lower lexicon c placeholders foldable) c foldable
  simpa [Run.map] using same

end Pieces

/-! ## Whole texts -/

theorem decodeLocated_map_toLower
    (options : Options)
    (table : Opcode.Table)
    {text : List Char}
    (foldable : Foldable text) :
    decodeLocated (text.map Char.toLower) options table = decodeLocated text options table := by
  have same := run_lower ⟨options.terms, table⟩ (Cursor.start text) options.allowPlaceholders
    foldable
  exact congrArg Run.toExcept same

/-- **Letter case never matters** where no bracket of a size header and no opening mark of a
placeholder stands: two texts that are the same in lower case are read as the same tokens with the
same spans, or fail with the same error, its position and the term it names included. -/
theorem decodeLocated_eq_of_toLower_eq
    (options : Options)
    (table : Opcode.Table)
    {text other : List Char}
    (same : text.map Char.toLower = other.map Char.toLower)
    (foldable : '(' ∉ text ∧ '<' ∉ text)
    (other_foldable : '(' ∉ other ∧ '<' ∉ other) :
    decodeLocated text options table = decodeLocated other options table := by
  rw [← decodeLocated_map_toLower options table foldable, same,
    decodeLocated_map_toLower options table other_foldable]

/-- An overriding term, digits in brackets and behind their mark, a word, a bare literal and a word
that is unknown, which is reported in its normal form. -/
theorem decodeLocated_eq_of_toLower_eq_unknown :
    let options := Options.default.withTerm "foo" Opcode.one
    let text := "fOO [aB] 0XcD 1aDD beef Nope".toList
    let other := "Foo [Ab] 0xCd 1AdD BEEF nOPE".toList
    text.map Char.toLower = other.map Char.toLower ∧
    ('(' ∉ text ∧ '<' ∉ text) ∧
    ('(' ∉ other ∧ '<' ∉ other) ∧
    decodeLocated text options Opcode.Table.standard =
      decodeLocated other options Opcode.Table.standard ∧
    decodeLocated other options Opcode.Table.standard =
      .error (.unknownTerm "OP_NOPE" 24) := by
  intro options text other
  have same : text.map Char.toLower = other.map Char.toLower := by
    decide +kernel
  have foldable : '(' ∉ text ∧ '<' ∉ text := by
    decide +kernel
  have other_foldable : '(' ∉ other ∧ '<' ∉ other := by
    decide +kernel
  have failed : decodeLocated other options Opcode.Table.standard =
      .error (.unknownTerm "OP_NOPE" 24) := by
    decide +kernel
  exact ⟨same, foldable, other_foldable,
    decodeLocated_eq_of_toLower_eq options Opcode.Table.standard same foldable other_foldable,
    failed⟩

end Asm
end ScriptCodec
