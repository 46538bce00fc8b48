import Mathlib.Data.List.TakeWhile
import ScriptCodec.Opcode.Standard
import ScriptCodec.Proofs.Asm.Step
import ScriptCodec.Proofs.Reading

/-!
# Size headers by recursion

A size header asks for a literal of its size, and what follows it may again be a literal with a
size header.  The obvious reading is recursive: read the size, read the next token without template
entries, demand a literal of that size, and let it start at the header.  `Recursive.token` is that
reading, with words looked at character by character until the bracket behind `PUSHDATA` turns up.

The reader of this library collects all headers first and checks their sizes afterwards, innermost
first.  `headers_eq_foldl` says that collecting headers comes down to applying the demands of the
recursion in that order, and `decodeLocated_eq_recursive` that both readings agree on every text,
in tokens, spans and errors.
-/

namespace ScriptCodec
namespace Asm

namespace Recursive

/-- What reading on finds: nothing more, or a token with the cursor behind it. -/
abbrev Found : Type := Except Error (Option (Located × Cursor Char))

/-- A token that was read from `here` on. -/
def located (here : Cursor Char) : Reading → Found
  | .error e => .error e
  | .ok (t, behind) => .ok (some (⟨t, ⟨here.pos, behind.pos⟩⟩, behind))

/-- The characters in front of the bracket of a size header. -/
def pushData : List Char :=
  ['P', 'U', 'S', 'H', 'D', 'A', 'T', 'A']

/-- What the characters of a term come to. -/
inductive TermEnd where
  /-- The bracket of a size header -/
  | header
  /-- A character that no word has -/
  | foreign (position : Nat)
  /-- White space or the end of the text, with the word in front of it -/
  | word (word : List Char) (behind : Cursor Char)

/-- Walks over the characters of a term, of which `term` are already read. -/
def scanTerm (pos : Nat) (term : List Char) : List Char → TermEnd
  | [] => .word term ⟨pos, []⟩
  | ch :: rest =>
      if isSpace ch then .word term ⟨pos, ch :: rest⟩
      else if ch = '(' ∧ term = pushData then .header
      else if isTermChar ch then scanTerm (pos + 1) (term ++ [ch]) rest
      else .foreign pos

/-- Whether a token is a term: it starts with a character of words, but neither as a hex literal
with its mark nor as a zero on its own. -/
def startsTerm : List Char → Bool
  | [] => false
  | ch :: body =>
      isTermChar ch &&
        !(ch == '0' && (body.head? == some 'x' || body.head? == some 'X' || body.head?.all isSpace))

/-- The opcode of a whole word, as far as it may stand alone. -/
def opcodeOfWord (lexicon : Lexicon) (word : List Char) (position : Nat) : Except Error UInt8 :=
  match lexicon.opcodeOf (Term.normalize word) position with
  | .error e => .error e
  | .ok code => if Opcode.isPush code then .error (.invalidOpcode code position) else .ok code

/-- A word that was read from `here` on. -/
def wordToken (lexicon : Lexicon) (here : Cursor Char) (word : List Char) (behind : Cursor Char) :
    Reading :=
  (opcodeOfWord lexicon word here.pos).map fun code => (.opcode code, behind)

/-- Where a term cannot be read, its characters are a literal if all of them are hex digits. -/
def orBare (here : Cursor Char) : Found → Found
  | .error e =>
      if (here.rest.takeWhile fun ch => !isSpace ch).all Hex.isDigit then
        located here (bareLiteral here.pos here)
      else .error e
  | found => found

/-- Demands a literal of the size of a header and lets it start at the header. -/
def demand (h : Header) : Found → Found
  | .error e => .error e
  | .ok (some (⟨.literal data, span⟩, behind)) =>
      if data.length = h.size then .ok (some (⟨.literal data, ⟨h.start, span.stop⟩⟩, behind))
      else .error (.pushdataSizeMismatch span.start h.size data.length)
  | .ok _ => .error (.pushdataMissingLiteral h.start)

/-- Reads the next token.  Behind a size header it is read by recursion. -/
def token (lexicon : Lexicon) (placeholders : Bool) (c : Cursor Char) : Found :=
  let here := c.skipWhile isSpace
  if here.rest.isEmpty then .ok none
  else if startsTerm here.rest then
    orBare here
      (match scanTerm here.pos [] here.rest with
      | .header =>
          match _h : header here with
          | .error e => .error e
          | .ok (h, behind) => demand h (token lexicon false behind)
      | .foreign position => .error (.unexpectedCharacter position)
      | .word word behind => located here (wordToken lexicon here word behind))
  else located here (plainToken lexicon placeholders here)
termination_by c.rest.length
decreasing_by
  exact Nat.lt_of_lt_of_le (header_shrinks _h) (Cursor.length_rest_skipWhile_le isSpace c)

/-- The next token as a step of reading. -/
def step (lexicon : Lexicon) (placeholders : Bool) (c : Cursor Char) :
    Step (Cursor Char) Located Error :=
  match token lexicon placeholders c with
  | .error e => .fault e
  | .ok none => .done
  | .ok (some (s, behind)) => .item s behind

/-! ## Terms -/

section Terms

variable {pos : Nat} {ch : Char} {term xs : List Char}

theorem scanTerm_of_space
    (space : isSpace ch = true) :
    scanTerm pos term (ch :: xs) = .word term ⟨pos, ch :: xs⟩ := by
  rw [scanTerm, if_pos space]

theorem scanTerm_of_bracket :
    scanTerm pos pushData ('(' :: xs) = .header := by
  rfl

theorem scanTerm_of_termChar
    (termChar : isTermChar ch = true) :
    scanTerm pos term (ch :: xs) = scanTerm (pos + 1) (term ++ [ch]) xs := by
  have noSpace : ¬ isSpace ch = true := by
    simp [not_isSpace_of_isTermChar termChar]
  have noBracket : ¬ (ch = '(' ∧ term = pushData) := by
    rintro ⟨rfl, _⟩
    cases termChar
  rw [scanTerm, if_neg noSpace, if_neg noBracket, if_pos termChar]

theorem scanTerm_of_foreign
    (noSpace : ¬ isSpace ch = true)
    (noTermChar : ¬ isTermChar ch = true)
    (noBracket : ¬ (ch = '(' ∧ term = pushData)) :
    scanTerm pos term (ch :: xs) = .foreign pos := by
  rw [scanTerm, if_neg noSpace, if_neg noBracket, if_neg noTermChar]

/-- The characters of a term, white space and the bracket of a size header are all different. -/
theorem scanTerm_cases
    (ch : Char)
    (term : List Char) :
    isSpace ch = true ∨ isTermChar ch = true ∨ (ch = '(' ∧ term = pushData) ∨
      (¬ isSpace ch = true ∧ ¬ isTermChar ch = true ∧ ¬ (ch = '(' ∧ term = pushData)) := by
  by_cases space : isSpace ch = true
  · exact .inl space
  · by_cases termChar : isTermChar ch = true
    · exact .inr (.inl termChar)
    · by_cases bracket : ch = '(' ∧ term = pushData
      · exact .inr (.inr (.inl bracket))
      · exact .inr (.inr (.inr ⟨space, termChar, bracket⟩))

theorem isTermChar_of_mem_pushData :
    ∀ ch ∈ pushData, isTermChar ch = true :=
  List.all_eq_true.mp (by decide)

/-- A scan that has read a part of `PUSHDATA` stops at the bracket behind the rest of it. -/
theorem scanTerm_of_pushData
    {more rest : List Char}
    (whole : term ++ more = pushData) :
    scanTerm pos term (more ++ '(' :: rest) = .header := by
  induction more generalizing pos term with
  | nil =>
      rw [List.append_nil] at whole
      rw [whole, List.nil_append, scanTerm_of_bracket]
  | cons ch more ih =>
      have inside : ch ∈ pushData := by
        rw [← whole]
        simp
      rw [List.cons_append, scanTerm_of_termChar (isTermChar_of_mem_pushData ch inside)]
      exact ih (by simpa using whole)

/-- A scan stops at a bracket only behind `PUSHDATA`. -/
theorem exists_pushData_of_scanTerm
    (stopped : scanTerm pos term xs = .header) :
    ∃ more rest, xs = more ++ '(' :: rest ∧ term ++ more = pushData := by
  induction xs generalizing pos term with
  | nil =>
      cases stopped
  | cons ch xs ih =>
      rcases scanTerm_cases ch term with space | termChar | ⟨rfl, rfl⟩ | ⟨noSpace, noTerm, noMark⟩
      · rw [scanTerm_of_space space] at stopped
        cases stopped
      · rw [scanTerm_of_termChar termChar] at stopped
        obtain ⟨more, rest, rfl, whole⟩ := ih stopped
        exact ⟨ch :: more, rest, rfl, by simpa using whole⟩
      · exact ⟨[], xs, rfl, List.append_nil _⟩
      · rw [scanTerm_of_foreign noSpace noTerm noMark] at stopped
        cases stopped

/-- The scan finds a size header exactly where the mark of one stands. -/
theorem scanTerm_eq_header_iff :
    scanTerm pos [] xs = .header ↔ headerMark.isPrefixOf xs = true := by
  rw [List.isPrefixOf_iff_prefix]
  constructor
  · intro stopped
    obtain ⟨more, rest, rfl, rfl⟩ := exists_pushData_of_scanTerm stopped
    exact ⟨rest, rfl⟩
  · rintro ⟨rest, rfl⟩
    have whole : [] ++ pushData = pushData := rfl
    exact scanTerm_of_pushData whole

/-- A scan that does not stop at a size header looks at the characters up to white space. -/
theorem scanTerm_of_ne_header
    (noHeader : scanTerm pos term xs ≠ .header) :
    scanTerm pos term xs =
      match (xs.takeWhile fun ch => !isSpace ch).findIdx? fun ch => !isTermChar ch with
      | some i => .foreign (pos + i)
      | none =>
          .word (term ++ xs.takeWhile fun ch => !isSpace ch)
            ((Cursor.mk pos xs).skipWhile fun ch => !isSpace ch) := by
  induction xs generalizing pos term with
  | nil =>
      simp [scanTerm, Cursor.skipWhile]
  | cons ch xs ih =>
      rcases scanTerm_cases ch term with space | termChar | ⟨rfl, rfl⟩ | ⟨noSpace, noTerm, noMark⟩
      · rw [scanTerm_of_space space]
        simp [space, Cursor.skipWhile]
      · have noSpace := not_isSpace_of_isTermChar termChar
        rw [scanTerm_of_termChar termChar] at noHeader ⊢
        rw [ih noHeader]
        simp only [List.takeWhile_cons, noSpace, Bool.not_false, if_true, List.findIdx?_cons,
          termChar, Bool.not_true, Bool.false_eq_true, if_false]
        cases (xs.takeWhile fun ch => !isSpace ch).findIdx? fun ch => !isTermChar ch with
        | none =>
            simp [Cursor.skipWhile, noSpace, Nat.add_assoc, Nat.add_comm 1]
        | some i =>
            simp [Nat.add_assoc, Nat.add_comm 1]
      · exact absurd scanTerm_of_bracket noHeader
      · rw [scanTerm_of_foreign noSpace noTerm noMark]
        simp [noSpace, noTerm, List.findIdx?_cons]

end Terms

section Words

variable {lexicon : Lexicon} {placeholders : Bool} {here : Cursor Char}

/-- A token that is a term is read as a word. -/
theorem plainToken_of_startsTerm
    (starts : startsTerm here.rest = true) :
    plainToken lexicon placeholders here = word lexicon here := by
  cases rest : here.rest with
  | nil =>
      rw [rest] at starts
      cases starts
  | cons ch body =>
      rw [rest] at starts
      simp only [startsTerm, Bool.and_eq_true, Bool.not_eq_true', Bool.and_eq_false_imp,
        Bool.or_eq_false_iff, beq_iff_eq, beq_eq_false_iff_ne] at starts
      obtain ⟨termChar, noZero⟩ := starts
      have noHex : ¬ (ch = '0' ∧ (body.head? = some 'x' ∨ body.head? = some 'X')) := by
        rintro ⟨zero, mark | mark⟩
        · exact (noZero zero).1.1 mark
        · exact (noZero zero).1.2 mark
      have noLone : ¬ (ch = '0' ∧ body.head?.all isSpace = true) := by
        rintro ⟨zero, lone⟩
        rw [(noZero zero).2] at lone
        cases lone
      rw [plainToken_of_isTermChar _ _ rest termChar, if_neg noHex, if_neg noLone]

/-- The characters up to white space are read as a term, or else they are a bare literal. -/
theorem located_word :
    located here (word lexicon here) =
      orBare here
        (located here
          ((lexicon.readTerm (here.rest.takeWhile fun ch => !isSpace ch) here.pos).map
            fun code => (.opcode code, here.skipWhile fun ch => !isSpace ch))) := by
  simp only [word]
  cases lexicon.readTerm (here.rest.takeWhile fun ch => !isSpace ch) here.pos with
  | ok code =>
      rfl
  | error e =>
      by_cases hex : (here.rest.takeWhile fun ch => !isSpace ch).all Hex.isDigit = true
      · simp only [Except.map, located, orBare, if_pos hex]
      · simp only [Except.map, located, orBare, if_neg hex]

/-- A scan that does not stop at a size header reads the same term. -/
theorem scanned_eq_readTerm
    {sized : Found}
    (noHeader : scanTerm here.pos [] here.rest ≠ .header) :
    (match scanTerm here.pos [] here.rest with
      | .header => sized
      | .foreign position => .error (.unexpectedCharacter position)
      | .word run behind => located here (wordToken lexicon here run behind)) =
      located here
        ((lexicon.readTerm (here.rest.takeWhile fun ch => !isSpace ch) here.pos).map
          fun code => (.opcode code, here.skipWhile fun ch => !isSpace ch)) := by
  rw [scanTerm_of_ne_header noHeader, Lexicon.readTerm]
  cases (here.rest.takeWhile fun ch => !isSpace ch).findIdx? fun ch => !isTermChar ch with
  | some i =>
      rfl
  | none =>
      rfl

end Words

/-! ## The next token -/

section Tokens

variable {lexicon : Lexicon} {placeholders : Bool} {c : Cursor Char}

/-- What stands where no size header does: nothing more, or a token without one. -/
def plain
    (lexicon : Lexicon)
    (placeholders : Bool)
    (here : Cursor Char) :
    Found :=
  if here.rest.isEmpty then .ok none else located here (plainToken lexicon placeholders here)

theorem token_of_no_mark
    (noMark : headerMark.isPrefixOf (c.skipWhile isSpace).rest = false) :
    token lexicon placeholders c = plain lexicon placeholders (c.skipWhile isSpace) := by
  have noHeader :
      scanTerm (c.skipWhile isSpace).pos [] (c.skipWhile isSpace).rest ≠ .header := by
    intro stopped
    rw [scanTerm_eq_header_iff.mp stopped] at noMark
    cases noMark
  rw [token, plain]
  by_cases nothing : (c.skipWhile isSpace).rest.isEmpty = true
  · simp only [if_pos nothing]
  · by_cases starts : startsTerm (c.skipWhile isSpace).rest = true
    · simp only [if_neg nothing, if_pos starts]
      rw [plainToken_of_startsTerm starts, located_word]
      exact congrArg (orBare _) (scanned_eq_readTerm noHeader)
    · simp only [if_neg nothing, if_neg starts]

/-- The characters of a size header are no hex digits, so its faults stand. -/
theorem orBare_of_mark
    {here : Cursor Char}
    (mark : headerMark.isPrefixOf here.rest = true)
    (found : Found) :
    orBare here found = found := by
  obtain ⟨rest, split⟩ := List.isPrefixOf_iff_prefix.mp mark
  have noHex : (here.rest.takeWhile fun ch => !isSpace ch).all Hex.isDigit = false := by
    rw [← split]
    rfl
  cases found with
  | ok found =>
      rfl
  | error e =>
      rw [orBare, noHex]
      rfl

/-- A size header that is read demands a literal of what is found behind it. -/
theorem token_of_mark
    (mark : headerMark.isPrefixOf (c.skipWhile isSpace).rest = true) :
    token lexicon placeholders c =
      match header (c.skipWhile isSpace) with
      | .error e => .error e
      | .ok (h, behind) => demand h (token lexicon false behind) := by
  obtain ⟨rest, split⟩ := List.isPrefixOf_iff_prefix.mp mark
  have more : (c.skipWhile isSpace).rest.isEmpty = false := by
    rw [← split]
    rfl
  have starts : startsTerm (c.skipWhile isSpace).rest = true := by
    rw [← split]
    rfl
  rw [token]
  simp only [more, Bool.false_eq_true, if_false, starts, if_true,
    scanTerm_eq_header_iff.mpr mark, orBare_of_mark mark]
  split
  · next e failed =>
      rw [failed]
  · next h behind read =>
      rw [read]

end Tokens

/-! ## Headers and demands -/

/-- The demands of headers, innermost first. -/
def demandAll
    (hs : List Header)
    (found : Found) :
    Found :=
  hs.foldl (fun found h => demand h found) found

/-- What the reader of this library makes of the headers it has collected. -/
def collected
    (lexicon : Lexicon)
    (placeholders : Bool) :
    Except Error (List Header × Cursor Char) → Found
  | .error e => .error e
  | .ok ([], here) => plain lexicon placeholders here
  | .ok (inner :: outer, here) => (sizedLiteral lexicon inner outer here).map some

section Headers

variable {lexicon : Lexicon} {placeholders : Bool}

/-- Demands leave a failure as it is. -/
theorem demandAll_error
    (hs : List Header)
    (e : Error) :
    demandAll hs (.error e) = .error e := by
  induction hs with
  | nil =>
      rfl
  | cons h hs ih =>
      exact ih

/-- Demands on a literal check its size against the headers. -/
theorem demandAll_literal
    (hs : List Header)
    (data : List UInt8)
    (start stop : Nat)
    (behind : Cursor Char) :
    demandAll hs (.ok (some (⟨.literal data, ⟨start, stop⟩⟩, behind))) =
      (checkSizes data.length start hs).map
        fun start => some (⟨.literal data, ⟨start, stop⟩⟩, behind) := by
  induction hs generalizing start with
  | nil =>
      rfl
  | cons h hs ih =>
      by_cases size : data.length = h.size
      · rw [checkSizes, if_pos size.symm, ← ih h.start]
        simp only [demandAll, List.foldl_cons, demand, if_pos size]
      · rw [checkSizes, if_neg (Ne.symm size)]
        simp only [demandAll, List.foldl_cons, demand, if_neg size]
        exact demandAll_error hs _

/-- What is read behind headers is what they demand of the token there. -/
theorem sizedLiteral_eq_demandAll
    (inner : Header)
    (outer : List Header)
    (here : Cursor Char) :
    (sizedLiteral lexicon inner outer here).map some =
      demandAll (inner :: outer) (plain lexicon false here) := by
  have missing : demandAll (inner :: outer) (.ok none) =
      .error (.pushdataMissingLiteral inner.start) :=
    demandAll_error outer _
  rw [sizedLiteral, plain]
  by_cases nothing : here.rest.isEmpty = true
  · rw [if_pos nothing, if_pos nothing, missing]
    rfl
  · rw [if_neg nothing, if_neg nothing]
    cases plainToken lexicon false here with
    | error e =>
        exact (demandAll_error (inner :: outer) e).symm
    | ok read =>
        obtain ⟨t, behind⟩ := read
        cases t with
        | literal data =>
            simp only [located, demandAll_literal]
            cases checkSizes data.length here.pos (inner :: outer) with
            | error e =>
                rfl
            | ok start =>
                rfl
        | _ =>
            exact (demandAll_error outer _).symm

/-- Collecting headers in front of a token comes down to reading it by recursion and then making
the demands of the headers that were read before.  The first header forbids template entries. -/
theorem collected_headers
    (outer : List Header)
    (c : Cursor Char) :
    collected lexicon placeholders (headers outer c) =
      demandAll outer (token lexicon (placeholders && outer.isEmpty) c) := by
  fun_induction headers outer c with
  | case1 outer c here mark e failed =>
      rw [token_of_mark mark, failed]
      exact (demandAll_error outer e).symm
  | case2 outer c here mark h behind read ih =>
      rw [token_of_mark mark, read, ih]
      simp [demandAll]
  | case3 outer c here mark =>
      rw [token_of_no_mark (eq_false_of_ne_true mark)]
      cases outer with
      | nil =>
          simp only [List.isEmpty_nil, Bool.and_true]
          rfl
      | cons inner outer =>
          simp only [List.isEmpty_cons, Bool.and_false]
          exact sizedLiteral_eq_demandAll inner outer here

/-- A step by recursion is a step. -/
theorem step_eq
    (c : Cursor Char) :
    step lexicon placeholders c = Asm.step lexicon placeholders c := by
  have found : token lexicon placeholders c =
      collected lexicon placeholders (headers [] c) := by
    rw [collected_headers, List.isEmpty_nil, Bool.and_true]
    rfl
  rw [step, found, Asm.step]
  cases headers [] c with
  | error e =>
      rfl
  | ok read =>
      obtain ⟨hs, here⟩ := read
      cases hs with
      | nil =>
          simp only [collected, plain]
          by_cases nothing : here.rest.isEmpty = true
          · simp only [if_pos nothing]
          · simp only [if_neg nothing]
            cases plainToken lexicon placeholders here with
            | error e =>
                rfl
            | ok read =>
                rfl
      | cons inner outer =>
          simp only [collected]
          cases sizedLiteral lexicon inner outer here with
          | error e =>
              rfl
          | ok read =>
              rfl

end Headers

/-! ## Whole texts -/

/-- The reader that reads size headers by recursion. -/
def reader
    (lexicon : Lexicon)
    (placeholders : Bool) :
    Reader (Cursor Char) Located Error where
  step := step lexicon placeholders
  size c := c.rest.length
  shrinks := by
    intro c s behind found
    rw [step_eq] at found
    exact step_shrinks found

/-- Reads a text by recursion, with the character range of every token. -/
def decodeLocated
    (text : List Char)
    (options : Options)
    (table : Opcode.Table) :
    Except Error (List Located) :=
  ((reader ⟨options.terms, table⟩ options.allowPlaceholders).run (Cursor.start text)).toExcept

end Recursive

/-- **Nested size headers**: collecting headers in a loop and reading them by recursion give the
same tokens with the same spans, or the same error, on every text. -/
theorem decodeLocated_eq_recursive
    (text : List Char)
    (options : Options)
    (table : Opcode.Table) :
    decodeLocated text options table = Recursive.decodeLocated text options table := by
  have same :
      (Recursive.reader ⟨options.terms, table⟩ options.allowPlaceholders).run (Cursor.start text) =
        (reader ⟨options.terms, table⟩ options.allowPlaceholders).run (Cursor.start text) :=
    Reader.run_congr Recursive.step_eq (Cursor.start text)
  rw [decodeLocated, Recursive.decodeLocated, scan, same]

/-- Sizes are checked from the inside out, so the inner header is the one that does not fit. -/
example :
    Recursive.decodeLocated "PUSHDATA(1)PUSHDATA(2)[ab]".toList Options.default
      Opcode.Table.standard = .error (.pushdataSizeMismatch 22 2 1) := by
  decide +kernel

end Asm
end ScriptCodec
