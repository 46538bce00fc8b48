import ScriptCodec.Proofs.Asm.Composition
import ScriptCodec.Proofs.Asm.Rendering
import ScriptCodec.Proofs.Opcode.Wording

/-!
# Texts of words and bare literals

A text of letters, digits, underscores and white space has no brackets, size headers or template
entries.  It falls into chunks, the stretches between white space, and one rule says what a chunk
is: `Chunk.meaning`.  A zero on its own is the empty value, a chunk with the hex mark is a literal
or nothing, and any other chunk is an opcode if it names one that stands alone, or else a literal
if all of it are hex digits.

`decodeLocated_eq_chunks` says that a text is read by giving each of its chunks this meaning, from
left to right up to the first one without meaning.
-/

namespace ScriptCodec

namespace Hex

/-- The bytes that pairs of digits stand for. -/
def bytesOfPairs : List Char → List UInt8
  | high :: low :: rest =>
      UInt8.ofNat (16 * (digit? high).getD 0 + (digit? low).getD 0) :: bytesOfPairs rest
  | _ => []

/-- Digits in pairs are read pair by pair. -/
theorem ofDigitsOnto_eq_bytesOfPairs
    (read : List UInt8)
    {cs : List Char}
    (known : ∀ c ∈ cs, isDigit c = true) :
    ofDigitsOnto read cs =
      if cs.length % 2 = 1 then none else some (read.reverse ++ bytesOfPairs cs) := by
  fun_induction ofDigitsOnto read cs with
  | case1 read =>
      simp [bytesOfPairs]
  | case2 read c =>
      rfl
  | case3 read a b rest x y high low ih =>
      have others : ∀ c ∈ rest, isDigit c = true := by
        intro c mem
        exact known c (by simp [mem])
      have parity : (a :: b :: rest).length % 2 = rest.length % 2 := by
        simp only [List.length_cons]
        omega
      rw [ih others, parity, bytesOfPairs, high, low]
      simp
  | case4 read a b rest unknown =>
      obtain ⟨x, high⟩ := Option.isSome_iff_exists.mp (known a (by simp))
      obtain ⟨y, low⟩ := Option.isSome_iff_exists.mp (known b (by simp))
      exact (unknown x y high low).elim

end Hex

namespace Asm

/-- A stretch of characters without white space, with the offset of its first character. -/
structure Chunk where
  start : Nat
  chars : List Char
deriving DecidableEq, Repr

/-- Pieces that stand behind one another with one character in between, from `pos` on. -/
def placePieces (pos : Nat) : List (List Char) → List Chunk
  | [] => []
  | piece :: pieces => ⟨pos, piece⟩ :: placePieces (pos + piece.length + 1) pieces

/-- The chunks of a text from `pos` on: what stands between white space, unless nothing does. -/
def chunksFrom (pos : Nat) (text : List Char) : List Chunk :=
  (placePieces pos (text.splitOnP isSpace)).filter fun chunk => !chunk.chars.isEmpty

/-- The chunks of a text. -/
def chunks (text : List Char) : List Chunk :=
  chunksFrom 0 text

namespace Chunk

/-- The range of a chunk. -/
def span (chunk : Chunk) : Span :=
  ⟨chunk.start, chunk.start + chunk.chars.length⟩

/-- The literal of hex digits in a chunk, which have to be in pairs. -/
def literal (chunk : Chunk) (digits : List Char) : Except Error Token :=
  if digits.length % 2 = 1 then .error (.invalidHexLiteral chunk.start)
  else .ok (.literal (Hex.bytesOfPairs digits))

/-- The opcode that a chunk names: an overriding term comes before a word of the table. -/
def code? (lexicon : Lexicon) (chunk : Chunk) : Option UInt8 :=
  (lexicon.terms.get? (Term.normalize chunk.chars)).or
    (lexicon.table.codeOfWord (Term.normalize chunk.chars)).toOption

/-- The token that a chunk stands for. -/
def meaning (lexicon : Lexicon) (chunk : Chunk) : Except Error Token :=
  if chunk.chars = ['0'] then .ok (.opcode Opcode.zero)
  else if chunk.chars.take 2 = ['0', 'x'] ∨ chunk.chars.take 2 = ['0', 'X'] then
    match (chunk.chars.drop 2).findIdx? fun ch => !Hex.isDigit ch with
    | some i => .error (.unexpectedCharacter (chunk.start + 2 + i))
    | none => chunk.literal (chunk.chars.drop 2)
  else
    match chunk.code? lexicon with
    | some code =>
        if !Opcode.isPush code then .ok (.opcode code)
        else if chunk.chars.all Hex.isDigit then chunk.literal chunk.chars
        else .error (.invalidOpcode code chunk.start)
    | none =>
        if chunk.chars.all Hex.isDigit then chunk.literal chunk.chars
        else .error (.unknownTerm (Term.normalize chunk.chars) chunk.start)

end Chunk

/-- A text without brackets, size headers and template entries. -/
def Bare
    (text : List Char) : Prop :=
  ∀ ch ∈ text, isTermChar ch = true ∨ isSpace ch = true

instance (text : List Char) : Decidable (Bare text) :=
  List.decidableBAll (fun ch => isTermChar ch = true ∨ isSpace ch = true) text

/-! ## The chunks of a text -/

section Chunks

variable {pos : Nat} {text : List Char}

theorem chunksFrom_nil :
    chunksFrom pos [] = [] := by
  simp [chunksFrom, placePieces]

theorem chunksFrom_space
    {ch : Char}
    (space : isSpace ch = true) :
    chunksFrom pos (ch :: text) = chunksFrom (pos + 1) text := by
  have split : (ch :: text).splitOnP isSpace = [] :: text.splitOnP isSpace := by
    rw [List.splitOnP_cons_eq_if_modifyHead, if_pos space]
  simp [chunksFrom, split, placePieces]

/-- White space in front of a text only moves its chunks. -/
theorem chunksFrom_skipWhile
    (c : Cursor Char) :
    chunksFrom c.pos c.rest =
      chunksFrom (c.skipWhile isSpace).pos (c.skipWhile isSpace).rest := by
  obtain ⟨pos, text⟩ := c
  induction text generalizing pos with
  | nil =>
      rfl
  | cons ch text ih =>
      by_cases space : isSpace ch = true
      · have next := ih (pos + 1)
        simp only [Cursor.skipWhile] at next ⊢
        rw [chunksFrom_space space, next]
        simp [space, Nat.add_assoc, Nat.add_comm 1]
      · simp [Cursor.skipWhile, space]

/-- The first chunk of a text ends at white space. -/
theorem chunksFrom_append
    {chars : List Char}
    (some_char : chars ≠ [])
    (dense : ∀ ch ∈ chars, isSpace ch = false)
    (separates : Separates text) :
    chunksFrom pos (chars ++ text) =
      ⟨pos, chars⟩ :: chunksFrom (pos + chars.length) text := by
  have kept : (!chars.isEmpty) = true := by
    simpa using some_char
  cases text with
  | nil =>
      rw [List.append_nil, chunksFrom_nil, chunksFrom, List.splitOnP_eq_singleton dense]
      simp [placePieces, kept]
  | cons ch text =>
      have space : isSpace ch = true :=
        separates ch rfl
      rw [chunksFrom_space space, chunksFrom,
        List.splitOnP_append_cons_of_forall_mem dense ch space text, placePieces,
        List.filter_cons, if_pos kept]
      rfl

end Chunks

/-! ## The meaning of a chunk -/

section Meanings

variable
  {lexicon : Lexicon}
  {placeholders : Bool}
  {here : Cursor Char}

/-- The chunk in front of a cursor. -/
def Chunk.at (here : Cursor Char) : Chunk :=
  ⟨here.pos, here.rest.takeWhile fun ch => !isSpace ch⟩

/-- What reading finds in a chunk: the token that it means, with the cursor behind the chunk. -/
def Chunk.found (here : Cursor Char) (meaning : Except Error Token) : Reading :=
  meaning.map fun t => (t, here.skipWhile fun ch => !isSpace ch)

/-- The chunk in front of a cursor is the first of its text. -/
theorem chunksFrom_eq_cons
    {ch : Char}
    {body : List Char}
    (rest : here.rest = ch :: body)
    (dense : isSpace ch = false) :
    chunksFrom here.pos here.rest =
      Chunk.at here :: chunksFrom (here.skipWhile fun ch => !isSpace ch).pos
        (here.skipWhile fun ch => !isSpace ch).rest := by
  have some_char : here.rest.takeWhile (fun ch => !isSpace ch) ≠ [] := by
    simp [rest, dense]
  have all_dense : ∀ ch ∈ here.rest.takeWhile (fun ch => !isSpace ch), isSpace ch = false := by
    intro ch mem
    simpa using List.mem_takeWhile_imp mem
  have separates : Separates (here.rest.dropWhile fun ch => !isSpace ch) := by
    intro ch first
    simpa using Cursor.not_of_head?_skipWhile (c := here) first
  have split : here.rest = here.rest.takeWhile (fun ch => !isSpace ch) ++
      here.rest.dropWhile fun ch => !isSpace ch :=
    List.takeWhile_append_dropWhile.symm
  calc
    chunksFrom here.pos here.rest =
        chunksFrom here.pos (here.rest.takeWhile (fun ch => !isSpace ch) ++
          here.rest.dropWhile fun ch => !isSpace ch) := by
      rw [← split]
    _ = _ := chunksFrom_append some_char all_dense separates

theorem finishLiteral_eq_literal
    {digits : List Char}
    (known : ∀ ch ∈ digits, Hex.isDigit ch = true) :
    finishLiteral here.pos digits (here.skipWhile fun ch => !isSpace ch) =
      Chunk.found here ((Chunk.at here).literal digits) := by
  rw [finishLiteral, Hex.ofDigits?, Hex.ofDigitsOnto_eq_bytesOfPairs [] known, Chunk.literal]
  by_cases odd : digits.length % 2 = 1
  · simp only [if_pos odd]
    rfl
  · simp only [if_neg odd]
    rfl

theorem isDigit_of_findIdx?_eq_none
    {digits : List Char}
    (none_foreign : (digits.findIdx? fun ch => !Hex.isDigit ch) = none) :
    ∀ ch ∈ digits, Hex.isDigit ch = true := by
  simpa using none_foreign

/-- A chunk of hex digits is read as a literal. -/
theorem bareLiteral_eq_literal
    (hex : (Chunk.at here).chars.all Hex.isDigit = true) :
    bareLiteral here.pos here =
      Chunk.found here ((Chunk.at here).literal (Chunk.at here).chars) := by
  have known := List.all_eq_true.mp hex
  have none_foreign :
      ((Chunk.at here).chars.findIdx? fun ch => !Hex.isDigit ch) = none := by
    simpa using known
  have run : here.rest.takeWhile (fun ch => !isSpace ch) = (Chunk.at here).chars := rfl
  rw [bareLiteral]
  simp only [run, none_foreign]
  exact finishLiteral_eq_literal known

/-- On a consistent table a word is unknown exactly if it names no opcode. -/
theorem opcodeOf_eq_code?
    (consistent : lexicon.table.Consistent)
    (chunk : Chunk) :
    lexicon.opcodeOf (Term.normalize chunk.chars) chunk.start =
      match chunk.code? lexicon with
      | some code => .ok code
      | none => .error (.unknownTerm (Term.normalize chunk.chars) chunk.start) := by
  generalize named : Term.normalize chunk.chars = word
  simp only [Lexicon.opcodeOf, Chunk.code?, named]
  cases lexicon.terms.get? word with
  | some code =>
      rfl
  | none =>
      cases known : lexicon.table.hasWord word with
      | true =>
          obtain ⟨row, mem, in_row⟩ := Opcode.Table.hasWord_iff.mp known
          obtain ⟨code, _, found⟩ := consistent.exists_codeOfWord mem in_row
          rw [found]
          rfl
      | false =>
          cases found : lexicon.table.codeOfWord word with
          | error e =>
              rfl
          | ok code =>
              obtain ⟨row, mem, in_row, _⟩ := Opcode.Table.row_of_codeOfWord found
              rw [Opcode.Table.hasWord_iff.mpr ⟨row, mem, in_row⟩] at known
              cases known

theorem word_eq_meaning
    (consistent : lexicon.table.Consistent)
    (noZero : (Chunk.at here).chars ≠ ['0'])
    (noMark : ¬ ((Chunk.at here).chars.take 2 = ['0', 'x'] ∨
      (Chunk.at here).chars.take 2 = ['0', 'X']))
    (chars : ∀ ch ∈ (Chunk.at here).chars, isTermChar ch = true) :
    word lexicon here = Chunk.found here ((Chunk.at here).meaning lexicon) := by
  have none_foreign : ((Chunk.at here).chars.findIdx? fun ch => !isTermChar ch) = none := by
    simpa using chars
  have run : here.rest.takeWhile (fun ch => !isSpace ch) = (Chunk.at here).chars := rfl
  have start : here.pos = (Chunk.at here).start := rfl
  simp only [word, run, Lexicon.readTerm, none_foreign]
  rw [start, opcodeOf_eq_code? consistent, Chunk.meaning, if_neg noZero, if_neg noMark]
  cases (Chunk.at here).code? lexicon with
  | some code =>
      by_cases push : Opcode.isPush code = true
      · simp only [push, if_true, Bool.not_true, Bool.false_eq_true, if_false]
        split
        · next hex =>
            exact bareLiteral_eq_literal hex
        · rfl
      · simp only [push]
        rfl
  | none =>
      simp only
      split
      · next hex =>
          exact bareLiteral_eq_literal hex
      · rfl

/-- A zero is on its own where white space or the end of the text follows it. -/
theorem takeWhile_eq_nil_iff_head?
    (body : List Char) :
    body.takeWhile (fun ch => !isSpace ch) = [] ↔ body.head?.all isSpace = true := by
  cases body with
  | nil =>
      simp
  | cons ch body =>
      by_cases space : isSpace ch = true
      · simp [space]
      · simp [space]

/-- A chunk has the hex mark where its second character is the letter of the mark. -/
theorem take_two_iff_head?
    (ch : Char)
    (body : List Char) :
    ((ch :: body.takeWhile fun ch => !isSpace ch).take 2 = ['0', 'x'] ∨
        (ch :: body.takeWhile fun ch => !isSpace ch).take 2 = ['0', 'X']) ↔
      ch = '0' ∧ (body.head? = some 'x' ∨ body.head? = some 'X') := by
  cases body with
  | nil =>
      simp
  | cons second body =>
      by_cases space : isSpace second = true
      · have noMark : ∀ mark, isSpace mark = false → second ≠ mark := by
          rintro mark dense rfl
          rw [space] at dense
          cases dense
        simp [space, noMark 'x' rfl, noMark 'X' rfl]
      · simp [space, and_or_left]

/-- Behind its mark a literal is read to the end of the chunk. -/
theorem bareLiteral_eq_meaning
    {mark : Char}
    {body : List Char}
    (letter : mark = 'x' ∨ mark = 'X')
    (rest : here.rest = '0' :: mark :: body) :
    bareLiteral here.pos (here.advance 2) =
      Chunk.found here ((Chunk.at here).meaning lexicon) := by
  have dense : isSpace mark = false := by
    rcases letter with rfl | rfl
    · rfl
    · rfl
  have chars : (Chunk.at here).chars = '0' :: mark :: body.takeWhile fun ch => !isSpace ch := by
    have zero : isSpace '0' = false := rfl
    simp [Chunk.at, rest, dense, zero]
  have behind : (here.advance 2).skipWhile (fun ch => !isSpace ch) =
      here.skipWhile fun ch => !isSpace ch := by
    have zero : isSpace '0' = false := rfl
    simp only [Cursor.skipWhile, Cursor.advance, rest, List.drop_succ_cons, List.drop_zero,
      List.takeWhile_cons, List.dropWhile_cons, dense, zero, Bool.not_false, if_true,
      List.length_cons, Cursor.mk.injEq, and_true]
    omega
  have digits : (here.advance 2).rest = body := by
    simp [Cursor.advance, rest]
  have noZero : (Chunk.at here).chars ≠ ['0'] := by
    simp [chars]
  have marked : (Chunk.at here).chars.take 2 = ['0', 'x'] ∨
      (Chunk.at here).chars.take 2 = ['0', 'X'] := by
    simpa [chars] using letter
  rw [Chunk.meaning, if_neg noZero, if_pos marked, bareLiteral, behind, digits, chars]
  simp only [List.drop_succ_cons, List.drop_zero]
  cases found : (body.takeWhile fun ch => !isSpace ch).findIdx? fun ch => !Hex.isDigit ch with
  | some i =>
      rfl
  | none =>
      exact finishLiteral_eq_literal (isDigit_of_findIdx?_eq_none found)

/-- A token is what the chunk in front of it means. -/
theorem plainToken_eq_meaning
    (placeholders : Bool)
    (consistent : lexicon.table.Consistent)
    {ch : Char}
    {body : List Char}
    (rest : here.rest = ch :: body)
    (dense : isSpace ch = false)
    (bare : Bare here.rest) :
    plainToken lexicon placeholders here =
      Chunk.found here ((Chunk.at here).meaning lexicon) := by
  have chars : (Chunk.at here).chars = ch :: body.takeWhile fun ch => !isSpace ch := by
    simp [Chunk.at, rest, dense]
  have termChars : ∀ ch ∈ (Chunk.at here).chars, isTermChar ch = true := by
    intro ch mem
    have noSpace : isSpace ch = false := by
      simpa using List.mem_takeWhile_imp mem
    rcases bare ch ((List.takeWhile_prefix _).subset mem) with term | space
    · exact term
    · rw [space] at noSpace
      cases noSpace
  have first : isTermChar ch = true := by
    apply termChars
    rw [chars]
    exact List.mem_cons_self ..
  rw [plainToken_of_isTermChar _ _ rest first]
  by_cases mark : ch = '0' ∧ (body.head? = some 'x' ∨ body.head? = some 'X')
  · rw [if_pos mark]
    obtain ⟨rfl, letter⟩ := mark
    cases body with
    | nil =>
        simp at letter
    | cons second body =>
        exact bareLiteral_eq_meaning (by simpa using letter) rest
  rw [if_neg mark]
  by_cases zero : ch = '0' ∧ body.head?.all isSpace = true
  · rw [if_pos zero]
    obtain ⟨rfl, alone⟩ := zero
    have nothing := (takeWhile_eq_nil_iff_head? body).mpr alone
    have whole : (Chunk.at here).chars = ['0'] := by
      rw [chars, nothing]
    have all_left : body.dropWhile (fun ch => !isSpace ch) = body := by
      simpa [nothing] using List.takeWhile_append_dropWhile (p := fun ch => !isSpace ch) (l := body)
    have behind : here.skipWhile (fun ch => !isSpace ch) = here.advance 1 := by
      simp [Cursor.skipWhile, Cursor.advance, rest, dense, nothing, all_left]
    rw [Chunk.meaning, if_pos whole, Chunk.found, behind]
    rfl
  rw [if_neg zero]
  apply word_eq_meaning consistent _ _ termChars
  · intro whole
    rw [chars, List.cons.injEq, takeWhile_eq_nil_iff_head?] at whole
    exact zero whole
  · rw [chars, take_two_iff_head?]
    exact mark

end Meanings

/-! ## Steps and runs -/

section Runs

variable
  {lexicon : Lexicon}
  {placeholders : Bool}
  {c : Cursor Char}

theorem Bare.suffix
    {text left : List Char}
    (bare : Bare text)
    (is_suffix : left <:+ text) :
    Bare left :=
  fun ch mem => bare ch (is_suffix.subset mem)

/-- No size header starts in a text without brackets. -/
theorem Bare.noMark
    {text : List Char}
    (bare : Bare text) :
    headerMark.isPrefixOf text = false := by
  apply noMark_of_noBracket
  intro bracket
  rcases bare '(' bracket with term | space
  · cases term
  · cases space

/-- A step in a text of chunks reads the first chunk, if one is left. -/
theorem step_bare_cases
    (placeholders : Bool)
    (consistent : lexicon.table.Consistent)
    (bare : Bare c.rest) :
    (chunksFrom c.pos c.rest = [] ∧ step lexicon placeholders c = .done)
      ∨
    (∃ chunk behind,
      chunksFrom c.pos c.rest = chunk :: chunksFrom behind.pos behind.rest ∧
      Bare behind.rest ∧
      step lexicon placeholders c =
        match chunk.meaning lexicon with
        | .error e => .fault e
        | .ok t => .item ⟨t, chunk.span⟩ behind) := by
  generalize skip : c.skipWhile isSpace = here
  have bare_here : Bare here.rest := by
    rw [← skip]
    exact bare.suffix (List.dropWhile_suffix isSpace)
  have skipped : headers [] c = .ok ([], here) := by
    rw [← skip] at bare_here ⊢
    exact headers_of_no_mark bare_here.noMark
  have same : chunksFrom c.pos c.rest = chunksFrom here.pos here.rest := by
    rw [chunksFrom_skipWhile, skip]
  rw [same]
  cases rest : here.rest with
  | nil =>
      exact .inl ⟨chunksFrom_nil, step_of_end skipped rest⟩
  | cons ch body =>
      right
      have dense : isSpace ch = false := by
        apply Cursor.not_of_head?_skipWhile (c := c)
        rw [skip, rest]
        rfl
      refine ⟨Chunk.at here, here.skipWhile fun ch => !isSpace ch, ?_, ?_, ?_⟩
      · rw [← rest]
        exact chunksFrom_eq_cons rest dense
      · exact bare_here.suffix (List.dropWhile_suffix _)
      · have something : here.rest.isEmpty = false := by
          rw [rest]
          rfl
        have read :=
          plainToken_eq_meaning placeholders consistent rest dense bare_here
        simp only [step, skipped, something, read, Chunk.found, Bool.false_eq_true, if_false]
        cases (Chunk.at here).meaning lexicon with
        | error e =>
            rfl
        | ok t =>
            rfl

/-- A text of chunks is read as what its chunks mean. -/
theorem run_eq_mapM_meaning
    (placeholders : Bool)
    (consistent : lexicon.table.Consistent)
    (c : Cursor Char)
    (bare : Bare c.rest) :
    ((reader lexicon placeholders).run c).toExcept =
      (chunksFrom c.pos c.rest).mapM fun chunk =>
        (chunk.meaning lexicon).map fun t => (⟨t, chunk.span⟩ : Located) := by
  induction c using (reader lexicon placeholders).step_induction with
  | _ c ih =>
      rcases step_bare_cases placeholders consistent bare with
        ⟨nothing, done⟩ | ⟨chunk, behind, more, bare_behind, found⟩
      · rw [Reader.run_of_done done, nothing]
        rfl
      · rw [more, List.mapM_cons]
        cases meaning : chunk.meaning lexicon with
        | error e =>
            rw [meaning] at found
            rw [Reader.run_of_fault found]
            rfl
        | ok t =>
            rw [meaning] at found
            rw [← ih _ behind found bare_behind, Reader.run_of_item found]
            cases ((reader lexicon placeholders).run behind) with
            | mk items fault =>
                cases fault with
                | _ => rfl

end Runs

/-- **Texts without brackets are read by one rule**: with the standard words, a text of letters,
digits, underscores and white space is read chunk by chunk, each as what it means, up to the first
chunk that means nothing. -/
theorem decodeLocated_eq_chunks
    (options : Options)
    {text : List Char}
    (bare : Bare text) :
    decodeLocated text options Opcode.Table.standard =
      (chunks text).mapM fun chunk =>
        (chunk.meaning ⟨options.terms, Opcode.Table.standard⟩).map fun t =>
          (⟨t, chunk.span⟩ : Located) :=
  run_eq_mapM_meaning options.allowPlaceholders Opcode.Table.regular_standard.toConsistent
    (Cursor.start text) bare

/-- A word of digits, a word that starts like a literal, literals with and without a mark, and hex
digits that a term makes the name of a push. -/
theorem decodeLocated_eq_chunks_push :
    let options := Options.default.withTerm "be" 3
    let text := "16 1add dead 0notequal 00 0 0Xab 0x be".toList
    Bare text ∧
    decodeLocated text options Opcode.Table.standard =
      (chunks text).mapM (fun chunk =>
        (chunk.meaning ⟨options.terms, Opcode.Table.standard⟩).map fun t =>
          (⟨t, chunk.span⟩ : Located)) ∧
    decodeLocated text options Opcode.Table.standard =
      .ok [⟨.opcode 0x60, ⟨0, 2⟩⟩, ⟨.opcode 0x8b, ⟨3, 7⟩⟩, ⟨.literal [0xde, 0xad], ⟨8, 12⟩⟩,
        ⟨.opcode 0x92, ⟨13, 22⟩⟩, ⟨.literal [0], ⟨23, 25⟩⟩, ⟨.opcode 0, ⟨26, 27⟩⟩,
        ⟨.literal [0xab], ⟨28, 32⟩⟩, ⟨.literal [], ⟨33, 35⟩⟩, ⟨.literal [0xbe], ⟨36, 38⟩⟩] := by
  intro options text
  have bare : Bare text := by
    decide +kernel
  have read : decodeLocated text options Opcode.Table.standard =
      .ok [⟨.opcode 0x60, ⟨0, 2⟩⟩, ⟨.opcode 0x8b, ⟨3, 7⟩⟩, ⟨.literal [0xde, 0xad], ⟨8, 12⟩⟩,
        ⟨.opcode 0x92, ⟨13, 22⟩⟩, ⟨.literal [0], ⟨23, 25⟩⟩, ⟨.opcode 0, ⟨26, 27⟩⟩,
        ⟨.literal [0xab], ⟨28, 32⟩⟩, ⟨.literal [], ⟨33, 35⟩⟩, ⟨.literal [0xbe], ⟨36, 38⟩⟩] := by
    decide +kernel
  exact ⟨bare, decodeLocated_eq_chunks options bare, read⟩

end Asm
end ScriptCodec
