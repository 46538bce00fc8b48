import Mathlib.Computability.Language
import Mathlib.Data.List.Chain
import ScriptCodec.Proofs.Asm.Join
import ScriptCodec.Template.Shape

/-!
# What templates match

A template is a list of parts, each an entry with or without a repeat mark behind it.  This module
says what matching means without the matching procedure, in two ways.

* `Blocks` cuts a script into one block for each part: one token, or for a repeated entry the
  longest run of tokens that satisfy it.  This is matching, by `accepts_iff_exists_blocks`.
* `languageOf` is the product of the languages of the parts, where a repeated entry stands for one
  or more tokens.  A script that matches is in the language, and the converse holds if no token
  satisfies a repeated entry and the entry behind its mark.

`hasShape_iff_exists_blocks` has both, and that the standard shapes are of the latter kind.
-/

namespace ScriptCodec
namespace Template

open Computability

/-! ## Parts -/

/-- An entry that is no repeat mark, and whether a repeat mark follows it. -/
structure Part where
  entry : Token
  repeated : Bool

namespace Part

/-- The entries that a part takes in its template. -/
def entries
    (part : Part) :
    List Token :=
  if part.repeated then [part.entry, .repetition] else [part.entry]

/-- The scripts that a part stands for: one token that satisfies the entry, or one or more of them
if the entry is repeated. -/
def language
    (table : Opcode.Table)
    (part : Part) :
    Language Token :=
  let one : Language Token := {w | ∃ t, entryAccepts table part.entry t = true ∧ w = [t]}
  if part.repeated then one * one∗ else one

/-- No token satisfies the entries of both parts. -/
def Apart
    (table : Opcode.Table)
    (p q : Part) :
    Prop :=
  ∀ t, ¬ (entryAccepts table p.entry t = true ∧ entryAccepts table q.entry t = true)

end Part

/-- The parts of a list of entries. -/
def partsOf : List Token → List Part
  | [] => []
  | entry :: .repetition :: entries => ⟨entry, true⟩ :: partsOf entries
  | entry :: entries => ⟨entry, false⟩ :: partsOf entries

/-- Tokens in blocks, one block for each part in order.  A block is one token that satisfies the
entry or, for a repeated entry, a run of such tokens that cannot be made longer: what follows it, if
anything, starts with a token that does not satisfy the entry. -/
inductive Blocks
    (table : Opcode.Table) :
    List Part → List (List Token) → Prop
  | nil :
      Blocks table [] []
  | one
      {entry t : Token}
      {parts : List Part}
      {blocks : List (List Token)}
      (satisfied : entryAccepts table entry t = true)
      (others : Blocks table parts blocks) :
      Blocks table (⟨entry, false⟩ :: parts) ([t] :: blocks)
  | run
      {entry : Token}
      {block : List Token}
      {parts : List Part}
      {blocks : List (List Token)}
      (some_token : block ≠ [])
      (satisfied : ∀ t ∈ block, entryAccepts table entry t = true)
      (maximal : ∀ t ∈ blocks.flatten.head?, entryAccepts table entry t = false)
      (others : Blocks table parts blocks) :
      Blocks table (⟨entry, true⟩ :: parts) (block :: blocks)

/-- The scripts that parts stand for, one after the other. -/
def languageOf
    (table : Opcode.Table)
    (parts : List Part) :
    Language Token :=
  (parts.map (Part.language table)).prod

/-- A repeated entry and the entry behind its mark are never satisfied by the same token. -/
def Decisive
    (table : Opcode.Table)
    (parts : List Part) :
    Prop :=
  parts.IsChain fun p q => p.repeated = true → p.Apart table q

/-! ## Well-formed entries -/

section Entries

variable
  {table : Opcode.Table}
  {before : Option Token}
  {entry : Token}
  {entries : List Token}

theorem misplacedRepeat?_cons
    (noMark : entry ≠ .repetition) :
    misplacedRepeat? before (entry :: entries) = misplacedRepeat? (some entry) entries := by
  cases entry with
  | repetition =>
      exact absurd rfl noMark
  | literal data =>
      simp [misplacedRepeat?]
  | opcode code =>
      simp [misplacedRepeat?]
  | placeholder text =>
      simp [misplacedRepeat?]

theorem misplacedRepeat?_mark
    (noMark : entry ≠ .repetition) :
    misplacedRepeat? (some entry) (.repetition :: entries) =
      misplacedRepeat? (some .repetition) entries := by
  cases entry with
  | repetition =>
      exact absurd rfl noMark
  | literal data =>
      rfl
  | opcode code =>
      rfl
  | placeholder text =>
      rfl

/-- No mark stands first, and none behind another one. -/
theorem head?_ne_of_wellFormed
    (first : before = none ∨ before = some .repetition)
    (wellFormed : misplacedRepeat? before entries = none) :
    entries.head? ≠ some .repetition := by
  intro mark
  obtain ⟨others, rfl⟩ := List.head?_eq_some_iff.mp mark
  rcases first with rfl | rfl
  · cases wellFormed
  · cases wellFormed

/-- An entry that is no mark is matched by the first token, and what follows it by the others. -/
theorem acceptsBehind_entry_iff
    (noMark : entry ≠ .repetition)
    {tokens : List Token} :
    acceptsBehind table before (entry :: entries) tokens = true ↔
      ∃ t rest,
        tokens = t :: rest ∧
        entryAccepts table entry t = true ∧
        acceptsBehind table (some entry) entries rest = true := by
  cases tokens with
  | nil =>
      cases entry with
      | repetition =>
          exact absurd rfl noMark
      | _ =>
          simp [acceptsBehind]
  | cons t tokens =>
      cases entry with
      | repetition =>
          exact absurd rfl noMark
      | _ =>
          simp [acceptsBehind]

/-- Induction on the parts of well-formed entries: what holds of no entries, and in front of a part
if it holds behind it, holds of all well-formed entries that do not start with a mark. -/
theorem wellFormed_induction
    {motive : Option Token → List Token → List Part → Prop}
    (nil : ∀ before, motive before [] [])
    (one : ∀ before entry entries,
      entry ≠ .repetition →
      motive (some entry) entries (partsOf entries) →
      motive before (entry :: entries) (⟨entry, false⟩ :: partsOf entries))
    (run : ∀ before entry entries,
      entry ≠ .repetition →
      motive (some .repetition) entries (partsOf entries) →
      motive before (entry :: .repetition :: entries) (⟨entry, true⟩ :: partsOf entries))
    (noMark : entries.head? ≠ some .repetition)
    (wellFormed : misplacedRepeat? before entries = none) :
    motive before entries (partsOf entries) := by
  induction entries using partsOf.induct generalizing before with
  | case1 =>
      exact nil before
  | case2 entry entries ih =>
      have first : entry ≠ .repetition := by
        simpa using noMark
      rw [misplacedRepeat?_cons first, misplacedRepeat?_mark first] at wellFormed
      have next := head?_ne_of_wellFormed (.inr rfl) wellFormed
      exact run before entry entries first (ih next wellFormed)
  | case3 entry entries single ih =>
      have first : entry ≠ .repetition := by
        simpa using noMark
      have next : entries.head? ≠ some .repetition := by
        intro mark
        obtain ⟨others, rfl⟩ := List.head?_eq_some_iff.mp mark
        exact single others rfl
      rw [misplacedRepeat?_cons first] at wellFormed
      rw [partsOf]
      · exact one before entry entries first (ih next wellFormed)
      · exact single

/-- The parts of well-formed entries are these entries. -/
theorem flatMap_entries_partsOf
    (noMark : entries.head? ≠ some .repetition)
    (wellFormed : misplacedRepeat? before entries = none) :
    (partsOf entries).flatMap Part.entries = entries ∧
    ∀ part ∈ partsOf entries, part.entry ≠ .repetition := by
  refine wellFormed_induction
    (motive := fun _ entries parts =>
      parts.flatMap Part.entries = entries ∧ ∀ part ∈ parts, part.entry ≠ .repetition)
    ?_ ?_ ?_ noMark wellFormed
  · intro before
    exact ⟨rfl, by simp⟩
  · rintro before entry entries first ⟨same, noMarks⟩
    refine ⟨by simp [Part.entries, same], ?_⟩
    exact List.forall_mem_cons.mpr ⟨first, noMarks⟩
  · rintro before entry entries first ⟨same, noMarks⟩
    refine ⟨by simp [Part.entries, same], ?_⟩
    exact List.forall_mem_cons.mpr ⟨first, noMarks⟩

end Entries

/-! ## Blocks -/

section Blocks

variable
  {table : Opcode.Table}
  {entry t : Token}
  {parts : List Part}
  {tokens : List Token}

/-- A part with one token takes the first token. -/
theorem exists_blocks_one_iff :
    (∃ blocks, blocks.flatten = tokens ∧ Blocks table (⟨entry, false⟩ :: parts) blocks) ↔
      ∃ t rest,
        tokens = t :: rest ∧
        entryAccepts table entry t = true ∧
        ∃ blocks, blocks.flatten = rest ∧ Blocks table parts blocks := by
  constructor
  · rintro ⟨blocks, rfl, cut⟩
    cases cut with
    | one satisfied others =>
        exact ⟨_, _, rfl, satisfied, _, rfl, others⟩
  · rintro ⟨t, rest, rfl, satisfied, blocks, rfl, others⟩
    exact ⟨[t] :: blocks, rfl, .one satisfied others⟩

/-- A part with a repeated entry takes the first token and then as many as possible. -/
theorem exists_blocks_run_iff :
    (∃ blocks, blocks.flatten = tokens ∧ Blocks table (⟨entry, true⟩ :: parts) blocks) ↔
      ∃ t rest,
        tokens = t :: rest ∧
        entryAccepts table entry t = true ∧
        ∃ blocks,
          blocks.flatten = rest.dropWhile (entryAccepts table entry) ∧
          Blocks table parts blocks := by
  constructor
  · rintro ⟨blocks, rfl, cut⟩
    cases cut with
    | run some_token satisfied maximal others =>
        rename_i block blocks
        obtain ⟨t, block, rfl⟩ := List.exists_cons_of_ne_nil some_token
        have all : ∀ u ∈ block, entryAccepts table entry u = true :=
          fun u mem => satisfied u (List.mem_cons_of_mem _ mem)
        refine ⟨t, block ++ blocks.flatten, rfl, satisfied t (by simp), blocks, ?_, others⟩
        rw [dropWhile_append_of_stops (.inr maximal), List.dropWhile_eq_nil_iff.mpr all,
          List.nil_append]
  · rintro ⟨t, rest, rfl, satisfied, blocks, flat, others⟩
    refine ⟨(t :: rest.takeWhile (entryAccepts table entry)) :: blocks, ?_, ?_⟩
    · rw [List.flatten_cons, flat, List.cons_append, List.takeWhile_append_dropWhile]
    · refine .run (by simp) ?_ ?_ others
      · intro u mem
        rcases List.mem_cons.mp mem with rfl | mem
        · exact satisfied
        · exact List.mem_takeWhile_imp mem
      · intro u first
        rw [flat] at first
        have stopped := List.head?_dropWhile_not (entryAccepts table entry) rest
        rw [Option.mem_def.mp first] at stopped
        simpa using stopped

/-- Matching is cutting into blocks. -/
theorem accepts_iff_exists_blocks
    (template : Template)
    (table : Opcode.Table)
    (tokens : List Token) :
    template.hasShape tokens table = true ↔
      ∃ blocks, blocks.flatten = tokens ∧ Blocks table (partsOf template.entries) blocks := by
  have noMark := head?_ne_of_wellFormed (.inl rfl) template.wellFormed
  revert tokens
  refine wellFormed_induction
    (motive := fun before entries parts => ∀ tokens,
      acceptsBehind table before entries tokens = true ↔
        ∃ blocks, blocks.flatten = tokens ∧ Blocks table parts blocks)
    ?_ ?_ ?_ noMark template.wellFormed
  · intro before tokens
    rw [acceptsBehind, List.isEmpty_iff]
    constructor
    · rintro rfl
      exact ⟨[], rfl, .nil⟩
    · rintro ⟨blocks, rfl, cut⟩
      cases cut
      rfl
  · intro before entry entries first ih tokens
    rw [exists_blocks_one_iff, acceptsBehind_entry_iff first]
    simp only [ih]
  · intro before entry entries first ih tokens
    rw [exists_blocks_run_iff, acceptsBehind_entry_iff first]
    simp only [acceptsBehind, ih]

end Blocks

/-! ## Languages -/

section Languages

variable
  {table : Opcode.Table}
  {entry : Token}
  {parts : List Part}
  {blocks : List (List Token)}
  {w : List Token}

theorem mem_language_one_iff :
    w ∈ Part.language table ⟨entry, false⟩ ↔
      ∃ t, entryAccepts table entry t = true ∧ w = [t] := by
  rfl

/-- A repeated entry stands for one or more tokens that satisfy it. -/
theorem mem_language_run_iff :
    w ∈ Part.language table ⟨entry, true⟩ ↔
      w ≠ [] ∧ ∀ t ∈ w, entryAccepts table entry t = true := by
  constructor
  · intro mem
    obtain ⟨_, ⟨t, satisfied, rfl⟩, _, star, rfl⟩ := Language.mem_mul.mp mem
    obtain ⟨pieces, rfl, each⟩ := Language.mem_kstar.mp star
    refine ⟨by simp, ?_⟩
    intro u in_run
    rcases List.mem_append.mp in_run with first | others
    · rw [List.mem_singleton.mp first]
      exact satisfied
    · obtain ⟨piece, in_pieces, in_piece⟩ := List.mem_flatten.mp others
      obtain ⟨v, satisfied', rfl⟩ := each piece in_pieces
      rw [List.mem_singleton.mp in_piece]
      exact satisfied'
  · rintro ⟨some_token, satisfied⟩
    obtain ⟨t, rest, rfl⟩ := List.exists_cons_of_ne_nil some_token
    refine Language.mem_mul.mpr ⟨[t], ⟨t, satisfied t (by simp), rfl⟩, rest, ?_, rfl⟩
    refine Language.mem_kstar.mpr ⟨rest.map fun u => [u], ?_, ?_⟩
    · rw [← List.flatMap_def, List.flatMap_singleton']
    · intro piece mem
      obtain ⟨u, in_rest, rfl⟩ := List.mem_map.mp mem
      exact ⟨u, satisfied u (List.mem_cons_of_mem _ in_rest), rfl⟩

theorem mem_languageOf_cons_iff
    {part : Part} :
    w ∈ languageOf table (part :: parts) ↔
      ∃ front ∈ part.language table, ∃ back ∈ languageOf table parts, front ++ back = w := by
  rw [languageOf, List.map_cons, List.prod_cons]
  exact Language.mem_mul

/-- A script in blocks is in the language. -/
theorem Blocks.mem_languageOf
    (cut : Blocks table parts blocks) :
    blocks.flatten ∈ languageOf table parts := by
  induction cut with
  | nil =>
      rfl
  | @one entry t parts blocks satisfied others ih =>
      exact mem_languageOf_cons_iff.mpr ⟨[t], ⟨t, satisfied, rfl⟩, _, ih, rfl⟩
  | @run entry block parts blocks some_token satisfied maximal others ih =>
      exact mem_languageOf_cons_iff.mpr
        ⟨block, mem_language_run_iff.mpr ⟨some_token, satisfied⟩, _, ih, rfl⟩

/-- A script in blocks starts with a token that satisfies the first entry. -/
theorem Blocks.head?_satisfied
    {part : Part}
    (cut : Blocks table (part :: parts) blocks) :
    ∀ t ∈ blocks.flatten.head?, entryAccepts table part.entry t = true := by
  cases cut with
  | one satisfied others =>
      rintro t first
      cases first
      exact satisfied
  | run some_token satisfied maximal others =>
      rename_i entry block blocks
      obtain ⟨u, rest, rfl⟩ := List.exists_cons_of_ne_nil some_token
      intro t first
      cases first
      exact satisfied _ (by simp)

/-- If no token satisfies a repeated entry and the entry behind its mark, a script in the language
can be cut into blocks. -/
theorem exists_blocks_of_mem_languageOf
    (decisive : Decisive table parts)
    (mem : w ∈ languageOf table parts) :
    ∃ blocks, blocks.flatten = w ∧ Blocks table parts blocks := by
  induction parts generalizing w with
  | nil =>
      cases mem
      exact ⟨[], rfl, .nil⟩
  | cons part parts ih =>
      obtain ⟨front, in_part, back, in_parts, rfl⟩ := mem_languageOf_cons_iff.mp mem
      obtain ⟨blocks, rfl, cut⟩ := ih decisive.tail in_parts
      refine ⟨front :: blocks, rfl, ?_⟩
      rcases part with ⟨entry, repeated⟩
      cases repeated with
      | false =>
          obtain ⟨t, satisfied, rfl⟩ := mem_language_one_iff.mp in_part
          exact .one satisfied cut
      | true =>
          obtain ⟨some_token, satisfied⟩ := mem_language_run_iff.mp in_part
          refine .run some_token satisfied ?_ cut
          intro t first
          cases parts with
          | nil =>
              cases cut
              cases first
          | cons next parts =>
              have apart := (List.isChain_cons_cons.mp decisive).1 rfl
              apply eq_false_of_ne_true
              intro again
              exact apart t ⟨again, cut.head?_satisfied t first⟩

end Languages

/-! ## The standard shapes -/

/-- No token satisfies a placeholder for any literal and one for opcodes. -/
theorem apart_anyLiteral_opcodes
    {table : Opcode.Table}
    {text text' : String}
    {first last : UInt8}
    (repeated repeated' : Bool)
    (literal : Slot.ofText table text = .anyLiteral)
    (opcodes : Slot.ofText table text' = .opcodes first last) :
    Part.Apart table ⟨.placeholder text, repeated⟩ ⟨.placeholder text', repeated'⟩ := by
  rintro t ⟨left, right⟩
  simp only [entryAccepts, literal, opcodes] at left right
  cases t with
  | literal data =>
      cases right
  | opcode code =>
      cases left
  | placeholder text =>
      cases left
  | repetition =>
      cases left

theorem ofText_pubkey :
    Slot.ofText Opcode.Table.standard "pubkey" = .anyLiteral := by
  decide +kernel

theorem ofText_small_number :
    Slot.ofText Opcode.Table.standard "OP_1-OP_16" = .opcodes Opcode.one Opcode.sixteen := by
  decide +kernel

/-- Matching and the language agree on the standard shapes. -/
theorem decisive_standard
    (shape : Shape) :
    Decisive Opcode.Table.standard (partsOf shape.entries) := by
  cases shape with
  | multisig =>
      have apart := apart_anyLiteral_opcodes true false ofText_pubkey ofText_small_number
      simpa [Shape.entries, partsOf, Decisive] using apart
  | _ =>
      simp [Shape.entries, partsOf, Decisive]

/-! ## Matching -/

theorem entries_of_ofEntries
    {entries : List Token}
    {template : Template}
    (accepted : ofEntries entries = .ok template) :
    template.entries = entries := by
  unfold ofEntries at accepted
  split at accepted
  · cases accepted
    rfl
  · cases accepted

/-- A script that matches is in the language of the template. -/
theorem mem_languageOf_of_hasShape
    {template : Template}
    {table : Opcode.Table}
    {tokens : List Token}
    (shaped : template.hasShape tokens table = true) :
    tokens ∈ languageOf table (partsOf template.entries) := by
  obtain ⟨blocks, rfl, cut⟩ := (accepts_iff_exists_blocks template table tokens).mp shaped
  exact cut.mem_languageOf

/-- Matching and membership are the same if repeats are decisive. -/
theorem hasShape_iff_mem_languageOf
    {template : Template}
    {table : Opcode.Table}
    (decisive : Decisive table (partsOf template.entries))
    {tokens : List Token} :
    template.hasShape tokens table = true ↔
      tokens ∈ languageOf table (partsOf template.entries) := by
  constructor
  · exact mem_languageOf_of_hasShape
  · intro mem
    exact (accepts_iff_exists_blocks template table tokens).mpr
      (exists_blocks_of_mem_languageOf decisive mem)

/-- **What templates match**, for every list of entries that is a template.  The parts are the
entries in order, and a script matches exactly if it can be cut into blocks, one for each part.
Then it is in the language of the template; if no token satisfies a repeated entry and the entry
behind its mark, as in the standard shapes, every script in the language matches. -/
theorem hasShape_iff_exists_blocks
    {entries : List Token}
    {template : Template}
    (accepted : ofEntries entries = .ok template)
    (table : Opcode.Table) :
    ((partsOf entries).flatMap Part.entries = entries ∧
      ∀ part ∈ partsOf entries, part.entry ≠ .repetition) ∧
    (∀ tokens,
      template.hasShape tokens table = true ↔
        ∃ blocks, blocks.flatten = tokens ∧ Blocks table (partsOf entries) blocks) ∧
    (∀ tokens,
      template.hasShape tokens table = true →
      tokens ∈ languageOf table (partsOf entries)) ∧
    (Decisive table (partsOf entries) →
      ∀ tokens,
        template.hasShape tokens table = true ↔ tokens ∈ languageOf table (partsOf entries)) ∧
    ∀ shape : Shape,
      Decisive Opcode.Table.standard (partsOf shape.template.entries) := by
  obtain rfl := entries_of_ofEntries accepted
  have noMark := head?_ne_of_wellFormed (.inl rfl) template.wellFormed
  refine
    ⟨flatMap_entries_partsOf noMark template.wellFormed,
      accepts_iff_exists_blocks template table, ?_, ?_, decisive_standard⟩
  · intro tokens
    exact mem_languageOf_of_hasShape
  · intro decisive tokens
    exact hasShape_iff_mem_languageOf decisive

/-- Two keys of any lengths between two small numbers: the script matches the shape of several
signatures and is in its language, and the two are the same for all scripts. -/
theorem hasShape_iff_exists_blocks_multisig :
    ofEntries Shape.multisig.entries = .ok Shape.multisig.template ∧
    Decisive Opcode.Table.standard (partsOf Shape.multisig.entries) ∧
    [.opcode 0x51, .literal [0xab], .literal [], .opcode 0x52, .opcode Opcode.checkMultiSig] ∈
      languageOf Opcode.Table.standard (partsOf Shape.multisig.entries) ∧
    ∀ tokens,
      Shape.multisig.template.hasShape tokens Opcode.Table.standard = true ↔
        tokens ∈ languageOf Opcode.Table.standard (partsOf Shape.multisig.entries) := by
  have accepted : ofEntries Shape.multisig.entries = .ok Shape.multisig.template := by
    rfl
  obtain ⟨_, _, sound, complete, decisive⟩ :=
    hasShape_iff_exists_blocks accepted Opcode.Table.standard
  refine ⟨accepted, decisive .multisig, sound _ ?_, complete (decisive .multisig)⟩
  decide +kernel

/-- Repeats give nothing back: two literals are in the language of one or more literals and then a
literal, but the repeat takes both. -/
example :
    [.literal [0xaa], .literal [0xbb]] ∈
      languageOf Opcode.Table.standard
        (partsOf [.placeholder "x", .repetition, .placeholder "x"]) ∧
    accepts Opcode.Table.standard [.placeholder "x", .repetition, .placeholder "x"]
      [.literal [0xaa], .literal [0xbb]] = false := by
  have any : Slot.ofText Opcode.Table.standard "x" = .anyLiteral := by
    decide +kernel
  refine ⟨?_, by decide +kernel⟩
  refine mem_languageOf_cons_iff.mpr ⟨[.literal [0xaa]], ?_, [.literal [0xbb]], ?_, rfl⟩
  · exact mem_language_run_iff.mpr ⟨by simp, by simp [entryAccepts, any, Slot.accepts]⟩
  · refine mem_languageOf_cons_iff.mpr ⟨[.literal [0xbb]], ?_, [], rfl, rfl⟩
    exact ⟨.literal [0xbb], by simp [entryAccepts, any, Slot.accepts], rfl⟩

end Template
end ScriptCodec
