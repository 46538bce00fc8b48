import ScriptCodec.Asm.Lexer
import ScriptCodec.Template.Slot

/-!
# Templates

A template is a list of tokens in which placeholders stand for what their text describes and a
repeat mark lets the entry before it occur again.  Repeats take as many tokens as they can and give
none back.  In a well-formed template every repeat mark follows an entry that it can repeat.
-/

namespace ScriptCodec
namespace Template

/-- Whether a token satisfies one entry.  A repeat mark by itself is satisfied by nothing. -/
def entryAccepts (table : Opcode.Table) (entry : Token) (t : Token) : Bool :=
  match entry with
  | .opcode code => t.code? == some code
  | .literal data => t.data? == some data
  | .placeholder text => (Slot.ofText table text).accepts t
  | .repetition => false

/-- Whether tokens match entries; `before` is the entry in front of them. -/
def acceptsBehind (table : Opcode.Table) : (before : Option Token) → (entries : List Token) →
    (tokens : List Token) → Bool
  | _, [], ts => ts.isEmpty
  | none, .repetition :: _, _ => false
  | some entry, .repetition :: entries, ts =>
      acceptsBehind table (some .repetition) entries (ts.dropWhile (entryAccepts table entry))
  | _, _ :: _, [] => false
  | _, entry :: entries, t :: ts =>
      entryAccepts table entry t && acceptsBehind table (some entry) entries ts

/-- Whether all tokens match all entries. -/
def accepts (table : Opcode.Table) (entries tokens : List Token) : Bool :=
  acceptsBehind table none entries tokens

/-- Fills entries from values in order, with `filled` already filled, latest first. -/
def fillOnto (table : Opcode.Table) (filled : List Token) :
    (entries : List Token) → (values : List (List UInt8)) → Except Error (List Token)
  | [], [] => .ok filled.reverse
  | [], _ :: _ => .error .tooManyValues
  | .repetition :: _, _ => .error (.unsupportedInstantiation "...")
  | .literal data :: entries, values => fillOnto table (.literal data :: filled) entries values
  | .opcode code :: entries, values => fillOnto table (.opcode code :: filled) entries values
  | .placeholder text :: entries, values =>
      match Slot.ofText table text, values with
      | .opcodes _ _, _ => .error (.unsupportedInstantiation ("<" ++ text ++ ">"))
      | _, [] => .error .tooFewValues
      | .sized n, value :: values =>
          if value.length = n then fillOnto table (.literal value :: filled) entries values
          else .error (.placeholderSizeMismatch text value.length)
      | .anyLiteral, value :: values => fillOnto table (.literal value :: filled) entries values

/-- The tokens that entries become when values fill their placeholders in order. -/
def fill (table : Opcode.Table) (entries : List Token) (values : List (List UInt8)) :
    Except Error (List Token) :=
  fillOnto table [] entries values

/-- The first repeat mark that repeats nothing; `before` is the entry in front. -/
def misplacedRepeat? : (before : Option Token) → (entries : List Token) → Option MisplacedRepeat
  | _, [] => none
  | none, .repetition :: _ => some .leading
  | some .repetition, .repetition :: _ => some .doubled
  | _, entry :: entries => misplacedRepeat? (some entry) entries

end Template

/-- A well-formed list of entries. -/
structure Template where
  entries : List Token
  wellFormed : Template.misplacedRepeat? none entries = none

namespace Template

/-- The template with the given entries. -/
def ofEntries (entries : List Token) : Except Error Template :=
  match h : misplacedRepeat? none entries with
  | none => .ok ⟨entries, h⟩
  | some reason => .error (.invalidTemplate reason)

/-- The options under which templates are read. -/
def readingOptions : Options :=
  { allowPlaceholders := true }

/-- Reads the text of a template. -/
def ofText (text : String) (table : Opcode.Table) : Except Error Template :=
  match Asm.decode text.toList readingOptions table with
  | .ok entries => ofEntries entries
  | .error e => .error e

/-- Whether tokens have the shape of a template. -/
def hasShape (template : Template) (tokens : List Token) (table : Opcode.Table) : Bool :=
  accepts table template.entries tokens

/-- The tokens that a template becomes when values fill its placeholders in order. -/
def instantiate (template : Template) (values : List (List UInt8)) (table : Opcode.Table) :
    Except Error (List Token) :=
  fill table template.entries values

end Template
end ScriptCodec
