import ScriptCodec.Json.Value
import ScriptCodec.Options.Basic

/-!
# Options from JSON

Options are an object with a member for each field that is set, or an array of the fields in order
with the last ones left out.  Members with other keys are passed over.  The text is read from front
to back and its first fault is reported.
-/

namespace ScriptCodec
namespace Options

open Json

/-- The fields of options, in order. -/
inductive Field where
  | encoding
  | literalStyle
  | opcodeStyle
  | terms
  | opcodes
  | pubKeyHash
  | scriptHash
  | bech32
  | allowPlaceholders
deriving DecidableEq, Repr

/-- The key of a field. -/
def Field.key : Field → String
  | .encoding => "encoding"
  | .literalStyle => "literalStyle"
  | .opcodeStyle => "opcodeStyle"
  | .terms => "terms"
  | .opcodes => "opcodes"
  | .pubKeyHash => "pubKeyHash"
  | .scriptHash => "scriptHash"
  | .bech32 => "bech32"
  | .allowPlaceholders => "allowPlaceholders"

/-- All fields in order. -/
def Field.all : List Field :=
  [.encoding, .literalStyle, .opcodeStyle, .terms, .opcodes, .pubKeyHash, .scriptHash, .bech32,
   .allowPlaceholders]

/-- The field of a key; one field has a second spelling. -/
def Field.ofKey? (key : String) : Option Field :=
  if key = "allowPlaceHolders" then some .allowPlaceholders
  else Field.all.find? fun f => f.key = key

/-- Reads a name by its reader. -/
def readName {α : Type} (wanted : Expectation) (ofName : String → Except Error α) : Read α :=
  readParsed wanted fun s => (ofName s).mapError Error.message

/-- Reads an encoding; `null` means no text encoding. -/
def readEncoding : Read Encoding := fun cs =>
  match skipSpace cs with
  | 'n' :: rest =>
      match skipWord ['u', 'l', 'l'] rest with
      | .error e => .error e
      | .ok rest => .ok (.none, rest)
  | cs => readName .encoding Encoding.ofName cs

/-- Reads a key by one reader and its value by another into a map. -/
def readEntry {κ β : Type} [DecidableEq κ] (readKey : Read κ) (readValue : Read β)
    (m : Overrides κ β) : Read (Overrides κ β) := fun cs =>
  match readKey cs with
  | .error e => .error e
  | .ok (k, rest) =>
      match skipColon rest with
      | .error e => .error e
      | .ok rest =>
          match readValue rest with
          | .error e => .error e
          | .ok (v, rest) => .ok (m.insert k v, rest)

/-- An order in which the entries of a map are gone through. -/
structure TermOrder where
  /-- The entries in that order, from those in the order in which they were written -/
  arrange : List (String × UInt8) → List (String × UInt8)
  perm : ∀ entries, (arrange entries).Perm entries

/-- The order in which the entries were written. -/
def TermOrder.asWritten : TermOrder :=
  ⟨id, fun _ => .refl _⟩

/-- Reads overriding terms.  The keys are told apart as written and brought into normal form
afterwards, entry by entry in the given order. -/
def readTerms (order : TermOrder) : Read (Overrides String UInt8) := fun cs =>
  match readObject .map (readEntry readKey readByte) Overrides.empty cs with
  | .error e => .error e
  | .ok (m, rest) => .ok (termsOfEntries (order.arrange m.entries.reverse), rest)

/-- Reads overriding words. -/
def readOpcodeWords : Read (Overrides UInt8 String) :=
  readObject .map (readEntry readByteKey (readText .text)) Overrides.empty

/-- Reads a value and puts it into the options. -/
def readInto {α : Type} (read : Read α) (put : α → Options) : Read Options := fun cs =>
  match read cs with
  | .error e => .error e
  | .ok (a, rest) => .ok (put a, rest)

/-- Reads the value of a field into the options. -/
def readField (order : TermOrder) (f : Field) (o : Options) : Read Options :=
  match f with
  | .encoding => readInto readEncoding fun x => { o with encoding := x }
  | .literalStyle =>
      readInto (readName .literalStyle LiteralStyle.ofName) fun x => { o with literalStyle := x }
  | .opcodeStyle =>
      readInto (readName .opcodeStyle OpcodeStyle.ofName) fun x => { o with opcodeStyle := x }
  | .terms => readInto (readTerms order) fun x => { o with terms := x }
  | .opcodes => readInto readOpcodeWords fun x => { o with opcodeWords := x }
  | .pubKeyHash =>
      readInto readByte fun x => { o with address := { o.address with pubKeyHash := x } }
  | .scriptHash =>
      readInto readByte fun x => { o with address := { o.address with scriptHash := x } }
  | .bech32 =>
      readInto (readText .text) fun x => { o with address := { o.address with bech32 := x } }
  | .allowPlaceholders => readInto readBoolean fun x => { o with allowPlaceholders := x }

/-- Options in the making, with the fields that have been set. -/
structure Draft where
  options : Options := {}
  seen : List Field := []

/-- Reads one member.  A repeated field is reported before its value is looked at. -/
def readMember (order : TermOrder) (d : Draft) : Read Draft := fun cs =>
  match readKey cs with
  | .error e => .error e
  | .ok (key, rest) =>
      match Field.ofKey? key with
      | none =>
          match skipColon rest with
          | .error e => .error e
          | .ok rest =>
              match skipValue rest with
              | .error e => .error e
              | .ok rest => .ok (d, rest)
      | some f =>
          if f ∈ d.seen then .error (.misfit (.duplicateField f.key))
          else
            match skipColon rest with
            | .error e => .error e
            | .ok rest =>
                match readField order f d.options rest with
                | .error e => .error e
                | .ok (o, rest) => .ok (⟨o, f :: d.seen⟩, rest)

/-- Reads the elements of an array, behind its opening bracket, into the given fields. -/
def readElements (order : TermOrder) :
    (fields : List Field) → (first : Bool) → Options → Read Options
  | [], _, o, cs =>
      match skipSpace cs with
      | [] => .error .endOfText
      | c :: rest => if c = ']' then .ok (o, rest) else .error .malformed
  | f :: fields, first, o, cs =>
      match skipSpace cs with
      | [] => .error .endOfText
      | c :: rest =>
          if c = ']' then .ok (o, rest)
          else if !first ∧ c ≠ ',' then .error .malformed
          else
            match if first then c :: rest else skipSpace rest with
            | [] => .error .endOfText
            | d :: rest =>
                if !first ∧ d = ']' then .error .malformed
                else
                  match readField order f o (d :: rest) with
                  | .error e => .error e
                  | .ok (o, rest) => readElements order fields false o rest

/-- Reads options. -/
def readOptions (order : TermOrder) : Read Options := fun cs =>
  match skipSpace cs with
  | '[' :: rest => readElements order Field.all true {} rest
  | cs =>
      match readObject .options (readMember order) {} cs with
      | .error e => .error e
      | .ok (d, rest) => .ok (d.options, rest)

/-- Reads a JSON text as options, with overriding terms gone through in the given order. -/
def ofJsonIn (order : TermOrder) (text : String) : Except Error Options :=
  (readWhole (readOptions order) text).mapError .json

/-- Reads a JSON text as options. -/
def ofJson (text : String) : Except Error Options :=
  ofJsonIn .asWritten text

end Options
end ScriptCodec
