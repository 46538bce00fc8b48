import ScriptCodec.Script

/-!
# Values with names

The choices that are written by name, in plain text and in JSON: encodings, styles and shapes.
-/

namespace ScriptCodec

/-- The kinds of choices. -/
inductive ChoiceKind where
  | encoding
  | literalStyle
  | opcodeStyle
  | shape
deriving DecidableEq, Repr

/-- A choice of some kind. -/
inductive Choice where
  | encoding (value : Encoding)
  | literalStyle (value : LiteralStyle)
  | opcodeStyle (value : OpcodeStyle)
  | shape (value : Shape)
deriving DecidableEq, Repr

namespace Choice

/-- The name of a choice. -/
def name : Choice → String
  | .encoding e => e.name
  | .literalStyle s => s.name
  | .opcodeStyle s => s.name
  | .shape s => s.name

/-- The choice of a kind with a name. -/
def ofName (kind : ChoiceKind) (name : String) : Except Error Choice :=
  match kind with
  | .encoding => (Encoding.ofName name).map encoding
  | .literalStyle => (LiteralStyle.ofName name).map literalStyle
  | .opcodeStyle => (OpcodeStyle.ofName name).map opcodeStyle
  | .shape => (Shape.ofName name).map shape

/-- Reads a choice of a kind. -/
def read (kind : ChoiceKind) : Json.Read Choice :=
  let named (wanted : Json.Expectation) : Json.Read Choice :=
    Options.readName wanted (ofName kind)
  match kind with
  | .encoding => fun cs =>
      match Options.readEncoding cs with
      | .ok (e, rest) => .ok (.encoding e, rest)
      | .error e => .error e
  | .literalStyle => named .literalStyle
  | .opcodeStyle => named .opcodeStyle
  | .shape => named .scriptType

/-- Reads a JSON text as a choice of a kind. -/
def ofJson (kind : ChoiceKind) (text : String) : Except Json.Error Choice :=
  Json.readWhole (read kind) text

/-- The string that stands for a choice in JSON; no text encoding is `null`. -/
def json? : Choice → Option String
  | .encoding .none => none
  | c => some c.name

end Choice
end ScriptCodec
