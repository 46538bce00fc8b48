import ScriptCodec.Opcode.Code
import ScriptCodec.Text.Hex
import ScriptCodec.Text.Quoted

/-!
# Tokens

The elements that scripts and templates are made of, where a token stood in the text or bytes it
was read from, and the order of tokens.
-/

namespace ScriptCodec

/-- The words for the four kinds of tokens. -/
inductive TokenKind where
  | literal
  | opcode
  | placeholder
  | repetition
deriving DecidableEq, Repr

/-- The name of a kind. -/
def TokenKind.name : TokenKind → String
  | .literal => "literal"
  | .opcode => "opcode"
  | .placeholder => "placeholder"
  | .repetition => "repeat"

/-- One element of a script or template. -/
inductive Token where
  /-- Pushed data, without the bytes that announce it -/
  | literal (data : List UInt8)
  /-- An opcode that stands alone -/
  | opcode (code : UInt8)
  /-- A slot of a template, such as `20-byte-hash` or `OP_1-OP_16` -/
  | placeholder (text : String)
  /-- The template entry before this one may occur again -/
  | repetition
deriving DecidableEq, Repr

namespace Token

/-- The kind of a token. -/
def kind : Token → TokenKind
  | .literal _ => .literal
  | .opcode _ => .opcode
  | .placeholder _ => .placeholder
  | .repetition => .repetition

/-- Whether the token is pushed data. -/
def isLiteral (t : Token) : Bool :=
  t.kind == .literal

/-- Whether the token can stand in a script, and not only in a template. -/
def isConcrete (t : Token) : Bool :=
  t.kind == .literal || t.kind == .opcode

/-- The data of a literal. -/
def data? : Token → Option (List UInt8)
  | .literal data => some data
  | _ => none

/-- The number of an opcode. -/
def code? : Token → Option UInt8
  | .opcode code => some code
  | _ => none

/-- Whether the token is no opcode that starts a push. -/
def isWellFormed : Token → Bool
  | .opcode code => !Opcode.isPush code
  | _ => true

/-- The token with its kind, for messages. -/
def describe : Token → String
  | .literal data => "Literal(" ++ Hex.encode data ++ ")"
  | .opcode code => "Opcode(" ++ toString code.toNat ++ ")"
  | .placeholder text => "Placeholder(" ++ Quoted.quote text ++ ")"
  | .repetition => "Repeat"

/-- The place of a kind in the order of tokens. -/
def rank : Token → Nat
  | .literal _ => 0
  | .opcode _ => 1
  | .placeholder _ => 2
  | .repetition => 3

/-- Compares lists by their first difference; a proper front part comes first. -/
def compareLists {α : Type} (cmp : α → α → Ordering) : List α → List α → Ordering
  | [], [] => .eq
  | [], _ :: _ => .lt
  | _ :: _, [] => .gt
  | a :: as, b :: bs =>
      match cmp a b with
      | .eq => compareLists cmp as bs
      | o => o

/-- Compares tokens: by kind, then data by bytes, opcodes by number, slots by their text. -/
def compare : Token → Token → Ordering
  | .literal a, .literal b => compareLists (fun x y => Ord.compare x.toNat y.toNat) a b
  | .opcode a, .opcode b => Ord.compare a.toNat b.toNat
  | .placeholder a, .placeholder b =>
      compareLists (fun x y => Ord.compare x.toNat y.toNat) (utf8Bytes a) (utf8Bytes b)
  | a, b => Ord.compare a.rank b.rank

/-- Compares token lists. -/
def compareAll : List Token → List Token → Ordering :=
  compareLists compare

end Token

/-- The range of offsets that a token was read from: characters of a text, bytes of a raw script. -/
structure Span where
  /-- Offset of the first element -/
  start : Nat
  /-- Offset behind the last element -/
  stop : Nat
deriving DecidableEq, Repr

namespace Span

/-- The number of offsets covered. -/
def size (s : Span) : Nat :=
  s.stop - s.start

/-- Whether nothing is covered. -/
def isEmpty (s : Span) : Bool :=
  s.size == 0

/-- The span in a message. -/
def text (s : Span) : String :=
  toString s.start ++ ".." ++ toString s.stop

end Span

/-- A token with the place it was read from. -/
structure Located where
  token : Token
  span : Span
deriving DecidableEq, Repr

/-- The tokens without their places. -/
def tokensOf (located : List Located) : List Token :=
  located.map Located.token

end ScriptCodec
