import ScriptCodec.Script

/-!
# Events

What is noted while a conversion runs: tokens as they are read from text, and attempts that fail
without failing the conversion.  The events of a conversion are a function of its input, so they
are computed here beside the conversions and not by them.
-/

namespace ScriptCodec

/-- How important an event is. -/
inductive Level where
  | debug
  | trace
deriving DecidableEq, Repr

/-- The name of a level. -/
def Level.name : Level → String
  | .debug => "DEBUG"
  | .trace => "TRACE"

/-- Something worth noting. -/
inductive Event where
  /-- A token was read from text -/
  | token (s : Located)
  /-- An address with the configured prefix is no bech32 address -/
  | notBech32 (address : String) (reason : Error)
  /-- An address is no base58 address -/
  | notBase58 (address : String) (reason : Error)
  /-- The only literal of a script holds no script -/
  | notRedeem (reason : Error)
deriving DecidableEq, Repr

namespace Event

/-- The level of an event. -/
def level : Event → Level
  | .token _ => .trace
  | _ => .debug

/-- The text of an event. -/
def text : Event → String
  | .token s => "asm token " ++ s.token.describe ++ " at " ++ s.span.text
  | .notBech32 address e =>
      address ++ " is not a bech32 script address: " ++ e.message
  | .notBase58 address e =>
      address ++ " is not a base58 script address: " ++ e.message
  | .notRedeem e => "single literal is not a redeem script: " ++ e.message

/-- The event as a line of a log. -/
def line (e : Event) : String :=
  e.level.name ++ " " ++ e.text

/-- The events of reading a text: its tokens up to the first fault. -/
def ofText (text : String) (options : Options) (table : Opcode.Table) : List Event :=
  (Asm.scan text.toList options table).items.map token

/-- The events of reading an address. -/
def ofAddress (address : String) (options : Options) (table : Opcode.Table) : List Event :=
  let reading := Address.read address options table
  (reading.bech32Fault?.map (notBech32 address)).toList
    ++ (reading.base58Fault?.map (notBase58 address)).toList

/-- The events of looking for a redeem script. -/
def ofRedeem (s : Script) : List Event :=
  match s.redeemAttempt with
  | some (.error e) => [notRedeem e]
  | _ => []

end Event
end ScriptCodec
