import ScriptCodec.Event

/-!
# Sessions

A session holds options and a script.  A command changes one of them or asks for a rendering, and
its outcome is a reply or an error.  After an error the session is as it was.
-/

namespace ScriptCodec

/-- The state of a session. -/
structure Session where
  options : Options := {}
  script : Script := ⟨[]⟩

/-- What a session can be told. -/
inductive Command where
  /-- Replaces the options by what a JSON text holds, or by the default ones -/
  | resetOptions (json : Option String)
  /-- Replaces the options by the default ones with an encoding -/
  | onlyEncoding (name : String)
  /-- Replaces the options by the default ones with address parameters -/
  | onlyParams (params : AddressParams)
  | setEncoding (name : String)
  | setLiteralStyle (name : String)
  | setOpcodeStyle (name : String)
  | addTerm (word : String) (code : UInt8)
  | addOpcodeWord (code : UInt8) (word : String)
  | setParams (params : AddressParams)
  | setPlaceholders (allow : Bool)
  | loadHex (text : String)
  /-- Loads text in the encoding of the options -/
  | loadRawText (text : String)
  | loadBytes (bytes : List UInt8)
  | loadAsm (text : String)
  /-- Loads text under default options -/
  | loadPlainAsm (text : String)
  | loadAddress (address : String)
  /-- Takes any tokens as the script -/
  | loadTokens (tokens : List Token)
  /-- Writes the script as text and reads it back -/
  | reloadAsm
  /-- Writes the script as bytes and reads them back -/
  | reloadRaw
  /-- Writes the address of the script and reads it back -/
  | reloadAddress
  /-- Goes on with the script that the only literal holds -/
  | redeem
  | toAsm
  | toHex
  | toBytes
  | toRaw
  | toAddress
  | shape
  | hasAddress
  | display
  | describe
  | tokens
deriving DecidableEq, Repr

/-- What a session answers. -/
inductive Reply where
  | options (value : Options)
  | tokens (value : List Token)
  | address (text : String) (value : List Token)
  | text (value : String)
  | text? (value : Option String)
  | bytes (value : List UInt8)
  | raw (value : RawOutput)
  | flag (value : Bool)
  /-- There is nothing to answer with -/
  | nothing
deriving DecidableEq, Repr

namespace Session

/-- The outcome of a command: the next state and the reply. -/
abbrev Outcome : Type := Except Error (Session × Reply)

/-- Goes on with other options. -/
def withOptions (s : Session) (options : Options) : Session × Reply :=
  ({ s with options := options }, .options options)

/-- Goes on with another script. -/
def withScript (s : Session) (script : Script) : Session × Reply :=
  ({ s with script := script }, .tokens script.tokens)

/-- Answers without a change. -/
def answer {α : Type} (s : Session) (reply : α → Reply) (result : Except Error α) : Outcome :=
  result.map fun a => (s, reply a)

/-- Carries out a command. -/
def run (s : Session) (command : Command) : Outcome :=
  let options := s.options
  let script := s.script
  match command with
  | .resetOptions none => .ok (s.withOptions {})
  | .resetOptions (some json) => (Options.ofJson json).map s.withOptions
  | .onlyEncoding name =>
      (Encoding.ofName name).map fun e => s.withOptions { encoding := e }
  | .onlyParams params => .ok (s.withOptions { address := params })
  | .setEncoding name =>
      (Encoding.ofName name).map fun e => s.withOptions { options with encoding := e }
  | .setLiteralStyle name =>
      (LiteralStyle.ofName name).map fun x => s.withOptions { options with literalStyle := x }
  | .setOpcodeStyle name =>
      (OpcodeStyle.ofName name).map fun x => s.withOptions { options with opcodeStyle := x }
  | .addTerm word code => .ok (s.withOptions (options.withTerm word code))
  | .addOpcodeWord code word => .ok (s.withOptions (options.withOpcodeWord code word))
  | .setParams params => .ok (s.withOptions { options with address := params })
  | .setPlaceholders allow => .ok (s.withOptions { options with allowPlaceholders := allow })
  | .loadHex text => (Script.ofHex text).map s.withScript
  | .loadRawText text => (Script.ofRaw (.text text) options.encoding).map s.withScript
  | .loadBytes bytes => (Script.ofBytes bytes).map s.withScript
  | .loadAsm text => (Script.ofAsm text options).map s.withScript
  | .loadPlainAsm text => (Script.ofAsm text {}).map s.withScript
  | .loadAddress address => (Script.ofAddress address options).map s.withScript
  | .loadTokens tokens => .ok (s.withScript ⟨tokens⟩)
  | .reloadAsm =>
      match script.toAsm options with
      | .ok text => (Script.ofAsm text options).map s.withScript
      | .error e => .error e
  | .reloadRaw =>
      match script.toBytes with
      | .ok bytes => (Script.ofBytes bytes).map s.withScript
      | .error e => .error e
  | .reloadAddress =>
      match script.toAddress options with
      | .ok (some address) =>
          (Script.ofAddress address options).map fun script =>
            ({ s with script := script }, .address address script.tokens)
      | .ok none => .ok (s, .nothing)
      | .error e => .error e
  | .redeem =>
      match script.redeem? with
      | some script => .ok (s.withScript script)
      | none => .ok (s, .nothing)
  | .toAsm => s.answer .text (script.toAsm options)
  | .toHex => s.answer .text script.toHex
  | .toBytes => s.answer .bytes script.toBytes
  | .toRaw => s.answer .raw (script.toRaw options.encoding)
  | .toAddress => s.answer .text? (script.toAddress options)
  | .shape => .ok (s, .text? (script.shape?.map Shape.name))
  | .hasAddress => .ok (s, .flag script.hasAddress)
  | .display => .ok (s, .text script.display)
  | .describe => .ok (s, .text script.describe)
  | .tokens => .ok (s, .tokens script.tokens)

/-- The events of a command. -/
def events (s : Session) (command : Command) : List Event :=
  match command with
  | .loadAsm text => Event.ofText text s.options Script.table
  | .loadPlainAsm text => Event.ofText text {} Script.table
  | .loadAddress address => Event.ofAddress address s.options Script.table
  | .reloadAsm =>
      match s.script.toAsm s.options with
      | .ok text => Event.ofText text s.options Script.table
      | .error _ => []
  | .reloadAddress =>
      match s.script.toAddress s.options with
      | .ok (some address) => Event.ofAddress address s.options Script.table
      | _ => []
  | .redeem => Event.ofRedeem s.script
  | _ => []

/-- Carries out a command and goes on with the state it leaves; an error changes nothing. -/
def step (s : Session) (command : Command) : Session × Except Error Reply :=
  match s.run command with
  | .ok (next, reply) => (next, .ok reply)
  | .error e => (s, .error e)

/-- The state that commands lead to. -/
def after (s : Session) (commands : List Command) : Session :=
  commands.foldl (fun s command => (s.step command).1) s

/-- The answers to commands, with the events of each. -/
def transcript (s : Session) : List Command → List (List Event × Except Error Reply)
  | [] => []
  | command :: commands =>
      let (next, reply) := s.step command
      (s.events command, reply) :: next.transcript commands

end Session
end ScriptCodec
