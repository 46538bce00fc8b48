import ScriptCodec.Base58
import ScriptCodec.Bech32
import ScriptCodec.Json.Error
import ScriptCodec.Text.Base64
import ScriptCodec.Token

/-!
# Errors

Every way a conversion can fail, by its cause.  Positions are character offsets of a text or byte
offsets of a raw script.  `Error.message` is the text of an error and `Error.chain` the texts of
what lies behind it.
-/

namespace ScriptCodec

/-- Arguments of the wrong shape. -/
inductive Malformed where
  /-- Text was given for a raw script although no text encoding is set -/
  | textWithoutEncoding
  /-- An addressable script without data in the place of its hash -/
  | noEmbeddedHash
  /-- A script that no bech32 text can hold -/
  | tooLongForBech32
  /-- A checked base58 text without a version byte -/
  | emptyBase58Payload
  /-- A version byte that is not configured -/
  | unknownVersion
  /-- A name of no standard script shape -/
  | unknownScriptType
deriving DecidableEq, Repr

/-- The text of the reason. -/
def Malformed.message : Malformed → String
  | .textWithoutEncoding => "text input requires a hex or base64 encoding"
  | .noEmbeddedHash => "script does not embed a hash"
  | .tooLongForBech32 => "script too long for a bech32 address"
  | .emptyBase58Payload => "empty base58 payload"
  | .unknownVersion => "unknown base58 version byte"
  | .unknownScriptType => "unknown script type"

/-- Repeat marks that repeat nothing. -/
inductive MisplacedRepeat where
  /-- At the start of a template -/
  | leading
  /-- Behind another repeat mark -/
  | doubled
deriving DecidableEq, Repr

/-- The text of the reason. -/
def MisplacedRepeat.message : MisplacedRepeat → String
  | .leading => "a template cannot start with a repeat"
  | .doubled => "a repeat cannot follow another repeat"

/-- Why a conversion fails. -/
inductive Error where
  | malformedInput (reason : Malformed)
  | invalidEncoding (name : String)
  | invalidLiteralStyle (name : String)
  | invalidOpcodeStyle (name : String)
  /-- A push at `position` that claims more bytes than remain -/
  | truncatedScript (position needed available : Nat)
  /-- An opcode that is unknown or cannot stand alone -/
  | invalidOpcode (code : UInt8) (position : Nat)
  /-- A literal that no length field can announce -/
  | literalTooLarge (size : Nat)
  /-- A token that only templates may hold -/
  | unencodableToken (kind : TokenKind)
  | unterminatedLiteral (position : Nat)
  | unterminatedPlaceholder (position : Nat)
  | unexpectedCharacter (position : Nat)
  /-- A literal with an odd number of hex digits -/
  | invalidHexLiteral (position : Nat)
  /-- A normalized term that is neither an override nor a word of the table -/
  | unknownTerm (term : String) (position : Nat)
  /-- A size in `PUSHDATA(..)` that is missing or no number -/
  | invalidPushdataSize (position : Nat)
  | pushdataMissingLiteral (position : Nat)
  | pushdataSizeMismatch (position expected actual : Nat)
  | unrecognizedAddress (address : String)
  | invalidBech32Prefix (text : String)
  | tooFewValues
  | tooManyValues
  /-- A template entry that stands for no single token -/
  | unsupportedInstantiation (entry : String)
  | placeholderSizeMismatch (placeholder : String) (actual : Nat)
  | invalidTemplate (reason : MisplacedRepeat)
  | unknownWord (word : String)
  | invalidOpcodeNumber (number : Int)
  | base58 (error : Base58.Error)
  | bech32 (error : Bech32.Error)
  | hex (error : Hex.Error)
  | base64 (error : Base64.Error)
  | json (error : Json.Error)
deriving DecidableEq, Repr

namespace Error

/-- The texts of what lies behind an error, from the outermost statement to the innermost. -/
def chain : Error → List String
  | .base58 e => e.chain
  | .bech32 e => e.chain
  | .hex e => e.chain
  | .base64 e => [e.message]
  | .json e => [e.message]
  | _ => []

/-- The text of an error. -/
def message : Error → String
  | .malformedInput reason => "malformed input: " ++ reason.message
  | .invalidEncoding name =>
      "encoding must be one of none, \"hex\" or \"base64\", not " ++ Quoted.quote name
  | .invalidLiteralStyle name =>
      "literal style must be one of \"normal\", \"brackets\", \"prefixed\" or \"verbose\", not "
        ++ Quoted.quote name
  | .invalidOpcodeStyle name =>
      "opcode style must be one of \"normal\" or \"short\", not " ++ Quoted.quote name
  | .truncatedScript position needed available =>
      s!"push at index {position} needs {needed} bytes but only {available} remain"
  | .invalidOpcode code position => s!"opcode {code.toNat} at index {position} is not valid"
  | .literalTooLarge size => s!"literal of {size} bytes is too large"
  | .unencodableToken kind => s!"a {kind.name} token has no raw encoding"
  | .unterminatedLiteral position => s!"unterminated literal starting at position {position}"
  | .unterminatedPlaceholder position =>
      s!"unterminated placeholder starting at position {position}"
  | .unexpectedCharacter position => s!"unexpected character at position {position}"
  | .invalidHexLiteral position =>
      s!"odd number of hex digits in literal starting at position {position}"
  | .unknownTerm term position => s!"unknown term {term} found at position {position}"
  | .invalidPushdataSize position => s!"invalid PUSHDATA size starting at position {position}"
  | .pushdataMissingLiteral position =>
      s!"PUSHDATA at {position} requires a literal to follow it"
  | .pushdataSizeMismatch position expected actual =>
      s!"PUSHDATA value at {position} has {actual} bytes, expected {expected}"
  | .unrecognizedAddress address => s!"could not convert {address} to a script"
  | .invalidBech32Prefix text => "invalid bech32 prefix " ++ Quoted.quote text
  | .tooFewValues => "too few values to instantiate the template"
  | .tooManyValues => "too many values to instantiate the template"
  | .unsupportedInstantiation entry => s!"template entry {entry} cannot be instantiated"
  | .placeholderSizeMismatch placeholder actual =>
      s!"a {actual}-byte value does not fit <{placeholder}>"
  | .invalidTemplate reason => "invalid template: " ++ reason.message
  | .unknownWord word => s!"{word} is not a valid term"
  | .invalidOpcodeNumber number => s!"{number} is not a valid opcode"
  | .base58 e => "base58 error: " ++ e.chain.headD ""
  | .bech32 e => "bech32 error: " ++ e.chain.headD ""
  | .hex e => "hex error: " ++ e.chain.headD ""
  | .base64 e => "base64 error: " ++ e.message
  | .json e => "invalid JSON options: " ++ e.message

end Error
end ScriptCodec
