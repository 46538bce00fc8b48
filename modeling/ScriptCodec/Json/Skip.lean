import ScriptCodec.Json.Number
import ScriptCodec.Json.StringLiteral

/-!
# Passing over JSON values

A value whose content is not wanted is checked for form only.  The open brackets are kept as a
list of frames, so nesting may be as deep as the text is long.
-/

namespace ScriptCodec
namespace Json

/-- Passes over the rest of a literal name. -/
def skipWord : (word : List Char) → List Char → Except Error (List Char)
  | [], cs => .ok cs
  | _ :: _, [] => .error .endOfText
  | w :: word, c :: rest => if c = w then skipWord word rest else .error .malformed

/-- An open bracket. -/
inductive Frame where
  | array
  | object
deriving DecidableEq, Repr

/-- The opening bracket of an object. -/
def openBrace : Char := '\x7b'

/-- The closing bracket of an object. -/
def closeBrace : Char := '\x7d'

/-- The bracket that closes a frame. -/
def Frame.closing : Frame → Char
  | .array => ']'
  | .object => closeBrace

/-- Passes over the colon behind a key. -/
def skipColon (cs : List Char) : Except Error (List Char) :=
  match skipSpace cs with
  | [] => .error .endOfText
  | c :: rest => if c = ':' then .ok rest else .error .malformed

/-- Passes over a key with its colon. -/
def skipKey (cs : List Char) : Except Error (List Char) :=
  match skipSpace cs with
  | [] => .error .endOfText
  | c :: rest =>
      if c = '"' then
        match skipString rest with
        | .error e => .error e
        | .ok rest => skipColon rest
      else .error .malformed

/-- Passes over what stands in a frame in front of a value. -/
def skipToValue : Frame → List Char → Except Error (List Char)
  | .array, cs => .ok cs
  | .object, cs => skipKey cs

/-- Passes over a value that is no array and no object. -/
def skipScalar : List Char → Except Error (List Char)
  | [] => .error .endOfText
  | c :: rest =>
      if c = '"' then skipString rest
      else if c = 'n' then skipWord ['u', 'l', 'l'] rest
      else if c = 't' then skipWord ['r', 'u', 'e'] rest
      else if c = 'f' then skipWord ['a', 'l', 's', 'e'] rest
      else if startsNumber c then skipNumber (c :: rest)
      else .error .malformed

/-- What has to follow while a value is passed over. -/
inductive Place where
  /-- A value -/
  | value
  /-- The inside of a frame, right behind its opening bracket -/
  | opened
  /-- The inside of a frame, behind a value -/
  | filled
deriving DecidableEq, Repr

/-- Passes over values until all frames are closed. -/
def skipOn : (fuel : Nat) → Place → List Frame → List Char → Except Error (List Char)
  | 0, _, _, _ => .error .malformed
  | n + 1, .value, frames, cs =>
      match skipSpace cs with
      | [] => .error .endOfText
      | c :: rest =>
          if c = '[' then skipOn n .opened (.array :: frames) rest
          else if c = openBrace then skipOn n .opened (.object :: frames) rest
          else
            match skipScalar (c :: rest) with
            | .error e => .error e
            | .ok rest => skipOn n .filled frames rest
  | _ + 1, _, [], cs => .ok cs
  | n + 1, place, frame :: frames, cs =>
      match skipSpace cs with
      | [] => .error .endOfText
      | c :: rest =>
          if c = frame.closing then skipOn n .filled frames rest
          else if place = .opened ∨ c = ',' then
            match skipToValue frame (if place = .opened then c :: rest else rest) with
            | .error e => .error e
            | .ok rest => skipOn n .value (frame :: frames) rest
          else .error .malformed

/-- Passes over one value.  Every second step takes a character, which bounds the steps. -/
def skipValue (cs : List Char) : Except Error (List Char) :=
  skipOn (2 * cs.length + 2) .value [] cs

end Json
end ScriptCodec
