import ScriptCodec.Json.Skip
import ScriptCodec.Text.Shortest

/-!
# Reading JSON values of a known kind

Each reader skips white space, looks at the first character and either reads the value or reports
what it found in its place.  A scalar that is found in place of the wanted value is read to its
end first, so a fault inside it is reported before the misfit.
-/

namespace ScriptCodec
namespace Json

/-- The report of a value of another kind than the wanted one. -/
def misfitAt (wanted : Expectation) : List Char → Error
  | [] => .endOfText
  | c :: rest =>
      let report (found : Found) : Error := .misfit (.kind found wanted)
      let word (letters : List Char) (found : Found) : Error :=
        match skipWord letters rest with
        | .error e => e
        | .ok _ => report found
      if c = '"' then
        match readString rest with
        | .error e => e
        | .ok (s, _) => report (.text s)
      else if c = 'n' then word ['u', 'l', 'l'] .null
      else if c = 't' then word ['r', 'u', 'e'] (.boolean true)
      else if c = 'f' then word ['a', 'l', 's', 'e'] (.boolean false)
      else if c = '[' then report .sequence
      else if c = openBrace then report .map
      else if startsNumber c then
        match readNumber (c :: rest) with
        | .error e => e
        | .ok (.integer n, _) => report (.integer n)
        | .ok (.double x, _) => report (.fractional (Shortest.text x))
      else .malformed

/-- Reads a string. -/
def readText (wanted : Expectation) : Read String := fun cs =>
  match skipSpace cs with
  | [] => .error .endOfText
  | c :: rest => if c = '"' then readString rest else .error (misfitAt wanted (c :: rest))

/-- Reads a string and what it stands for. -/
def readParsed {α : Type} (wanted : Expectation) (parse : String → Except String α) : Read α :=
  fun cs =>
    match readText wanted cs with
    | .error e => .error e
    | .ok (s, rest) =>
        match parse s with
        | .ok a => .ok (a, rest)
        | .error reason => .error (.misfit (.rejected reason))

/-- Reads `true` or `false`. -/
def readBoolean : Read Bool := fun cs =>
  match skipSpace cs with
  | [] => .error .endOfText
  | c :: rest =>
      let word (letters : List Char) (value : Bool) : Except Error (Bool × List Char) :=
        match skipWord letters rest with
        | .error e => .error e
        | .ok rest => .ok (value, rest)
      if c = 't' then word ['r', 'u', 'e'] true
      else if c = 'f' then word ['a', 'l', 's', 'e'] false
      else .error (misfitAt .boolean (c :: rest))

/-- Reads a number that is a byte. -/
def readByte : Read UInt8 := fun cs =>
  match skipSpace cs with
  | [] => .error .endOfText
  | c :: rest =>
      if startsNumber c then
        match readNumber (c :: rest) with
        | .error e => .error e
        | .ok (.integer n, rest) =>
            if 0 ≤ n ∧ n < 256 then .ok (UInt8.ofNat n.toNat, rest)
            else .error (.misfit (.range n .byte))
        | .ok (.double x, _) => .error (.misfit (.kind (.fractional (Shortest.text x)) .byte))
      else .error (misfitAt .byte (c :: rest))

/-- Reads the members of an object, behind its opening bracket.  `member` reads one key with its
value, from the opening quote on. -/
def readMembersOn {σ : Type} (member : σ → Read σ) :
    (fuel : Nat) → (first : Bool) → σ → Read σ
  | 0, _, _, _ => .error .malformed
  | n + 1, first, s, cs =>
      match skipSpace cs with
      | [] => .error .endOfText
      | c :: rest =>
          if c = closeBrace then .ok (s, rest)
          else if !first ∧ c ≠ ',' then .error .malformed
          else
            match if first then c :: rest else skipSpace rest with
            | [] => .error .endOfText
            | d :: rest =>
                if d = '"' then
                  match member s (d :: rest) with
                  | .error e => .error e
                  | .ok (s, rest) => readMembersOn member n false s rest
                else .error .malformed

/-- Reads an object member by member.  Every member takes a character, which bounds their number. -/
def readMembers {σ : Type} (member : σ → Read σ) (s : σ) : Read σ := fun cs =>
  readMembersOn member (cs.length + 1) true s cs

/-- Reads an object member by member, with its opening bracket. -/
def readObject {σ : Type} (wanted : Expectation) (member : σ → Read σ) (s : σ) : Read σ :=
  fun cs =>
    match skipSpace cs with
    | [] => .error .endOfText
    | c :: rest =>
        if c = openBrace then readMembers member s rest
        else .error (misfitAt wanted (c :: rest))

/-- Reads a key from its opening quote on. -/
def readKey : Read String := fun cs =>
  readString (cs.drop 1)

/-- Reads a key that is a quoted byte, from its opening quote on.  The number starts right behind
the opening quote and ends right before the closing one. -/
def readByteKey : Read UInt8 := fun cs =>
  match cs.drop 1 with
  | c :: rest =>
      if startsNumber c then
        match readByte (c :: rest) with
        | .error e => .error e
        | .ok (code, rest) =>
            match rest with
            | '"' :: rest => .ok (code, rest)
            | _ => .error .malformed
      else .error .malformed
  | [] => .error .malformed

/-- Reads a whole text with nothing but white space behind the value. -/
def readWhole {α : Type} (read : Read α) (text : String) : Except Error α :=
  match read text.toList with
  | .error e => .error e
  | .ok (a, rest) => if (skipSpace rest).isEmpty then .ok a else .error .malformed

end Json
end ScriptCodec
