import ScriptCodec.Opcode.Table
import ScriptCodec.Scan

/-!
# The binary form of scripts

A script is a sequence of pushes and single opcodes.  A push is announced by its length: the length
itself as an opcode up to 75, or one of three opcodes with a length field of one, two or four
bytes, least significant first.  Any form of push is read; the shortest one that fits is written.
A push that claims more bytes than remain is an error that says where it starts.

`Raw.step` reads one token and `Raw.reader` is the reader built on it; `Raw.append` writes one
token and `Raw.encode` writes a list.
-/

namespace ScriptCodec
namespace Raw

/-! ## Reading -/

/-- The width of the length field behind a push opcode. -/
def lengthWidth (op : UInt8) : Nat :=
  if op = Opcode.pushData1 then 1
  else if op = Opcode.pushData2 then 2
  else if op = Opcode.pushData4 then 4
  else 0

/-- The number that a length field holds. -/
def littleEndian (bytes : List UInt8) : Nat :=
  bytes.foldr (fun b n => b.toNat + 256 * n) 0

/-- Takes `size` bytes from the front; `position` is where the push that needs them starts. -/
def take (position size : Nat) (bytes : List UInt8) :
    Except Error (List UInt8 × List UInt8) :=
  let data := bytes.take size
  if data.length < size then .error (.truncatedScript position size data.length)
  else .ok (data, bytes.drop size)

/-- Reads the length of a push: its value, and the bytes behind the length field. -/
def readLength (position : Nat) (op : UInt8) (body : List UInt8) :
    Except Error (Nat × List UInt8) :=
  let width := lengthWidth op
  if width = 0 then .ok (op.toNat, body)
  else
    match take position width body with
    | .error e => .error e
    | .ok (field, rest) => .ok (littleEndian field, rest)

/-- Reads the token at the cursor. -/
def step (table : Opcode.Table) (c : Cursor UInt8) : Step (Cursor UInt8) Located Error :=
  match c.rest with
  | [] => .done
  | op :: body =>
      if Opcode.isPush op then
        match readLength c.pos op body with
        | .error e => .fault e
        | .ok (size, body) =>
            match take c.pos size body with
            | .error e => .fault e
            | .ok (data, rest) =>
                let stop := c.pos + 1 + lengthWidth op + size
                .item ⟨.literal data, ⟨c.pos, stop⟩⟩ ⟨stop, rest⟩
      else if table.hasCode op then
        .item ⟨.opcode op, ⟨c.pos, c.pos + 1⟩⟩ ⟨c.pos + 1, body⟩
      else .fault (.invalidOpcode op c.pos)

theorem length_rest_take_le
    {position size : Nat}
    {bytes data rest : List UInt8}
    (h : take position size bytes = .ok (data, rest)) :
    rest.length ≤ bytes.length := by
  simp only [take] at h
  split at h
  · simp at h
  · simp only [Except.ok.injEq, Prod.mk.injEq] at h
    simp [← h.2]

theorem length_rest_readLength_le
    {position size : Nat}
    {op : UInt8}
    {body rest : List UInt8}
    (h : readLength position op body = .ok (size, rest)) :
    rest.length ≤ body.length := by
  simp only [readLength] at h
  split at h
  · simp only [Except.ok.injEq, Prod.mk.injEq] at h
    simp [h.2]
  · split at h
    · simp at h
    · next field rest' ht =>
      simp only [Except.ok.injEq, Prod.mk.injEq] at h
      rw [← h.2]
      exact length_rest_take_le ht

/-- A token takes at least one byte. -/
theorem step_shrinks
    {table : Opcode.Table}
    {c rest : Cursor UInt8}
    {s : Located}
    (h : step table c = .item s rest) :
    rest.rest.length < c.rest.length := by
  unfold step at h
  split at h
  · simp at h
  · next op body hc =>
    rw [hc]
    simp only [List.length_cons]
    split at h
    · split at h
      · simp at h
      · next size body' hl =>
        split at h
        · simp at h
        · next data rest' ht =>
          have first := length_rest_readLength_le hl
          have second := length_rest_take_le ht
          simp only [Step.item.injEq] at h
          simp only [← h.2]
          omega
    · split at h
      · simp only [Step.item.injEq] at h
        simp [← h.2]
      · simp at h

/-- The reader of raw scripts. -/
def reader (table : Opcode.Table) : Reader (Cursor UInt8) Located Error where
  step := step table
  size c := c.rest.length
  shrinks := step_shrinks

/-- Reads a raw script with the byte range of every token. -/
def decodeLocated (bytes : List UInt8) (table : Opcode.Table) : Except Error (List Located) :=
  ((reader table).run (Cursor.start bytes)).toExcept

/-- Reads a raw script. -/
def decode (bytes : List UInt8) (table : Opcode.Table) : Except Error (List Token) :=
  (decodeLocated bytes table).map tokensOf

/-! ## Writing -/

/-- A length as `width` bytes, least significant first. -/
def lengthField : (width : Nat) → Nat → List UInt8
  | 0, _ => []
  | w + 1, n => UInt8.ofNat n :: lengthField w (n / 256)

/-- The shortest announcement of a push of `size` bytes. -/
def pushHeader? (size : Nat) : Option (List UInt8) :=
  if size ≤ Opcode.maxDirectPush.toNat then some [UInt8.ofNat size]
  else if size < UInt8.size then some (Opcode.pushData1 :: lengthField 1 size)
  else if size < UInt16.size then some (Opcode.pushData2 :: lengthField 2 size)
  else if size < UInt32.size then some (Opcode.pushData4 :: lengthField 4 size)
  else none

/-- The bytes of one token; `position` is where they are going to stand. -/
def tokenBytes (position : Nat) : Token → Except Error (List UInt8)
  | .literal data =>
      match pushHeader? data.length with
      | some header => .ok (header ++ data)
      | none => .error (.literalTooLarge data.length)
  | .opcode code =>
      if Opcode.isPush code then .error (.invalidOpcode code position) else .ok [code]
  | .placeholder _ => .error (.unencodableToken .placeholder)
  | .repetition => .error (.unencodableToken .repetition)

@[simp] theorem length_lengthField
    (width n : Nat) :
    (lengthField width n).length = width := by
  induction width generalizing n with
  | zero =>
    rfl
  | succ w ih =>
    simp [lengthField, ih]

/-- Writing behind what is already written.  A failure by itself undoes nothing. -/
abbrev Writer (α : Type) : Type :=
  ExceptT Error (StateM (List UInt8)) α

/-- What a writer gives behind what is already written, and what is written then. -/
def Writer.onto {α : Type} (writer : Writer α) (written : List UInt8) :
    Except Error α × List UInt8 :=
  StateT.run (ExceptT.run writer) written

/-- Writes bytes. -/
def put (bytes : List UInt8) : Writer Unit :=
  modify (· ++ bytes)

/-- Appends one token to what is already written. -/
def append : Token → Writer Unit
  | .literal data => do
      match pushHeader? data.length with
      | some header => put header
      | none => throw (.literalTooLarge data.length)
      put data
  | .opcode code => do
      let written ← get
      if Opcode.isPush code then throw (.invalidOpcode code written.length)
      put [code]
  | .placeholder _ => throw (.unencodableToken .placeholder)
  | .repetition => throw (.unencodableToken .repetition)

/-- Appends tokens one after the other and goes on after errors: what each call gave, with what was
written then, and what is written in the end. -/
def appendEach (written : List UInt8) : List Token →
    List (Except Error (List UInt8)) × List UInt8
  | [] => ([], written)
  | t :: ts =>
      let (outcome, after) := (append t).onto written
      let (outcomes, last) := appendEach after ts
      (outcome.map (fun _ => after) :: outcomes, last)

/-- Writes tokens behind `size` bytes that are already written, last byte first. -/
def encodeOnto (written : List UInt8) (size : Nat) : List Token → Except Error (List UInt8)
  | [] => .ok written.reverse
  | t :: ts =>
      match tokenBytes size t with
      | .ok bytes => encodeOnto (bytes.reverseAux written) (size + bytes.length) ts
      | .error e => .error e

/-- Writes a script. -/
def encode (tokens : List Token) : Except Error (List UInt8) :=
  encodeOnto [] 0 tokens

/-- Writing a token leaves the tokens behind it to be written at a later position. -/
theorem encodeOnto_cons_of_ok
    {written bytes : List UInt8}
    {size : Nat}
    {t : Token}
    {ts : List Token}
    (h : tokenBytes size t = .ok bytes) :
    encodeOnto written size (t :: ts) =
      encodeOnto (bytes.reverse ++ written) (size + bytes.length) ts := by
  simp only [encodeOnto, h]
  rw [List.reverseAux_eq]

/-- The first token that cannot be written ends the writing. -/
theorem encodeOnto_cons_of_error
    {written : List UInt8}
    {size : Nat}
    {t : Token}
    {ts : List Token}
    {e : Error}
    (h : tokenBytes size t = .error e) :
    encodeOnto written size (t :: ts) = .error e := by
  simp only [encodeOnto, h]

end Raw
end ScriptCodec
