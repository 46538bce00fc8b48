import ScriptCodec.Proofs.Address.Canonical
import ScriptCodec.Proofs.Asm.Tokens
import ScriptCodec.Proofs.Raw.Plain
import ScriptCodec.Script

/-!
# Scripts that can be written

Every way to read a script ends in plain tokens.  A word for an opcode that starts a push is
refused, even if the options map it to that opcode, and template entries need the permission of the
options.

* `isPlain_ofBytes`, `isPlain_ofAsm` and `isPlain_ofAddress` are the ways to read a script, and
  `exists_ofBytes_of_ofRaw` and `exists_ofBytes_of_redeem?` lead back to the first one;
* `redeem?_eq_some_iff` says which scripts hold a redeem script;
* `exists_toBytes_of_isPlain` says that plain scripts have all their raw forms and a JSON string.
-/

namespace ScriptCodec

/-! ## Texts -/

namespace Asm

/-- A word is never read as an opcode that starts a push. -/
theorem Lexicon.isPush_of_readTerm
    {lexicon : Lexicon}
    {run : List Char}
    {position : Nat}
    {code : UInt8}
    (read : lexicon.readTerm run position = .ok code) :
    Opcode.isPush code = false := by
  unfold readTerm at read
  split at read
  · cases read
  · split at read
    · cases read
    · split at read
      · cases read
      · next noPush =>
          cases read
          exact eq_false_of_ne_true noPush

/-- Without template entries every token of a text is plain, whatever the overriding terms are. -/
theorem isPlain_of_decode
    {options : Options}
    {table : Opcode.Table}
    {text : List Char}
    {ts : List Token}
    (no_placeholders : options.allowPlaceholders = false)
    (read : decode text options table = .ok ts) :
    ∀ t ∈ ts, t.IsPlain := by
  intro t mem
  have readable := readable_of_decode read t mem
  rw [no_placeholders] at readable
  cases t with
  | literal data =>
      trivial
  | opcode code =>
      rcases readable with rfl | ⟨run, position, term⟩
      · rfl
      · exact Lexicon.isPush_of_readTerm term
  | placeholder text =>
      cases readable.1
  | repetition =>
      cases readable

end Asm

/-! ## Addresses -/

/-- A value between opcodes that start no push. -/
theorem Frame.isPlain_script
    {frame : Frame}
    (noPush : ∀ code ∈ frame.front ++ frame.back, Opcode.isPush code = false)
    (value : List UInt8) :
    ∀ t ∈ frame.script value, t.IsPlain := by
  intro t mem
  cases t with
  | literal data =>
      trivial
  | opcode code =>
      exact noPush code (List.mem_append.mpr (opcode_mem_script_iff.mp mem))
  | placeholder text =>
      simp [script] at mem
  | repetition =>
      simp [script] at mem

/-- No frame of a shape has an opcode that starts a push. -/
theorem Shape.isPush_of_frame
    {shape : Shape}
    {frame : Frame}
    (framed : shape.frame? = some frame) :
    ∀ code ∈ frame.front ++ frame.back, Opcode.isPush code = false := by
  have each : (frame.front ++ frame.back).all (fun code => !Opcode.isPush code) = true := by
    cases shape with
    | multisig =>
        cases framed
    | _ =>
        cases framed
        rfl
  intro code mem
  simpa using List.all_eq_true.mp each code mem

namespace Address

variable {address : String} {options : Options} {table : Opcode.Table} {ts : List Token}

theorem isPlain_of_readBase58
    (read : readBase58 address options.address table = .ok ts) :
    ∀ t ∈ ts, t.IsPlain := by
  obtain ⟨shape, version, hash, versioned, _, filled⟩ := exists_of_readBase58 read
  obtain ⟨frame, framed, _⟩ := exists_frame_of_version versioned
  obtain ⟨_, rfl⟩ := (Shape.instantiate_eq_ok_iff framed).mp filled
  exact Frame.isPlain_script (Shape.isPush_of_frame framed) hash

/-- Both forms of addresses are read as plain tokens. -/
theorem isPlain_of_toTokens
    (read : toTokens address options table = .ok ts) :
    ∀ t ∈ ts, t.IsPlain := by
  rw [toTokens] at read
  split at read
  · next tokens found =>
      cases read
      cases form : Address.read address options table with
      | bech32 tokens =>
          rw [form] at found
          cases found
          obtain ⟨_, data, _, _, reads⟩ := read_eq_bech32_iff.mp form
          exact Raw.isPlain_of_decode reads
      | base58 fault tokens =>
          rw [form] at found
          cases found
          exact isPlain_of_readBase58 (readBase58_of_read form)
      | failed fault fault' =>
          rw [form] at found
          cases found
  · cases read

end Address

namespace Script

/-! ## Ways to read a script -/

/-- A script of plain tokens. -/
def IsPlain
    (s : Script) :
    Prop :=
  ∀ t ∈ s.tokens, t.IsPlain

variable {s : Script}

/-- A script is what its tokens were read as. -/
theorem map_mk_eq_ok_iff
    {result : Except Error (List Token)} :
    result.map mk = .ok s ↔ result = .ok s.tokens := by
  cases result with
  | error e =>
      simp [Except.map]
  | ok ts =>
      simp only [Except.map, Except.ok.injEq]
      constructor
      · rintro rfl
        rfl
      · rintro rfl
        rfl

theorem isPlain_ofBytes
    {bytes : List UInt8}
    (read : ofBytes bytes = .ok s) :
    s.IsPlain :=
  Raw.isPlain_of_decode (map_mk_eq_ok_iff.mp read)

theorem isPlain_ofAsm
    {text : String}
    {options : Options}
    (no_placeholders : options.allowPlaceholders = false)
    (read : ofAsm text options = .ok s) :
    s.IsPlain :=
  Asm.isPlain_of_decode no_placeholders (map_mk_eq_ok_iff.mp read)

theorem isPlain_ofAddress
    {address : String}
    {options : Options}
    (read : ofAddress address options = .ok s) :
    s.IsPlain :=
  Address.isPlain_of_toTokens (map_mk_eq_ok_iff.mp read)

/-- A raw form is read as the script of its bytes. -/
theorem exists_ofBytes_of_ofRaw
    {input : RawInput}
    {encoding : Encoding}
    (read : ofRaw input encoding = .ok s) :
    ∃ bytes, ofBytes bytes = .ok s := by
  cases input with
  | bytes bytes =>
      exact ⟨bytes, read⟩
  | text text =>
      simp only [ofRaw] at read
      split at read
      · next bytes _ =>
          exact ⟨bytes, read⟩
      · cases read

/-- A script has a redeem script if it is one literal that holds one. -/
theorem redeem?_eq_some_iff
    {redeemed : Script} :
    s.redeem? = some redeemed ↔
      ∃ data, s.tokens = [.literal data] ∧ ofBytes data = .ok redeemed := by
  rw [redeem?, redeemAttempt]
  split
  · next data only =>
      rw [Option.bind_some]
      cases read : ofBytes data with
      | error e =>
          simp [only, read, Except.toOption]
      | ok script =>
          simp [only, read, Except.toOption]
  · next other =>
      constructor
      · intro found
        cases found
      · rintro ⟨data, only, _⟩
        exact (other data only).elim

/-- A redeem script is the script of the bytes that hold it. -/
theorem exists_ofBytes_of_redeem?
    {redeemed : Script}
    (found : s.redeem? = some redeemed) :
    ∃ bytes, ofBytes bytes = .ok redeemed := by
  obtain ⟨data, _, read⟩ := redeem?_eq_some_iff.mp found
  exact ⟨data, read⟩

/-! ## Raw forms -/

/-- A plain script has every raw form and its JSON string, unless a literal is too large. -/
theorem exists_toBytes_of_isPlain
    (plain : s.IsPlain)
    (small : ∀ data, .literal data ∈ s.tokens → data.length < 2 ^ 32) :
    ∃ bytes,
      s.toBytes = .ok bytes ∧
      s.toHex = .ok (Hex.encode bytes) ∧
      (∀ encoding, ∃ output, s.toRaw encoding = .ok output) ∧
      s.toJson = .ok (Json.writeText (Hex.encode bytes)) := by
  obtain ⟨bytes, written⟩ := Raw.exists_encode_iff.mpr fun t mem =>
    ⟨plain t mem, fun data same => small data (same ▸ mem)⟩
  have written : s.toBytes = .ok bytes := written
  refine ⟨bytes, written, toHex_of_toBytes written, ?_, toJson_of_toBytes written⟩
  intro encoding
  exact ⟨_, toRaw_of_toBytes written encoding⟩

end Script
end ScriptCodec
