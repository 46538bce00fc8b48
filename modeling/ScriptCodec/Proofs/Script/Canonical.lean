import ScriptCodec.Proofs.Address.Existence
import ScriptCodec.Proofs.Asm.Settling
import ScriptCodec.Proofs.Raw.RoundTrip
import ScriptCodec.Proofs.Template.Shapes

/-!
# Scripts and their bytes

A text can push the empty value by an empty literal or by the opcode for it.  Both have the same
bytes, so a script that is written to bytes and read again has opcodes in the place of its empty
literals.  Shapes, addresses and redeem scripts are found by tokens, and this module says exactly
where the two scripts differ.

* `canonical_cases` compares the shapes of a script and of its canonical form;
* `ofBytes_toBytes_agrees` is the comparison of everything that is said about scripts of texts;
* `ofBytes_toBytes_differs` is a script without a shape whose bytes have one.
-/

namespace ScriptCodec

/-! ## Canonical tokens -/

namespace Token

/-- Only the opcode for the empty value can come from another token. -/
theorem eq_of_canonical_eq
    {t u : Token}
    (same : t.canonical = u)
    (other : u ≠ .opcode Opcode.zero) :
    t = u := by
  by_cases empty : t = .literal []
  · subst empty
    exact absurd same.symm other
  · rw [← same, canonical_of_ne empty]

end Token

theorem eq_of_canonicalTokens_eq
    {ts us : List Token}
    (same : canonicalTokens ts = us)
    (noZero : .opcode Opcode.zero ∉ us) :
    ts = us := by
  subst same
  induction ts with
  | nil =>
      rfl
  | cons t ts ih =>
      have first : t.canonical ≠ .opcode Opcode.zero := by
        rintro zero
        exact noZero (by simp [canonicalTokens, zero])
      have others : .opcode Opcode.zero ∉ canonicalTokens ts := by
        intro mem
        exact noZero (List.mem_cons_of_mem _ mem)
      rw [canonicalTokens, List.map_cons, ← Token.eq_of_canonical_eq rfl first]
      exact congrArg (t :: ·) (ih others)

theorem literal_nil_not_mem_canonicalTokens
    (ts : List Token) :
    .literal [] ∉ canonicalTokens ts := by
  intro mem
  obtain ⟨t, _, same⟩ := List.mem_map.mp mem
  have unchanged := Token.eq_of_canonical_eq same (by simp)
  subst unchanged
  cases same

/-! ## Shapes of canonical scripts -/

/-- A witness script whose first opcode is written as an empty literal. -/
def HidesWitness
    (ts : List Token) :
    Prop :=
  ∃ program,
    ts = [.literal [], .literal program] ∧
    (program.length = 20 ∨ program.length = 32)

namespace Shape

variable {table : Opcode.Table} {ts : List Token} {shape : Shape}

/-- Only several signatures can hold an empty literal. -/
theorem eq_multisig_of_mem
    (empty : .literal [] ∈ ts)
    (shaped : shape.template.hasShape ts table = true) :
    shape = .multisig := by
  cases framed : shape.frame? with
  | none =>
      exact eq_multisig_of_frame? framed
  | some frame =>
      obtain ⟨value, size, rfl⟩ := (hasShape_iff_frame framed).mp shaped
      have some_byte : 0 < frame.size := by
        cases shape with
        | multisig =>
            cases framed
        | _ =>
            cases framed
            decide
      rw [← Frame.literal_mem_script_iff.mp empty] at size
      exact absurd size (Nat.ne_of_lt some_byte)

/-- The opcode for the empty value stands in witness scripts only. -/
theorem zero_not_mem
    (shaped : shape.template.hasShape ts Opcode.Table.standard = true)
    (noWitness : shape ≠ .p2wpkh ∧ shape ≠ .p2wsh) :
    .opcode Opcode.zero ∉ ts := by
  cases framed : shape.frame? with
  | none =>
      rw [eq_multisig_of_frame? framed] at shaped
      obtain ⟨m, keys, n, m_small, _, each, n_small, rfl⟩ := hasShape_multisig_iff.mp shaped
      have positive : ∀ code, Opcode.one ≤ code → Opcode.zero ≠ code := by
        rintro code le rfl
        exact absurd le (by decide)
      have noKey : .opcode Opcode.zero ∉ keys := by
        intro mem
        obtain ⟨data, same⟩ := each _ mem
        cases same
      have last : Opcode.zero ≠ Opcode.checkMultiSig := by
        decide
      simp [positive m m_small.1, positive n n_small.1, noKey, last]
  | some frame =>
      obtain ⟨value, _, rfl⟩ := (hasShape_iff_frame framed).mp shaped
      cases shape with
      | p2wpkh =>
          exact absurd rfl noWitness.1
      | p2wsh =>
          exact absurd rfl noWitness.2
      | multisig =>
          cases framed
      | _ =>
          cases framed
          rw [Frame.opcode_mem_script_iff]
          decide

end Shape

section Comparison

variable {ts : List Token} {shape : Shape}

/-- A script with an empty literal whose canonical form has a shape hides a witness script. -/
theorem hidesWitness_of_shape
    (empty : .literal [] ∈ ts)
    (shaped : shape.template.hasShape (canonicalTokens ts) Opcode.Table.standard = true) :
    HidesWitness ts := by
  have witness : shape = .p2wpkh ∨ shape = .p2wsh := by
    by_contra other
    have noZero := Shape.zero_not_mem shaped (not_or.mp other)
    have same := eq_of_canonicalTokens_eq rfl noZero
    rw [same] at empty
    exact literal_nil_not_mem_canonicalTokens ts empty
  obtain ⟨program, size, same⟩ := Shape.exists_witness_iff.mp ⟨shape, witness, shaped⟩
  obtain ⟨t, us, rfl, _, same'⟩ := List.map_eq_cons_iff.mp same
  obtain ⟨u, vs, rfl, second, nothing⟩ := List.map_eq_cons_iff.mp same'
  obtain rfl := List.map_eq_nil_iff.mp nothing
  have second : u = .literal program := Token.eq_of_canonical_eq second (by simp)
  subst second
  have some_byte := Shape.program_ne_nil size
  have first : t = .literal [] := by
    simpa [some_byte, eq_comm] using empty
  exact ⟨program, by rw [first], size⟩

/-- A hidden witness script has no shape. -/
theorem HidesWitness.shape_none
    (hides : HidesWitness ts) :
    Shape.ofTokens? ts Opcode.Table.standard = none := by
  obtain ⟨program, rfl, _⟩ := hides
  cases found : Shape.ofTokens? _ Opcode.Table.standard with
  | none =>
      rfl
  | some shape =>
      have shaped := Shape.ofTokens?_eq_some_iff.mp found
      obtain rfl := Shape.eq_multisig_of_mem (by simp) shaped
      obtain ⟨m, keys, n, _, _, _, _, same⟩ := Shape.hasShape_multisig_iff.mp shaped
      cases same

/-- The canonical form of a hidden witness script has a witness shape. -/
theorem HidesWitness.exists_shape
    (hides : HidesWitness ts) :
    ∃ shape,
      Shape.ofTokens? (canonicalTokens ts) Opcode.Table.standard = some shape ∧
      (shape = .p2wpkh ∨ shape = .p2wsh) := by
  obtain ⟨program, rfl, size⟩ := hides
  have second : (Token.literal program).canonical = .literal program :=
    Token.canonical_of_ne (by simpa using Shape.program_ne_nil size)
  have canonical : canonicalTokens [.literal [], .literal program] =
      [.opcode Opcode.zero, .literal program] := by
    simp [canonicalTokens, second]
  obtain ⟨shape, witness, shaped⟩ := Shape.exists_witness_iff.mpr ⟨program, size, canonical⟩
  exact ⟨shape, Shape.ofTokens?_eq_some_iff.mpr shaped, witness⟩

/-- The shapes of a script and of its canonical form: the script is canonical, or it hides a witness
script, or only several signatures with an empty literal lose their shape. -/
theorem canonical_cases
    (ts : List Token) :
    (.literal [] ∉ ts ∧ canonicalTokens ts = ts) ∨
    (HidesWitness ts ∧
      Shape.ofTokens? ts Opcode.Table.standard = none ∧
      ∃ shape,
        Shape.ofTokens? (canonicalTokens ts) Opcode.Table.standard = some shape ∧
        (shape = .p2wpkh ∨ shape = .p2wsh)) ∨
    ((.literal [] ∈ ts ∧ ¬ HidesWitness ts) ∧
      (Shape.ofTokens? ts Opcode.Table.standard = some .multisig ∨
        Shape.ofTokens? ts Opcode.Table.standard = none) ∧
      Shape.ofTokens? (canonicalTokens ts) Opcode.Table.standard = none) := by
  by_cases empty : .literal [] ∈ ts
  · by_cases hides : HidesWitness ts
    · exact .inr (.inl ⟨hides, hides.shape_none, hides.exists_shape⟩)
    · refine .inr (.inr ⟨⟨empty, hides⟩, ?_, ?_⟩)
      · cases found : Shape.ofTokens? ts Opcode.Table.standard with
        | none =>
            exact .inr rfl
        | some shape =>
            have shaped := Shape.ofTokens?_eq_some_iff.mp found
            exact .inl (congrArg some (Shape.eq_multisig_of_mem empty shaped))
      · cases found : Shape.ofTokens? (canonicalTokens ts) Opcode.Table.standard with
        | none =>
            rfl
        | some shape =>
            have shaped := Shape.ofTokens?_eq_some_iff.mp found
            exact absurd (hidesWitness_of_shape empty shaped) hides
  · exact .inl ⟨empty, canonicalTokens_of_not_mem empty⟩

end Comparison

/-! ## What is said about scripts -/

namespace Script

/-- A text without template entries and overriding terms has literals and opcodes that stand
alone. -/
theorem tokens_of_ofAsm
    {text : String}
    {options : Options}
    (no_placeholders : options.allowPlaceholders = false)
    (no_terms : options.terms = Overrides.empty)
    {s : Script}
    (read : ofAsm text options = .ok s) :
    (∀ code, .opcode code ∈ s.tokens → table.StandsAlone code) ∧
    ∀ t ∈ s.tokens, (∃ data, t = .literal data) ∨ ∃ code, t = .opcode code := by
  have zero : table.StandsAlone Opcode.zero := by
    decide
  cases lexed : Asm.decode text.toList options table with
  | error e =>
      simp [ofAsm, lexed, Except.map] at read
  | ok ts =>
      simp only [ofAsm, lexed, Except.map, Except.ok.injEq] at read
      subst read
      constructor
      · intro code mem
        exact Asm.standsAlone_of_decode zero no_terms lexed mem
      · intro t mem
        have readable := Asm.readable_of_decode lexed t mem
        rw [no_placeholders] at readable
        cases t with
        | literal data =>
            exact .inl ⟨data, rfl⟩
        | opcode code =>
            exact .inr ⟨code, rfl⟩
        | placeholder text =>
            cases readable.1
        | repetition =>
            cases readable

section Bytes

variable {s : Script} (alone : ∀ code, .opcode code ∈ s.tokens → table.StandsAlone code)

include alone in
/-- The bytes of a script exist unless a literal is too large. -/
theorem exists_toBytes_iff
    (concrete : ∀ t ∈ s.tokens, (∃ data, t = .literal data) ∨ ∃ code, t = .opcode code) :
    (∃ bytes, s.toBytes = .ok bytes) ↔
      ∀ data, .literal data ∈ s.tokens → data.length < 2 ^ 32 := by
  constructor
  · rintro ⟨bytes, written⟩ data mem
    exact Raw.encodable_of_encode alone written _ mem
  · intro small
    have encodable : ∀ t ∈ s.tokens, t.Encodable table := by
      intro t mem
      rcases concrete t mem with ⟨data, rfl⟩ | ⟨code, rfl⟩
      · exact small data mem
      · exact alone code mem
    obtain ⟨bytes, written, _⟩ := Raw.exists_encode (by decide) encodable
    exact ⟨bytes, written⟩

include alone in
/-- The bytes of a script are read as its canonical form. -/
theorem ofBytes_toBytes
    {bytes : List UInt8}
    (written : s.toBytes = .ok bytes) :
    ofBytes bytes = .ok ⟨canonicalTokens s.tokens⟩ := by
  obtain ⟨bytes', written', read⟩ :=
    Raw.exists_encode (by decide) (Raw.encodable_of_encode alone written)
  have same : bytes = bytes' := by
    have both := written.symm.trans written'
    exact Except.ok.inj both
  rw [ofBytes, same, read]
  rfl

end Bytes

/-- Scripts without a shape and several signatures have no address. -/
theorem hasAddress_of_unaddressable
    {s : Script}
    (shape : s.shape? = some .multisig ∨ s.shape? = none) :
    s.hasAddress = false := by
  rcases shape with several | nothing
  · rw [hasAddress, several]
    rfl
  · rw [hasAddress, nothing]
    rfl

/-- Witness scripts have an address. -/
theorem hasAddress_of_witness
    {s : Script}
    {shape : Shape}
    (found : s.shape? = some shape)
    (witness : shape = .p2wpkh ∨ shape = .p2wsh) :
    s.hasAddress = true := by
  rw [hasAddress, found]
  rcases witness with rfl | rfl
  · rfl
  · rfl

/-- The redeem script of a script is that of its canonical form, except for the empty literal: this
holds the empty script, and the opcode for the empty value holds none. -/
theorem redeem?_canonical_iff
    (ts : List Token) :
    (redeem? ⟨canonicalTokens ts⟩).map toBytes = (redeem? ⟨ts⟩).map toBytes ↔
      ts ≠ [.literal []] := by
  constructor
  · rintro same rfl
    have nothing : Raw.decode [] table = .ok [] :=
      Raw.decode_eq_ok_iff.mpr ⟨[], Reader.run_of_done rfl, rfl⟩
    simp [redeem?, redeemAttempt, canonicalTokens, ofBytes, nothing, Except.map,
      Except.toOption] at same
  · intro other
    have attempt : redeemAttempt ⟨canonicalTokens ts⟩ = redeemAttempt ⟨ts⟩ := by
      cases ts with
      | nil =>
          rfl
      | cons t us =>
          cases us with
          | nil =>
              have kept : t.canonical = t :=
                Token.canonical_of_ne fun empty => other (by rw [empty])
              rw [canonicalTokens, List.map_cons, kept]
              rfl
          | cons u us =>
              simp [redeemAttempt, canonicalTokens]
    rw [redeem?, redeem?, attempt]

/-- **Scripts and their bytes**, for the script of every text without template entries and
overriding terms.  Its bytes exist unless a literal is too large, and they are read as a script of
which the same is said: it has the same shape unless the first one hides a witness script or has
the shape of several signatures with an empty literal, the same addresses unless the first one
hides a witness script, and a redeem script with the same bytes, or none as well, unless the first
one is the empty literal.  In these cases the scripts do differ. -/
theorem ofBytes_toBytes_agrees
    {text : String}
    {options : Options}
    (no_placeholders : options.allowPlaceholders = false)
    (no_terms : options.terms = Overrides.empty)
    {s : Script}
    (read : ofAsm text options = .ok s) :
    ((∃ bytes, s.toBytes = .ok bytes) ↔
      ∀ data, .literal data ∈ s.tokens → data.length < 2 ^ 32) ∧
    ∀ bytes,
      s.toBytes = .ok bytes →
      ∃ s',
        ofBytes bytes = .ok s' ∧
        (s'.shape? = s.shape? ↔
          ¬ HidesWitness s.tokens ∧
          ¬ (s.shape? = some .multisig ∧ .literal [] ∈ s.tokens)) ∧
        (s'.hasAddress = s.hasAddress ↔ ¬ HidesWitness s.tokens) ∧
        (∀ options', s'.toAddress options' = s.toAddress options' ↔ ¬ HidesWitness s.tokens) ∧
        (s'.redeem?.map toBytes = s.redeem?.map toBytes ↔ s.tokens ≠ [.literal []]) := by
  obtain ⟨alone, concrete⟩ := tokens_of_ofAsm no_placeholders no_terms read
  refine ⟨exists_toBytes_iff alone concrete, ?_⟩
  intro bytes written
  refine ⟨_, ofBytes_toBytes alone written, ?_⟩
  have redeems := redeem?_canonical_iff s.tokens
  rcases canonical_cases s.tokens with
    ⟨noEmpty, same⟩ | ⟨hides, nothing, shape, found, witness⟩ | ⟨⟨empty, shown⟩, loses, nothing⟩
  · have shown : ¬ HidesWitness s.tokens := by
      rintro ⟨program, hidden, _⟩
      rw [hidden] at noEmpty
      exact noEmpty (by simp)
    rw [same] at redeems ⊢
    exact ⟨by simp [shown, noEmpty], by simp [shown], by simp [shown], redeems⟩
  · have addressed := hasAddress_of_witness (s := ⟨canonicalTokens s.tokens⟩) found witness
    have unaddressed := hasAddress_of_unaddressable (s := s) (.inr nothing)
    refine ⟨?_, ?_, ?_, redeems⟩
    · have different : shape? ⟨canonicalTokens s.tokens⟩ ≠ s.shape? := by
        rw [show s.shape? = none from nothing]
        exact fun same => nomatch found.symm.trans same
      simp [different, hides]
    · simp [addressed, unaddressed, hides]
    · intro options'
      have different : toAddress ⟨canonicalTokens s.tokens⟩ options' ≠ s.toAddress options' := by
        rw [toAddress_eq_none_iff.mpr unaddressed]
        intro same
        rw [toAddress_eq_none_iff.mp same] at addressed
        cases addressed
      simp [different, hides]
  · have unaddressed := hasAddress_of_unaddressable (s := s) loses
    have unaddressed' :=
      hasAddress_of_unaddressable (s := ⟨canonicalTokens s.tokens⟩) (.inr nothing)
    refine ⟨?_, ?_, ?_, redeems⟩
    · rw [show shape? ⟨canonicalTokens s.tokens⟩ = none from nothing]
      rcases loses with several | nothing'
      · have shape : s.shape? = some .multisig := several
        simp [shape, empty]
      · have shape : s.shape? = none := nothing'
        simp [shape, shown]
    · simp [unaddressed, unaddressed', shown]
    · intro options'
      rw [toAddress_eq_none_iff.mpr unaddressed, toAddress_eq_none_iff.mpr unaddressed']
      simp [shown]

/-- Two literals in brackets are read as they are. -/
theorem ofAsm_bracketed
    {text : String}
    {first second : List UInt8}
    (chars : text.toList =
      '[' :: (Hex.digits first ++ [']']) ++ ' ' :: '[' :: (Hex.digits second ++ [']']))
    (options : Options) :
    ofAsm text options = .ok ⟨[.literal first, .literal second]⟩ := by
  have read : Asm.decode text.toList options table = .ok [.literal first, .literal second] := by
    rw [chars]
    exact Asm.decode_join rfl (Asm.decode_bracketed first) (Asm.decode_bracketed second)
  rw [ofAsm, read]
  rfl

/-- An empty literal in front of one byte becomes an opcode, and all that is said of the script
stays the same. -/
theorem ofBytes_toBytes_agrees_byte :
    Options.default.allowPlaceholders = false ∧
    Options.default.terms = Overrides.empty ∧
    ofAsm "[] [ab]" Options.default = .ok ⟨[.literal [], .literal [0xab]]⟩ ∧
    toBytes ⟨[.literal [], .literal [0xab]]⟩ = .ok [0x00, 0x01, 0xab] ∧
    ∃ s',
      ofBytes [0x00, 0x01, 0xab] = .ok s' ∧
      s'.hasAddress = hasAddress ⟨[.literal [], .literal [0xab]]⟩ ∧
      (∀ options,
        s'.toAddress options = toAddress ⟨[.literal [], .literal [0xab]]⟩ options) ∧
      s'.redeem?.map toBytes = (redeem? ⟨[.literal [], .literal [0xab]]⟩).map toBytes := by
  have read : ofAsm "[] [ab]" Options.default = .ok ⟨[.literal [], .literal [0xab]]⟩ :=
    ofAsm_bracketed (by decide +kernel) _
  have written : toBytes ⟨[.literal [], .literal [0xab]]⟩ = .ok [0x00, 0x01, 0xab] := by
    rfl
  have shown : ¬ HidesWitness [.literal [], .literal [0xab]] := by
    rintro ⟨program, same, size⟩
    cases same
    revert size
    decide
  obtain ⟨s', again, _, addressed, addresses, redeems⟩ :=
    (ofBytes_toBytes_agrees rfl rfl read).2 _ written
  exact
    ⟨rfl, rfl, read, written, s', again, addressed.mpr shown,
      fun options => (addresses options).mpr shown, redeems.mpr (by decide)⟩

/-- Bytes do not determine what is said of a script: an empty literal and twenty bytes have no shape
and no address, and their bytes are those of a witness script. -/
theorem ofBytes_toBytes_differs :
    let program : List UInt8 := List.replicate 20 0x11
    Options.default.allowPlaceholders = false ∧
    Options.default.terms = Overrides.empty ∧
    ofAsm "[] [1111111111111111111111111111111111111111]" Options.default =
      .ok ⟨[.literal [], .literal program]⟩ ∧
    toBytes ⟨[.literal [], .literal program]⟩ = .ok (0x00 :: 0x14 :: program) ∧
    ofBytes (0x00 :: 0x14 :: program) = .ok ⟨[.opcode Opcode.zero, .literal program]⟩ ∧
    shape? ⟨[.literal [], .literal program]⟩ = none ∧
    shape? ⟨[.opcode Opcode.zero, .literal program]⟩ = some .p2wpkh ∧
    hasAddress ⟨[.literal [], .literal program]⟩ = false ∧
    hasAddress ⟨[.opcode Opcode.zero, .literal program]⟩ = true := by
  intro program
  have read : ofAsm "[] [1111111111111111111111111111111111111111]" Options.default =
      .ok ⟨[.literal [], .literal program]⟩ :=
    ofAsm_bracketed (by decide +kernel) _
  have written : toBytes ⟨[.literal [], .literal program]⟩ = .ok (0x00 :: 0x14 :: program) := by
    rfl
  obtain ⟨alone, _⟩ := tokens_of_ofAsm rfl rfl read
  have hidden : HidesWitness [.literal [], .literal program] :=
    ⟨program, rfl, .inl rfl⟩
  have nothing : shape? ⟨[.literal [], .literal program]⟩ = none :=
    hidden.shape_none
  have witness : shape? ⟨[.opcode Opcode.zero, .literal program]⟩ = some .p2wpkh :=
    Shape.ofTokens?_eq_some_iff.mpr ((Shape.hasShape_iff_frame rfl).mpr ⟨program, rfl, rfl⟩)
  exact
    ⟨rfl, rfl, read, written, ofBytes_toBytes alone written, nothing, witness,
      hasAddress_of_unaddressable (.inr nothing), hasAddress_of_witness witness (.inl rfl)⟩

end Script

end ScriptCodec
