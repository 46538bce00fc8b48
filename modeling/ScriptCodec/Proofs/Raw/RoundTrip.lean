import ScriptCodec.Opcode.Standard
import ScriptCodec.Proofs.Reading
import ScriptCodec.Proofs.Raw.Step

/-!
# Reading back raw scripts

A raw script is a sequence of announced pushes and single opcodes without separators.  This module
shows that reading it token by token finds exactly the tokens that were written, with one
exception: an empty push is written as the byte zero and read as the opcode of that number.

* `exists_tokenBytes` is one step of reading over the bytes of one token;
* `exists_encode` is a whole run over a whole script;
* `encode_eq_encode_iff` compares scripts by their bytes;
* `encodable_of_decode` says which tokens reading can find.
-/

namespace ScriptCodec

namespace Token

/-- The tokens that a raw script over a table can hold. -/
def Encodable
    (table : Opcode.Table) :
    Token → Prop
  | .literal data => data.length < 2 ^ 32
  | .opcode code => table.StandsAlone code
  | .placeholder _ => False
  | .repetition => False

instance
    (table : Opcode.Table) :
    DecidablePred (Encodable table)
  | .literal data => inferInstanceAs (Decidable (data.length < 2 ^ 32))
  | .opcode code => inferInstanceAs (Decidable (table.StandsAlone code))
  | .placeholder _ => inferInstanceAs (Decidable False)
  | .repetition => inferInstanceAs (Decidable False)

/-- The token as it is read back from its bytes: an empty literal is the opcode that pushes the
empty value. -/
def canonical : Token → Token
  | .literal [] => .opcode Opcode.zero
  | t => t

@[simp] theorem canonical_literal_nil :
    canonical (.literal []) = .opcode Opcode.zero := by
  rfl

@[simp] theorem canonical_literal_cons
    (b : UInt8)
    (data : List UInt8) :
    canonical (.literal (b :: data)) = .literal (b :: data) := by
  rfl

@[simp] theorem canonical_opcode
    (code : UInt8) :
    canonical (.opcode code) = .opcode code := by
  rfl

theorem canonical_of_ne
    {t : Token}
    (other : t ≠ .literal []) :
    t.canonical = t := by
  cases t with
  | literal data =>
      cases data with
      | nil =>
          exact absurd rfl other
      | cons b data =>
          rfl
  | _ =>
      rfl

end Token

/-- The tokens of a script as they are read back from its bytes. -/
def canonicalTokens
    (ts : List Token) :
    List Token :=
  ts.map Token.canonical

theorem canonicalTokens_of_not_mem
    {ts : List Token}
    (noEmpty : .literal [] ∉ ts) :
    canonicalTokens ts = ts := by
  have each : ∀ t ∈ ts, t.canonical = id t := by
    rintro t mem
    apply Token.canonical_of_ne
    rintro rfl
    exact noEmpty mem
  rw [canonicalTokens, List.map_congr_left each, List.map_id]

namespace Raw

/-- Reading succeeds with the tokens of a run that reaches the end. -/
theorem decode_eq_ok_iff
    {table : Opcode.Table}
    {bytes : List UInt8}
    {ts : List Token} :
    decode bytes table = .ok ts ↔
      ∃ located,
        (reader table).run (Cursor.start bytes) = ⟨located, none⟩ ∧
        tokensOf located = ts :=
  Run.map_toExcept_eq_ok_iff

/-! ## Writing and reading back -/

/-- A token has bytes that do not depend on where they stand, and one step over them finds the
token in canonical form. -/
theorem exists_tokenBytes
    {table : Opcode.Table}
    (zero : table.hasCode Opcode.zero = true)
    {t : Token}
    (ok : t.Encodable table) :
    ∃ bytes,
      (∀ position, tokenBytes position t = .ok bytes) ∧
      ∀ position rest,
        step table ⟨position, bytes ++ rest⟩ =
          .item
            ⟨t.canonical, ⟨position, position + bytes.length⟩⟩
            ⟨position + bytes.length, rest⟩ := by
  cases t with
  | literal data =>
      cases data with
      | nil =>
          exact
            ⟨[Opcode.zero], fun _ => rfl, step_opcode ⟨zero, rfl⟩⟩
      | cons b data =>
          have pos : 0 < (b :: data).length := by
            simp
          obtain ⟨op, field, header, announced⟩ := exists_pushHeader pos ok
          refine ⟨op :: field ++ (b :: data), ?_, step_push (b :: data) announced⟩
          intro position
          simp only [tokenBytes, header]
  | opcode code =>
      refine ⟨[code], ?_, step_opcode ok⟩
      intro position
      simp [tokenBytes, ok.2]
  | placeholder text =>
      exact ok.elim
  | repetition =>
      exact ok.elim

/-- The bytes of tokens, wherever they stand, and the run over them. -/
theorem exists_encodeOnto
    {table : Opcode.Table}
    (zero : table.hasCode Opcode.zero = true)
    {ts : List Token}
    (ok : ∀ t ∈ ts, t.Encodable table) :
    ∃ bytes,
      (∀ written size, encodeOnto written size ts = .ok (written.reverse ++ bytes)) ∧
      ∀ position, ∃ located,
        (reader table).run ⟨position, bytes⟩ = ⟨located, none⟩ ∧
        tokensOf located = canonicalTokens ts := by
  induction ts with
  | nil =>
      refine ⟨[], ?_, ?_⟩
      · intro written size
        simp [encodeOnto]
      · intro position
        exact ⟨[], Reader.run_of_done rfl, rfl⟩
  | cons t ts ih =>
      obtain ⟨first, writes, steps⟩ :=
        exists_tokenBytes zero (ok t (by simp))
      obtain ⟨bytes, others, runs⟩ :=
        ih fun u mem => ok u (List.mem_cons_of_mem _ mem)
      refine ⟨first ++ bytes, ?_, ?_⟩
      · intro written size
        rw [encodeOnto_cons_of_ok (writes size), others]
        simp
      · intro position
        obtain ⟨located, run, tokens⟩ := runs (position + first.length)
        have step :
            (reader table).step ⟨position, first ++ bytes⟩ =
              .item
                ⟨t.canonical, ⟨position, position + first.length⟩⟩
                ⟨position + first.length, bytes⟩ :=
          steps position bytes
        refine ⟨⟨t.canonical, ⟨position, position + first.length⟩⟩ :: located, ?_, ?_⟩
        · rw [Reader.run_of_item step, run]
        · simpa [tokensOf, canonicalTokens] using tokens

/-- Writing succeeds, and reading finds the tokens in canonical form. -/
theorem exists_encode
    {table : Opcode.Table}
    (zero : table.hasCode Opcode.zero = true)
    {ts : List Token}
    (ok : ∀ t ∈ ts, t.Encodable table) :
    ∃ bytes,
      encode ts = .ok bytes ∧
      decode bytes table = .ok (canonicalTokens ts) := by
  obtain ⟨bytes, writes, runs⟩ := exists_encodeOnto zero ok
  obtain ⟨located, run, tokens⟩ := runs 0
  exact ⟨bytes, writes [] 0, decode_eq_ok_iff.mpr ⟨located, run, tokens⟩⟩

/-- The canonical form of a token has the same bytes. -/
theorem tokenBytes_canonical
    (position : Nat)
    (t : Token) :
    tokenBytes position t.canonical = tokenBytes position t := by
  cases t with
  | literal data =>
      cases data with
      | nil =>
          rfl
      | cons b data =>
          rfl
  | opcode code =>
      rfl
  | placeholder text =>
      rfl
  | repetition =>
      rfl

/-- The canonical form of a script has the same bytes. -/
theorem encode_canonicalTokens
    (ts : List Token) :
    encode (canonicalTokens ts) = encode ts := by
  have general : ∀ written size,
      encodeOnto written size (canonicalTokens ts) = encodeOnto written size ts := by
    induction ts with
    | nil =>
        intro written size
        rfl
    | cons t ts ih =>
        intro written size
        simp only [canonicalTokens, List.map_cons, encodeOnto, tokenBytes_canonical]
        cases tokenBytes size t with
        | error e =>
            rfl
        | ok bytes =>
            exact ih _ _
  exact general [] 0

/-- Scripts have the same bytes exactly if they have the same canonical form. -/
theorem encode_eq_encode_iff
    {table : Opcode.Table}
    (zero : table.hasCode Opcode.zero = true)
    {ts us : List Token}
    (ts_ok : ∀ t ∈ ts, t.Encodable table)
    (us_ok : ∀ t ∈ us, t.Encodable table) :
    encode ts = encode us ↔ canonicalTokens ts = canonicalTokens us := by
  constructor
  · intro same
    obtain ⟨bytes, writes, reads⟩ := exists_encode zero ts_ok
    obtain ⟨bytes', writes', reads'⟩ := exists_encode zero us_ok
    have bytes_eq : bytes = bytes' := by
      rw [writes, writes'] at same
      exact Except.ok.inj same
    subst bytes_eq
    rw [reads] at reads'
    exact Except.ok.inj reads'
  · intro same
    rw [← encode_canonicalTokens ts, same, encode_canonicalTokens us]

/-- An invariant that every step keeps, and under which every step finds tokens with a property,
makes all tokens of a script have that property. -/
theorem forall_of_decode
    {table : Opcode.Table}
    (invariant : Cursor UInt8 → Prop)
    (property : Token → Prop)
    (keeps : ∀ {c : Cursor UInt8} {s : Located} {behind : Cursor UInt8},
      invariant c → step table c = .item s behind → property s.token ∧ invariant behind)
    {bytes : List UInt8}
    (holds : invariant (Cursor.start bytes))
    {ts : List Token}
    (read : decode bytes table = .ok ts) :
    ∀ t ∈ ts, property t := by
  have keeps' : ∀ {c : Cursor UInt8} {s : Located} {behind : Cursor UInt8},
      invariant c → (reader table).step c = .item s behind →
      property s.token ∧ invariant behind :=
    keeps
  have each := Reader.forall_items (reader table) keeps' (Cursor.start bytes) holds
  obtain ⟨located, run, rfl⟩ := decode_eq_ok_iff.mp read
  rw [run] at each
  intro t mem
  obtain ⟨s, found, rfl⟩ := List.mem_map.mp mem
  exact each s found

/-- Whatever is read from a raw script can be written to one. -/
theorem encodable_of_decode
    {table : Opcode.Table}
    {bytes : List UInt8}
    {ts : List Token}
    (read : decode bytes table = .ok ts) :
    ∀ t ∈ ts, t.Encodable table := by
  apply forall_of_decode (fun _ => True) (Token.Encodable table) _ trivial read
  intro c s behind _ found
  refine ⟨?_, trivial⟩
  rcases step_item_cases found with
    ⟨op, field, data, announced, _, _, rfl⟩ | ⟨code, alone, _, _, rfl⟩
  · exact announced.size_lt
  · exact alone

/-- A raw script is longer than every literal that is read from it. -/
theorem length_lt_of_decode
    {table : Opcode.Table}
    {bytes data : List UInt8}
    {ts : List Token}
    (read : decode bytes table = .ok ts)
    (mem : .literal data ∈ ts) :
    data.length < bytes.length := by
  apply forall_of_decode (fun c => c.rest.length ≤ bytes.length)
    (fun t => ∀ data, t = .literal data → data.length < bytes.length) _ (Nat.le_refl _) read _ mem
    data rfl
  intro c s behind inside found
  rcases step_item_cases found with
    ⟨op, field, data, _, split, _, rfl⟩ | ⟨code, _, split, _, rfl⟩
  · rw [split] at inside
    simp only [List.cons_append, List.length_cons, List.length_append] at inside
    refine ⟨?_, by omega⟩
    intro data' same
    cases same
    omega
  · rw [split] at inside
    simp only [List.cons_append, List.nil_append, List.length_cons] at inside
    refine ⟨?_, by omega⟩
    intro data' same
    cases same

/-- What is announced is below the size limit. -/
theorem size_lt_of_pushHeader?
    {size : Nat}
    {header : List UInt8}
    (announced : pushHeader? size = some header) :
    size < 2 ^ 32 := by
  by_contra large
  have direct : Opcode.maxDirectPush.toNat = 75 := by
    rfl
  have above : 2 ^ 32 ≤ size := Nat.le_of_not_lt large
  rw [pushHeader?, direct, if_neg (by omega), if_neg (by simp only [UInt8.size]; omega),
    if_neg (by simp only [UInt16.size]; omega), if_neg (by simp only [UInt32.size]; omega)]
    at announced
  cases announced

/-- A token that has bytes and is an opcode that stands alone, if it is an opcode, can be in a raw
script. -/
theorem encodable_of_tokenBytes
    {table : Opcode.Table}
    {position : Nat}
    {bytes : List UInt8}
    {t : Token}
    (alone : ∀ code, t = .opcode code → table.StandsAlone code)
    (written : tokenBytes position t = .ok bytes) :
    t.Encodable table := by
  cases t with
  | literal data =>
      cases announced : pushHeader? data.length with
      | none =>
          simp [tokenBytes, announced] at written
      | some header =>
          exact size_lt_of_pushHeader? announced
  | opcode code =>
      exact alone code rfl
  | placeholder text =>
      cases written
  | repetition =>
      cases written

/-- Whatever can be written and has only opcodes that stand alone can be in a raw script. -/
theorem encodable_of_encode
    {table : Opcode.Table}
    {ts : List Token}
    {bytes : List UInt8}
    (alone : ∀ code, .opcode code ∈ ts → table.StandsAlone code)
    (written : encode ts = .ok bytes) :
    ∀ t ∈ ts, t.Encodable table := by
  have general : ∀ before size,
      encodeOnto before size ts = .ok bytes →
      ∀ t ∈ ts, t.Encodable table := by
    clear written
    induction ts with
    | nil =>
        simp
    | cons t ts ih =>
        intro before size written
        cases first : tokenBytes size t with
        | error e =>
            rw [encodeOnto_cons_of_error first] at written
            cases written
        | ok own =>
            rw [encodeOnto_cons_of_ok first] at written
            refine List.forall_mem_cons.mpr ⟨?_, ?_⟩
            · apply encodable_of_tokenBytes _ first
              rintro code rfl
              exact alone code (by simp)
            · exact ih (fun code mem => alone code (List.mem_cons_of_mem _ mem)) _ _ written
  exact general [] 0 written

/-- **Reading undoes writing up to empty pushes**, over every table that has the opcode of the
empty push; the bytes of two scripts agree exactly if the scripts differ in nothing else. -/
theorem decode_encode_canonical
    (table : Opcode.Table)
    (zero : table.hasCode Opcode.zero = true) :
    (∀ ts : List Token,
      (∀ t ∈ ts, t.Encodable table) →
      ∃ bytes,
        encode ts = .ok bytes ∧
        decode bytes table = .ok (canonicalTokens ts)) ∧
    (∀ ts us : List Token,
      (∀ t ∈ ts, t.Encodable table) →
      (∀ t ∈ us, t.Encodable table) →
      (encode ts = encode us ↔ canonicalTokens ts = canonicalTokens us)) := by
  constructor
  · intro ts ok
    exact exists_encode zero ok
  · intro ts us ts_ok us_ok
    exact encode_eq_encode_iff zero ts_ok us_ok

/-- The standard table, and a script with an empty push between an opcode and a push: the empty push
is read as an opcode, and has the bytes of that opcode. -/
theorem decode_encode_canonical_dup_empty :
    Opcode.Table.standard.hasCode Opcode.zero = true ∧
    (∀ t ∈ [Token.opcode Opcode.dup, .literal [], .literal [0xab]],
      t.Encodable Opcode.Table.standard) ∧
    (∃ bytes,
      encode [.opcode Opcode.dup, .literal [], .literal [0xab]] = .ok bytes ∧
      decode bytes Opcode.Table.standard =
        .ok [.opcode Opcode.dup, .opcode Opcode.zero, .literal [0xab]]) ∧
    encode [.opcode Opcode.dup, .literal [], .literal [0xab]] =
      encode [.opcode Opcode.dup, .opcode Opcode.zero, .literal [0xab]] := by
  have zero : Opcode.Table.standard.hasCode Opcode.zero = true := by
    decide
  have ok : ∀ t ∈ [Token.opcode Opcode.dup, .literal [], .literal [0xab]],
      t.Encodable Opcode.Table.standard := by
    decide
  have ok' : ∀ t ∈ [Token.opcode Opcode.dup, .opcode Opcode.zero, .literal [0xab]],
      t.Encodable Opcode.Table.standard := by
    decide
  obtain ⟨reads, agree⟩ := decode_encode_canonical Opcode.Table.standard zero
  exact ⟨zero, ok, reads _ ok, (agree _ _ ok ok').mpr rfl⟩

end Raw
end ScriptCodec
