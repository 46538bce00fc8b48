import ScriptCodec.Proofs.Offsets
import ScriptCodec.Proofs.Raw.Shortest

/-!
# The grammar of raw scripts

What the bytes of a token may look like is said here without the reader: a single opcode, or data
behind one of the four announcements of their length.  A raw script is then a list of tokens whose
spans tile its bytes, each over bytes of its own form.

* `form_literal_iff` compares the forms of pushes with their announcements;
* `step_eq_item_iff` says that one step reads exactly the forms;
* `run_eq_iff_reading` is the run over a whole script, and `decodeLocated_eq_ok_iff_tiled` its
  statement by spans.
-/

namespace ScriptCodec

/-- Spans that follow one another without gaps from one offset to another. -/
inductive Span.Contiguous : Nat → List Span → Nat → Prop
  | nil
      {pos : Nat} :
      Contiguous pos [] pos
  | cons
      {start stop finish : Nat}
      {spans : List Span}
      (forward : start ≤ stop)
      (later : Contiguous stop spans finish) :
      Contiguous start (⟨start, stop⟩ :: spans) finish

/-- Spans that follow one another lead forward. -/
theorem Span.Contiguous.le
    {start finish : Nat}
    {spans : List Span}
    (contiguous : Span.Contiguous start spans finish) :
    start ≤ finish := by
  induction contiguous with
  | nil =>
      exact Nat.le_refl _
  | cons forward later ih =>
      exact Nat.le_trans forward ih

namespace Raw

/-- The bytes that a token may have in a raw script over a table.  Length fields have their least
significant byte first, and may be longer than the length needs. -/
inductive Form
    (table : Opcode.Table) :
    Token → List UInt8 → Prop
  | opcode
      {code : UInt8}
      (alone : ¬ (1 ≤ code.toNat ∧ code.toNat ≤ 78))
      (known : table.hasCode code = true) :
      Form table (.opcode code) [code]
  | direct
      {n : UInt8}
      {data : List UInt8}
      (size : data.length = n.toNat)
      (some_byte : 1 ≤ data.length)
      (small : data.length ≤ 75) :
      Form table (.literal data) ([n] ++ data)
  | field1
      {n : UInt8}
      {data : List UInt8}
      (size : data.length = n.toNat) :
      Form table (.literal data) ([0x4c, n] ++ data)
  | field2
      {n₀ n₁ : UInt8}
      {data : List UInt8}
      (size : data.length = n₀.toNat + 256 * n₁.toNat) :
      Form table (.literal data) ([0x4d, n₀, n₁] ++ data)
  | field4
      {n₀ n₁ n₂ n₃ : UInt8}
      {data : List UInt8}
      (size :
        data.length =
          n₀.toNat + 256 * n₁.toNat + 256 ^ 2 * n₂.toNat + 256 ^ 3 * n₃.toNat) :
      Form table (.literal data) ([0x4e, n₀, n₁, n₂, n₃] ++ data)

/-- Tokens whose spans tile the bytes of a script, each over bytes of its own form. -/
structure Tiled
    (table : Opcode.Table)
    (bytes : List UInt8)
    (located : List Located) : Prop where
  contiguous : Span.Contiguous 0 (located.map Located.span) bytes.length
  forms : ∀ s ∈ located, Form table s.token (s.span.slice bytes)

/-- Tokens that stand one after the other from a cursor on, up to the end of the bytes. -/
inductive Reading
    (table : Opcode.Table) :
    Cursor UInt8 → List Located → Prop
  | nil
      {pos : Nat} :
      Reading table ⟨pos, []⟩ []
  | cons
      {pos : Nat}
      {own rest : List UInt8}
      {t : Token}
      {located : List Located}
      (form : Form table t own)
      (later : Reading table ⟨pos + own.length, rest⟩ located) :
      Reading table ⟨pos, own ++ rest⟩ (⟨t, ⟨pos, pos + own.length⟩⟩ :: located)

section Forms

variable
  {table : Opcode.Table}
  {t : Token}
  {own data field : List UInt8}
  {op : UInt8}

/-! ## Forms and announcements -/

/-- A length field announces the number that it holds. -/
theorem announces_littleEndian
    (wide : 0 < lengthWidth op)
    (width : field.length = lengthWidth op) :
    Announces op field (littleEndian field) := by
  have push : Opcode.isPush op = true := by
    rcases eq_of_lengthWidth_pos wide with rfl | rfl | rfl <;> rfl
  have announced := announces_field push wide (width ▸ littleEndian_lt field)
  rwa [← width, lengthField_littleEndian] at announced

/-- The forms of data are the data behind their announcements. -/
theorem form_literal_iff :
    Form table (.literal data) own ↔
      ∃ op field, own = op :: (field ++ data) ∧ Announces op field data.length := by
  constructor
  · intro form
    cases form with
    | @direct n _ size some_byte small =>
        have announced := announces_direct some_byte small
        rw [size, UInt8.ofNat_toNat, ← size] at announced
        exact ⟨n, [], rfl, announced⟩
    | @field1 n _ size =>
        have announced : Announces 0x4c [n] (littleEndian [n]) :=
          announces_littleEndian (by decide) rfl
        refine ⟨0x4c, [n], rfl, ?_⟩
        rwa [size]
    | @field2 n₀ n₁ _ size =>
        have announced : Announces 0x4d [n₀, n₁] (littleEndian [n₀, n₁]) :=
          announces_littleEndian (by decide) rfl
        refine ⟨0x4d, [n₀, n₁], rfl, ?_⟩
        rwa [size]
    | @field4 n₀ n₁ n₂ n₃ _ size =>
        have announced : Announces 0x4e [n₀, n₁, n₂, n₃] (littleEndian [n₀, n₁, n₂, n₃]) :=
          announces_littleEndian (by decide) rfl
        have value : littleEndian [n₀, n₁, n₂, n₃] = data.length := by
          simp only [littleEndian, List.foldr_cons, List.foldr_nil]
          omega
        refine ⟨0x4e, [n₀, n₁, n₂, n₃], rfl, ?_⟩
        rwa [← value]
  · rintro ⟨op, field, rfl, announced⟩
    rcases announced.cases with ⟨direct, rfl, size⟩ | ⟨wide, width, size⟩
    · have range := (Opcode.isPush_iff op).mp announced.push
      have small : op.toNat ≤ 75 := toNat_le_of_direct announced.push direct
      exact .direct size (by omega) (by omega)
    · rcases eq_of_lengthWidth_pos wide with rfl | rfl | rfl
      · obtain ⟨n, rfl⟩ := List.length_eq_one_iff.mp width
        exact .field1 size
      · obtain ⟨n₀, n₁, rfl⟩ := List.length_eq_two.mp width
        exact .field2 size
      · obtain ⟨n₀, n₁, n₂, n₃, rfl⟩ := List.length_eq_four.mp width
        refine .field4 ?_
        rw [size]
        simp only [littleEndian, List.foldr_cons, List.foldr_nil]
        omega

theorem form_opcode_iff
    {code : UInt8} :
    Form table (.opcode code) own ↔ own = [code] ∧ table.StandsAlone code := by
  have push : ¬ (1 ≤ code.toNat ∧ code.toNat ≤ 78) ↔ Opcode.isPush code = false := by
    rw [← Opcode.isPush_iff, Bool.not_eq_true]
  constructor
  · intro form
    cases form with
    | opcode alone known =>
        exact ⟨rfl, known, push.mp alone⟩
  · rintro ⟨rfl, known, alone⟩
    exact .opcode (push.mpr alone) known

/-- Every token takes at least one byte. -/
theorem Form.length_pos
    (form : Form table t own) :
    0 < own.length := by
  cases form with
  | _ =>
      simp

/-! ## Steps and runs -/

/-- One step of reading finds a token exactly if bytes of its form stand in front. -/
theorem step_eq_item_iff
    {c behind : Cursor UInt8}
    {s : Located} :
    step table c = .item s behind ↔
      ∃ own,
        Form table s.token own ∧
        c.rest = own ++ behind.rest ∧
        behind.pos = c.pos + own.length ∧
        s.span = ⟨c.pos, behind.pos⟩ := by
  constructor
  · intro found
    rcases step_item_cases found with
      ⟨op, field, data, announced, split, pos, rfl⟩ | ⟨code, alone, split, pos, rfl⟩
    · exact ⟨_, form_literal_iff.mpr ⟨op, field, rfl, announced⟩, split, pos, rfl⟩
    · exact ⟨_, form_opcode_iff.mpr ⟨rfl, alone⟩, split, pos, rfl⟩
  · rintro ⟨own, form, split, pos, span⟩
    obtain ⟨t, place⟩ := s
    obtain ⟨here, rest⟩ := c
    obtain ⟨there, later⟩ := behind
    simp only at form split pos span
    subst split pos span
    cases t with
    | literal data =>
        obtain ⟨op, field, rfl, announced⟩ := form_literal_iff.mp form
        exact step_push data announced here later
    | opcode code =>
        obtain ⟨rfl, alone⟩ := form_opcode_iff.mp form
        exact step_opcode alone here later
    | placeholder text =>
        cases form
    | repetition =>
        cases form

/-- There are no tokens where no bytes are left, and nowhere else. -/
theorem reading_nil_iff
    {c : Cursor UInt8} :
    Reading table c [] ↔ c.rest = [] := by
  constructor
  · intro reading
    cases reading
    rfl
  · intro ended
    obtain ⟨pos, rest⟩ := c
    subst ended
    exact .nil

/-- The first token stands in front, and the others behind it. -/
theorem reading_cons_iff
    {c : Cursor UInt8}
    {s : Located}
    {located : List Located} :
    Reading table c (s :: located) ↔
      ∃ own rest,
        c.rest = own ++ rest ∧
        Form table s.token own ∧
        s.span = ⟨c.pos, c.pos + own.length⟩ ∧
        Reading table ⟨c.pos + own.length, rest⟩ located := by
  constructor
  · intro reading
    cases reading with
    | cons form later =>
        exact ⟨_, _, rfl, form, rfl, later⟩
  · rintro ⟨own, rest, split, form, span, later⟩
    obtain ⟨t, place⟩ := s
    obtain ⟨pos, bytes⟩ := c
    simp only at split form span later
    subst split span
    exact .cons form later

/-- A run reaches the end exactly over tokens that stand one after the other. -/
theorem run_eq_iff_reading
    {c : Cursor UInt8}
    {located : List Located} :
    (reader table).run c = ⟨located, none⟩ ↔ Reading table c located := by
  constructor
  -- what is read is found along the steps of the reader, and a fault would stay in the run
  · intro run
    induction c using (reader table).step_induction generalizing located with
    | _ c ih =>
        cases found : (reader table).step c with
        | done =>
            rw [Reader.run_of_done found] at run
            cases run
            exact reading_nil_iff.mpr (rest_of_step_done found)
        | fault e =>
            rw [Reader.run_of_fault found] at run
            cases run
        | item s behind =>
            obtain ⟨later, rfl, run_behind⟩ := (Reader.run_eq_iff_of_item found).mp run
            obtain ⟨own, form, split, pos, span⟩ := step_eq_item_iff.mp found
            have reading := ih s behind found run_behind
            refine reading_cons_iff.mpr ⟨own, behind.rest, split, form, pos ▸ span, ?_⟩
            rwa [← pos]
  -- conversely, every token is what the reader finds where the token stands
  · intro reading
    induction reading with
    | nil =>
        exact Reader.run_of_done rfl
    | @cons pos own rest t located form later ih =>
        have found : (reader table).step ⟨pos, own ++ rest⟩ =
            .item ⟨t, ⟨pos, pos + own.length⟩⟩ ⟨pos + own.length, rest⟩ :=
          step_eq_item_iff.mpr ⟨own, form, rfl, rfl, rfl⟩
        rw [Reader.run_of_item found, ih]

theorem decodeLocated_eq_ok_iff_reading
    {bytes : List UInt8}
    {located : List Located} :
    decodeLocated bytes table = .ok located ↔ Reading table (Cursor.start bytes) located :=
  Run.toExcept_eq_ok_iff.trans run_eq_iff_reading

end Forms

/-! ## Spans -/

section Spans

variable
  {table : Opcode.Table}
  {bytes : List UInt8}
  {located : List Located}

/-- The bytes from an offset on are tokens one after the other exactly if spans from there on tile
them. -/
theorem reading_iff_contiguous
    {pos : Nat}
    (inside : pos ≤ bytes.length) :
    Reading table ⟨pos, bytes.drop pos⟩ located ↔
      Span.Contiguous pos (located.map Located.span) bytes.length ∧
      ∀ s ∈ located, Form table s.token (s.span.slice bytes) := by
  induction located generalizing pos with
  | nil =>
      rw [reading_nil_iff, List.drop_eq_nil_iff]
      constructor
      · intro ended
        have same : pos = bytes.length := Nat.le_antisymm inside ended
        subst same
        exact ⟨.nil, by simp⟩
      · rintro ⟨contiguous, _⟩
        cases contiguous
        exact Nat.le_refl _
  | cons s located ih =>
      rw [reading_cons_iff, List.map_cons, List.forall_mem_cons]
      constructor
      · rintro ⟨own, rest, split, form, span, later⟩
        simp only at split span later
        have inside' : pos + own.length ≤ bytes.length := by
          have length := congrArg List.length split
          simp only [List.length_drop, List.length_append] at length
          omega
        have behind : rest = bytes.drop (pos + own.length) := by
          rw [← List.drop_drop, split, List.drop_left]
        have covered : s.span.slice bytes = own := by
          rw [span, Span.slice, Span.size, split, Nat.add_sub_cancel_left, List.take_left]
        rw [behind, ih inside'] at later
        rw [covered, span]
        exact ⟨.cons (Nat.le_add_right _ _) later.1, form, later.2⟩
      · rintro ⟨contiguous, form, forms⟩
        obtain ⟨t, start, stop⟩ := s
        cases contiguous with
        | cons forward later =>
            -- a slice may stop short of its span, but the last span ends inside the bytes
            have inside' := later.le
            have split := (List.take_append_drop (stop - pos) (bytes.drop pos)).symm
            have behind : (bytes.drop pos).drop (stop - pos) = bytes.drop stop := by
              rw [List.drop_drop, Nat.add_sub_cancel' forward]
            have length : ((bytes.drop pos).take (stop - pos)).length = stop - pos := by
              rw [List.length_take, List.length_drop]
              omega
            rw [behind] at split
            refine ⟨_, _, split, form, ?_, ?_⟩
            · rw [length, Nat.add_sub_cancel' forward]
            · rw [length, Nat.add_sub_cancel' forward]
              exact (ih inside').mpr ⟨later, forms⟩

end Spans

/-- **The reader accepts its grammar and nothing else**: it finds tokens with spans in a raw script
exactly if the spans tile the bytes and each token has the bytes of one of its forms, so a raw
script has at most one such list of tokens. -/
theorem decodeLocated_eq_ok_iff_tiled
    (table : Opcode.Table)
    (bytes : List UInt8) :
    (∀ located, decodeLocated bytes table = .ok located ↔ Tiled table bytes located) ∧
    ∀ located others,
      Tiled table bytes located → Tiled table bytes others → located = others := by
  have tiled_iff : ∀ located,
      decodeLocated bytes table = .ok located ↔ Tiled table bytes located := by
    intro located
    rw [decodeLocated_eq_ok_iff_reading, Cursor.start, ← List.drop_zero (l := bytes),
      reading_iff_contiguous (Nat.zero_le _), List.drop_zero]
    exact ⟨fun ⟨contiguous, forms⟩ => ⟨contiguous, forms⟩,
      fun tiled => ⟨tiled.contiguous, tiled.forms⟩⟩
  refine ⟨tiled_iff, ?_⟩
  intro located others tiled tiled'
  have read := (tiled_iff located).mpr tiled
  rw [(tiled_iff others).mpr tiled'] at read
  exact (Except.ok.inj read).symm

/-- A length field that is longer than needed belongs to the span of its token. -/
example :
    decodeLocated [0x4d, 0x01, 0x00, 0xaa, 0x76] Opcode.Table.standard =
      .ok [⟨.literal [0xaa], ⟨0, 4⟩⟩, ⟨.opcode Opcode.dup, ⟨4, 5⟩⟩] := by
  decide +kernel

end Raw
end ScriptCodec
