import ScriptCodec.Proofs.Raw.RoundTrip

/-!
# The shortest form of a raw script

The length of a push can be announced in several ways.  Reading takes all of them and writing takes
the shortest one, so writing what was read makes a raw script shorter, or leaves it as it is if all
its pushes are announced in the shortest way.

* `Announces.shortens` compares the announcement that was read with the one that is written;
* `step_shortens` is one token, and `exists_shortest` a run over all tokens;
* `encode_decode_shortest` is the whole script.
-/

namespace ScriptCodec

namespace Raw

/-- The least size of data whose shortest announcement starts with a push opcode. -/
def leastSize
    (op : UInt8) :
    Nat :=
  if op = Opcode.pushData1 then 76
  else if op = Opcode.pushData2 then 256
  else if op = Opcode.pushData4 then 65536
  else 0

end Raw

/-- A push that was read from `bytes` is announced by the opcode of the shortest announcement. -/
def Located.HasShortestPush
    (bytes : List UInt8)
    (s : Located) :
    Prop :=
  ∀ op data,
    bytes[s.span.start]? = some op →
    s.token = .literal data →
    Raw.leastSize op ≤ data.length

namespace Raw

/-! ## Shortening -/

/-- Bytes are written anew: unchanged under a condition, and in fewer bytes otherwise. -/
structure Shortens
    (condition : Prop)
    (before after : List UInt8) :
    Prop where
  same : condition → after = before
  shorter : ¬ condition → after.length < before.length

namespace Shortens

variable
  {p q : Prop}
  {before after before' after' : List UInt8}

theorem length_le
    (shortens : Shortens p before after) :
    after.length ≤ before.length := by
  by_cases holds : p
  · exact Nat.le_of_eq (congrArg List.length (shortens.same holds))
  · exact Nat.le_of_lt (shortens.shorter holds)

theorem eq_iff
    (shortens : Shortens p before after) :
    after = before ↔ p := by
  constructor
  · intro same
    by_contra fails
    have shorter := shortens.shorter fails
    rw [same] at shorter
    exact Nat.lt_irrefl _ shorter
  · exact shortens.same

theorem append
    (first : Shortens p before after)
    (second : Shortens q before' after') :
    Shortens (p ∧ q) (before ++ before') (after ++ after') := by
  constructor
  · rintro ⟨holds, holds'⟩
    rw [first.same holds, second.same holds']
  · intro fails
    have le := first.length_le
    have le' := second.length_le
    rw [List.length_append, List.length_append]
    by_cases holds : p
    · have lt' := second.shorter fun holds' => fails ⟨holds, holds'⟩
      omega
    · have lt := first.shorter holds
      omega

theorem congr
    (shortens : Shortens p before after)
    (same : p ↔ q) :
    Shortens q before after :=
  ⟨fun holds => shortens.same (same.mpr holds),
    fun fails => shortens.shorter fun holds => fails (same.mp holds)⟩

end Shortens

/-! ## Announcements -/

/-- The length field of the number that bytes denote is made of these bytes. -/
theorem lengthField_littleEndian
    (bytes : List UInt8) :
    lengthField bytes.length (littleEndian bytes) = bytes := by
  induction bytes with
  | nil =>
      rfl
  | cons b bytes ih =>
      have value : littleEndian (b :: bytes) = b.toNat + 256 * littleEndian bytes := by
        rfl
      have low := b.toNat_lt
      have high : (b.toNat + 256 * littleEndian bytes) / 256 = littleEndian bytes := by
        omega
      have first : UInt8.ofNat (b.toNat + 256 * littleEndian bytes) = b := by
        apply UInt8.toNat_inj.mp
        rw [UInt8.toNat_ofNat']
        omega
      rw [List.length_cons, lengthField, value, high, first, ih]

/-- An announcement is a length that is its own opcode, or an opcode and a length field. -/
theorem Announces.cases
    {op : UInt8}
    {field : List UInt8}
    {size : Nat}
    (announced : Announces op field size) :
    (lengthWidth op = 0 ∧ field = [] ∧ size = op.toNat) ∨
    (0 < lengthWidth op ∧ field.length = lengthWidth op ∧ size = littleEndian field) := by
  have read := announced.reads 0 []
  have width := announced.width
  simp only [readLength] at read
  split at read
  · next direct =>
      left
      simp only [Except.ok.injEq, Prod.mk.injEq] at read
      rw [direct] at width
      exact ⟨direct, List.length_eq_zero_iff.mp width, read.1.symm⟩
  · next wide =>
      right
      have all := take_append 0 field []
      rw [width] at all
      rw [all] at read
      simp only [Except.ok.injEq, Prod.mk.injEq] at read
      exact ⟨Nat.pos_of_ne_zero wide, width, read.1.symm⟩

/-- The opcodes with a length field are the last three of the push range. -/
theorem eq_of_lengthWidth_pos
    {op : UInt8}
    (wide : 0 < lengthWidth op) :
    op = Opcode.pushData1 ∨ op = Opcode.pushData2 ∨ op = Opcode.pushData4 := by
  unfold lengthWidth at wide
  grind

/-- A push opcode without a length field is at most the largest length that is its own opcode. -/
theorem toNat_le_of_direct
    {op : UInt8}
    (push : Opcode.isPush op = true)
    (direct : lengthWidth op = 0) :
    op.toNat ≤ Opcode.maxDirectPush.toNat := by
  have range := (Opcode.isPush_iff op).mp push
  have max : Opcode.maxDirectPush.toNat = 75 := by
    rfl
  have other : ∀ code : UInt8, 0 < lengthWidth code → op.toNat ≠ code.toNat := by
    intro code wide same
    rw [UInt8.toNat_inj.mp same] at direct
    omega
  have one : op.toNat ≠ 76 := other Opcode.pushData1 (by decide)
  have two : op.toNat ≠ 77 := other Opcode.pushData2 (by decide)
  have four : op.toNat ≠ 78 := other Opcode.pushData4 (by decide)
  omega

/-- The length of data that is its own opcode is announced in the shortest way. -/
theorem pushHeader?_direct
    {op : UInt8}
    (push : Opcode.isPush op = true)
    (direct : lengthWidth op = 0) :
    pushHeader? op.toNat = some [op] ∧ leastSize op = 0 := by
  have small := toNat_le_of_direct push direct
  constructor
  · simp [pushHeader?, small]
  · simp only [lengthWidth] at direct
    grind [leastSize]

/-- From its least size on, and as far as its length field reaches, an opcode starts the shortest
announcement. -/
theorem pushHeader?_field
    (op : UInt8)
    (wide : 0 < lengthWidth op)
    {size : Nat}
    (least : leastSize op ≤ size)
    (fits : size < 256 ^ lengthWidth op) :
    pushHeader? size = some (op :: lengthField (lengthWidth op) size) := by
  have direct : Opcode.maxDirectPush.toNat = 75 := by
    rfl
  rcases eq_of_lengthWidth_pos wide with rfl | rfl | rfl
  · have least : 76 ≤ size := least
    have fits : size < UInt8.size := fits
    rw [pushHeader?, direct, if_neg (by omega), if_pos fits]
    rfl
  · have least : 256 ≤ size := least
    have fits : size < UInt16.size := fits
    rw [pushHeader?, direct, if_neg (by omega), if_neg (by simp only [UInt8.size]; omega),
      if_pos fits]
    rfl
  · have least : 65536 ≤ size := least
    have fits : size < UInt32.size := fits
    rw [pushHeader?, direct, if_neg (by omega), if_neg (by simp only [UInt8.size]; omega),
      if_neg (by simp only [UInt16.size]; omega), if_pos fits]
    rfl

/-- How many bytes announce data of a size. -/
theorem exists_pushHeader?_length
    {size : Nat}
    (fits : size < 2 ^ 32) :
    ∃ header,
      pushHeader? size = some header ∧
      (size < 76 → header.length < 2) ∧
      (size < 256 → header.length < 3) ∧
      (size < 65536 → header.length < 5) := by
  have direct : Opcode.maxDirectPush.toNat = 75 := by
    rfl
  have length : ∀ op : UInt8,
      (op :: lengthField (lengthWidth op) size).length = lengthWidth op + 1 := by
    intro op
    rw [List.length_cons, length_lengthField]
  by_cases h₀ : size < 76
  · refine ⟨[UInt8.ofNat size], ?_, by simp⟩
    rw [pushHeader?, direct, if_pos (by omega)]
  · by_cases h₁ : size < 256
    · have header := pushHeader?_field Opcode.pushData1 (by decide) (Nat.le_of_not_lt h₀) h₁
      refine ⟨_, header, fun lt => absurd lt h₀, fun _ => ?_, fun _ => ?_⟩
      · rw [length]
        decide
      · rw [length]
        decide
    · by_cases h₂ : size < 65536
      · have header := pushHeader?_field Opcode.pushData2 (by decide) (Nat.le_of_not_lt h₁) h₂
        refine ⟨_, header, fun lt => absurd lt h₀, fun lt => absurd lt h₁, fun _ => ?_⟩
        rw [length]
        decide
      · have header :=
          pushHeader?_field Opcode.pushData4 (by decide) (Nat.le_of_not_lt h₂) fits
        exact
          ⟨_, header, fun lt => absurd lt h₀, fun lt => absurd lt h₁, fun lt => absurd lt h₂⟩

/-- What is written for an announcement is the announcement itself if its opcode may announce the
size, and shorter otherwise. -/
theorem Announces.shortens
    {op : UInt8}
    {field : List UInt8}
    {size : Nat}
    (announced : Announces op field size) :
    ∃ header,
      pushHeader? size = some header ∧
      Shortens (leastSize op ≤ size) (op :: field) header := by
  rcases announced.cases with ⟨direct, rfl, rfl⟩ | ⟨wide, width, value⟩
  · obtain ⟨header, least⟩ := pushHeader?_direct announced.push direct
    refine ⟨[op], header, fun _ => rfl, ?_⟩
    intro below
    rw [least] at below
    exact absurd (Nat.zero_le _) below
  · obtain ⟨header, written, one, two, four⟩ := exists_pushHeader?_length announced.size_lt
    refine ⟨header, written, ?_, ?_⟩
    · intro least
      have fits : size < 256 ^ lengthWidth op := by
        rw [value, ← width]
        exact littleEndian_lt field
      have own := pushHeader?_field op wide least fits
      rw [value, ← width, lengthField_littleEndian, ← value, written] at own
      exact Option.some.inj own
    · intro below
      rw [List.length_cons, width]
      rcases eq_of_lengthWidth_pos wide with rfl | rfl | rfl
      · exact one (Nat.lt_of_not_le below)
      · exact two (Nat.lt_of_not_le below)
      · exact four (Nat.lt_of_not_le below)

/-! ## Tokens and scripts -/

/-- Reading ends only where no bytes are left. -/
theorem rest_of_step_done
    {table : Opcode.Table}
    {c : Cursor UInt8}
    (ended : step table c = .done) :
    c.rest = [] := by
  unfold step at ended
  grind

/-- Where a push was read, its announcement is the shortest one iff its opcode may announce its
size. -/
theorem hasShortestPush_iff
    {bytes data rest : List UInt8}
    {op : UInt8}
    {start stop : Nat}
    (at_start : bytes.drop start = op :: rest) :
    Located.HasShortestPush bytes ⟨.literal data, ⟨start, stop⟩⟩ ↔ leastSize op ≤ data.length := by
  have found : bytes[start]? = some op := by
    rw [← List.head?_drop, at_start]
    rfl
  constructor
  · intro shortest
    exact shortest op data found rfl
  · intro least op' data' found' same
    rw [found] at found'
    cases found'
    cases same
    exact least

/-- One token: what is written for it compared with what it was read from. -/
theorem step_shortens
    {table : Opcode.Table}
    {bytes : List UInt8}
    {c behind : Cursor UInt8}
    (place : c.rest = bytes.drop c.pos)
    {s : Located}
    (found : step table c = .item s behind) :
    ∃ read written,
      c.rest = read ++ behind.rest ∧
      behind.rest = bytes.drop behind.pos ∧
      (∀ position, tokenBytes position s.token = .ok written) ∧
      Shortens (s.HasShortestPush bytes) read written := by
  have moved : ∀ {read : List UInt8}, c.rest = read ++ behind.rest →
      behind.pos = c.pos + read.length → behind.rest = bytes.drop behind.pos := by
    intro read split pos
    rw [pos, ← List.drop_drop, ← place, split, List.drop_left]
  rcases step_item_cases found with
    ⟨op, field, data, announced, split, pos, rfl⟩ | ⟨code, alone, split, pos, rfl⟩
  · obtain ⟨header, written, shortens⟩ := announced.shortens
    have at_start : bytes.drop c.pos = op :: ((field ++ data) ++ behind.rest) := by
      rw [← place, split]
      rfl
    refine ⟨op :: field ++ data, header ++ data, split, moved split pos, ?_, ?_⟩
    · intro position
      simp only [tokenBytes, written]
    · have data_same : Shortens True data data :=
        ⟨fun _ => rfl, fun fails => absurd trivial fails⟩
      apply (shortens.append data_same).congr
      rw [hasShortestPush_iff at_start, and_true]
  · refine ⟨[code], [code], split, moved split pos, ?_, fun _ => rfl, ?_⟩
    · intro position
      simp [tokenBytes, alone.2]
    · intro fails
      refine absurd ?_ fails
      intro op data _ other
      cases other

/-- A run to the end: what is written for its tokens compared with what they were read from. -/
theorem exists_shortest
    {table : Opcode.Table}
    {bytes : List UInt8}
    {c : Cursor UInt8}
    (place : c.rest = bytes.drop c.pos)
    {located : List Located}
    (run : (reader table).run c = ⟨located, none⟩) :
    ∃ shortest,
      (∀ written size,
        encodeOnto written size (tokensOf located) = .ok (written.reverse ++ shortest)) ∧
      Shortens (∀ s ∈ located, s.HasShortestPush bytes) c.rest shortest := by
  induction c using (reader table).step_induction generalizing located with
  | _ c ih =>
      cases found : (reader table).step c with
      | done =>
          have ended : c.rest = [] := rest_of_step_done found
          rw [Reader.run_of_done found] at run
          cases run
          refine ⟨[], ?_, ?_, ?_⟩
          · intro written size
            simp [tokensOf, encodeOnto]
          · intro _
            rw [ended]
          · intro fails
            exact absurd (by simp) fails
      | fault e =>
          rw [Reader.run_of_fault found] at run
          cases run
      | item s behind =>
          rw [Reader.run_of_item found] at run
          obtain ⟨read, first, split, place', writes, shortens⟩ := step_shortens place found
          cases behind_run : (reader table).run behind with
          | mk items fault =>
              rw [behind_run] at run
              cases run
              obtain ⟨rest, others, shortens'⟩ := ih s behind found place' behind_run
              refine ⟨first ++ rest, ?_, ?_⟩
              · intro written size
                rw [tokensOf, List.map_cons, encodeOnto_cons_of_ok (writes size)]
                exact (others _ _).trans (by simp)
              · rw [split]
                exact (shortens.append shortens').congr (by simp)

/-- **Writing what was read gives the shortest form**, over every table that has the opcode of the
empty push: it is read as the same tokens up to empty pushes, it is never longer than what was read,
and equal to it exactly if every push that was read has the shortest announcement. -/
theorem encode_decode_shortest
    (table : Opcode.Table)
    (zero : table.hasCode Opcode.zero = true)
    {bytes : List UInt8}
    {ts : List Token}
    (read : decode bytes table = .ok ts) :
    ∃ located shortest,
      decodeLocated bytes table = .ok located ∧
      tokensOf located = ts ∧
      encode ts = .ok shortest ∧
      decode shortest table = .ok (canonicalTokens ts) ∧
      shortest.length ≤ bytes.length ∧
      (shortest = bytes ↔ ∀ s ∈ located, s.HasShortestPush bytes) ∧
      (shortest ≠ bytes → shortest.length < bytes.length) := by
  obtain ⟨located, run, tokens⟩ := decode_eq_ok_iff.mp read
  have place : (Cursor.start bytes).rest = bytes.drop (Cursor.start bytes).pos := by
    rfl
  obtain ⟨shortest, writes, shortens⟩ := exists_shortest place run
  have written : encode ts = .ok shortest := by
    rw [← tokens]
    exact writes [] 0
  obtain ⟨again, written', reads⟩ := exists_encode zero (encodable_of_decode read)
  rw [written] at written'
  cases written'
  refine
    ⟨located, shortest, Run.toExcept_eq_ok_iff.mpr run, tokens, written, reads,
      shortens.length_le, shortens.eq_iff, ?_⟩
  intro different
  exact shortens.shorter fun holds => different (shortens.same holds)

/-- A push of two bytes that is announced by a length field: the shortest form has one byte less. -/
theorem encode_decode_shortest_field :
    Opcode.Table.standard.hasCode Opcode.zero = true ∧
    decode [0x4c, 0x02, 0xab, 0xcd] Opcode.Table.standard = .ok [.literal [0xab, 0xcd]] ∧
    encode [.literal [0xab, 0xcd]] = .ok [0x02, 0xab, 0xcd] ∧
    ∃ located,
      decodeLocated [0x4c, 0x02, 0xab, 0xcd] Opcode.Table.standard = .ok located ∧
      ¬ ∀ s ∈ located, s.HasShortestPush [0x4c, 0x02, 0xab, 0xcd] := by
  have zero : Opcode.Table.standard.hasCode Opcode.zero = true := by
    decide
  have read : decode [0x4c, 0x02, 0xab, 0xcd] Opcode.Table.standard =
      .ok [.literal [0xab, 0xcd]] := by
    have announced : Announces 0x4c [0x02] 2 :=
      announces_field rfl (by decide) (by decide)
    have first : step Opcode.Table.standard (Cursor.start [0x4c, 0x02, 0xab, 0xcd]) =
        .item ⟨.literal [0xab, 0xcd], ⟨0, 4⟩⟩ ⟨4, []⟩ :=
      step_push [0xab, 0xcd] announced 0 []
    have run : (reader Opcode.Table.standard).run (Cursor.start [0x4c, 0x02, 0xab, 0xcd]) =
        ⟨[⟨.literal [0xab, 0xcd], ⟨0, 4⟩⟩], none⟩ := by
      rw [Reader.run_of_item first, Reader.run_of_done rfl]
    exact decode_eq_ok_iff.mpr ⟨_, run, rfl⟩
  have written : encode [.literal [0xab, 0xcd]] = .ok [0x02, 0xab, 0xcd] := by
    rfl
  obtain ⟨located, shortest, found, _, encoded, _, _, same_iff, _⟩ :=
    encode_decode_shortest Opcode.Table.standard zero read
  rw [written] at encoded
  cases encoded
  refine ⟨zero, read, written, located, found, ?_⟩
  rw [← same_iff]
  decide

end Raw
end ScriptCodec
