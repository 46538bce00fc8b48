import ScriptCodec.Proofs.Raw.Grammar

/-!
# Joining and cutting raw scripts

Behind a raw script that is read to its end, more bytes are read as they are on their own, moved by
the length of the script: `run_shift` and `Reading.run_append`.

A raw script that is cut short is read up to the last token that is complete.  If the cut is in the
middle of a token, that token is a push, and the fault says what the push lacks: bytes of its length
field or bytes of its data.  `Reading.cutAt` finds the place of a cut among the tokens,
`step_take_form` is the step that meets it, and `decodeLocated_append_take` has both parts.
-/

namespace ScriptCodec
namespace Raw

/-! ## Moving a script -/

section Shift

variable (k : Nat)

theorem take_shift
    (position size : Nat)
    (bytes : List UInt8) :
    take (position + k) size bytes = (take position size bytes).mapError (Error.shift k) := by
  simp only [take]
  split
  · rfl
  · rfl

theorem readLength_shift
    (position : Nat)
    (op : UInt8)
    (body : List UInt8) :
    readLength (position + k) op body =
      (readLength position op body).mapError (Error.shift k) := by
  simp only [readLength]
  split
  · rfl
  · rw [take_shift]
    cases take position (lengthWidth op) body with
    | error e =>
        rfl
    | ok read =>
        rfl

theorem step_shift
    (table : Opcode.Table)
    (c : Cursor UInt8) :
    step table (c.shift k) =
      (step table c).map (Cursor.shift k) (Located.shift k) (Error.shift k) := by
  obtain ⟨pos, rest⟩ := c
  cases rest with
  | nil =>
      rfl
  | cons op body =>
      simp only [step, Cursor.shift]
      split
      · rw [readLength_shift]
        cases readLength pos op body with
        | error e =>
            rfl
        | ok read =>
            obtain ⟨size, body⟩ := read
            simp only [Except.mapError]
            rw [take_shift]
            cases take pos size body with
            | error e =>
                rfl
            | ok taken =>
                obtain ⟨data, rest⟩ := taken
                simp only [Except.mapError, Step.map, Located.shift, Span.shift, Cursor.shift,
                  Nat.add_right_comm _ k]
      · split
        · simp only [Step.map, Located.shift, Span.shift, Cursor.shift, Nat.add_right_comm]
        · rfl

/-- A raw script that stands `k` bytes further on has the same tokens and faults, all of them `k`
bytes further on. -/
theorem run_shift
    (table : Opcode.Table)
    (c : Cursor UInt8) :
    (reader table).run (c.shift k) =
      ((reader table).run c).map (Located.shift k) (Error.shift k) :=
  Reader.run_map (step_shift k table) c

end Shift

/-- Where a raw script from `pos` on is cut if `k` of its bytes are left: between two tokens, or
into a token. -/
inductive CutAt
    (table : Opcode.Table)
    (pos : Nat) :
    List UInt8 → List Located → Nat → Prop
  | between
      {front back : List UInt8}
      {before after : List Located}
      (whole : Reading table ⟨pos, front⟩ before)
      (others : Reading table ⟨pos + front.length, back⟩ after) :
      CutAt table pos (front ++ back) (before ++ after) front.length
  | into
      {front own back : List UInt8}
      {before after : List Located}
      {s : Located}
      {k : Nat}
      (whole : Reading table ⟨pos, front⟩ before)
      (form : Form table s.token own)
      (span : s.span = ⟨pos + front.length, pos + front.length + own.length⟩)
      (others : Reading table ⟨pos + front.length + own.length, back⟩ after)
      (low : front.length < k)
      (high : k < front.length + own.length) :
      CutAt table pos (front ++ (own ++ back)) (before ++ s :: after) k

/-- A token in front moves a cut. -/
theorem CutAt.behind
    {table : Opcode.Table}
    {pos k : Nat}
    {own rest : List UInt8}
    {t : Token}
    {located : List Located}
    (form : Form table t own)
    (cut : CutAt table (pos + own.length) rest located k) :
    CutAt table pos (own ++ rest) (⟨t, ⟨pos, pos + own.length⟩⟩ :: located) (own.length + k) := by
  cases cut with
  | between whole others =>
      rw [← List.append_assoc, ← List.cons_append, ← List.length_append]
      apply CutAt.between (.cons form whole)
      rwa [List.length_append, ← Nat.add_assoc]
  | into whole form' span others low high =>
      rw [← List.append_assoc, ← List.cons_append]
      apply CutAt.into (.cons form whole) form'
      · rw [span, List.length_append, ← Nat.add_assoc]
      · rwa [List.length_append, ← Nat.add_assoc]
      · rw [List.length_append]
        omega
      · rw [List.length_append]
        omega

section Cuts

variable
  {table : Opcode.Table}
  {c : Cursor UInt8}
  {located : List Located}

/-! ## Joining -/

/-- Behind tokens that stand one after the other, reading goes on with what follows them. -/
theorem Reading.run_append
    (reading : Reading table c located)
    (back : List UInt8) :
    (reader table).run ⟨c.pos, c.rest ++ back⟩ =
      ⟨located ++ ((reader table).run ⟨c.pos + c.rest.length, back⟩).items,
        ((reader table).run ⟨c.pos + c.rest.length, back⟩).fault⟩ := by
  induction reading with
  | nil =>
      rfl
  | @cons pos own rest t located form later ih =>
      have found : (reader table).step ⟨pos, (own ++ rest) ++ back⟩ =
          .item ⟨t, ⟨pos, pos + own.length⟩⟩ ⟨pos + own.length, rest ++ back⟩ :=
        step_eq_item_iff.mpr ⟨own, form, List.append_assoc _ _ _, rfl, rfl⟩
      rw [Reader.run_of_item found, ih, List.length_append, Nat.add_assoc]
      rfl

/-- The spans of tokens that stand one after the other are not empty and lie in the bytes that the
tokens are read from. -/
theorem Reading.span_bounds
    (reading : Reading table c located) :
    ∀ s ∈ located,
      c.pos ≤ s.span.start ∧
      s.span.start < s.span.stop ∧
      s.span.stop ≤ c.pos + c.rest.length := by
  induction reading with
  | nil =>
      simp
  | @cons pos own rest t located form later ih =>
      have some_byte := form.length_pos
      intro s mem
      rw [List.length_append]
      rcases List.mem_cons.mp mem with rfl | mem
      · simp only
        omega
      · have bounds := ih s mem
        simp only at bounds ⊢
        omega

/-- Tokens from some bytes on end where these bytes end. -/
theorem Reading.exists_stop
    (reading : Reading table c located)
    (some_byte : c.rest ≠ []) :
    ∃ s ∈ located, s.span.stop = c.pos + c.rest.length := by
  induction reading with
  | nil =>
      exact absurd rfl some_byte
  | @cons pos own rest t located form later ih =>
      rw [List.length_append]
      cases rest with
      | nil =>
          exact ⟨_, List.mem_cons_self .., rfl⟩
      | cons b rest =>
          obtain ⟨s, mem, stop⟩ := ih (by simp)
          refine ⟨s, List.mem_cons_of_mem _ mem, ?_⟩
          rw [stop, Nat.add_assoc]

/-! ## Cutting -/

/-- A cut leaves whole tokens in front of it, and falls in front of the others or into the first of
them. -/
theorem Reading.cutAt
    (reading : Reading table c located)
    {k : Nat}
    (inside : k ≤ c.rest.length) :
    CutAt table c.pos c.rest located k := by
  induction reading generalizing k with
  | nil =>
      obtain rfl : k = 0 := by
        simpa using inside
      exact .between .nil .nil
  | @cons pos own rest t located form later ih =>
      simp only [List.length_append] at inside ⊢
      have empty : Reading table ⟨pos, []⟩ [] := .nil
      rcases Nat.lt_or_ge k own.length with short | long
      · rcases Nat.eq_zero_or_pos k with rfl | some_byte
        · exact .between empty (.cons form later)
        · exact .into empty form rfl later some_byte (by simpa using short)
      · obtain ⟨j, rfl⟩ := Nat.exists_eq_add_of_le long
        exact (ih (k := j) (by simp only; omega)).behind form

/-- The tokens that end in front of a cut are those that the cut leaves whole. -/
theorem filter_whole
    {pos k : Nat}
    {front : List UInt8}
    {before after : List Located}
    (whole : Reading table ⟨pos, front⟩ before)
    (reached : front.length ≤ k)
    (behind : ∀ s ∈ after, pos + k < s.span.stop) :
    ((before ++ after).filter fun s => s.span.stop ≤ pos + k) = before := by
  rw [List.filter_append, List.filter_eq_self.mpr, List.filter_eq_nil_iff.mpr, List.append_nil]
  · intro s mem
    have later := behind s mem
    simp only [decide_eq_true_eq]
    omega
  · intro s mem
    have bounds := whole.span_bounds s mem
    simp only [decide_eq_true_eq] at bounds ⊢
    omega

/-! ## Pushes that are cut short -/

theorem take_of_lt
    {position size : Nat}
    {bytes : List UInt8}
    (short : bytes.length < size) :
    take position size bytes = .error (.truncatedScript position size bytes.length) := by
  simp [take, List.take_of_length_le (Nat.le_of_lt short), short]

/-- A push without all bytes of its length field. -/
theorem step_short_field
    {op : UInt8}
    {field present : List UInt8}
    {size : Nat}
    (announced : Announces op field size)
    (short : present.length < field.length)
    (pos : Nat) :
    step table ⟨pos, op :: present⟩ =
      .fault (.truncatedScript pos field.length present.length) := by
  have wide : lengthWidth op ≠ 0 := by
    rw [← announced.width]
    omega
  simp only [step, announced.push, if_true, readLength, wide, if_false]
  rw [← announced.width, take_of_lt short]

/-- A push without all bytes of its data. -/
theorem step_short_data
    {op : UInt8}
    {field present : List UInt8}
    {size : Nat}
    (announced : Announces op field size)
    (short : present.length < size)
    (pos : Nat) :
    step table ⟨pos, op :: (field ++ present)⟩ =
      .fault (.truncatedScript pos size present.length) := by
  simp only [step, announced.push, if_true, announced.reads, take_of_lt short]

/-- A token of which only some bytes are there is a push, and the fault says what it lacks. -/
theorem step_take_form
    {t : Token}
    {own : List UInt8}
    (form : Form table t own)
    {k : Nat}
    (low : 0 < k)
    (high : k < own.length)
    (pos : Nat) :
    ∃ op field data,
      t = .literal data ∧
      own = op :: (field ++ data) ∧
      (k ≤ field.length →
        step table ⟨pos, own.take k⟩ =
          .fault (.truncatedScript pos field.length (k - 1))) ∧
      (field.length < k →
        step table ⟨pos, own.take k⟩ =
          .fault (.truncatedScript pos data.length (k - (1 + field.length)))) := by
  cases t with
  | literal data =>
      obtain ⟨op, field, rfl, announced⟩ := form_literal_iff.mp form
      obtain ⟨j, rfl⟩ := Nat.exists_eq_add_of_lt low
      simp only [List.length_cons, List.length_append] at high
      refine ⟨op, field, data, rfl, rfl, ?_, ?_⟩
      · intro in_field
        have length : (field.take j).length = j := by
          rw [List.length_take]
          omega
        have cut : step table ⟨pos, op :: field.take j⟩ = _ :=
          step_short_field announced (by omega) pos
        rw [length] at cut
        rwa [Nat.zero_add, List.take_succ_cons, List.take_append_of_le_length (by omega),
          Nat.add_sub_cancel]
      · intro in_data
        have length : (data.take (j - field.length)).length = j - field.length := by
          rw [List.length_take]
          omega
        have cut : step table ⟨pos, op :: (field ++ data.take (j - field.length))⟩ = _ :=
          step_short_data announced (by omega) pos
        rw [length] at cut
        rw [Nat.zero_add, List.take_succ_cons, List.take_append,
          List.take_of_length_le (by omega), cut]
        congr 2
        omega
  | opcode code =>
      obtain ⟨rfl, _⟩ := form_opcode_iff.mp form
      simp only [List.length_singleton] at high
      omega
  | placeholder text =>
      cases form
  | repetition =>
      cases form

/-! ## Whole scripts -/

/-- Behind tokens that are read, a step that fails gives the fault of the script. -/
theorem decodeLocated_of_fault
    {front rest : List UInt8}
    {e : Error}
    (whole : Reading table (Cursor.start front) located)
    (failed : step table ⟨front.length, rest⟩ = .fault e) :
    decodeLocated (front ++ rest) table = .error e := by
  have failed' : (reader table).step ⟨front.length, rest⟩ = .fault e :=
    failed
  have run := whole.run_append rest
  simp only [Cursor.start, Nat.zero_add, Reader.run_of_fault failed'] at run
  apply Run.toExcept_eq_error_iff.mpr
  rw [Cursor.start, run]

/-- What follows a script that is read to its end is read as on its own. -/
theorem run_start_append
    {front : List UInt8}
    (whole : Reading table (Cursor.start front) located)
    (back : List UInt8) :
    (reader table).run (Cursor.start (front ++ back)) =
      ⟨located ++ ((reader table).run (Cursor.start back)).items.map
          (Located.shift front.length),
        ((reader table).run (Cursor.start back)).fault.map (Error.shift front.length)⟩ := by
  have place : (⟨0 + front.length, back⟩ : Cursor UInt8) =
      (Cursor.start back).shift front.length := by
    rfl
  have joined := whole.run_append back
  rw [Cursor.start, place, run_shift] at joined
  exact joined

/-- A cut between two tokens is where nothing is in front of it, or where a span ends. -/
theorem exists_stop_of_between
    {front : List UInt8}
    {before after : List Located}
    (whole : Reading table (Cursor.start front) before) :
    front.length = 0 ∨ ∃ s ∈ before ++ after, s.span.stop = front.length := by
  cases front with
  | nil =>
      exact .inl rfl
  | cons b front =>
      obtain ⟨s, mem, stop⟩ := whole.exists_stop (by simp [Cursor.start])
      refine .inr ⟨s, List.mem_append_left _ mem, ?_⟩
      rw [stop, Cursor.start, Nat.zero_add]

/-- No span ends at a cut into a token. -/
theorem not_stop_of_into
    {front back own : List UInt8}
    {before after : List Located}
    {s : Located}
    {k : Nat}
    (whole : Reading table (Cursor.start front) before)
    (span : s.span = ⟨front.length, front.length + own.length⟩)
    (others : Reading table ⟨front.length + own.length, back⟩ after)
    (low : front.length < k)
    (high : k < front.length + own.length) :
    ¬ (k = 0 ∨ ∃ u ∈ before ++ s :: after, u.span.stop = k) := by
  rintro (none | ⟨u, mem, stop⟩)
  · omega
  · rcases List.mem_append.mp mem with in_front | behind
    · have bounds := whole.span_bounds u in_front
      simp only [Cursor.start] at bounds
      omega
    · rcases List.mem_cons.mp behind with rfl | behind
      · rw [span] at stop
        simp only at stop
        omega
      · have bounds := others.span_bounds u behind
        simp only at bounds
        omega

/-- A cut into a token is reported where the token starts, as what the push lacks. -/
theorem decodeLocated_take_into
    {front own : List UInt8}
    {s : Located}
    {k : Nat}
    (whole : Reading table (Cursor.start front) located)
    (form : Form table s.token own)
    (span : s.span = ⟨front.length, front.length + own.length⟩)
    (low : front.length < k)
    (high : k < front.length + own.length)
    (back : List UInt8) :
    ∃ op field data,
      s.token = .literal data ∧
      s.span.slice (front ++ (own ++ back)) = op :: (field ++ data) ∧
      (k ≤ s.span.start + field.length →
        decodeLocated ((front ++ (own ++ back)).take k) table =
          .error (.truncatedScript s.span.start field.length (k - (s.span.start + 1)))) ∧
      (s.span.start + field.length < k →
        decodeLocated ((front ++ (own ++ back)).take k) table =
          .error (.truncatedScript s.span.start data.length
            (k - (s.span.start + 1 + field.length)))) := by
  obtain ⟨j, rfl⟩ := Nat.exists_eq_add_of_le (Nat.le_of_lt low)
  obtain ⟨op, field, data, literal, bytes, in_field, in_data⟩ :=
    step_take_form form (k := j) (by omega) (by omega) front.length
  have kept : (front ++ (own ++ back)).take (front.length + j) = front ++ own.take j := by
    rw [List.take_length_add_append, List.take_append_of_le_length (by omega)]
  have covered : s.span.slice (front ++ (own ++ back)) = own := by
    rw [span, Span.slice, Span.size, List.drop_left, Nat.add_sub_cancel_left, List.take_left]
  rw [kept, covered, span]
  refine ⟨op, field, data, literal, bytes, ?_, ?_⟩
  · intro at_field
    rw [decodeLocated_of_fault whole (in_field (by simp only at at_field; omega))]
    simp only [Nat.add_sub_add_left]
  · intro at_data
    rw [decodeLocated_of_fault whole (in_data (by simp only at at_data; omega))]
    simp only [Nat.add_assoc, Nat.add_sub_add_left]

end Cuts

/-- **Raw scripts are read piece by piece.**  Behind a script that is read to its end, more bytes
are read as they are on their own, with spans and positions moved by the length of the script.  Of a
script that is cut, the tokens that end in front of the cut are read.  If the cut is between two
tokens, these are all; if it is in the middle of a token, that token is a push, and the fault stands
where it starts and says how many bytes are needed and there: of its length field if the cut is in
the field, and of its data otherwise. -/
theorem decodeLocated_append_take
    (table : Opcode.Table)
    {front : List UInt8}
    {located : List Located}
    (read : decodeLocated front table = .ok located) :
    (∀ back,
      (∀ later,
        decodeLocated back table = .ok later →
        decodeLocated (front ++ back) table =
          .ok (located ++ later.map (Located.shift front.length))) ∧
      (∀ e,
        decodeLocated back table = .error e →
        decodeLocated (front ++ back) table = .error (e.shift front.length))) ∧
    ∀ k ≤ front.length,
      ((k = 0 ∨ ∃ s ∈ located, s.span.stop = k) →
        decodeLocated (front.take k) table =
          .ok (located.filter fun s => s.span.stop ≤ k)) ∧
      (¬ (k = 0 ∨ ∃ s ∈ located, s.span.stop = k) →
        ∃ s ∈ located, ∃ op field data,
          s.span.start < k ∧
          k < s.span.stop ∧
          s.token = .literal data ∧
          s.span.slice front = op :: (field ++ data) ∧
          (k ≤ s.span.start + field.length →
            decodeLocated (front.take k) table =
              .error (.truncatedScript s.span.start field.length (k - (s.span.start + 1)))) ∧
          (s.span.start + field.length < k →
            decodeLocated (front.take k) table =
              .error (.truncatedScript s.span.start data.length
                (k - (s.span.start + 1 + field.length))))) := by
  have reading := decodeLocated_eq_ok_iff_reading.mp read
  constructor
  · intro back
    have run := run_start_append reading back
    constructor
    · intro later second
      rw [Run.toExcept_eq_ok_iff.mp second] at run
      exact Run.toExcept_eq_ok_iff.mpr run
    · intro e second
      apply Run.toExcept_eq_error_iff.mpr
      rw [run, Run.toExcept_eq_error_iff.mp second]
      rfl
  · intro k inside
    have cut : CutAt table 0 front located k := reading.cutAt inside
    cases cut with
    | @between whole_bytes others before after whole others_read =>
        have behind : ∀ s ∈ after, 0 + whole_bytes.length < s.span.stop := by
          intro s mem
          have bounds := others_read.span_bounds s mem
          simp only at bounds
          omega
        have kept := filter_whole whole (Nat.le_refl _) behind
        rw [Nat.zero_add] at kept
        refine ⟨fun _ => ?_, fun other => absurd (exists_stop_of_between whole) other⟩
        rw [List.take_left, kept]
        exact decodeLocated_eq_ok_iff_reading.mpr whole
    | @into whole_bytes own others before after s _ whole form span others_read low high =>
        rw [Nat.zero_add] at span others_read
        have mid := not_stop_of_into whole span others_read low high
        refine ⟨fun stop => absurd stop mid, fun _ => ?_⟩
        obtain ⟨op, field, data, literal, bytes, in_field, in_data⟩ :=
          decodeLocated_take_into whole form span low high others
        refine ⟨s, by simp, op, field, data, ?_, ?_, literal, bytes, in_field, in_data⟩
        · rw [span]
          exact low
        · rw [span]
          exact high

/-- An opcode and a push with a length field of two bytes.  Behind them a push without its data is
reported where it starts in the whole; a cut into the length field, and one into the data, are
reported where the push starts. -/
theorem decodeLocated_append_take_field :
    let front := [0x76, 0x4d, 0x03, 0x00, 0xaa, 0xbb, 0xcc]
    let located :=
      [⟨.opcode Opcode.dup, ⟨0, 1⟩⟩, ⟨.literal [0xaa, 0xbb, 0xcc], ⟨1, 7⟩⟩]
    decodeLocated front Opcode.Table.standard = .ok located ∧
    decodeLocated [0x05] Opcode.Table.standard = .error (.truncatedScript 0 5 0) ∧
    decodeLocated (front ++ [0x05]) Opcode.Table.standard = .error (.truncatedScript 7 5 0) ∧
    decodeLocated (front.take 3) Opcode.Table.standard = .error (.truncatedScript 1 2 1) ∧
    decodeLocated (front.take 6) Opcode.Table.standard = .error (.truncatedScript 1 3 2) := by
  intro front located
  have read : decodeLocated front Opcode.Table.standard = .ok located := by
    decide +kernel
  have failed : decodeLocated [0x05] Opcode.Table.standard = .error (.truncatedScript 0 5 0) := by
    decide +kernel
  obtain ⟨joins, cuts⟩ := decodeLocated_append_take Opcode.Table.standard read
  -- the token that is cut is the push
  have push : ∀ {s : Located} {k : Nat} {op : UInt8} {field data : List UInt8},
      s ∈ located → 1 < k → k < s.span.stop →
      s.token = .literal data → s.span.slice front = op :: (field ++ data) →
      s.span.start = 1 ∧ field.length = 2 ∧ data.length = 3 := by
    intro s k op field data mem low high literal bytes
    simp only [located, List.mem_cons, List.not_mem_nil, or_false] at mem
    rcases mem with rfl | rfl
    · simp only at high
      omega
    · cases literal
      have length := congrArg List.length bytes
      simp [front, Span.slice, Span.size] at length
      exact ⟨rfl, by omega, rfl⟩
  refine ⟨read, failed, (joins _).2 _ failed, ?_, ?_⟩
  · obtain ⟨s, mem, op, field, data, _, high, literal, bytes, in_field, _⟩ :=
      (cuts 3 (by decide)).2 (by decide)
    obtain ⟨start, width, size⟩ := push mem (by decide) high literal bytes
    rw [start, width] at in_field
    exact in_field (by decide)
  · obtain ⟨s, mem, op, field, data, _, high, literal, bytes, _, in_data⟩ :=
      (cuts 6 (by decide)).2 (by decide)
    obtain ⟨start, width, size⟩ := push mem (by decide) high literal bytes
    rw [start, width, size] at in_data
    exact in_data (by decide)

end Raw
end ScriptCodec
