import ScriptCodec.Proofs.Template.Blocks

/-!
# Filling templates and matching them

Values fill the placeholders of a list of entries, and the tokens that match the entries have values
in the places of the placeholders.  `Filled` relates entries, values and tokens without either
procedure: an entry that stands for itself is copied, and a placeholder becomes a literal that it
accepts.

* `fillOnto_eq_ok_iff` and `acceptsBehind_iff_exists_filled` say that filling and matching both
  decide this relation;
* `exists_filled_iff` says which values there are tokens for;
* `fill_eq_ok_iff_accepts` puts them together: filling and matching are inverse to each other.
-/

namespace ScriptCodec

/-- The text of a placeholder. -/
def Token.text? : Token → Option String
  | .placeholder text => some text
  | _ => none

theorem Token.literal_injective :
    Function.Injective Token.literal := by
  intro data data' same
  cases same
  rfl

theorem Token.opcode_injective :
    Function.Injective Token.opcode := by
  intro code code' same
  cases same
  rfl

namespace Template

/-- The texts of the placeholders among entries, in order. -/
def placeholders
    (entries : List Token) :
    List String :=
  entries.filterMap Token.text?

/-- The tokens in the places of the placeholders, in order. -/
def atPlaceholders
    (entries tokens : List Token) :
    List Token :=
  ((entries.zip tokens).filter fun p => p.1.text?.isSome).map Prod.snd

/-- Entries that values can fill: there is no repeat mark among them, and no placeholder stands for
opcodes. -/
structure Fillable
    (table : Opcode.Table)
    (entries : List Token) : Prop where
  noMark : .repetition ∉ entries
  noOpcodes : ∀ text first last,
    .placeholder text ∈ entries → Slot.ofText table text ≠ .opcodes first last

/-- Values for the placeholders among entries: one for each, and of the right size where the
placeholder states one. -/
structure Fits
    (table : Opcode.Table)
    (entries : List Token)
    (values : List (List UInt8)) : Prop where
  count : values.length = (placeholders entries).length
  sizes : ∀ text value n,
    (text, value) ∈ (placeholders entries).zip values →
    Slot.ofText table text = .sized n →
    value.length = n

/-- Tokens that entries become when values stand in the places of their placeholders. -/
inductive Filled
    (table : Opcode.Table) :
    List Token → List (List UInt8) → List Token → Prop
  | nil :
      Filled table [] [] []
  | fixed
      {entry : Token}
      {entries tokens : List Token}
      {values : List (List UInt8)}
      (concrete : entry.isConcrete = true)
      (later : Filled table entries values tokens) :
      Filled table (entry :: entries) values (entry :: tokens)
  | slot
      {text : String}
      {value : List UInt8}
      {entries tokens : List Token}
      {values : List (List UInt8)}
      (accepted : (Slot.ofText table text).accepts (.literal value) = true)
      (later : Filled table entries values tokens) :
      Filled table (.placeholder text :: entries) (value :: values) (.literal value :: tokens)

variable
  {table : Opcode.Table}
  {entry t : Token}
  {entries tokens : List Token}
  {values : List (List UInt8)}
  {text : String}

/-! ## Entries -/

theorem entryAccepts_literal_iff
    {data : List UInt8} :
    entryAccepts table (.literal data) t = true ↔ t = .literal data := by
  cases t with
  | literal data' =>
      simp [entryAccepts, Token.data?]
  | _ =>
      simp [entryAccepts, Token.data?]

theorem entryAccepts_opcode_iff
    {code : UInt8} :
    entryAccepts table (.opcode code) t = true ↔ t = .opcode code := by
  cases t with
  | opcode code' =>
      simp [entryAccepts, Token.code?]
  | _ =>
      simp [entryAccepts, Token.code?]

/-- An entry that stands for itself is matched by itself. -/
theorem entryAccepts_concrete_iff
    (concrete : entry.isConcrete = true) :
    entryAccepts table entry t = true ↔ t = entry := by
  cases entry with
  | literal data =>
      exact entryAccepts_literal_iff
  | opcode code =>
      exact entryAccepts_opcode_iff
  | placeholder text =>
      cases concrete
  | repetition =>
      cases concrete

/-- A literal is accepted by every placeholder that does not stand for opcodes, if it has the size
that the placeholder states. -/
theorem accepts_literal_iff
    {slot : Slot}
    {value : List UInt8} :
    slot.accepts (.literal value) = true ↔
      (∀ first last, slot ≠ .opcodes first last) ∧ ∀ n, slot = .sized n → value.length = n := by
  cases slot with
  | sized n =>
      simp [Slot.accepts]
  | opcodes first last =>
      simp [Slot.accepts]
  | anyLiteral =>
      simp [Slot.accepts]

/-- A placeholder that does not stand for opcodes is matched by literals only. -/
theorem exists_literal_of_accepts
    {slot : Slot}
    (noOpcodes : ∀ first last, slot ≠ .opcodes first last)
    (accepted : slot.accepts t = true) :
    ∃ value, t = .literal value := by
  cases slot with
  | opcodes first last =>
      exact absurd rfl (noOpcodes first last)
  | sized n =>
      cases t with
      | literal value =>
          exact ⟨value, rfl⟩
      | _ =>
          cases accepted
  | anyLiteral =>
      cases t with
      | literal value =>
          exact ⟨value, rfl⟩
      | _ =>
          cases accepted

theorem Fillable.tail
    (fillable : Fillable table (entry :: entries)) :
    Fillable table entries :=
  ⟨fun mem => fillable.noMark (List.mem_cons_of_mem _ mem),
    fun text first last mem => fillable.noOpcodes text first last (List.mem_cons_of_mem _ mem)⟩

/-- An entry that can be filled stands for itself, or is a placeholder for literals. -/
theorem Fillable.head_cases
    (fillable : Fillable table (entry :: entries)) :
    (entry.isConcrete = true ∧ entry.text? = none) ∨
    ∃ text,
      entry = .placeholder text ∧
      ∀ first last, Slot.ofText table text ≠ .opcodes first last := by
  cases entry with
  | literal data =>
      exact .inl ⟨rfl, rfl⟩
  | opcode code =>
      exact .inl ⟨rfl, rfl⟩
  | placeholder text =>
      exact .inr ⟨text, rfl, fun first last =>
        fillable.noOpcodes text first last (List.mem_cons_self ..)⟩
  | repetition =>
      exact absurd (List.mem_cons_self ..) fillable.noMark

/-! ## What is filled -/

theorem Filled.fillable
    (filled : Filled table entries values tokens) :
    Fillable table entries := by
  induction filled with
  | nil =>
      exact ⟨by simp, by simp⟩
  | @fixed entry entries tokens values concrete later ih =>
      constructor
      · intro mem
        rcases List.mem_cons.mp mem with rfl | mem
        · cases concrete
        · exact ih.noMark mem
      · intro text first last mem
        rcases List.mem_cons.mp mem with rfl | mem
        · cases concrete
        · exact ih.noOpcodes text first last mem
  | slot accepted later ih =>
      constructor
      · simpa using ih.noMark
      · intro text first last mem
        rcases List.mem_cons.mp mem with same | mem
        · cases same
          exact (accepts_literal_iff.mp accepted).1 first last
        · exact ih.noOpcodes text first last mem

/-- One value stands in the place of every placeholder, and it has the size that is stated. -/
theorem Filled.fits
    (filled : Filled table entries values tokens) :
    Fits table entries values := by
  induction filled with
  | nil =>
      exact ⟨rfl, by simp [placeholders]⟩
  | @fixed entry entries tokens values concrete later ih =>
      have same : placeholders (entry :: entries) = placeholders entries := by
        cases entry with
        | placeholder text =>
            cases concrete
        | _ =>
            rfl
      exact ⟨same ▸ ih.count, same ▸ ih.sizes⟩
  | slot accepted later ih =>
      constructor
      · simpa [placeholders, Token.text?] using ih.count
      · intro text value n mem sized
        rcases List.mem_cons.mp mem with same | mem
        · cases same
          exact (accepts_literal_iff.mp accepted).2 n sized
        · exact ih.sizes text value n mem sized

/-- The values are found again in the places of the placeholders. -/
theorem Filled.atPlaceholders_eq
    (filled : Filled table entries values tokens) :
    tokens.length = entries.length ∧
    atPlaceholders entries tokens = values.map .literal := by
  induction filled with
  | nil =>
      exact ⟨rfl, rfl⟩
  | @fixed entry entries tokens values concrete later ih =>
      obtain ⟨length, found⟩ := ih
      have none : entry.text? = none := by
        cases entry with
        | placeholder text =>
            cases concrete
        | _ =>
            rfl
      refine ⟨by simp [length], ?_⟩
      simpa [atPlaceholders, none] using found
  | slot accepted later ih =>
      obtain ⟨length, found⟩ := ih
      refine ⟨by simp [length], ?_⟩
      simpa [atPlaceholders, Token.text?] using found

/-! ## Filling -/

/-- A placeholder takes the first value, if it accepts it as a literal. -/
theorem fillOnto_placeholder_eq_ok_iff
    {before : List Token} :
    fillOnto table before (.placeholder text :: entries) values = .ok tokens ↔
      ∃ value others,
        values = value :: others ∧
        (Slot.ofText table text).accepts (.literal value) = true ∧
        fillOnto table (.literal value :: before) entries others = .ok tokens := by
  cases slot : Slot.ofText table text with
  | opcodes first last =>
      simp [fillOnto, slot, Slot.accepts]
  | sized n =>
      cases values with
      | nil =>
          simp [fillOnto, slot]
      | cons value others =>
          by_cases size : value.length = n
          · simp [fillOnto, slot, Slot.accepts, size]
          · simp [fillOnto, slot, Slot.accepts, size]
  | anyLiteral =>
      cases values with
      | nil =>
          simp [fillOnto, slot]
      | cons value others =>
          simp [fillOnto, slot, Slot.accepts]

/-- Filling finds what is filled, behind what was filled before. -/
theorem fillOnto_eq_ok_iff
    {before : List Token} :
    fillOnto table before entries values = .ok tokens ↔
      ∃ own, Filled table entries values own ∧ tokens = before.reverse ++ own := by
  induction entries generalizing before values with
  | nil =>
      cases values with
      | nil =>
          rw [fillOnto, Except.ok.injEq]
          constructor
          · rintro rfl
            exact ⟨[], .nil, by simp⟩
          · rintro ⟨own, filled, rfl⟩
            cases filled
            simp
      | cons value values =>
          constructor
          · intro filled
            cases filled
          · rintro ⟨own, filled, _⟩
            cases filled
  | cons entry entries ih =>
      -- an entry that stands for itself is put behind what was filled before
      have copied : entry.isConcrete = true →
          (fillOnto table (entry :: before) entries values = .ok tokens ↔
            ∃ own,
              Filled table (entry :: entries) values own ∧
              tokens = before.reverse ++ own) := by
        intro concrete
        rw [ih]
        constructor
        · rintro ⟨own, filled, rfl⟩
          exact ⟨entry :: own, .fixed concrete filled, by simp⟩
        · rintro ⟨own, filled, rfl⟩
          cases filled with
          | fixed _ later =>
              exact ⟨_, later, by simp⟩
          | slot =>
              cases concrete
      cases entry with
      | literal data =>
          exact copied rfl
      | opcode code =>
          exact copied rfl
      | repetition =>
          constructor
          · intro filled
            cases values with
            | _ =>
                cases filled
          · rintro ⟨own, filled, _⟩
            exact absurd (List.mem_cons_self ..) filled.fillable.noMark
      | placeholder text =>
          rw [fillOnto_placeholder_eq_ok_iff]
          constructor
          · rintro ⟨value, others, rfl, accepted, run⟩
            obtain ⟨own, filled, rfl⟩ := ih.mp run
            exact ⟨.literal value :: own, .slot accepted filled, by simp⟩
          · rintro ⟨own, filled, rfl⟩
            cases filled with
            | fixed concrete _ =>
                cases concrete
            | slot accepted later =>
                exact ⟨_, _, rfl, accepted, ih.mpr ⟨_, later, by simp⟩⟩

theorem fill_eq_ok_iff :
    fill table entries values = .ok tokens ↔ Filled table entries values tokens := by
  rw [fill, fillOnto_eq_ok_iff]
  simp

/-- Values that fit entries which can be filled fill them. -/
theorem exists_filled_iff :
    (∃ tokens, Filled table entries values tokens) ↔
      Fillable table entries ∧ Fits table entries values := by
  constructor
  · rintro ⟨tokens, filled⟩
    exact ⟨filled.fillable, filled.fits⟩
  · rintro ⟨fillable, fits⟩
    induction entries generalizing values with
    | nil =>
        obtain rfl := List.length_eq_zero_iff.mp fits.count
        exact ⟨[], .nil⟩
    | cons entry entries ih =>
        rcases fillable.head_cases with ⟨concrete, none⟩ | ⟨text, rfl, noOpcodes⟩
        · have same : placeholders (entry :: entries) = placeholders entries := by
            rw [placeholders, List.filterMap_cons_none none]
            rfl
          obtain ⟨tokens, filled⟩ :=
            ih fillable.tail ⟨same ▸ fits.count, same ▸ fits.sizes⟩
          exact ⟨entry :: tokens, .fixed concrete filled⟩
        · obtain ⟨value, others, rfl⟩ : ∃ value others, values = value :: others := by
            apply List.exists_cons_of_length_pos
            rw [fits.count]
            exact Nat.zero_lt_succ _
          have fits' : Fits table entries others := by
            constructor
            · simpa [placeholders, Token.text?] using fits.count
            · intro text' value' n mem
              exact fits.sizes text' value' n (List.mem_cons_of_mem _ mem)
          have accepted : (Slot.ofText table text).accepts (.literal value) = true :=
            accepts_literal_iff.mpr
              ⟨noOpcodes, fun n => fits.sizes text value n (List.mem_cons_self ..)⟩
          obtain ⟨tokens, filled⟩ := ih fillable.tail fits'
          exact ⟨.literal value :: tokens, .slot accepted filled⟩

/-! ## Matching -/

/-- The tokens that match entries without repeat marks and placeholders for opcodes are those that
the entries become for some values. -/
theorem acceptsBehind_iff_exists_filled
    (fillable : Fillable table entries)
    {before : Option Token} :
    acceptsBehind table before entries tokens = true ↔
      ∃ values, Filled table entries values tokens := by
  induction entries generalizing before tokens with
  | nil =>
      rw [acceptsBehind, List.isEmpty_iff]
      constructor
      · rintro rfl
        exact ⟨[], .nil⟩
      · rintro ⟨values, filled⟩
        cases filled
        rfl
  | cons entry entries ih =>
      have noMark : entry ≠ .repetition := by
        rintro rfl
        exact fillable.noMark (List.mem_cons_self ..)
      rw [acceptsBehind_entry_iff noMark]
      simp only [ih fillable.tail]
      constructor
      · rintro ⟨t, rest, rfl, accepted, values, filled⟩
        rcases fillable.head_cases with ⟨concrete, _⟩ | ⟨text, rfl, noOpcodes⟩
        · rw [(entryAccepts_concrete_iff concrete).mp accepted]
          exact ⟨values, .fixed concrete filled⟩
        · obtain ⟨value, rfl⟩ := exists_literal_of_accepts noOpcodes accepted
          exact ⟨value :: values, .slot accepted filled⟩
      · rintro ⟨values, filled⟩
        cases filled with
        | fixed concrete later =>
            exact ⟨_, _, rfl, (entryAccepts_concrete_iff concrete).mpr rfl, _, later⟩
        | slot accepted later =>
            exact ⟨_, _, rfl, accepted, _, later⟩

theorem Filled.accepts
    (filled : Filled table entries values tokens) :
    Template.accepts table entries tokens = true :=
  (acceptsBehind_iff_exists_filled filled.fillable).mpr ⟨values, filled⟩

/-- The values are known from the tokens. -/
theorem Filled.values_unique
    {others : List (List UInt8)}
    (filled : Filled table entries values tokens)
    (filled' : Filled table entries others tokens) :
    others = values := by
  have same := filled'.atPlaceholders_eq.2
  rw [filled.atPlaceholders_eq.2] at same
  exact (List.map_injective_iff.mpr Token.literal_injective same).symm

/-- **Filling and matching are inverse to each other**, for all lists of entries.  Entries can be
filled exactly if they have no repeat mark and no placeholder for opcodes, with one value for each
placeholder, of the size that the placeholder states if it states one.  The tokens that come out
match the entries and have the values in the places of the placeholders.  Conversely, tokens that
match entries which can be filled have literals in these places, and come out of filling the entries
with these literals and with no other values. -/
theorem fill_eq_ok_iff_accepts
    (table : Opcode.Table)
    (entries : List Token) :
    (∀ values,
      (∃ tokens, fill table entries values = .ok tokens) ↔
        Fillable table entries ∧ Fits table entries values) ∧
    (∀ values tokens,
      fill table entries values = .ok tokens →
      accepts table entries tokens = true ∧
      tokens.length = entries.length ∧
      atPlaceholders entries tokens = values.map .literal) ∧
    (Fillable table entries →
      ∀ tokens,
        accepts table entries tokens = true →
        ∃ values,
          atPlaceholders entries tokens = values.map .literal ∧
          ∀ others, fill table entries others = .ok tokens ↔ others = values) := by
  refine ⟨?_, ?_, ?_⟩
  · intro values
    simp only [fill_eq_ok_iff]
    exact exists_filled_iff
  · intro values tokens come_out
    have filled := fill_eq_ok_iff.mp come_out
    exact ⟨filled.accepts, filled.atPlaceholders_eq⟩
  · intro fillable tokens accepted
    obtain ⟨values, filled⟩ := (acceptsBehind_iff_exists_filled fillable).mp accepted
    refine ⟨values, filled.atPlaceholders_eq.2, ?_⟩
    intro others
    rw [fill_eq_ok_iff]
    constructor
    · exact filled.values_unique
    · rintro rfl
      exact filled

end Template
end ScriptCodec
