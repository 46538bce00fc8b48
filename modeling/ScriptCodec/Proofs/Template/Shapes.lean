import ScriptCodec.Proofs.Template.Filling

/-!
# The standard shapes

Which scripts have a standard shape.  Five shapes are frames: one value of a fixed size between
fixed opcodes.  The sixth has keys between two small numbers.

* `hasShape_iff_frame` and `hasShape_multisig_iff` say what the scripts of a shape look like;
* `instantiate_eq_ok_iff` fills a frame with a value;
* `exists_witness_iff` describes the two witness shapes together;
* `shape_unique` says that a script has at most one shape, so that the order in which shapes are
  tried does not matter: `ofTokens?_eq_some_iff`.
-/

namespace ScriptCodec

/-- A value of a fixed size between fixed opcodes. -/
structure Frame where
  front : List UInt8
  size : Nat
  back : List UInt8
deriving DecidableEq

namespace Frame

/-- The script that holds a value in a frame. -/
def script
    (frame : Frame)
    (value : List UInt8) :
    List Token :=
  frame.front.map .opcode ++ .literal value :: frame.back.map .opcode

/-- The entries of a template with the text of a placeholder in the frame. -/
def entries
    (frame : Frame)
    (text : String) :
    List Token :=
  frame.front.map .opcode ++ .placeholder text :: frame.back.map .opcode

theorem opcode_mem_script_iff
    {frame : Frame}
    {value : List UInt8}
    {code : UInt8} :
    .opcode code ∈ frame.script value ↔ code ∈ frame.front ∨ code ∈ frame.back := by
  simp [script]

theorem literal_mem_script_iff
    {frame : Frame}
    {value data : List UInt8} :
    .literal data ∈ frame.script value ↔ data = value := by
  simp [script]

/-- What is in front of a value, the value, and what is behind it can be told from the script. -/
theorem script_injective
    {frame frame' : Frame}
    {value value' : List UInt8}
    (size : value.length = frame.size)
    (size' : value'.length = frame'.size)
    (same : frame.script value = frame'.script value') :
    frame = frame' := by
  rcases frame with ⟨front, n, back⟩
  rcases frame' with ⟨front', n', back'⟩
  have parts : front = front' ∧ value = value' ∧ back = back' := by
    clear size size'
    simp only [script] at same
    induction front generalizing front' with
    | nil =>
        cases front' with
        | nil =>
            simp only [List.map_nil, List.nil_append, List.cons.injEq, Token.literal.injEq] at same
            exact ⟨rfl, same.1, List.map_injective_iff.mpr Token.opcode_injective same.2⟩
        | cons code' front' =>
            simp at same
    | cons code front ih =>
        cases front' with
        | nil =>
            simp at same
        | cons code' front' =>
            simp only [List.map_cons, List.cons_append, List.cons.injEq, Token.opcode.injEq] at same
            obtain ⟨rfl, rest⟩ := ih front' same.2
            exact ⟨by rw [same.1], rest⟩
  obtain ⟨rfl, rfl, rfl⟩ := parts
  simp only at size size'
  rw [← size, ← size']

end Frame

namespace Template

variable {table : Opcode.Table}

/-- Opcodes are filled by nothing, and stay as they are. -/
theorem filled_opcodes_iff
    {codes : List UInt8}
    {values : List (List UInt8)}
    {ts : List Token} :
    Filled table (codes.map .opcode) values ts ↔ values = [] ∧ ts = codes.map .opcode := by
  induction codes generalizing ts with
  | nil =>
      constructor
      · intro filled
        cases filled
        exact ⟨rfl, rfl⟩
      · rintro ⟨rfl, rfl⟩
        exact .nil
  | cons code codes ih =>
      constructor
      · intro filled
        cases filled with
        | fixed _ later =>
            obtain ⟨rfl, rfl⟩ := ih.mp later
            exact ⟨rfl, rfl⟩
      · rintro ⟨rfl, rfl⟩
        exact .fixed rfl (ih.mpr ⟨rfl, rfl⟩)

/-- A frame is filled by one value of its size. -/
theorem filled_frame_iff
    {frame : Frame}
    {text : String}
    (sized : Slot.size? text.toList = some frame.size)
    {values : List (List UInt8)}
    {ts : List Token} :
    Filled table (frame.entries text) values ts ↔
      ∃ value, values = [value] ∧ value.length = frame.size ∧ ts = frame.script value := by
  rcases frame with ⟨front, size, back⟩
  replace sized : Slot.ofText table text = .sized size := by
    simp [Slot.ofText, Slot.ofChars, sized]
  induction front generalizing ts with
  | nil =>
      constructor
      · intro filled
        cases filled with
        | fixed concrete _ =>
            cases concrete
        | slot accepted later =>
            obtain ⟨rfl, rfl⟩ := filled_opcodes_iff.mp later
            exact ⟨_, rfl, (accepts_literal_iff.mp accepted).2 size sized, rfl⟩
      · rintro ⟨value, rfl, fits, rfl⟩
        refine .slot ?_ (filled_opcodes_iff.mpr ⟨rfl, rfl⟩)
        simpa [sized, Slot.accepts] using fits
  | cons code front ih =>
      constructor
      · intro filled
        cases filled with
        | fixed _ later =>
            obtain ⟨value, rfl, fits, rfl⟩ := ih.mp later
            exact ⟨value, rfl, fits, rfl⟩
      · rintro ⟨value, rfl, fits, rfl⟩
        exact .fixed rfl (ih.mpr ⟨value, rfl, fits, rfl⟩)

/-- A frame is matched by the scripts that hold a value of its size. -/
theorem accepts_frame_iff
    {frame : Frame}
    {text : String}
    (sized : Slot.size? text.toList = some frame.size)
    {tokens : List Token} :
    accepts table (frame.entries text) tokens = true ↔
      ∃ value, value.length = frame.size ∧ tokens = frame.script value := by
  have fillable : Fillable table (frame.entries text) := by
    apply Filled.fillable
    exact (filled_frame_iff sized).mpr ⟨List.replicate frame.size 0, rfl, by simp, rfl⟩
  rw [accepts, acceptsBehind_iff_exists_filled fillable]
  constructor
  · rintro ⟨values, filled⟩
    obtain ⟨value, _, fits, same⟩ := (filled_frame_iff sized).mp filled
    exact ⟨value, fits, same⟩
  · rintro ⟨value, fits, same⟩
    exact ⟨[value], (filled_frame_iff sized).mpr ⟨value, rfl, fits, same⟩⟩

end Template

namespace Shape

variable {table : Opcode.Table} {ts : List Token} {shape : Shape} {frame : Frame}

/-- The frame of a shape with one value. -/
def frame? : Shape → Option Frame
  | .p2pk => some ⟨[], 65, [Opcode.checkSig]⟩
  | .p2pkh => some ⟨[Opcode.dup, Opcode.hash160], 20, [Opcode.equalVerify, Opcode.checkSig]⟩
  | .p2sh => some ⟨[Opcode.hash160], 20, [Opcode.equal]⟩
  | .p2wpkh => some ⟨[Opcode.zero], 20, []⟩
  | .p2wsh => some ⟨[Opcode.zero], 32, []⟩
  | .multisig => none

theorem exists_entries_of_frame?
    (framed : shape.frame? = some frame) :
    ∃ text,
      Slot.size? text.toList = some frame.size ∧
      shape.template.entries = frame.entries text := by
  cases shape with
  | multisig =>
      cases framed
  | _ =>
      cases framed
      exact ⟨_, rfl, rfl⟩

/-- The scripts of a shape with a frame are those that hold a value in it. -/
theorem hasShape_iff_frame
    (framed : shape.frame? = some frame) :
    shape.template.hasShape ts table = true ↔
      ∃ value, value.length = frame.size ∧ ts = frame.script value := by
  obtain ⟨text, sized, entries⟩ := exists_entries_of_frame? framed
  rw [Template.hasShape, entries]
  exact Template.accepts_frame_iff sized

/-- Filling the template of a shape with a frame takes a value of the size of the frame. -/
theorem instantiate_eq_ok_iff
    (framed : shape.frame? = some frame)
    {value : List UInt8} :
    shape.template.instantiate [value] table = .ok ts ↔
      value.length = frame.size ∧ ts = frame.script value := by
  obtain ⟨text, sized, entries⟩ := exists_entries_of_frame? framed
  rw [Template.instantiate, entries, Template.fill_eq_ok_iff, Template.filled_frame_iff sized]
  constructor
  · rintro ⟨_, same, fits, rfl⟩
    cases same
    exact ⟨fits, rfl⟩
  · rintro ⟨fits, rfl⟩
    exact ⟨value, rfl, fits, rfl⟩

/-- Filling the template of a shape with a frame puts the value into the frame. -/
theorem instantiate_frame
    (framed : shape.frame? = some frame)
    {value : List UInt8}
    (fits : value.length = frame.size) :
    shape.template.instantiate [value] table = .ok (frame.script value) :=
  (instantiate_eq_ok_iff framed).mpr ⟨fits, rfl⟩

/-- Scripts in the language of several signatures. -/
theorem mem_languageOf_multisig_iff :
    ts ∈ Template.languageOf table (Template.partsOf Shape.multisig.template.entries) ↔
      ∃ m keys n,
        Template.entryAccepts table (.placeholder "OP_1-OP_16") m = true ∧
        keys ≠ [] ∧
        (∀ key ∈ keys, Template.entryAccepts table (.placeholder "pubkey") key = true) ∧
        Template.entryAccepts table (.placeholder "OP_1-OP_16") n = true ∧
        ts = m :: (keys ++ [n, .opcode Opcode.checkMultiSig]) := by
  simp only [template, entries, Template.partsOf, Template.mem_languageOf_cons_iff,
    Template.mem_language_one_iff, Template.mem_language_run_iff, Template.entryAccepts_opcode_iff]
  constructor
  · rintro ⟨_, ⟨m, first, rfl⟩, _, ⟨keys, ⟨some_key, each⟩, _, ⟨_, ⟨n, last, rfl⟩, _,
      ⟨_, ⟨_, rfl, rfl⟩, _, rfl, rfl⟩, rfl⟩, rfl⟩, rfl⟩
    exact ⟨m, keys, n, first, some_key, each, last, rfl⟩
  · rintro ⟨m, keys, n, first, some_key, each, last, rfl⟩
    exact ⟨_, ⟨m, first, rfl⟩, _, ⟨keys, ⟨some_key, each⟩, _, ⟨_, ⟨n, last, rfl⟩, _,
      ⟨_, ⟨_, rfl, rfl⟩, _, rfl, rfl⟩, rfl⟩, rfl⟩, rfl⟩

theorem eq_multisig_of_frame?
    (unframed : shape.frame? = none) :
    shape = .multisig := by
  cases shape with
  | multisig =>
      rfl
  | _ =>
      cases unframed

/-- Shapes with frames differ in the scripts that hold values of their sizes. -/
theorem frame_unique
    {a b : Shape}
    {frame frame' : Frame}
    (framed : a.frame? = some frame)
    (framed' : b.frame? = some frame')
    {value value' : List UInt8}
    (size : value.length = frame.size)
    (size' : value'.length = frame'.size)
    (same : frame.script value = frame'.script value') :
    a = b := by
  have own : ∀ a b : Shape, a.frame?.isSome → a.frame? = b.frame? → a = b := by
    intro a b
    cases a with
    | _ =>
        cases b with
        | _ => decide
  rw [Frame.script_injective size size' same] at framed
  exact own a b (by rw [framed]; rfl) (framed.trans framed'.symm)

/-- No script in a frame ends as several signatures do. -/
theorem script_ne_multisig
    (framed : shape.frame? = some frame)
    (value : List UInt8)
    (front : List Token) :
    frame.script value ≠ front ++ [.opcode Opcode.checkMultiSig] := by
  intro same
  have last := congrArg List.getLast? same
  rw [List.getLast?_concat] at last
  cases shape with
  | multisig =>
      cases framed
  | _ =>
      cases framed
      simp [Frame.script, Opcode.checkSig, Opcode.checkMultiSig, Opcode.equal] at last

/-- A script has at most one shape. -/
theorem shape_unique
    {a b : Shape}
    (shaped : a.template.hasShape ts table = true)
    (shaped' : b.template.hasShape ts table = true) :
    a = b := by
  have mixed : ∀ {c : Shape} {frame : Frame},
      c.frame? = some frame →
      c.template.hasShape ts table = true →
      Shape.multisig.template.hasShape ts table = true → False := by
    intro c frame framed shaped several
    obtain ⟨value, _, rfl⟩ := (hasShape_iff_frame framed).mp shaped
    obtain ⟨m, keys, n, _, _, _, _, same⟩ :=
      mem_languageOf_multisig_iff.mp (Template.mem_languageOf_of_hasShape several)
    exact script_ne_multisig framed value (m :: (keys ++ [n])) (by simpa using same)
  cases framed : a.frame? with
  | none =>
      cases framed' : b.frame? with
      | none =>
          rw [eq_multisig_of_frame? framed, eq_multisig_of_frame? framed']
      | some frame' =>
          rw [eq_multisig_of_frame? framed] at shaped
          exact (mixed framed' shaped' shaped).elim
  | some frame =>
      cases framed' : b.frame? with
      | none =>
          rw [eq_multisig_of_frame? framed'] at shaped'
          exact (mixed framed shaped shaped').elim
      | some frame' =>
          obtain ⟨value, size, rfl⟩ := (hasShape_iff_frame framed).mp shaped
          obtain ⟨value', size', same⟩ := (hasShape_iff_frame framed').mp shaped'
          exact frame_unique framed framed' size size' same

/-- The shape of a script is the one whose template it matches, whatever the order in which shapes
are tried. -/
theorem ofTokens?_eq_some_iff :
    ofTokens? ts table = some shape ↔ shape.template.hasShape ts table = true := by
  unfold ofTokens?
  constructor
  · intro found
    have shaped := List.find?_some found
    exact shaped
  · intro shaped
    have listed : shape ∈ all := by
      cases shape with
      | _ => decide
    cases found : all.find? fun shape => shape.template.hasShape ts table with
    | none =>
        have none_has := List.find?_eq_none.mp found shape listed
        exact absurd shaped none_has
    | some other =>
        have shaped' := List.find?_some found
        rw [shape_unique shaped shaped']

/-- The scripts of the two witness shapes are a version and a program. -/
theorem exists_witness_iff :
    (∃ shape : Shape,
      (shape = .p2wpkh ∨ shape = .p2wsh) ∧ shape.template.hasShape ts table = true) ↔
    ∃ program : List UInt8,
      (program.length = 20 ∨ program.length = 32) ∧
      ts = [.opcode Opcode.zero, .literal program] := by
  constructor
  · rintro ⟨shape, rfl | rfl, shaped⟩
    · obtain ⟨program, size, same⟩ := (hasShape_iff_frame rfl).mp shaped
      exact ⟨program, .inl size, same⟩
    · obtain ⟨program, size, same⟩ := (hasShape_iff_frame rfl).mp shaped
      exact ⟨program, .inr size, same⟩
  · rintro ⟨program, size | size, rfl⟩
    · exact ⟨.p2wpkh, .inl rfl, (hasShape_iff_frame rfl).mpr ⟨program, size, rfl⟩⟩
    · exact ⟨.p2wsh, .inr rfl, (hasShape_iff_frame rfl).mpr ⟨program, size, rfl⟩⟩

theorem program_ne_nil
    {program : List UInt8}
    (size : program.length = 20 ∨ program.length = 32) :
    program ≠ [] := by
  rintro rfl
  simp at size

/-! ## The standard table -/

theorem entryAccepts_anyLiteral_iff
    {text : String}
    (any : Slot.ofText table text = .anyLiteral)
    {t : Token} :
    Template.entryAccepts table (.placeholder text) t = true ↔ ∃ data, t = .literal data := by
  cases t with
  | literal data =>
      simp [Template.entryAccepts, any, Slot.accepts]
  | _ =>
      simp [Template.entryAccepts, any, Slot.accepts]

theorem entryAccepts_opcodes_iff
    {text : String}
    {first last : UInt8}
    (opcodes : Slot.ofText table text = .opcodes first last)
    {t : Token} :
    Template.entryAccepts table (.placeholder text) t = true ↔
      ∃ code, first ≤ code ∧ code ≤ last ∧ t = .opcode code := by
  cases t with
  | opcode code =>
      simp [Template.entryAccepts, opcodes, Slot.accepts]
  | _ =>
      simp [Template.entryAccepts, opcodes, Slot.accepts]

/-- Several signatures: literals between two opcodes for the numbers from one to sixteen, and the
opcode that checks signatures. -/
theorem hasShape_multisig_iff :
    Shape.multisig.template.hasShape ts Opcode.Table.standard = true ↔
      ∃ m keys n,
        (Opcode.one ≤ m ∧ m ≤ Opcode.sixteen) ∧
        keys ≠ [] ∧
        (∀ key ∈ keys, ∃ data, key = .literal data) ∧
        (Opcode.one ≤ n ∧ n ≤ Opcode.sixteen) ∧
        ts = .opcode m :: (keys ++ [.opcode n, .opcode Opcode.checkMultiSig]) := by
  rw [Template.hasShape_iff_mem_languageOf (Template.decisive_standard .multisig),
    mem_languageOf_multisig_iff]
  simp only [entryAccepts_anyLiteral_iff Template.ofText_pubkey,
    entryAccepts_opcodes_iff Template.ofText_small_number]
  constructor
  · rintro ⟨_, keys, _, ⟨m, low, high, rfl⟩, some_key, each, ⟨n, low', high', rfl⟩, rfl⟩
    exact ⟨m, keys, n, ⟨low, high⟩, some_key, each, ⟨low', high'⟩, rfl⟩
  · rintro ⟨m, keys, n, ⟨low, high⟩, some_key, each, ⟨low', high'⟩, rfl⟩
    exact ⟨_, keys, _, ⟨m, low, high, rfl⟩, some_key, each, ⟨n, low', high', rfl⟩, rfl⟩

end Shape
end ScriptCodec
