import Mathlib.Data.Set.List
import ScriptCodec.Address
import ScriptCodec.Proofs.Template.Shapes

/-!
# Classification of scripts

`Shape.Written` lists the scripts of every shape, opcode by opcode, without templates.  The texts
that describe the shapes are read as their templates, and a script is found to have a shape exactly
if it is one of those that are written out for it:

* the five shapes that hold one value are recognized over every table, since the words of
  placeholders with a size are never looked up;
* several signatures are recognized over the standard table;
* a script has at most one shape, so the order in which templates are tried does not matter;
* addresses belong to shapes of the first kind only and so do not depend on the table.

`ofTokens?_written` has all of this.
-/

namespace ScriptCodec

namespace Template

/-- The entries of a template make up that template. -/
theorem ofEntries_entries
    (template : Template) :
    ofEntries template.entries = .ok template := by
  have wellFormed := template.wellFormed
  unfold ofEntries
  split
  · rfl
  · next reason misplaced =>
      rw [wellFormed] at misplaced
      cases misplaced

/-- A text that is read as the entries of a template is read as that template. -/
theorem ofText_of_decode
    {text : String}
    {table : Opcode.Table}
    {template : Template}
    (read : Asm.decode text.toList readingOptions table = .ok template.entries) :
    ofText text table = .ok template := by
  rw [ofText, read]
  exact ofEntries_entries template

end Template

namespace Shape

/-- The text that describes a shape is read as the template of the shape. -/
theorem ofText_source
    (shape : Shape) :
    Template.ofText shape.source Opcode.Table.standard = .ok shape.template := by
  apply Template.ofText_of_decode
  cases shape with
  | _ =>
      decide +kernel

/-! ## The scripts of the shapes -/

/-- The scripts of the shapes, written out. -/
inductive Written : Shape → List Token → Prop
  | p2pk
      {key : List UInt8}
      (size : key.length = 65) :
      Written .p2pk [.literal key, .opcode 0xac]
  | p2pkh
      {hash : List UInt8}
      (size : hash.length = 20) :
      Written .p2pkh
        [.opcode 0x76, .opcode 0xa9, .literal hash, .opcode 0x88, .opcode 0xac]
  | p2sh
      {hash : List UInt8}
      (size : hash.length = 20) :
      Written .p2sh [.opcode 0xa9, .literal hash, .opcode 0x87]
  | p2wpkh
      {hash : List UInt8}
      (size : hash.length = 20) :
      Written .p2wpkh [.opcode 0, .literal hash]
  | p2wsh
      {hash : List UInt8}
      (size : hash.length = 32) :
      Written .p2wsh [.opcode 0, .literal hash]
  | multisig
      {m n : UInt8}
      {keys : List (List UInt8)}
      (some_key : keys ≠ [])
      (required : 81 ≤ m ∧ m ≤ 96)
      (total : 81 ≤ n ∧ n ≤ 96) :
      Written .multisig (.opcode m :: (keys.map .literal ++ [.opcode n, .opcode 0xae]))

variable {table : Opcode.Table} {ts : List Token} {shape : Shape} {frame : Frame}

/-- The scripts of a shape with a frame are written out as those that hold a value in it. -/
theorem written_iff_frame
    (framed : shape.frame? = some frame) :
    Written shape ts ↔ ∃ value, value.length = frame.size ∧ ts = frame.script value := by
  constructor
  · intro written
    cases written with
    | p2pk size | p2pkh size | p2sh size | p2wpkh size | p2wsh size =>
        cases framed
        exact ⟨_, size, rfl⟩
    | multisig =>
        cases framed
  · rintro ⟨value, size, rfl⟩
    cases shape with
    | multisig =>
        cases framed
    | p2pk =>
        cases framed
        exact .p2pk size
    | p2pkh =>
        cases framed
        exact .p2pkh size
    | p2sh =>
        cases framed
        exact .p2sh size
    | p2wpkh =>
        cases framed
        exact .p2wpkh size
    | p2wsh =>
        cases framed
        exact .p2wsh size

theorem exists_frame_of_ne_multisig
    (single : shape ≠ .multisig) :
    ∃ frame, shape.frame? = some frame := by
  cases framed : shape.frame? with
  | none =>
      exact absurd (eq_multisig_of_frame? framed) single
  | some frame =>
      exact ⟨frame, rfl⟩

/-- A shape that holds one value is recognized over every table. -/
theorem ofTokens?_eq_some_iff_of_ne_multisig
    (single : shape ≠ .multisig) :
    ofTokens? ts table = some shape ↔ Written shape ts := by
  obtain ⟨frame, framed⟩ := exists_frame_of_ne_multisig single
  rw [ofTokens?_eq_some_iff, hasShape_iff_frame framed, written_iff_frame framed]

/-- Tokens that are all literals are the literals of a list of values. -/
theorem exists_map_literal
    {keys : List Token}
    (each : ∀ key ∈ keys, ∃ value, key = .literal value) :
    ∃ values : List (List UInt8), values.map .literal = keys := by
  have inRange : keys ∈ Set.range (List.map Token.literal) := by
    rw [Set.range_list_map]
    intro key mem
    obtain ⟨value, rfl⟩ := each key mem
    exact ⟨value, rfl⟩
  exact inRange

/-- Over the standard table several signatures are recognized as they are written out. -/
theorem ofTokens?_eq_multisig_iff :
    ofTokens? ts Opcode.Table.standard = some .multisig ↔ Written .multisig ts := by
  rw [ofTokens?_eq_some_iff, hasShape_multisig_iff]
  constructor
  · rintro ⟨m, keys, n, required, some_key, each, total, rfl⟩
    obtain ⟨values, rfl⟩ := exists_map_literal each
    have some_value : values ≠ [] := by
      rintro rfl
      exact some_key rfl
    exact .multisig some_value required total
  · intro written
    cases written with
    | @multisig m n values some_value required total =>
        refine ⟨m, values.map .literal, n, required, ?_, ?_, total, rfl⟩
        · simpa using some_value
        · intro key mem
          obtain ⟨value, _, rfl⟩ := List.mem_map.mp mem
          exact ⟨value, rfl⟩

/-- Over the standard table every shape is recognized as it is written out. -/
theorem ofTokens?_standard_eq_some_iff :
    ofTokens? ts Opcode.Table.standard = some shape ↔ Written shape ts := by
  by_cases single : shape = .multisig
  · rw [single]
    exact ofTokens?_eq_multisig_iff
  · exact ofTokens?_eq_some_iff_of_ne_multisig single

/-! ## The order of the templates -/

/-- Trying the templates in any order finds the same shape. -/
theorem find?_of_perm
    {order : List Shape}
    (perm : order.Perm all) :
    (order.find? fun shape => shape.template.hasShape ts table) = ofTokens? ts table := by
  cases found : ofTokens? ts table with
  | none =>
      rw [ofTokens?, List.find?_eq_none] at found
      exact List.find?_eq_none.mpr fun shape mem => found shape (perm.mem_iff.mp mem)
  | some shape =>
      have listed : shape ∈ order := perm.mem_iff.mpr (List.mem_of_find?_eq_some found)
      have shaped := ofTokens?_eq_some_iff.mp found
      cases other : order.find? fun shape => shape.template.hasShape ts table with
      | none =>
          exact absurd shaped (List.find?_eq_none.mp other shape listed)
      | some first =>
          have shaped' := List.find?_some other
          rw [shape_unique shaped' shaped]

end Shape

/-! ## Addresses -/

namespace Address

/-- The address of a script depends on the table only through its shape, and the shapes with an
address are recognized over every table. -/
theorem ofTokens_eq_of_table
    (ts : List Token)
    (options : Options)
    (table table' : Opcode.Table) :
    ofTokens ts options table = ofTokens ts options table' := by
  by_cases framed : ∃ shape, shape ≠ .multisig ∧ Shape.Written shape ts
  · obtain ⟨shape, single, written⟩ := framed
    have found : ∀ table, Shape.ofTokens? ts table = some shape :=
      fun _ => (Shape.ofTokens?_eq_some_iff_of_ne_multisig single).mpr written
    rw [ofTokens, ofTokens, found table, found table']
  · have unaddressed : ∀ table, ofTokens ts options table = .ok none := by
      intro table
      rw [ofTokens]
      cases found : Shape.ofTokens? ts table with
      | none =>
          rfl
      | some shape =>
          have several : shape = .multisig := by
            by_contra single
            exact framed
              ⟨shape, single, (Shape.ofTokens?_eq_some_iff_of_ne_multisig single).mp found⟩
          rw [several]
          rfl
    rw [unaddressed table, unaddressed table']

end Address

namespace Shape

/-- **Classification**: the texts of the shapes are read as their templates; a shape is found
exactly for the scripts that are written out for it, over every table for shapes with one value and
over the standard table for all; at most one template matches, so that they may be tried in any
order; and the address of a script does not depend on the table. -/
theorem ofTokens?_written
    (ts : List Token) :
    (∀ shape : Shape,
      Template.ofText shape.source Opcode.Table.standard = .ok shape.template) ∧
    (∀ (table : Opcode.Table) (shape : Shape), shape ≠ .multisig →
      (ofTokens? ts table = some shape ↔ Written shape ts)) ∧
    (∀ shape : Shape, ofTokens? ts Opcode.Table.standard = some shape ↔ Written shape ts) ∧
    (ofTokens? ts Opcode.Table.standard = none ↔ ∀ shape, ¬ Written shape ts) ∧
    (∀ (table : Opcode.Table) (a b : Shape),
      a.template.hasShape ts table = true → b.template.hasShape ts table = true → a = b) ∧
    (∀ (table : Opcode.Table) (order : List Shape), order.Perm all →
      (order.find? fun shape => shape.template.hasShape ts table) = ofTokens? ts table) ∧
    (∀ (options : Options) (table table' : Opcode.Table),
      Address.ofTokens ts options table = Address.ofTokens ts options table') := by
  refine ⟨ofText_source, fun _ _ => ofTokens?_eq_some_iff_of_ne_multisig,
    fun _ => ofTokens?_standard_eq_some_iff, ?_, fun _ _ _ => shape_unique,
    fun _ _ => find?_of_perm, Address.ofTokens_eq_of_table ts⟩
  rw [Option.eq_none_iff_forall_not_mem]
  exact forall_congr' fun shape => not_congr ofTokens?_standard_eq_some_iff

end Shape
end ScriptCodec
