import Mathlib.Data.List.Nodup
import ScriptCodec.Opcode.Standard
import ScriptCodec.Options.FromJson
import ScriptCodec.Proofs.Options.Terms

/-!
# The order of terms in documents

The words of a document are told apart as written and brought into normal form afterwards, entry by
entry, in an order that nothing fixes.  A text is therefore read once for every order, and the
readings are compared: `Uniform` says that they fail alike or read on from the same place.

* `uniform_readMembersOn` carries what holds of the states for all orders through an object;
* `fails_or_exists_loads` says that in every order a document comes to setting the same entries one
  after the other in that order, unless it has a fault, which then shows in every order;
* `terms_in_any_order` draws the conclusion: where spellings of one word agree on its opcode, the
  order changes no look-up and no reading of a text.
-/

namespace ScriptCodec
namespace Options

open Json

/-! ## Reading in every order -/

/-- Readings, one for each order, that all fail alike, or all read on from the same place with
results that belong together. -/
def Uniform
    {α : Type}
    (together : (TermOrder → α) → Prop)
    (reading : TermOrder → Except Json.Error (α × List Char)) :
    Prop :=
  (∃ e, ∀ order, reading order = .error e) ∨
  ∃ results rest, together results ∧ ∀ order, reading order = .ok (results order, rest)

theorem uniform_error
    {α : Type}
    {together : (TermOrder → α) → Prop}
    (e : Json.Error) :
    Uniform together fun _ => .error e :=
  .inl ⟨e, fun _ => rfl⟩

theorem uniform_ok
    {α : Type}
    {together : (TermOrder → α) → Prop}
    {results : TermOrder → α}
    (holds : together results)
    (rest : List Char) :
    Uniform together fun order => .ok (results order, rest) :=
  .inr ⟨results, rest, holds, fun _ => rfl⟩

section Objects

variable {σ : Type} {together : (TermOrder → σ) → Prop} {member : TermOrder → σ → Read σ}

/-- Members are read uniformly if each of them is. -/
theorem uniform_readMembersOn
    (each : ∀ states, together states → ∀ cs,
      Uniform together fun order => member order (states order) cs)
    (fuel : Nat)
    (first : Bool)
    {states : TermOrder → σ}
    (holds : together states)
    (cs : List Char) :
    Uniform together fun order => readMembersOn (member order) fuel first (states order) cs := by
  induction fuel generalizing first states cs with
  | zero =>
      exact uniform_error .malformed
  | succ fuel ih =>
      simp only [readMembersOn]
      cases skipSpace cs with
      | nil =>
          exact uniform_error .endOfText
      | cons c rest =>
          by_cases closes : c = closeBrace
          · simp only [if_pos closes]
            exact uniform_ok holds rest
          by_cases noComma : (!first) = true ∧ c ≠ ','
          · simp only [if_neg closes, if_pos noComma]
            exact uniform_error .malformed
          simp only [if_neg closes, if_neg noComma]
          cases (if first = true then c :: rest else skipSpace rest) with
          | nil =>
              exact uniform_error .endOfText
          | cons d rest =>
              by_cases quote : d = '"'
              · simp only [if_pos quote]
                rcases each states holds (d :: rest) with
                  ⟨e, failed⟩ | ⟨states', rest', holds', read⟩
                · simp only [failed]
                  exact uniform_error e
                · simp only [read]
                  exact ih false holds' rest'
              · simp only [if_neg quote]
                exact uniform_error .malformed

theorem uniform_readObject
    (wanted : Expectation)
    (each : ∀ states, together states → ∀ cs,
      Uniform together fun order => member order (states order) cs)
    {states : TermOrder → σ}
    (holds : together states)
    (cs : List Char) :
    Uniform together fun order => readObject wanted (member order) (states order) cs := by
  simp only [readObject]
  cases skipSpace cs with
  | nil =>
      exact uniform_error .endOfText
  | cons c rest =>
      by_cases opens : c = openBrace
      · simp only [if_pos opens, readMembers]
        exact uniform_readMembersOn each _ true holds rest
      · simp only [if_neg opens]
        exact uniform_error (misfitAt wanted (c :: rest))

end Objects

/-! ## Entries of an object -/

/-- A map that has one value for each of its keys. -/
def HasDistinctKeys
    {κ β : Type}
    (m : Overrides κ β) :
    Prop :=
  (m.entries.map Prod.fst).Nodup

theorem HasDistinctKeys.insert
    {κ β : Type}
    [DecidableEq κ]
    {m : Overrides κ β}
    (distinct : HasDistinctKeys m)
    (k : κ)
    (v : β) :
    HasDistinctKeys (m.insert k v) := by
  rw [HasDistinctKeys, Overrides.insert, List.map_cons, List.nodup_cons]
  constructor
  · rw [List.mem_map]
    rintro ⟨entry, mem, rfl⟩
    simpa using (List.mem_filter.mp mem).2
  · exact distinct.sublist (List.filter_sublist.map Prod.fst)

/-- Maps for all orders that are one map with distinct keys. -/
def OneMap
    (maps : TermOrder → Overrides String UInt8) :
    Prop :=
  ∃ m, HasDistinctKeys m ∧ maps = fun _ => m

/-- Entries are read into a map before any order comes in. -/
theorem uniform_readEntry
    (maps : TermOrder → Overrides String UInt8)
    (one : OneMap maps)
    (cs : List Char) :
    Uniform OneMap fun order => readEntry readKey readByte (maps order) cs := by
  obtain ⟨m, distinct, rfl⟩ := one
  dsimp only [readEntry]
  cases readKey cs with
  | error e =>
      exact uniform_error e
  | ok key =>
      dsimp only
      cases skipColon key.2 with
      | error e =>
          exact uniform_error e
      | ok rest =>
          dsimp only
          cases readByte rest with
          | error e =>
              exact uniform_error e
          | ok value =>
              exact uniform_ok ⟨_, distinct.insert key.1 value.1, rfl⟩ value.2

/-! ## Options of a document -/

/-- Options for all orders that come from setting the same entries, with distinct words, in that
order. -/
def SetInOrder
    (options : TermOrder → Options) :
    Prop :=
  ∃ (base : Options) (entries : List (String × UInt8)),
    (entries.map Prod.fst).Nodup ∧
    options = fun order => { base with terms := termsOfEntries (order.arrange entries) }

theorem setInOrder_default :
    SetInOrder fun _ => {} := by
  refine ⟨{}, [], List.nodup_nil, ?_⟩
  funext order
  rw [List.perm_nil.mp (order.perm [])]
  rfl

/-- Terms replace the terms from before, in every order by the same entries. -/
theorem uniform_readInto_terms
    (base : Options)
    (cs : List Char) :
    Uniform SetInOrder fun order =>
      readInto (readTerms order) (fun terms => { base with terms := terms }) cs := by
  have bare : OneMap fun _ => Overrides.empty :=
    ⟨Overrides.empty, List.nodup_nil, rfl⟩
  dsimp only [readInto, readTerms]
  rcases uniform_readObject .map uniform_readEntry bare cs with
    ⟨e, failed⟩ | ⟨_, rest, ⟨m, distinct, rfl⟩, read⟩
  · simp only [failed .asWritten]
    exact uniform_error e
  · have words : (m.entries.reverse.map Prod.fst).Nodup := by
      rw [List.map_reverse, List.nodup_reverse]
      exact distinct
    simp only [read .asWritten]
    exact uniform_ok ⟨base, m.entries.reverse, words, rfl⟩ rest

/-- A value that does not depend on the order is put beside the terms in every order. -/
theorem uniform_readInto_apart
    {α : Type}
    (read : Read α)
    (put : Options → α → Options)
    (apart : ∀ o terms a, put { o with terms := terms } a = { put o a with terms := terms })
    {options : TermOrder → Options}
    (inOrder : SetInOrder options)
    (cs : List Char) :
    Uniform SetInOrder fun order => readInto read (put (options order)) cs := by
  obtain ⟨base, entries, distinct, rfl⟩ := inOrder
  dsimp only [readInto]
  cases read cs with
  | error e =>
      exact uniform_error e
  | ok found =>
      have kept : SetInOrder fun order =>
          put { base with terms := termsOfEntries (order.arrange entries) } found.1 :=
        ⟨put base found.1, entries, distinct, funext fun _ => apart base _ found.1⟩
      exact uniform_ok kept found.2

theorem uniform_readField
    (f : Field)
    {options : TermOrder → Options}
    (inOrder : SetInOrder options)
    (cs : List Char) :
    Uniform SetInOrder fun order => readField order f (options order) cs := by
  cases f with
  | terms =>
      obtain ⟨base, entries, distinct, rfl⟩ := inOrder
      exact uniform_readInto_terms base cs
  | encoding =>
      exact uniform_readInto_apart readEncoding
        (fun o x => { o with encoding := x }) (fun _ _ _ => rfl) inOrder cs
  | literalStyle =>
      exact uniform_readInto_apart (readName .literalStyle LiteralStyle.ofName)
        (fun o x => { o with literalStyle := x }) (fun _ _ _ => rfl) inOrder cs
  | opcodeStyle =>
      exact uniform_readInto_apart (readName .opcodeStyle OpcodeStyle.ofName)
        (fun o x => { o with opcodeStyle := x }) (fun _ _ _ => rfl) inOrder cs
  | opcodes =>
      exact uniform_readInto_apart readOpcodeWords
        (fun o x => { o with opcodeWords := x }) (fun _ _ _ => rfl) inOrder cs
  | pubKeyHash =>
      exact uniform_readInto_apart readByte
        (fun o x => { o with address := { o.address with pubKeyHash := x } }) (fun _ _ _ => rfl)
        inOrder cs
  | scriptHash =>
      exact uniform_readInto_apart readByte
        (fun o x => { o with address := { o.address with scriptHash := x } }) (fun _ _ _ => rfl)
        inOrder cs
  | bech32 =>
      exact uniform_readInto_apart (readText .text)
        (fun o x => { o with address := { o.address with bech32 := x } }) (fun _ _ _ => rfl)
        inOrder cs
  | allowPlaceholders =>
      exact uniform_readInto_apart readBoolean
        (fun o x => { o with allowPlaceholders := x }) (fun _ _ _ => rfl) inOrder cs

/-- Drafts for all orders with the same fields set and options that belong together. -/
def DraftInOrder
    (drafts : TermOrder → Draft) :
    Prop :=
  ∃ options seen, SetInOrder options ∧ drafts = fun order => ⟨options order, seen⟩

theorem uniform_readMember
    (drafts : TermOrder → Draft)
    (inOrder : DraftInOrder drafts)
    (cs : List Char) :
    Uniform DraftInOrder fun order => readMember order (drafts order) cs := by
  obtain ⟨options, seen, options_inOrder, rfl⟩ := inOrder
  dsimp only [readMember]
  cases readKey cs with
  | error e =>
      exact uniform_error e
  | ok key =>
      dsimp only
      cases Field.ofKey? key.1 with
      | none =>
          dsimp only
          cases skipColon key.2 with
          | error e =>
              exact uniform_error e
          | ok rest =>
              dsimp only
              cases skipValue rest with
              | error e =>
                  exact uniform_error e
              | ok behind =>
                  exact uniform_ok ⟨options, seen, options_inOrder, rfl⟩ behind
      | some f =>
          dsimp only
          by_cases again : f ∈ seen
          · simp only [if_pos again]
            exact uniform_error (.misfit (.duplicateField f.key))
          · simp only [if_neg again]
            cases skipColon key.2 with
            | error e =>
                exact uniform_error e
            | ok rest =>
                rcases uniform_readField f options_inOrder rest with
                  ⟨e, failed⟩ | ⟨options', behind, inOrder', read⟩
                · simp only [failed]
                  exact uniform_error e
                · simp only [read]
                  exact uniform_ok ⟨options', f :: seen, inOrder', rfl⟩ behind

theorem uniform_readElements
    (fields : List Field)
    (first : Bool)
    {options : TermOrder → Options}
    (inOrder : SetInOrder options)
    (cs : List Char) :
    Uniform SetInOrder fun order => readElements order fields first (options order) cs := by
  induction fields generalizing first options cs with
  | nil =>
      simp only [readElements]
      cases skipSpace cs with
      | nil =>
          exact uniform_error .endOfText
      | cons c rest =>
          by_cases closes : c = ']'
          · simp only [if_pos closes]
            exact uniform_ok inOrder rest
          · simp only [if_neg closes]
            exact uniform_error .malformed
  | cons f fields ih =>
      simp only [readElements]
      cases skipSpace cs with
      | nil =>
          exact uniform_error .endOfText
      | cons c rest =>
          by_cases closes : c = ']'
          · simp only [if_pos closes]
            exact uniform_ok inOrder rest
          by_cases noComma : (!first) = true ∧ c ≠ ','
          · simp only [if_neg closes, if_pos noComma]
            exact uniform_error .malformed
          simp only [if_neg closes, if_neg noComma]
          cases (if first = true then c :: rest else skipSpace rest) with
          | nil =>
              exact uniform_error .endOfText
          | cons d rest =>
              by_cases trailing : (!first) = true ∧ d = ']'
              · simp only [if_pos trailing]
                exact uniform_error .malformed
              · simp only [if_neg trailing]
                rcases uniform_readField f inOrder (d :: rest) with
                  ⟨e, failed⟩ | ⟨options', behind, inOrder', read⟩
                · simp only [failed]
                  exact uniform_error e
                · simp only [read]
                  exact ih false inOrder' behind

theorem uniform_readOptions
    (cs : List Char) :
    Uniform SetInOrder fun order => readOptions order cs := by
  have drafts : DraftInOrder fun _ => {} :=
    ⟨fun _ => {}, [], setInOrder_default, rfl⟩
  dsimp only [readOptions]
  split
  · exact uniform_readElements Field.all true setInOrder_default _
  · rcases uniform_readObject .options uniform_readMember drafts (skipSpace cs) with
      ⟨e, failed⟩ | ⟨_, rest, ⟨options, seen, inOrder, rfl⟩, read⟩
    · simp only [failed]
      exact uniform_error e
    · simp only [read]
      exact uniform_ok inOrder rest

/-- A document that is read as options: in every order, the entries of its terms are set in that
order on top of options without terms. -/
structure Loads
    (json : String)
    (base : Options)
    (entries : List (String × UInt8)) :
    Prop where
  bare : base.terms = Overrides.empty
  distinct : (entries.map Prod.fst).Nodup
  loaded : ∀ order : TermOrder, ofJsonIn order json = .ok (base.withTerms (order.arrange entries))

/-- Every document has one fault in all orders or is read as options in all orders. -/
theorem fails_or_exists_loads
    (json : String) :
    (∃ e, ∀ order, ofJsonIn order json = .error e) ∨ ∃ base entries, Loads json base entries := by
  simp only [ofJsonIn, readWhole]
  rcases uniform_readOptions json.toList with
    ⟨e, failed⟩ | ⟨_, rest, ⟨base, entries, distinct, rfl⟩, read⟩
  · left
    refine ⟨.json e, ?_⟩
    intro order
    simp only [failed]
    rfl
  · by_cases complete : (skipSpace rest).isEmpty = true
    · right
      refine ⟨{ base with terms := Overrides.empty }, entries, rfl, distinct, ?_⟩
      intro order
      have bare : ({ base with terms := Overrides.empty } : Options).terms = Overrides.empty := rfl
      rw [withTerms_of_bare bare]
      simp only [ofJsonIn, readWhole, read, if_pos complete]
      rfl
    · left
      refine ⟨.json .malformed, ?_⟩
      intro order
      simp only [read, if_neg complete]
      rfl

/-! ## The order of terms -/

/-- Setting entries in two orders gives options that come to the same, if spellings of one word
agree. -/
theorem alike_withTerms
    {base : Options}
    {entries first second : List (String × UInt8)}
    (bare : base.terms = Overrides.empty)
    (agree : Agree entries)
    (perm : first.Perm entries)
    (perm' : second.Perm entries) :
    (base.withTerms first).Alike (base.withTerms second) := by
  have same := agree_iff_same.mp agree first second perm perm'
  rw [withTerms_of_bare bare, withTerms_of_bare bare]
  exact ⟨same, rfl⟩

/-- **Terms in any order**: let words with one normal form be given one opcode.  Then collecting the
entries in any two orders gives the same terms, which are those of setting the entries one after the
other in any order, and only for such entries do all orders of setting them give the same terms.  A
document either has one fault, whatever the order, or is read in all orders as options that come to
the same and under which every text is read the same way. -/
theorem terms_in_any_order :
    (∀ entries : List (String × UInt8), Agree entries →
      ∀ first second : List (String × UInt8), first.Perm entries → second.Perm entries →
        (termsOfEntries first).Same (termsOfEntries second) ∧
        ∀ base : Options, base.terms = Overrides.empty →
          (termsOfEntries first).Same (base.withTerms second).terms) ∧
    (∀ (base : Options) (entries : List (String × UInt8)), base.terms = Overrides.empty →
      (∀ first second : List (String × UInt8), first.Perm entries → second.Perm entries →
        (base.withTerms first).terms.Same (base.withTerms second).terms) →
      Agree entries) ∧
    ∀ json : String,
      (∃ e, ∀ order, ofJsonIn order json = .error e) ∨
      ∃ base entries, Loads json base entries ∧
        (Agree entries → ∀ order : TermOrder, ∀ calls : List (String × UInt8), calls.Perm entries →
          ∃ o, ofJsonIn order json = .ok o ∧ o.Alike (base.withTerms calls) ∧
            ∀ text table,
              Asm.decodeLocated text o table =
                Asm.decodeLocated text (base.withTerms calls) table) := by
  refine ⟨?_, ?_, ?_⟩
  · intro entries agree first second perm perm'
    have same := agree_iff_same.mp agree first second perm perm'
    refine ⟨same, ?_⟩
    intro base bare
    rw [terms_withTerms bare]
    exact same
  · intro base entries bare same
    apply agree_iff_same.mpr
    intro first second perm perm'
    have found := same first second perm perm'
    rw [terms_withTerms bare, terms_withTerms bare] at found
    exact found
  · intro json
    rcases fails_or_exists_loads json with failed | ⟨base, entries, loads⟩
    · exact .inl failed
    · refine .inr ⟨base, entries, loads, ?_⟩
      intro agree order calls perm
      have alike := alike_withTerms loads.bare agree (order.perm entries) perm
      exact ⟨_, loads.loaded order, alike, Asm.decodeLocated_of_alike alike⟩

/-- Two spellings of one word that agree, and another word between them. -/
theorem terms_in_any_order_spellings :
    Agree [("foo", 176), ("bar", 177), ("OP_Foo", 176)] ∧
    (termsOfEntries [("foo", 176), ("bar", 177), ("OP_Foo", 176)]).Same
      (termsOfEntries [("OP_Foo", 176), ("bar", 177), ("foo", 176)]) := by
  have agree : Agree [("foo", 176), ("bar", 177), ("OP_Foo", 176)] := by
    decide
  have backwards := List.reverse_perm [("foo", (176 : UInt8)), ("bar", 177), ("OP_Foo", 176)]
  exact ⟨agree, (terms_in_any_order.1 _ agree _ _ (.refl _) backwards).1⟩

/-- The order opposite to the one in which the entries were written. -/
def backwards : TermOrder :=
  ⟨List.reverse, List.reverse_perm⟩

/-- A document that wants one term to be two opcodes, in two spellings. -/
def disputed : String :=
  "\x7b\"terms\":\x7b\"foo\":176,\"OP_FOO\":177\x7d\x7d"

/-- Where spellings of one word do not agree, the order decides: two orders of collecting the
entries, two orders of setting them, and two readings of one document, under which a word is two
opcodes. -/
theorem terms_in_two_orders :
    (termsOfEntries [("foo", 176), ("OP_FOO", 177)]).get? "OP_FOO" = some 177 ∧
    (termsOfEntries [("OP_FOO", 177), ("foo", 176)]).get? "OP_FOO" = some 176 ∧
    (default.withTerms [("foo", 176), ("OP_FOO", 177)]).terms.get? "OP_FOO" = some 177 ∧
    (default.withTerms [("OP_FOO", 177), ("foo", 176)]).terms.get? "OP_FOO" = some 176 ∧
    ((ofJsonIn .asWritten disputed).toOption.map fun o =>
      Asm.decode ['f', 'o', 'o'] o Opcode.Table.standard) = some (.ok [.opcode 177]) ∧
    ((ofJsonIn backwards disputed).toOption.map fun o =>
      Asm.decode ['f', 'o', 'o'] o Opcode.Table.standard) = some (.ok [.opcode 176]) := by
  refine ⟨?_, ?_, ?_, ?_, ?_, ?_⟩ <;> decide +kernel

end Options
end ScriptCodec
