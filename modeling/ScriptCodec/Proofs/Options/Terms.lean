import Mathlib.Data.List.Induction
import ScriptCodec.Asm.Lexer
import ScriptCodec.Proofs.Reading

/-!
# Overriding terms as a map

Overriding terms are looked up by their normal form and in no other way, so two ways of setting
them come to the same if all look-ups do.  Several spellings have one normal form, and of entries
with one normal form the last one wins.

* `get?_insertAll_eq_some_iff` says what is found where no key is given two values;
* `agree_iff_same` that setting the entries in all orders comes to the same exactly if no two of
  them want one term to be two opcodes;
* `terms_withTerms` that terms which are set one by one are the terms of the entries;
* `decodeLocated_of_alike` that texts are read alike under options that come to the same.
-/

namespace ScriptCodec

namespace Overrides

variable {κ β : Type} [DecidableEq κ]

/-- Two maps come to the same: every key has the same value in both. -/
def Same
    (m m' : Overrides κ β) :
    Prop :=
  ∀ k, m.get? k = m'.get? k

/-- Entries that give no key two values. -/
def IsFunctional
    (entries : List (κ × β)) :
    Prop :=
  ∀ a ∈ entries, ∀ b ∈ entries, a.1 = b.1 → a.2 = b.2

theorem Same.symm
    {m m' : Overrides κ β}
    (same : m.Same m') :
    m'.Same m :=
  fun k => (same k).symm

theorem Same.trans
    {m m' m'' : Overrides κ β}
    (first : m.Same m')
    (second : m'.Same m'') :
    m.Same m'' :=
  fun k => (first k).trans (second k)

/-- The last entry of a key wins. -/
theorem get?_insertAll_append_singleton
    (m : Overrides κ β)
    (entries : List (κ × β))
    (last : κ × β)
    (k : κ) :
    (m.insertAll (entries ++ [last])).get? k =
      if k = last.1 then some last.2 else (m.insertAll entries).get? k := by
  rw [insertAll, List.foldl_append]
  exact get?_insert _ last.1 k last.2

/-- Where no key is given two values, a map holds the entries that were set. -/
theorem get?_insertAll_eq_some_iff
    {entries : List (κ × β)}
    (functional : IsFunctional entries)
    {k : κ}
    {v : β} :
    (empty.insertAll entries).get? k = some v ↔ (k, v) ∈ entries := by
  induction entries using List.reverseRecOn with
  | nil =>
      simp [insertAll]
  | append_singleton entries last ih =>
      have before : IsFunctional entries := fun a mem b mem' =>
        functional a (List.mem_append_left _ mem) b (List.mem_append_left _ mem')
      have own : last ∈ entries ++ [last] := by
        simp
      rw [get?_insertAll_append_singleton]
      by_cases key : k = last.1
      · rw [if_pos key]
        constructor
        · intro value
          rw [key, ← Option.some.inj value]
          exact own
        · intro mem
          rw [functional last own (k, v) mem key.symm]
      · rw [if_neg key, ih before, List.mem_append, List.mem_singleton]
        constructor
        · exact Or.inl
        · rintro (mem | rfl)
          · exact mem
          · exact absurd rfl key

/-- Where no key is given two values, the order of the entries does not matter. -/
theorem same_insertAll_of_perm
    {first second : List (κ × β)}
    (functional : IsFunctional first)
    (perm : first.Perm second) :
    (empty.insertAll first).Same (empty.insertAll second) := by
  have functional' : IsFunctional second := fun a mem b mem' =>
    functional a (perm.mem_iff.mpr mem) b (perm.mem_iff.mpr mem')
  intro k
  apply Option.ext
  intro v
  rw [get?_insertAll_eq_some_iff functional, get?_insertAll_eq_some_iff functional',
    perm.mem_iff]

end Overrides

namespace Options

/-! ## Entries for terms -/

/-- An entry with its word in normal form. -/
def normalEntry
    (entry : String × UInt8) :
    String × UInt8 :=
  (Term.normalize entry.1.toList, entry.2)

/-- Words with one normal form are given one opcode. -/
def Agree
    (entries : List (String × UInt8)) :
    Prop :=
  Overrides.IsFunctional (entries.map normalEntry)

theorem agree_iff
    {entries : List (String × UInt8)} :
    Agree entries ↔
      ∀ a ∈ entries, ∀ b ∈ entries,
        Term.normalize a.1.toList = Term.normalize b.1.toList → a.2 = b.2 := by
  simp only [Agree, Overrides.IsFunctional, List.forall_mem_map]
  rfl

instance (entries : List (String × UInt8)) : Decidable (Agree entries) :=
  decidable_of_iff _ agree_iff.symm

/-- Sets overriding terms one after the other. -/
def withTerms
    (o : Options)
    (entries : List (String × UInt8)) :
    Options :=
  entries.foldl (fun o entry => o.withTerm entry.1 entry.2) o

/-- Setting terms one after the other sets their normal forms and nothing else. -/
theorem withTerms_eq
    (o : Options)
    (entries : List (String × UInt8)) :
    o.withTerms entries = { o with terms := o.terms.insertAll (entries.map normalEntry) } := by
  induction entries generalizing o with
  | nil =>
      rfl
  | cons entry entries ih =>
      have first : o.withTerms (entry :: entries) =
          (o.withTerm entry.1 entry.2).withTerms entries := rfl
      rw [first, ih]
      rfl

/-- Without terms from before, the terms of the entries are all there is. -/
theorem withTerms_of_bare
    {o : Options}
    (bare : o.terms = Overrides.empty)
    (entries : List (String × UInt8)) :
    o.withTerms entries = { o with terms := termsOfEntries entries } := by
  rw [withTerms_eq, bare]
  rfl

theorem terms_withTerms
    {o : Options}
    (bare : o.terms = Overrides.empty)
    (entries : List (String × UInt8)) :
    (o.withTerms entries).terms = termsOfEntries entries := by
  rw [withTerms_of_bare bare]

/-- Every entry can be the last one. -/
theorem exists_perm_ending
    {α : Type}
    {entries : List α}
    {a : α}
    (mem : a ∈ entries) :
    ∃ front, (front ++ [a]).Perm entries := by
  obtain ⟨before, behind, rfl⟩ := List.append_of_mem mem
  refine ⟨before ++ behind, ?_⟩
  rw [List.append_assoc]
  exact (List.perm_append_singleton a behind).append_left before

/-- The word of the last entry has the opcode of that entry. -/
theorem get?_termsOfEntries_ending
    (front : List (String × UInt8))
    (last : String × UInt8) :
    (termsOfEntries (front ++ [last])).get? (Term.normalize last.1.toList) = some last.2 := by
  rw [termsOfEntries, List.map_append, List.map_singleton,
    Overrides.get?_insertAll_append_singleton, if_pos rfl]

/-- Setting entries in all orders comes to the same exactly if no two of them want one term to be
two opcodes. -/
theorem agree_iff_same
    {entries : List (String × UInt8)} :
    Agree entries ↔
      ∀ first second : List (String × UInt8), first.Perm entries → second.Perm entries →
        (termsOfEntries first).Same (termsOfEntries second) := by
  constructor
  · intro agree first second perm perm'
    have mapped : (entries.map normalEntry).Perm (first.map normalEntry) :=
      (perm.map normalEntry).symm
    have mapped' : (entries.map normalEntry).Perm (second.map normalEntry) :=
      (perm'.map normalEntry).symm
    exact (Overrides.same_insertAll_of_perm agree mapped).symm.trans
      (Overrides.same_insertAll_of_perm agree mapped')
  · intro same
    rw [agree_iff]
    intro a mem b mem' word
    obtain ⟨front, ending⟩ := exists_perm_ending mem
    obtain ⟨front', ending'⟩ := exists_perm_ending mem'
    have found := same _ _ ending ending' (Term.normalize a.1.toList)
    rw [get?_termsOfEntries_ending, word, get?_termsOfEntries_ending] at found
    exact Option.some.inj found

/-- Options that differ in nothing but how the overriding terms are kept. -/
structure Alike
    (o o' : Options) :
    Prop where
  terms : o.terms.Same o'.terms
  others : { o with terms := Overrides.empty } = { o' with terms := Overrides.empty }

end Options

/-! ## Texts -/

namespace Asm

section Lookups

variable {terms terms' : Overrides String UInt8} {table : Opcode.Table}

/-- Words are looked up in overriding terms and in no other way. -/
theorem Lexicon.readTerm_of_same
    (same : terms.Same terms')
    (run : List Char)
    (position : Nat) :
    Lexicon.readTerm ⟨terms, table⟩ run position =
      Lexicon.readTerm ⟨terms', table⟩ run position := by
  simp only [Lexicon.readTerm, Lexicon.opcodeOf, same (Term.normalize run)]

theorem plainToken_of_same
    (same : terms.Same terms')
    (placeholders : Bool)
    (c : Cursor Char) :
    plainToken ⟨terms, table⟩ placeholders c = plainToken ⟨terms', table⟩ placeholders c := by
  simp only [plainToken, word, Lexicon.readTerm_of_same same]

theorem step_of_same
    (same : terms.Same terms')
    (placeholders : Bool)
    (c : Cursor Char) :
    step ⟨terms, table⟩ placeholders c = step ⟨terms', table⟩ placeholders c := by
  simp only [step, sizedLiteral, plainToken_of_same same]

end Lookups

/-- Under options that come to the same, every text is read the same way. -/
theorem decodeLocated_of_alike
    {o o' : Options}
    (alike : o.Alike o')
    (text : List Char)
    (table : Opcode.Table) :
    decodeLocated text o table = decodeLocated text o' table := by
  have others := congrArg Options.allowPlaceholders alike.others
  have allowed : o.allowPlaceholders = o'.allowPlaceholders := others
  have runs : (reader ⟨o.terms, table⟩ o.allowPlaceholders).run (Cursor.start text) =
      (reader ⟨o'.terms, table⟩ o.allowPlaceholders).run (Cursor.start text) :=
    Reader.run_congr (step_of_same alike.terms o.allowPlaceholders) (Cursor.start text)
  rw [decodeLocated, decodeLocated, scan, scan, runs, allowed]

end Asm
end ScriptCodec
