/-!
# Overrides

A finite map from keys to values, kept as pairs.  Inserting a key replaces the value it had.
-/

namespace ScriptCodec

/-- Pairs of keys and values, the latest insertion first. -/
structure Overrides (κ β : Type) where
  entries : List (κ × β)
deriving DecidableEq, Repr

namespace Overrides

variable {κ β : Type} [DecidableEq κ]

/-- No overrides. -/
def empty : Overrides κ β :=
  ⟨[]⟩

/-- The value of a key. -/
def get? (m : Overrides κ β) (k : κ) : Option β :=
  (m.entries.find? fun entry => entry.1 = k).map Prod.snd

/-- Sets the value of a key. -/
def insert (m : Overrides κ β) (k : κ) (v : β) : Overrides κ β :=
  ⟨(k, v) :: m.entries.filter fun entry => entry.1 ≠ k⟩

/-- Sets the values of keys one after the other. -/
def insertAll (m : Overrides κ β) (entries : List (κ × β)) : Overrides κ β :=
  entries.foldl (fun m entry => m.insert entry.1 entry.2) m

@[simp] theorem get?_empty
    (k : κ) :
    (empty : Overrides κ β).get? k = none := rfl

/-- After an insertion the key has the new value and all other keys have their old ones. -/
@[simp] theorem get?_insert
    (m : Overrides κ β)
    (k j : κ)
    (v : β) :
    (m.insert k v).get? j = if j = k then some v else m.get? j := by
  have others : ∀ entries : List (κ × β), j ≠ k →
      (entries.filter fun entry => entry.1 ≠ k).find? (fun entry => entry.1 = j) =
        entries.find? fun entry => entry.1 = j := by
    intro entries h
    induction entries with
    | nil => rfl
    | cons entry rest ih =>
      by_cases hk : entry.1 = k
      · have hj : ¬ entry.1 = j := fun e => h (e.symm.trans hk)
        have hj' : ¬ k = j := fun e => h e.symm
        simpa [hk, hj'] using ih
      · by_cases hj : entry.1 = j
        · simp [hj, h]
        · simpa [hk, hj] using ih
  by_cases h : j = k
  · simp [get?, insert, h]
  · have h' : ¬ k = j := fun e => h e.symm
    have rest := others m.entries h
    simp only [get?, insert, h]
    rw [List.find?_cons_of_neg (by simpa using h'), rest]
    simp

end Overrides
end ScriptCodec
