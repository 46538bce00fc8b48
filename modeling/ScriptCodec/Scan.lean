/-!
# Reading an input item by item

A `Reader` is a step function on what is left of an input, together with the proof that a step
which returns an item leaves less behind.  `Reader.run` repeats the step until the input ends or
a step fails, and keeps the items that were read before the failure.

The equations `run_of_done`, `run_of_fault` and `run_of_item` describe a run by its first step.
-/

namespace ScriptCodec

/-- The part of an input that is still to be read, with the offset at which it starts. -/
structure Cursor (α : Type) where
  /-- Offset of the first remaining element -/
  pos : Nat
  /-- The remaining elements -/
  rest : List α
deriving DecidableEq, Repr

namespace Cursor

variable {α : Type}

/-- The cursor in front of a whole input. -/
def start (xs : List α) : Cursor α :=
  ⟨0, xs⟩

/-- Moves over `n` elements. -/
def advance (n : Nat) (c : Cursor α) : Cursor α :=
  ⟨c.pos + n, c.rest.drop n⟩

/-- Moves over the longest run of elements that satisfy `p`. -/
def skipWhile (p : α → Bool) (c : Cursor α) : Cursor α :=
  ⟨c.pos + (c.rest.takeWhile p).length, c.rest.dropWhile p⟩

theorem length_rest_skipWhile_le
    (p : α → Bool)
    (c : Cursor α) :
    (c.skipWhile p).rest.length ≤ c.rest.length := by
  have h := congrArg List.length (List.takeWhile_append_dropWhile (p := p) (l := c.rest))
  simp only [List.length_append] at h
  simp only [skipWhile]
  omega

theorem length_rest_advance
    (n : Nat)
    (c : Cursor α) :
    (c.advance n).rest.length = c.rest.length - n := by
  simp [advance]

/-- Moving over elements takes at least the first one if that satisfies the condition. -/
theorem length_rest_skipWhile_lt
    {p : α → Bool}
    {c : Cursor α}
    {a : α}
    {as : List α}
    (hc : c.rest = a :: as)
    (ha : p a = true) :
    (c.skipWhile p).rest.length < c.rest.length := by
  have h := congrArg List.length (List.takeWhile_append_dropWhile (p := p) (l := c.rest))
  simp only [List.length_append] at h
  rw [hc] at h
  simp only [skipWhile, hc]
  simp only [List.takeWhile_cons, ha, if_true, List.length_cons] at h ⊢
  omega

end Cursor

/-- What one step of reading finds: the end, a failure, or an item and what follows it. -/
inductive Step (σ α ε : Type) where
  | done
  | fault (error : ε)
  | item (value : α) (rest : σ)

/-- The items that were read, and the failure that ended the reading, if any. -/
structure Run (α ε : Type) where
  /-- The items, in the order they were read -/
  items : List α
  /-- Why reading stopped before the end of the input -/
  fault : Option ε
deriving Repr

/-- All the items of a run that reached the end, or its failure. -/
def Run.toExcept {α ε : Type} (r : Run α ε) : Except ε (List α) :=
  match r.fault with
  | none => .ok r.items
  | some e => .error e

/-- A step function under which the remaining input shrinks. -/
structure Reader (σ α ε : Type) where
  /-- Reads one item from the front -/
  step : σ → Step σ α ε
  /-- How much input is left -/
  size : σ → Nat
  /-- An item takes something from the input -/
  shrinks : ∀ {s a r}, step s = .item a r → size r < size s

namespace Reader

variable {σ α ε : Type}

/-- Reads on from `s` with `read` already read, latest first. -/
def runOnto (reader : Reader σ α ε) (read : List α) (s : σ) : Run α ε :=
  match _h : reader.step s with
  | .done => ⟨read.reverse, none⟩
  | .fault e => ⟨read.reverse, some e⟩
  | .item a r => runOnto reader (a :: read) r
termination_by reader.size s
decreasing_by exact reader.shrinks _h

/-- Reads items until the input ends or a step fails. -/
def run (reader : Reader σ α ε) (s : σ) : Run α ε :=
  reader.runOnto [] s

/-- What was read before stays in front of what is read next. -/
theorem runOnto_eq
    (reader : Reader σ α ε)
    (read : List α)
    (s : σ) :
    reader.runOnto read s =
      ⟨read.reverse ++ (reader.run s).items, (reader.run s).fault⟩ := by
  have general : ∀ (n : Nat) (s : σ), reader.size s = n → ∀ read : List α,
      reader.runOnto read s =
        ⟨read.reverse ++ (reader.run s).items, (reader.run s).fault⟩ := by
    intro n
    induction n using Nat.strongRecOn with
    | _ n ih =>
      intro s hs read
      unfold run
      unfold runOnto
      split
      · simp
      · simp
      · next a r h =>
        have hr : reader.size r < n := hs ▸ reader.shrinks h
        rw [ih _ hr r rfl (a :: read), ih _ hr r rfl [a]]
        simp
  exact general _ s rfl read

theorem run_of_done
    {reader : Reader σ α ε}
    {s : σ}
    (h : reader.step s = .done) :
    reader.run s = ⟨[], none⟩ := by
  unfold run runOnto
  split <;> simp_all

theorem run_of_fault
    {reader : Reader σ α ε}
    {s : σ}
    {e : ε}
    (h : reader.step s = .fault e) :
    reader.run s = ⟨[], some e⟩ := by
  unfold run runOnto
  split <;> simp_all

theorem run_of_item
    {reader : Reader σ α ε}
    {s r : σ}
    {a : α}
    (h : reader.step s = .item a r) :
    reader.run s = ⟨a :: (reader.run r).items, (reader.run r).fault⟩ := by
  have first : reader.run s = reader.runOnto [a] r := by
    conv => lhs; unfold run runOnto
    split <;> simp_all
  rw [first, runOnto_eq]
  simp

end Reader

end ScriptCodec
