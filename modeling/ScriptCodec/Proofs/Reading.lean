import ScriptCodec.Scan

/-!
# Runs of readers

A run is known once its steps are known.  This module has the induction along the steps of a
reader and its consequences:

* `forall_items` carries an invariant of the state to all items of a run;
* `run_map` says that two readers whose steps correspond have corresponding runs, with
  `run_map_of_invariant` for steps that correspond in some states only, and `run_congr` that readers
  with the same steps have the same runs;
* `run_complete_iff` compares two readers in lock-step, of which one finds less than the other;
* `run_eq_of_step_eq` says that a run depends on its state through the first step only;
* `length_items_le` and `runWithin_step_eq` bound the items and the steps of a run by the size of the
  input.
-/

namespace ScriptCodec

variable {σ τ α β ε δ : Type}

/-- A step seen through maps of states, items and faults. -/
def Step.map
    (f : σ → τ)
    (g : α → β)
    (h : ε → δ) :
    Step σ α ε → Step τ β δ
  | .done => .done
  | .fault e => .fault (h e)
  | .item a r => .item (g a) (f r)

/-- A run seen through maps of items and faults. -/
def Run.map
    (g : α → β)
    (h : ε → δ)
    (run : Run α ε) :
    Run β δ :=
  ⟨run.items.map g, run.fault.map h⟩

/-- A run reached the end iff its items are all there is to read. -/
theorem Run.toExcept_eq_ok_iff
    {run : Run α ε}
    {items : List α} :
    run.toExcept = .ok items ↔ run = ⟨items, none⟩ := by
  rcases run with ⟨read, fault⟩
  cases fault with
  | none =>
      simp [Run.toExcept]
  | some e =>
      simp [Run.toExcept]

/-- A run ended early iff its fault is the result. -/
theorem Run.toExcept_eq_error_iff
    {run : Run α ε}
    {e : ε} :
    run.toExcept = .error e ↔ run.fault = some e := by
  rcases run with ⟨read, fault⟩
  cases fault with
  | none =>
      simp [Run.toExcept]
  | some e =>
      simp [Run.toExcept]

/-- The result of a run comes from all its items, if it reached the end. -/
theorem Run.map_toExcept_eq_ok_iff
    {run : Run α ε}
    {result : List α → β}
    {b : β} :
    run.toExcept.map result = .ok b ↔ ∃ items, run = ⟨items, none⟩ ∧ result items = b := by
  constructor
  · intro read
    cases ended : run.toExcept with
    | error e =>
        rw [ended] at read
        cases read
    | ok items =>
        rw [ended] at read
        exact ⟨items, Run.toExcept_eq_ok_iff.mp ended, Except.ok.inj read⟩
  · rintro ⟨items, rfl, rfl⟩
    rfl

namespace Reader

/-- What holds of a state whenever it holds of the state behind the next item holds of all
states. -/
theorem step_induction
    (reader : Reader σ α ε)
    {motive : σ → Prop}
    (next : ∀ s, (∀ a r, reader.step s = .item a r → motive r) → motive s)
    (s : σ) :
    motive s := by
  have general : ∀ n s, reader.size s = n → motive s := by
    intro n
    induction n using Nat.strongRecOn with
    | _ n ih =>
        intro s size
        apply next
        intro a r step
        have smaller : reader.size r < n := by
          rw [← size]
          exact reader.shrinks step
        exact ih _ smaller r rfl
  exact general _ s rfl

/-- An invariant that every step keeps, and under which every step gives items with a property,
makes all items of a run have that property. -/
theorem forall_items
    (reader : Reader σ α ε)
    {invariant : σ → Prop}
    {property : α → Prop}
    (keeps : ∀ {s a r}, invariant s → reader.step s = .item a r → property a ∧ invariant r)
    (s : σ)
    (holds : invariant s) :
    ∀ a ∈ (reader.run s).items, property a := by
  induction s using reader.step_induction with
  | _ s ih =>
      cases step : reader.step s with
      | done =>
          rw [run_of_done step]
          simp
      | fault e =>
          rw [run_of_fault step]
          simp
      | item a r =>
          obtain ⟨first, behind⟩ := keeps holds step
          rw [run_of_item step]
          intro b mem
          rcases List.mem_cons.mp mem with rfl | mem
          · exact first
          · exact ih a r step behind b mem

/-- Readers whose steps correspond as long as an invariant holds have corresponding runs. -/
theorem run_map_of_invariant
    {reader : Reader σ α ε}
    {other : Reader τ β δ}
    {f : σ → τ}
    {g : α → β}
    {h : ε → δ}
    {invariant : σ → Prop}
    (keeps : ∀ s a r, invariant s → reader.step s = .item a r → invariant r)
    (steps : ∀ s, invariant s → other.step (f s) = (reader.step s).map f g h)
    (s : σ)
    (holds : invariant s) :
    other.run (f s) = (reader.run s).map g h := by
  induction s using reader.step_induction with
  | _ s ih =>
      have image := steps s holds
      cases step : reader.step s with
      | done =>
          rw [step] at image
          rw [run_of_done image, run_of_done step]
          rfl
      | fault e =>
          rw [step] at image
          rw [run_of_fault image, run_of_fault step]
          rfl
      | item a r =>
          rw [step] at image
          rw [run_of_item image, run_of_item step, ih a r step (keeps s a r holds step)]
          rfl

/-- Readers whose steps correspond have corresponding runs. -/
theorem run_map
    {reader : Reader σ α ε}
    {other : Reader τ β δ}
    {f : σ → τ}
    {g : α → β}
    {h : ε → δ}
    (steps : ∀ s, other.step (f s) = (reader.step s).map f g h)
    (s : σ) :
    other.run (f s) = (reader.run s).map g h :=
  run_map_of_invariant (fun _ _ _ _ _ => trivial) (fun s _ => steps s) s trivial

/-- Readers with the same steps have the same runs. -/
theorem run_congr
    {reader other : Reader σ α ε}
    (steps : ∀ s, other.step s = reader.step s)
    (s : σ) :
    other.run s = reader.run s := by
  have images : ∀ s, other.step (id s) = (reader.step s).map id id id := by
    intro s
    rw [id, steps s]
    cases reader.step s with
    | _ =>
        rfl
  have same := run_map images s
  simpa [Run.map] using same

/-- A run from an item on is the item, and the run behind it. -/
theorem run_eq_iff_of_item
    {reader : Reader σ α ε}
    {s r : σ}
    {a : α}
    (step : reader.step s = .item a r)
    {items : List α}
    {fault : Option ε} :
    reader.run s = ⟨items, fault⟩ ↔
      ∃ later, items = a :: later ∧ reader.run r = ⟨later, fault⟩ := by
  rw [run_of_item step]
  constructor
  · intro read
    rw [Run.mk.injEq] at read
    refine ⟨(reader.run r).items, read.1.symm, ?_⟩
    rw [← read.2]
  · rintro ⟨later, rfl, read⟩
    rw [read]

/-- Let two readers end in the same states, and let the first find the items of the second that
have a property.  Then the first reads to the end what the second reads to the end as items with
that property. -/
theorem run_complete_iff
    {reader other : Reader σ α ε}
    {property : α → Prop}
    (ends : ∀ s, reader.step s = .done ↔ other.step s = .done)
    (finds : ∀ s a r, reader.step s = .item a r ↔ other.step s = .item a r ∧ property a)
    (s : σ)
    {items : List α} :
    reader.run s = ⟨items, none⟩ ↔
      other.run s = ⟨items, none⟩ ∧ ∀ a ∈ items, property a := by
  induction s using reader.step_induction generalizing items with
  | _ s ih =>
      cases step : reader.step s with
      | done =>
          rw [run_of_done step, run_of_done ((ends s).mp step)]
          constructor
          · intro same
            cases same
            exact ⟨rfl, by simp⟩
          · exact And.left
      | fault e =>
          rw [run_of_fault step]
          constructor
          · intro same
            cases same
          · rintro ⟨read, all⟩
            cases found : other.step s with
            | done =>
                rw [(ends s).mpr found] at step
                cases step
            | fault e' =>
                rw [run_of_fault found] at read
                cases read
            | item a r =>
                rw [run_of_item found, Run.mk.injEq] at read
                have first : property a := by
                  apply all
                  rw [← read.1]
                  exact List.mem_cons_self ..
                rw [(finds s a r).mpr ⟨found, first⟩] at step
                cases step
      | item a r =>
          obtain ⟨found, first⟩ := (finds s a r).mp step
          rw [run_eq_iff_of_item step, run_eq_iff_of_item found]
          constructor
          · rintro ⟨later, rfl, read⟩
            obtain ⟨read, all⟩ := (ih a r step).mp read
            exact ⟨⟨later, rfl, read⟩, List.forall_mem_cons.mpr ⟨first, all⟩⟩
          · rintro ⟨⟨later, rfl, read⟩, all⟩
            exact ⟨later, rfl, (ih a r step).mpr ⟨read, (List.forall_mem_cons.mp all).2⟩⟩

/-- States with the same first step have the same run. -/
theorem run_eq_of_step_eq
    {reader : Reader σ α ε}
    {s t : σ}
    (same : reader.step s = reader.step t) :
    reader.run s = reader.run t := by
  cases step : reader.step t with
  | done =>
      rw [run_of_done (same.trans step), run_of_done step]
  | fault e =>
      rw [run_of_fault (same.trans step), run_of_fault step]
  | item a r =>
      rw [run_of_item (same.trans step), run_of_item step]

/-- Every item of a run takes something from the input. -/
theorem length_items_le
    (reader : Reader σ α ε)
    (s : σ) :
    (reader.run s).items.length ≤ reader.size s := by
  induction s using reader.step_induction with
  | _ s ih =>
      cases step : reader.step s with
      | done =>
          rw [run_of_done step]
          exact Nat.zero_le _
      | fault e =>
          rw [run_of_fault step]
          exact Nat.zero_le _
      | item a r =>
          have behind := ih a r step
          have shorter := reader.shrinks step
          rw [run_of_item step, List.length_cons]
          omega

end Reader

/-- Reads items with at most `n` steps, or gives up. -/
def runWithin
    (step : σ → Step σ α ε) :
    (n : Nat) → σ → Option (Run α ε)
  | 0, _ => none
  | n + 1, s =>
      match step s with
      | .done => some ⟨[], none⟩
      | .fault e => some ⟨[], some e⟩
      | .item a r => (runWithin step n r).map fun run => ⟨a :: run.items, run.fault⟩

/-- A run needs a step for each item and one more, so the size of the input bounds them. -/
theorem Reader.runWithin_step_eq
    (reader : Reader σ α ε)
    {n : Nat}
    {s : σ}
    (enough : reader.size s < n) :
    runWithin reader.step n s = some (reader.run s) := by
  induction n generalizing s with
  | zero =>
      omega
  | succ n ih =>
      rw [runWithin]
      cases step : reader.step s with
      | done =>
          rw [run_of_done step]
      | fault e =>
          rw [run_of_fault step]
      | item a r =>
          have shorter := reader.shrinks step
          have behind : reader.size r < n := by
            omega
          rw [run_of_item step]
          dsimp only
          rw [ih behind]
          rfl

end ScriptCodec
