import Mathlib.Data.List.Forall2
import Mathlib.Data.List.TakeWhile
import ScriptCodec.Proofs.Asm.Shift
import ScriptCodec.Proofs.Asm.Step

/-!
# Texts joined by white space

A token that is read from the front of a text is also read when white space and more text follow:
none of the characters that end a token can be missing, and white space ends all others.

`step_extend` says so for one step and `run_join` for whole texts: the tokens of two texts that are
joined by a white space character are those of the first followed by those of the second.
-/

namespace ScriptCodec

variable {α : Type}

/-- A run of elements ends inside the first list, or where the second one starts. -/
def Stops
    (p : α → Bool)
    (xs ys : List α) : Prop :=
  xs.dropWhile p ≠ [] ∨ ∀ y ∈ ys.head?, p y = false

theorem takeWhile_append_of_stops
    {p : α → Bool}
    {xs ys : List α}
    (stops : Stops p xs ys) :
    (xs ++ ys).takeWhile p = xs.takeWhile p := by
  induction xs with
  | nil =>
      rcases stops with more | next
      · simp at more
      · cases ys with
        | nil =>
            rfl
        | cons y ys =>
            simp [next y rfl]
  | cons x xs ih =>
      by_cases hx : p x = true
      · have stops' : Stops p xs ys := by
          simpa [Stops, hx] using stops
        simp [hx, ih stops']
      · simp [hx]

theorem dropWhile_append_of_stops
    {p : α → Bool}
    {xs ys : List α}
    (stops : Stops p xs ys) :
    (xs ++ ys).dropWhile p = xs.dropWhile p ++ ys := by
  have all := List.takeWhile_append_dropWhile (p := p) (l := xs ++ ys)
  have part := List.takeWhile_append_dropWhile (p := p) (l := xs)
  rw [takeWhile_append_of_stops stops] at all
  have same : xs.takeWhile p ++ (xs ++ ys).dropWhile p =
      xs.takeWhile p ++ (xs.dropWhile p ++ ys) := by
    rw [all, ← List.append_assoc, part]
  exact List.append_cancel_left same

namespace Cursor

/-- The cursor with more elements behind its own. -/
def extend
    (tail : List α)
    (c : Cursor α) :
    Cursor α :=
  ⟨c.pos, c.rest ++ tail⟩

@[simp] theorem extend_pos
    (tail : List α)
    (c : Cursor α) :
    (c.extend tail).pos = c.pos := by
  rfl

@[simp] theorem extend_rest
    (tail : List α)
    (c : Cursor α) :
    (c.extend tail).rest = c.rest ++ tail := by
  rfl

theorem skipWhile_extend
    {p : α → Bool}
    {tail : List α}
    {c : Cursor α}
    (stops : Stops p c.rest tail) :
    (c.extend tail).skipWhile p = (c.skipWhile p).extend tail := by
  simp [skipWhile, extend, takeWhile_append_of_stops stops, dropWhile_append_of_stops stops]

theorem advance_extend
    {n : Nat}
    (tail : List α)
    {c : Cursor α}
    (enough : n ≤ c.rest.length) :
    (c.extend tail).advance n = (c.advance n).extend tail := by
  simp [advance, extend, List.drop_append_of_le_length enough]

end Cursor

namespace Asm

/-- A text that starts with white space, if it is not empty. -/
def Separates
    (tail : List Char) : Prop :=
  ∀ ch ∈ tail.head?, isSpace ch = true

theorem separates_cons
    {ch : Char}
    (space : isSpace ch = true)
    (tail : List Char) :
    Separates (ch :: tail) := by
  intro ch' first
  cases first
  exact space

section Extension

variable {tail : List Char}

/-! ## Tokens without a size header -/

theorem finishLiteral_extend
    {start : Nat}
    {digits : List Char}
    {c behind : Cursor Char}
    {t : Token}
    (read : finishLiteral start digits c = .ok (t, behind)) :
    finishLiteral start digits (c.extend tail) = .ok (t, behind.extend tail) := by
  unfold finishLiteral at read ⊢
  split at read
  · simp only [Except.ok.injEq, Prod.mk.injEq] at read
    obtain ⟨rfl, rfl⟩ := read
    rfl
  · simp at read

/-- A run up to white space ends where the text ends. -/
theorem stops_of_separates
    (separates : Separates tail)
    (xs : List Char) :
    Stops (fun ch => !isSpace ch) xs tail := by
  right
  intro ch first
  simp [separates ch first]

theorem bareLiteral_extend
    (separates : Separates tail)
    {start : Nat}
    {c behind : Cursor Char}
    {t : Token}
    (read : bareLiteral start c = .ok (t, behind)) :
    bareLiteral start (c.extend tail) = .ok (t, behind.extend tail) := by
  have stops := stops_of_separates separates c.rest
  simp only [bareLiteral] at read ⊢
  rw [Cursor.extend_rest, takeWhile_append_of_stops stops, Cursor.skipWhile_extend stops]
  split at read
  · simp at read
  · exact finishLiteral_extend read

theorem bracketLiteral_extend
    {start : Nat}
    {c behind : Cursor Char}
    {t : Token}
    (read : bracketLiteral start c = .ok (t, behind)) :
    bracketLiteral start (c.extend tail) = .ok (t, behind.extend tail) := by
  simp only [bracketLiteral] at read ⊢
  split at read
  · simp at read
  · next ch body stop =>
      have stops : Stops isBracketed c.rest tail := by
        left
        intro nothing
        simp [Cursor.skipWhile, nothing] at stop
      rw [Cursor.extend_rest, takeWhile_append_of_stops stops, Cursor.skipWhile_extend stops]
      rw [Cursor.extend_rest, stop, List.cons_append]
      split at read
      · next close =>
          have one : 1 ≤ (c.skipWhile isBracketed).rest.length := by
            simp [stop]
          simp only [close, if_true]
          rw [Cursor.advance_extend tail one]
          exact finishLiteral_extend read
      · simp at read

theorem placeholder_extend
    {start : Nat}
    {c behind : Cursor Char}
    {t : Token}
    (read : placeholder start c = .ok (t, behind)) :
    placeholder start (c.extend tail) = .ok (t, behind.extend tail) := by
  simp only [placeholder] at read ⊢
  split at read
  · simp at read
  · next ch body stop =>
      have stops : Stops (fun ch => ch != '>') c.rest tail := by
        left
        intro nothing
        simp [Cursor.skipWhile, nothing] at stop
      have one : 1 ≤ (c.skipWhile fun ch => ch != '>').rest.length := by
        simp [stop]
      simp only [Except.ok.injEq, Prod.mk.injEq] at read
      obtain ⟨rfl, rfl⟩ := read
      rw [Cursor.extend_rest, takeWhile_append_of_stops stops, Cursor.skipWhile_extend stops]
      rw [Cursor.extend_rest, stop, List.cons_append]
      rw [Cursor.advance_extend tail one]

theorem word_extend
    (separates : Separates tail)
    {lexicon : Lexicon}
    {c behind : Cursor Char}
    {t : Token}
    (read : word lexicon c = .ok (t, behind)) :
    word lexicon (c.extend tail) = .ok (t, behind.extend tail) := by
  have stops := stops_of_separates separates c.rest
  simp only [word] at read ⊢
  rw [Cursor.extend_rest, Cursor.extend_pos, takeWhile_append_of_stops stops,
    Cursor.skipWhile_extend stops]
  split at read
  · next code term =>
      simp only [Except.ok.injEq, Prod.mk.injEq] at read
      obtain ⟨rfl, rfl⟩ := read
      rfl
  · next e term =>
      split at read
      · next hex =>
          simp only [hex, if_true]
          exact bareLiteral_extend separates read
      · simp at read

theorem head?_append_hexMark
    (separates : Separates tail)
    (body : List Char) :
    ((body ++ tail).head? = some 'x' ∨ (body ++ tail).head? = some 'X') ↔
      (body.head? = some 'x' ∨ body.head? = some 'X') := by
  cases body with
  | nil =>
      have noMark : ∀ ch, isSpace ch = false → tail.head? ≠ some ch := by
        intro ch noSpace first
        have space := separates ch first
        simp [space] at noSpace
      simp [noMark 'x' rfl, noMark 'X' rfl]
  | cons ch body =>
      simp

theorem head?_append_all_isSpace
    (separates : Separates tail)
    (body : List Char) :
    (body ++ tail).head?.all isSpace = body.head?.all isSpace := by
  cases body with
  | nil =>
      cases first : tail.head? with
      | none =>
          simp [first]
      | some ch =>
          simp [first, separates ch first]
  | cons ch body =>
      simp

theorem plainToken_extend
    (separates : Separates tail)
    {lexicon : Lexicon}
    {placeholders : Bool}
    {c behind : Cursor Char}
    {t : Token}
    (read : plainToken lexicon placeholders c = .ok (t, behind)) :
    plainToken lexicon placeholders (c.extend tail) = .ok (t, behind.extend tail) := by
  unfold plainToken at read ⊢
  rw [Cursor.extend_rest]
  cases rest : c.rest with
  | nil =>
      simp [rest] at read
  | cons ch body =>
      rw [rest] at read
      have one : (c.extend tail).advance 1 = (c.advance 1).extend tail := by
        apply Cursor.advance_extend
        simp [rest]
      simp only [List.cons_append, one, Cursor.extend_pos, head?_append_hexMark separates,
        head?_append_all_isSpace separates] at read ⊢
      by_cases bracket : ch = '['
      · rw [if_pos bracket] at read ⊢
        exact bracketLiteral_extend read
      rw [if_neg bracket] at read ⊢
      by_cases opening : placeholders ∧ ch = '<'
      · rw [if_pos opening] at read ⊢
        exact placeholder_extend read
      rw [if_neg opening] at read ⊢
      by_cases dot : placeholders ∧ ch = '.'
      · rw [if_pos dot] at read ⊢
        split at read
        · next dots =>
            have two := two_le_length_of_take dots
            have three : 3 ≤ c.rest.length := by
              rw [rest, List.length_cons]
              omega
            simp only [Except.ok.injEq, Prod.mk.injEq] at read
            obtain ⟨rfl, rfl⟩ := read
            rw [if_pos (by rw [List.take_append_of_le_length two, dots]),
              Cursor.advance_extend tail three]
        · simp at read
      rw [if_neg dot] at read ⊢
      by_cases mark : ch = '0' ∧ (body.head? = some 'x' ∨ body.head? = some 'X')
      · rw [if_pos mark] at read ⊢
        have one := one_le_length_of_hexMark mark.2
        have two : 2 ≤ c.rest.length := by
          rw [rest, List.length_cons]
          omega
        rw [Cursor.advance_extend tail two]
        exact bareLiteral_extend separates read
      rw [if_neg mark] at read ⊢
      by_cases zero : ch = '0' ∧ body.head?.all isSpace = true
      · rw [if_pos zero] at read ⊢
        simp only [Except.ok.injEq, Prod.mk.injEq] at read ⊢
        obtain ⟨rfl, rfl⟩ := read
        exact ⟨rfl, rfl⟩
      rw [if_neg zero] at read ⊢
      by_cases term : isTermChar ch = true
      · rw [if_pos term] at read ⊢
        exact word_extend separates read
      · rw [if_neg term] at read
        simp at read

/-! ## Size headers -/

theorem header_extend
    {c behind : Cursor Char}
    {h : Header}
    (read : header c = .ok (h, behind)) :
    header (c.extend tail) = .ok (h, behind.extend tail) := by
  have long := Nat.le_of_lt (length_lt_of_header read)
  simp only [header] at read ⊢
  rw [Cursor.advance_extend tail long]
  split at read
  · simp at read
  · next ch body stop =>
      have stops : Stops Char.isDigit (c.advance headerMark.length).rest tail := by
        left
        intro nothing
        simp [Cursor.skipWhile, nothing] at stop
      have one :
          1 ≤ ((c.advance headerMark.length).skipWhile Char.isDigit).rest.length := by
        simp [stop]
      rw [Cursor.extend_rest, takeWhile_append_of_stops stops, Cursor.skipWhile_extend stops,
        Cursor.extend_rest, stop, List.cons_append, Cursor.advance_extend tail one]
      split at read
      · next close =>
          simp only [close, if_true]
          split at read
          · simp only [Except.ok.injEq, Prod.mk.injEq] at read
            obtain ⟨rfl, rfl⟩ := read
            rfl
          · simp at read
      · simp at read

/-- A mark without white space does not start in one text and end in the next one. -/
theorem isPrefixOf_append
    (separates : Separates tail)
    {mark : List Char}
    (dense : ∀ ch ∈ mark, isSpace ch = false)
    (xs : List Char) :
    mark.isPrefixOf (xs ++ tail) = mark.isPrefixOf xs := by
  induction mark generalizing xs with
  | nil =>
      simp
  | cons ch mark ih =>
      cases xs with
      | nil =>
          cases first : tail with
          | nil =>
              rfl
          | cons ch' tail' =>
              have space : isSpace ch' = true :=
                separates ch' (by simp [first])
              have other : ch ≠ ch' := by
                rintro rfl
                simp [space] at dense
              simp [List.isPrefixOf, other]
      | cons x xs =>
          have rest := ih (fun ch' mem => dense ch' (List.mem_cons_of_mem _ mem)) xs
          simp only [List.cons_append, List.isPrefixOf, rest]

theorem isSpace_of_mem_headerMark :
    ∀ ch ∈ headerMark, isSpace ch = false := by
  have dense : headerMark.all (fun ch => !isSpace ch) = true := by
    decide
  simpa using dense

theorem skipWhile_isSpace_extend
    {c : Cursor Char}
    (more : (c.skipWhile isSpace).rest ≠ []) :
    (c.extend tail).skipWhile isSpace = (c.skipWhile isSpace).extend tail :=
  Cursor.skipWhile_extend (.inl more)

/-- A size header starts in front of more text exactly if it starts without it. -/
theorem headerMark_isPrefixOf_extend
    (separates : Separates tail)
    {c : Cursor Char}
    (more : (c.skipWhile isSpace).rest ≠ []) :
    headerMark.isPrefixOf ((c.extend tail).skipWhile isSpace).rest =
      headerMark.isPrefixOf (c.skipWhile isSpace).rest := by
  rw [skipWhile_isSpace_extend more, Cursor.extend_rest,
    isPrefixOf_append separates isSpace_of_mem_headerMark]

theorem headers_extend
    (separates : Separates tail)
    {outer hs : List Header}
    {c here : Cursor Char}
    (more : here.rest ≠ [])
    (read : headers outer c = .ok (hs, here)) :
    headers outer (c.extend tail) = .ok (hs, here.extend tail) := by
  fun_induction headers outer c with
  | case1 =>
      simp at read
  | case2 outer c next mark h behind first ih =>
      have more : next.rest ≠ [] := by
        intro nothing
        rw [nothing] at mark
        exact absurd mark (by decide)
      have skip : (c.extend tail).skipWhile isSpace = next.extend tail :=
        skipWhile_isSpace_extend more
      have mark' : headerMark.isPrefixOf ((c.extend tail).skipWhile isSpace).rest = true := by
        rw [headerMark_isPrefixOf_extend separates more]
        exact mark
      rw [headers_of_ok mark' (by rw [skip]; exact header_extend first)]
      exact ih read
  | case3 outer c next noMark =>
      simp only [Except.ok.injEq, Prod.mk.injEq] at read
      obtain ⟨rfl, rfl⟩ := read
      have skip : (c.extend tail).skipWhile isSpace = next.extend tail :=
        skipWhile_isSpace_extend more
      have noMark' : headerMark.isPrefixOf ((c.extend tail).skipWhile isSpace).rest = false := by
        rw [headerMark_isPrefixOf_extend separates more]
        exact eq_false_of_ne_true noMark
      rw [headers_of_no_mark noMark', skip]

/-! ## Steps and runs -/

/-- A step that finds a token finds it also when white space and more text follow. -/
theorem step_extend
    (separates : Separates tail)
    {lexicon : Lexicon}
    {placeholders : Bool}
    {c behind : Cursor Char}
    {s : Located}
    (found : step lexicon placeholders c = .item s behind) :
    step lexicon placeholders (c.extend tail) = .item s (behind.extend tail) := by
  rcases step_item_cases found with
    ⟨here, t, skipped, read, rfl⟩ | ⟨here, inner, outer, data, start, skipped, read, sizes, rfl⟩
  · exact step_of_plain
      (headers_extend separates (rest_ne_nil_of_plainToken read) skipped)
      (plainToken_extend separates read)
  · exact step_of_sized
      (headers_extend separates (rest_ne_nil_of_plainToken read) skipped)
      (plainToken_extend separates read) sizes

end Extension

/-- A step goes by what is left behind the white space in front. -/
theorem step_eq_of_skipWhile_eq
    (lexicon : Lexicon)
    (placeholders : Bool)
    {c d : Cursor Char}
    (same : c.skipWhile isSpace = d.skipWhile isSpace) :
    step lexicon placeholders c = step lexicon placeholders d := by
  have headers_eq : headers [] c = headers [] d := by
    rw [headers, headers, same]
  unfold step
  rw [headers_eq]

theorem skipWhile_append_of_all
    {p : Char → Bool}
    {xs : List Char}
    (all : ∀ x ∈ xs, p x = true)
    (pos : Nat)
    (ys : List Char) :
    (Cursor.mk pos (xs ++ ys)).skipWhile p =
      (Cursor.mk (pos + xs.length) ys).skipWhile p := by
  simp [Cursor.skipWhile, List.takeWhile_append_of_pos all, List.dropWhile_append_of_pos all,
    Nat.add_assoc]

/-- The tokens of two texts that are joined by white space are those of the first followed by
those of the second. -/
theorem run_join
    (lexicon : Lexicon)
    (placeholders : Bool)
    {ch : Char}
    (space : isSpace ch = true)
    (tail : List Char)
    {c : Cursor Char}
    {items : List Located}
    (read : (reader lexicon placeholders).run c = ⟨items, none⟩) :
    (reader lexicon placeholders).run (c.extend (ch :: tail)) =
      ⟨items ++ ((reader lexicon placeholders).run ⟨c.pos + c.rest.length + 1, tail⟩).items,
        ((reader lexicon placeholders).run ⟨c.pos + c.rest.length + 1, tail⟩).fault⟩ := by
  induction c using (reader lexicon placeholders).step_induction generalizing items with
  | _ c ih =>
      cases found : (reader lexicon placeholders).step c with
      | done =>
          rw [Reader.run_of_done found] at read
          cases read
          have blank : ∀ x ∈ c.rest, isSpace x = true :=
            List.dropWhile_eq_nil_iff.mp (step_done_iff.mp found)
          have blank' : ∀ x ∈ c.rest ++ [ch], isSpace x = true := by
            intro x mem
            rcases List.mem_append.mp mem with mem | mem
            · exact blank x mem
            · rw [List.mem_singleton.mp mem]
              exact space
          have skip := skipWhile_append_of_all blank' c.pos tail
          rw [List.append_assoc, List.length_append, ← Nat.add_assoc] at skip
          have same : (reader lexicon placeholders).step (c.extend (ch :: tail)) =
              (reader lexicon placeholders).step ⟨c.pos + c.rest.length + 1, tail⟩ :=
            step_eq_of_skipWhile_eq lexicon placeholders skip
          rw [Reader.run_eq_of_step_eq same]
          rfl
      | fault e =>
          rw [Reader.run_of_fault found] at read
          cases read
      | item s behind =>
          have end_eq := (step_reaches found).end_eq
          have found' : (reader lexicon placeholders).step (c.extend (ch :: tail)) =
              .item s (behind.extend (ch :: tail)) :=
            step_extend (separates_cons space tail) found
          obtain ⟨later, rfl, rest⟩ := (Reader.run_eq_iff_of_item found).mp read
          rw [Reader.run_of_item found', ih s behind found rest, end_eq]
          rfl

/-! ## Whole texts -/

/-- Reading a text succeeds with the tokens of a run that reaches the end. -/
theorem decode_eq_ok_iff
    {text : List Char}
    {options : Options}
    {table : Opcode.Table}
    {ts : List Token} :
    decode text options table = .ok ts ↔
      ∃ located,
        (reader ⟨options.terms, table⟩ options.allowPlaceholders).run (Cursor.start text) =
          ⟨located, none⟩ ∧
        tokensOf located = ts :=
  Run.map_toExcept_eq_ok_iff

theorem tokensOf_shift
    (k : Nat)
    (located : List Located) :
    tokensOf (located.map (Located.shift k)) = tokensOf located := by
  simp [tokensOf, Located.shift]

/-- Two texts joined by white space are read one after the other. -/
theorem decode_join
    {options : Options}
    {table : Opcode.Table}
    {ch : Char}
    (space : isSpace ch = true)
    {front back : List Char}
    {ts us : List Token}
    (first : decode front options table = .ok ts)
    (second : decode back options table = .ok us) :
    decode (front ++ ch :: back) options table = .ok (ts ++ us) := by
  obtain ⟨located, run, rfl⟩ := decode_eq_ok_iff.mp first
  obtain ⟨located', run', rfl⟩ := decode_eq_ok_iff.mp second
  have joined := run_join _ _ space back run
  have moved := run_shift (front.length + 1) ⟨options.terms, table⟩ options.allowPlaceholders
    (Cursor.start back)
  have place : (Cursor.start back).shift (front.length + 1) =
      ⟨(Cursor.start front).pos + (Cursor.start front).rest.length + 1, back⟩ := by
    simp [Cursor.start, Cursor.shift]
  rw [run', place] at moved
  rw [moved] at joined
  refine decode_eq_ok_iff.mpr ⟨_, joined, ?_⟩
  simp only [Run.map, tokensOf, List.map_append]
  exact congrArg (tokensOf located ++ ·) (tokensOf_shift _ located')

/-- Texts of single tokens that are joined by spaces are read as these tokens. -/
theorem decode_intercalate
    {options : Options}
    {table : Opcode.Table}
    {texts : List String}
    {ts : List Token}
    (each : List.Forall₂ (fun text t => decode text.toList options table = .ok [t]) texts ts) :
    decode (String.intercalate " " texts).toList options table = .ok ts := by
  induction each with
  | nil =>
      have finished :
          (reader ⟨options.terms, table⟩ options.allowPlaceholders).step (Cursor.start []) =
            .done :=
        step_done_iff.mpr rfl
      exact decode_eq_ok_iff.mpr ⟨[], Reader.run_of_done finished, rfl⟩
  | @cons text t texts ts first others ih =>
      cases others with
      | nil =>
          simpa using first
      | @cons text' t' texts ts second others =>
          rw [String.intercalate_cons_cons, String.toList_append, String.toList_append,
            List.append_assoc]
          have space : isSpace ' ' = true := by
            rfl
          exact decode_join space first ih

end Asm
end ScriptCodec
