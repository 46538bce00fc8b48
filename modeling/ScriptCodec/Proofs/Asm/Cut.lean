import ScriptCodec.Proofs.Asm.Join

/-!
# Texts cut behind a token

The characters behind a token have no part in reading it, whatever they are: if a text is cut where
a token ends, the same token is read from what is left.  Tokens need not be kept apart by white
space for this, since a closing bracket ends a literal as well.

`step_of_extend` says so for one step, and is the converse of `step_extend`.  `run_cut` cuts a text
in front of the token that could not be read: what stands before it is a text of its own, which is
read to its end.
-/

namespace ScriptCodec

namespace Cursor

variable {α : Type} {tail : List α}

theorem extend_inj
    (tail : List α)
    {c d : Cursor α}
    (same : c.extend tail = d.extend tail) :
    c = d := by
  simp only [extend, mk.injEq, List.append_left_inj] at same
  obtain ⟨pos, rest⟩ := same
  cases c
  cases d
  simp_all

/-- What is reached in front of some elements is reached without them. -/
theorem Reaches.of_extend
    {c d : Cursor α}
    (reaches : (c.extend tail).Reaches (d.extend tail)) :
    c.Reaches d := by
  obtain ⟨taken, rest, pos⟩ := reaches
  refine ⟨taken, ?_, pos⟩
  rw [extend_rest, extend_rest, ← List.append_assoc] at rest
  exact List.append_cancel_right rest

/-- A cursor from which elements in front of `tail` are reached stands in front of `tail`. -/
theorem Reaches.exists_extend
    {c d : Cursor α}
    (reaches : c.Reaches (d.extend tail)) :
    ∃ front : Cursor α, c = front.extend tail ∧ front.Reaches d := by
  have moved := reaches
  obtain ⟨taken, rest, pos⟩ := moved
  have split : c = (Cursor.mk c.pos (taken ++ d.rest)).extend tail := by
    rw [extend, List.append_assoc, ← extend_rest tail d, ← rest]
  rw [split] at reaches
  exact ⟨_, split, reaches.of_extend⟩

/-- A run of elements that ends in front of `tail` ends there without `tail`. -/
theorem skipWhile_of_extend
    {p : α → Bool}
    {c d : Cursor α}
    (skipped : (c.extend tail).skipWhile p = d.extend tail) :
    Stops p c.rest tail ∧ c.skipWhile p = d := by
  have stops : Stops p c.rest tail := by
    by_cases inside : c.rest.dropWhile p = []
    · right
      have behind : tail.dropWhile p = d.rest ++ tail := by
        rw [← List.dropWhile_append_of_pos (List.dropWhile_eq_nil_iff.mp inside)]
        exact congrArg Cursor.rest skipped
      have nothing : d.rest = [] := by
        have shorter := (List.dropWhile_sublist p (l := tail)).length_le
        rw [behind, List.length_append] at shorter
        exact List.length_eq_zero_iff.mp (by omega)
      rw [nothing, List.nil_append] at behind
      intro y first
      have stopped := List.head?_dropWhile_not p tail
      rw [behind, first] at stopped
      simpa using stopped
    · exact .inl inside
  refine ⟨stops, extend_inj tail ?_⟩
  rw [← skipWhile_extend stops, skipped]

theorem skipWhile_skipWhile
    (p : α → Bool)
    (c : Cursor α) :
    (c.skipWhile p).skipWhile p = c.skipWhile p := by
  have stopped : (c.rest.dropWhile p).takeWhile p = [] := by
    apply List.takeWhile_eq_nil_iff.mpr
    intro more
    exact List.dropWhile_get_zero_not p c.rest more
  have dropped : (c.rest.dropWhile p).dropWhile p = c.rest.dropWhile p := by
    simpa [stopped] using List.takeWhile_append_dropWhile (p := p) (l := c.rest.dropWhile p)
  simp only [skipWhile, stopped, dropped, List.length_nil, Nat.add_zero]

theorem Reaches.refl
    (c : Cursor α) :
    c.Reaches c :=
  ⟨[], rfl, rfl⟩

/-- Elements that are moved over in front of `tail` are no part of it. -/
theorem le_length_of_advance
    (tail : List α)
    {n : Nat}
    {c d : Cursor α}
    (enough : n ≤ (c.rest ++ tail).length)
    (reaches : ((c.extend tail).advance n).Reaches (d.extend tail)) :
    n ≤ c.rest.length := by
  obtain ⟨taken, rest, pos⟩ := reaches
  have size := congrArg List.length rest
  simp only [advance, extend, List.length_drop, List.length_append] at size enough
  omega

/-- One element that is taken in front of `tail` is no part of it. -/
theorem exists_of_advance_one
    {c d : Cursor α}
    {a : α}
    {as : List α}
    (rest : c.rest = a :: as)
    (moved : c.advance 1 = d.extend tail) :
    ∃ front : Cursor α,
      c = front.extend tail ∧ front.rest = a :: d.rest ∧ front.advance 1 = d := by
  have behind := congrArg Cursor.rest moved
  have pos := congrArg Cursor.pos moved
  simp only [advance, rest, List.drop_succ_cons, List.drop_zero, extend] at behind pos
  refine ⟨⟨c.pos, a :: d.rest⟩, ?_, rfl, ?_⟩
  · rw [extend, List.cons_append, ← behind, ← rest]
  · simp only [advance, List.drop_succ_cons, List.drop_zero, pos]

end Cursor

namespace Asm

section Pieces

variable
  {tail : List Char}
  {lexicon : Lexicon}
  {placeholders : Bool}
  {start : Nat}
  {c behind : Cursor Char}
  {t : Token}

/-! ## Tokens without a size header -/

theorem finishLiteral_of_extend
    {digits : List Char}
    {stop : Cursor Char}
    (read : finishLiteral start digits stop = .ok (t, behind.extend tail))
    (reached : stop = c.extend tail) :
    finishLiteral start digits c = .ok (t, behind) := by
  have same : behind = c := by
    apply Cursor.extend_inj tail
    rw [finishLiteral_behind read, reached]
  unfold finishLiteral at read ⊢
  split at read
  · simp only [Except.ok.injEq, Prod.mk.injEq] at read
    rw [same, read.1]
  · cases read

theorem bareLiteral_of_extend
    (read : bareLiteral start (c.extend tail) = .ok (t, behind.extend tail)) :
    bareLiteral start c = .ok (t, behind) := by
  obtain ⟨stops, skipped⟩ := Cursor.skipWhile_of_extend (bareLiteral_behind read).symm
  simp only [bareLiteral] at read ⊢
  rw [Cursor.extend_rest, takeWhile_append_of_stops stops] at read
  split at read
  · cases read
  · exact finishLiteral_of_extend read (Cursor.skipWhile_extend stops)

theorem bracketLiteral_of_extend
    (read : bracketLiteral start (c.extend tail) = .ok (t, behind.extend tail)) :
    bracketLiteral start c = .ok (t, behind) := by
  simp only [bracketLiteral] at read ⊢
  split at read
  · cases read
  · next ch body stop =>
      split at read
      · next close =>
          obtain ⟨front, reached, front_rest, front_behind⟩ :=
            Cursor.exists_of_advance_one stop (finishLiteral_behind read).symm
          obtain ⟨stops, skipped⟩ := Cursor.skipWhile_of_extend reached
          rw [Cursor.extend_rest, takeWhile_append_of_stops stops] at read
          simp only [skipped, front_rest, if_pos close, front_behind]
          exact finishLiteral_of_extend read (finishLiteral_behind read).symm
      · cases read

theorem placeholder_of_extend
    (read : placeholder start (c.extend tail) = .ok (t, behind.extend tail)) :
    placeholder start c = .ok (t, behind) := by
  simp only [placeholder] at read ⊢
  split at read
  · cases read
  · next ch body stop =>
      simp only [Except.ok.injEq, Prod.mk.injEq] at read
      obtain ⟨text, moved⟩ := read
      obtain ⟨front, reached, front_rest, front_behind⟩ :=
        Cursor.exists_of_advance_one stop moved
      obtain ⟨stops, skipped⟩ := Cursor.skipWhile_of_extend reached
      rw [Cursor.extend_rest, takeWhile_append_of_stops stops] at text
      simp only [skipped, front_rest, text, front_behind]

theorem word_of_extend
    (read : word lexicon (c.extend tail) = .ok (t, behind.extend tail)) :
    word lexicon c = .ok (t, behind) := by
  obtain ⟨stops, skipped⟩ := Cursor.skipWhile_of_extend (word_behind read).symm
  simp only [word] at read ⊢
  rw [Cursor.extend_rest, Cursor.extend_pos, takeWhile_append_of_stops stops] at read
  split at read
  · next code term =>
      simp only [Except.ok.injEq, Prod.mk.injEq] at read
      rw [skipped, read.1]
  · next e term =>
      split at read
      · next hex =>
          rw [if_pos hex]
          exact bareLiteral_of_extend read
      · cases read

/-- A first character stays the first one when more characters follow. -/
theorem head?_append_of_head?
    {body : List Char}
    {ch : Char}
    (first : body.head? = some ch)
    (tail : List Char) :
    (body ++ tail).head? = some ch := by
  rw [List.head?_append, first]
  rfl

/-- A word that ends in front of `tail` ends at white space if it is a zero on its own. -/
theorem all_isSpace_of_word
    {body : List Char}
    (rest : c.rest = '0' :: body)
    (alone : body.head?.all isSpace = true)
    (read : word lexicon (c.extend tail) = .ok (t, behind.extend tail)) :
    (body ++ tail).head?.all isSpace = true := by
  cases body with
  | nil =>
      obtain ⟨inside | stops, _⟩ := Cursor.skipWhile_of_extend (word_behind read).symm
      · rw [rest] at inside
        exact absurd rfl inside
      · rw [List.nil_append, Option.all_eq_true]
        intro ch first
        simpa using stops ch first
  | cons ch body =>
      exact alone

/-- A repeat mark in front of `tail` is there without it. -/
theorem dots_of_extend
    {ch : Char}
    {body : List Char}
    (rest : c.rest = ch :: body)
    (dots : (body ++ tail).take 2 = ['.', '.'])
    (moved : (c.extend tail).advance 3 = behind.extend tail) :
    body.take 2 = ['.', '.'] ∧ c.advance 3 = behind := by
  have three : 3 ≤ c.rest.length := by
    apply Cursor.le_length_of_advance tail (d := behind)
    · have two := two_le_length_of_take dots
      rw [rest, List.cons_append, List.length_cons]
      omega
    · rw [moved]
      exact Cursor.Reaches.refl _
  have two : 2 ≤ body.length := by
    rw [rest, List.length_cons] at three
    omega
  rw [List.take_append_of_le_length two] at dots
  rw [Cursor.advance_extend tail three] at moved
  exact ⟨dots, Cursor.extend_inj tail moved⟩

/-- A literal that is marked in front of `tail` is marked without it. -/
theorem hexMark_of_extend
    {ch : Char}
    {body : List Char}
    (rest : c.rest = ch :: body)
    (mark : (body ++ tail).head? = some 'x' ∨ (body ++ tail).head? = some 'X')
    (read : bareLiteral start ((c.extend tail).advance 2) = .ok (t, behind.extend tail)) :
    (body.head? = some 'x' ∨ body.head? = some 'X') ∧
    bareLiteral start (c.advance 2) = .ok (t, behind) := by
  have two : 2 ≤ c.rest.length := by
    apply Cursor.le_length_of_advance tail (d := behind)
    · have one := one_le_length_of_hexMark mark
      rw [rest, List.cons_append, List.length_cons]
      omega
    · exact bareLiteral_reaches read
  have more : body ≠ [] := by
    rintro rfl
    simp [rest] at two
  rw [List.head?_append_of_ne_nil _ more] at mark
  rw [Cursor.advance_extend tail two] at read
  exact ⟨mark, bareLiteral_of_extend read⟩

theorem plainToken_of_extend
    (read : plainToken lexicon placeholders (c.extend tail) = .ok (t, behind.extend tail)) :
    plainToken lexicon placeholders c = .ok (t, behind) := by
  have shorter := plainToken_shrinks read
  simp only [Cursor.extend_rest, List.length_append] at shorter
  obtain ⟨ch, body, rest⟩ : ∃ ch body, c.rest = ch :: body := by
    apply List.exists_cons_of_ne_nil
    intro nothing
    rw [nothing, List.length_nil] at shorter
    omega
  have one : (c.extend tail).advance 1 = (c.advance 1).extend tail := by
    apply Cursor.advance_extend
    simp [rest]
  unfold plainToken at read ⊢
  simp only [Cursor.extend_rest, Cursor.extend_pos, rest, List.cons_append, one] at read ⊢
  by_cases bracket : ch = '['
  · rw [if_pos bracket] at read ⊢
    exact bracketLiteral_of_extend read
  rw [if_neg bracket] at read ⊢
  by_cases opening : placeholders ∧ ch = '<'
  · rw [if_pos opening] at read ⊢
    exact placeholder_of_extend read
  rw [if_neg opening] at read ⊢
  by_cases dot : placeholders ∧ ch = '.'
  · rw [if_pos dot] at read ⊢
    split at read
    · next dots =>
        simp only [Except.ok.injEq, Prod.mk.injEq] at read
        obtain ⟨rfl, moved⟩ := read
        obtain ⟨own, own_behind⟩ := dots_of_extend rest dots moved
        rw [if_pos own, own_behind]
    · cases read
  rw [if_neg dot] at read ⊢
  by_cases mark : ch = '0' ∧ ((body ++ tail).head? = some 'x' ∨ (body ++ tail).head? = some 'X')
  · rw [if_pos mark] at read
    obtain ⟨own, own_read⟩ := hexMark_of_extend rest mark.2 read
    rw [if_pos ⟨mark.1, own⟩]
    exact own_read
  rw [if_neg mark] at read
  have noMark : ¬ (ch = '0' ∧ (body.head? = some 'x' ∨ body.head? = some 'X')) := by
    rintro ⟨zero, own⟩
    exact mark ⟨zero, own.imp (head?_append_of_head? · tail) (head?_append_of_head? · tail)⟩
  rw [if_neg noMark]
  by_cases zero : ch = '0' ∧ (body ++ tail).head?.all isSpace = true
  · rw [if_pos zero] at read
    simp only [Except.ok.injEq, Prod.mk.injEq] at read
    obtain ⟨rfl, moved⟩ := read
    have own : body.head?.all isSpace = true := by
      rw [Option.all_eq_true] at zero ⊢
      exact fun ch first => zero.2 ch (head?_append_of_head? first tail)
    rw [if_pos ⟨zero.1, own⟩, Cursor.extend_inj tail moved]
  rw [if_neg zero] at read
  by_cases term : isTermChar ch = true
  · rw [if_pos term] at read
    have noZero : ¬ (ch = '0' ∧ body.head?.all isSpace = true) := by
      rintro ⟨rfl, own⟩
      exact zero ⟨rfl, all_isSpace_of_word rest own read⟩
    rw [if_neg noZero, if_pos term]
    exact word_of_extend read
  · rw [if_neg term] at read
    cases read

/-! ## Size headers -/

theorem header_of_extend
    {h : Header}
    (read : header (c.extend tail) = .ok (h, behind.extend tail)) :
    header c = .ok (h, behind) := by
  have long := Nat.le_of_lt (length_lt_of_header read)
  simp only [header] at read ⊢
  split at read
  · cases read
  · next ch body stop =>
      split at read
      · next close =>
          split at read
          · next size number =>
              simp only [Except.ok.injEq, Prod.mk.injEq] at read
              obtain ⟨rfl, moved⟩ := read
              have inside : headerMark.length ≤ c.rest.length := by
                apply Cursor.le_length_of_advance tail (d := behind) long
                rw [← moved]
                exact (Cursor.reaches_skipWhile Char.isDigit _).trans
                  (Cursor.reaches_advance_one stop)
              obtain ⟨front, reached, front_rest, front_behind⟩ :=
                Cursor.exists_of_advance_one stop moved
              rw [Cursor.advance_extend tail inside] at reached number
              obtain ⟨stops, skipped⟩ := Cursor.skipWhile_of_extend reached
              rw [Cursor.extend_rest, takeWhile_append_of_stops stops] at number
              simp only [skipped, front_rest, if_pos close, number, front_behind,
                Cursor.extend_pos]
          · cases read
      · cases read

theorem isPrefixOf_of_append
    {mark xs : List Char}
    (inside : mark.length ≤ xs.length)
    (marked : mark.isPrefixOf (xs ++ tail) = true) :
    mark.isPrefixOf xs = true := by
  rw [List.isPrefixOf_iff_prefix] at marked ⊢
  exact List.prefix_of_prefix_length_le marked (List.prefix_append xs tail) inside

theorem headers_of_extend
    {outer hs : List Header}
    {here : Cursor Char}
    (read : headers outer (c.extend tail) = .ok (hs, here.extend tail)) :
    headers outer c = .ok (hs, here) := by
  generalize whole : c.extend tail = d at read
  revert c
  fun_induction headers outer d with
  | case1 =>
      cases read
  | case2 outer d next mark h behind first ih =>
      rintro c rfl
      obtain ⟨back, rfl, _⟩ := (headers_reaches read).exists_extend
      obtain ⟨front, reached, _⟩ := (header_reaches first).exists_extend
      rw [reached] at first mark
      have own := header_of_extend first
      have skipped : c.skipWhile isSpace = front :=
        (Cursor.skipWhile_of_extend reached).2
      have own_mark : headerMark.isPrefixOf (c.skipWhile isSpace).rest = true := by
        rw [skipped]
        exact isPrefixOf_of_append (Nat.le_of_lt (length_lt_of_header own)) mark
      rw [headers_of_ok own_mark (by rw [skipped]; exact own)]
      exact ih read rfl
  | case3 outer d next noMark =>
      rintro c rfl
      simp only [Except.ok.injEq, Prod.mk.injEq] at read
      obtain ⟨rfl, reached⟩ := read
      have skipped : c.skipWhile isSpace = here :=
        (Cursor.skipWhile_of_extend reached).2
      have own_noMark : headerMark.isPrefixOf (c.skipWhile isSpace).rest = false := by
        rw [skipped]
        apply eq_false_of_ne_true
        intro mark
        apply noMark
        rw [reached, Cursor.extend_rest, List.isPrefixOf_iff_prefix]
        exact (List.isPrefixOf_iff_prefix.mp mark).trans (List.prefix_append _ tail)
      rw [headers_of_no_mark own_noMark, skipped]

/-! ## Steps and runs -/

/-- A token that is read in front of more text is read without it. -/
theorem step_of_extend
    (tail : List Char)
    {s : Located}
    (found : step lexicon placeholders (c.extend tail) = .item s (behind.extend tail)) :
    step lexicon placeholders c = .item s behind := by
  rcases step_item_cases found with
    ⟨here, t, skipped, read, rfl⟩ | ⟨here, inner, outer, data, start, skipped, read, sizes, rfl⟩
  · obtain ⟨front, rfl, _⟩ := (plainToken_reaches read).exists_extend
    exact step_of_plain (headers_of_extend skipped) (plainToken_of_extend read)
  · obtain ⟨front, rfl, _⟩ := (plainToken_reaches read).exists_extend
    exact step_of_sized (headers_of_extend skipped) (plainToken_of_extend read) sizes

/-- A token starts where the white space in front of it ends. -/
theorem step_skipWhile
    (c : Cursor Char) :
    step lexicon placeholders (c.skipWhile isSpace) = step lexicon placeholders c := by
  apply step_eq_of_skipWhile_eq
  exact Cursor.skipWhile_skipWhile isSpace c

/-- A text whose token at `d` cannot be read is cut there: what stands in front of `d` is read to
its end as the tokens in front of `d`, and `d` is on the first character of the token. -/
theorem run_cut
    {items : List Located}
    {e : Error}
    (read : (reader lexicon placeholders).run c = ⟨items, some e⟩) :
    ∃ front d,
      c.rest = front ++ d.rest ∧
      d.pos = c.pos + front.length ∧
      d.skipWhile isSpace = d ∧
      step lexicon placeholders d = .fault e ∧
      (reader lexicon placeholders).run ⟨c.pos, front⟩ = ⟨items, none⟩ := by
  induction c using (reader lexicon placeholders).step_induction generalizing items with
  | _ c ih =>
      cases found : (reader lexicon placeholders).step c with
      | done =>
          rw [Reader.run_of_done found] at read
          cases read
      | fault e' =>
          rw [Reader.run_of_fault found] at read
          cases read
          refine ⟨c.rest.takeWhile isSpace, c.skipWhile isSpace,
            List.takeWhile_append_dropWhile.symm, rfl, Cursor.skipWhile_skipWhile isSpace c,
            ?_, ?_⟩
          · rw [step_skipWhile]
            exact found
          · apply Reader.run_of_done
            apply step_done_iff.mpr
            exact List.dropWhile_eq_nil_iff.mpr fun ch mem => List.mem_takeWhile_imp mem
      | item s behind =>
          obtain ⟨later, rfl, rest⟩ := (Reader.run_eq_iff_of_item found).mp read
          obtain ⟨front, d, split, pos, at_token, failed, read⟩ := ih s behind found rest
          obtain ⟨taken, whole, moved⟩ := step_reaches found
          refine ⟨taken ++ front, d, ?_, ?_, at_token, failed, ?_⟩
          · rw [whole, split, List.append_assoc]
          · rw [pos, moved, List.length_append, Nat.add_assoc]
          · have cut : (reader lexicon placeholders).step ⟨c.pos, taken ++ front⟩ =
                .item s ⟨behind.pos, front⟩ := by
              apply step_of_extend d.rest
              have before : (Cursor.mk c.pos (taken ++ front)).extend d.rest = c := by
                rw [Cursor.extend, List.append_assoc, ← split, ← whole]
              have after : (Cursor.mk behind.pos front).extend d.rest = behind := by
                rw [Cursor.extend, ← split]
              rw [before, after]
              exact found
            rw [Reader.run_of_item cut, read]

end Pieces

end Asm
end ScriptCodec
