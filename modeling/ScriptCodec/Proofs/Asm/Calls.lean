import ScriptCodec.Proofs.Asm.Cut
import ScriptCodec.Proofs.Asm.Nesting

/-!
# Calls in a token

Reading the next token calls for a term wherever one starts, a term that turns out to be a size
header calls for a sized literal, and a sized literal calls for the next token again.
`Calling.token`, `Calling.term` and `Calling.sized` are these three functions, and each of them
notes the calls that are made.

The circle closes at most once.  A sized literal passes over all further headers before it calls for
a token, and its test for a header is as strong as the one by which a term becomes a sized literal,
so the inner token has no header any more (`token_calls_of_no_mark`).  `token_calls_prefix` lists
the calls that one token can need.

`found_token` says that the three functions find what the reader of this library finds, which has no
circle at all, and `calls_prefix_and_progress` that every token takes something from the text.
-/

namespace ScriptCodec
namespace Asm

/-- The functions that call one another while a token is read. -/
inductive Call where
  | token
  | term
  | sized
deriving DecidableEq, Repr

namespace Calling

open Recursive (Found located orBare scanTerm startsTerm wordToken plain demandAll collected)

/-- What was found, with the calls that were made, from the first to the last. -/
structure Outcome where
  calls : List Call
  found : Found

/-- Checks a literal against headers, innermost first.  Anything else is a fault of the innermost
header, or of `start` if there is none. -/
def checked (start : Nat) (hs : List Header) : Found → Found
  | .error e => .error e
  | .ok (some (⟨.literal data, span⟩, behind)) =>
      (checkSizes data.length span.start hs).map
        fun start => some (⟨.literal data, ⟨start, span.stop⟩⟩, behind)
  | .ok _ => .error (.pushdataMissingLiteral ((hs.head?.map Header.start).getD start))

mutual

/-- Reads the next token. -/
def token (lexicon : Lexicon) (placeholders : Bool) (c : Cursor Char) : Outcome :=
  let here := c.skipWhile isSpace
  if here.rest.isEmpty then ⟨[.token], .ok none⟩
  else if startsTerm here.rest then
    let inner := term lexicon here
    ⟨.token :: inner.calls, orBare here inner.found⟩
  else ⟨[.token], located here (plainToken lexicon placeholders here)⟩
termination_by 3 * c.rest.length + 2
decreasing_by
  have skipped := Cursor.length_rest_skipWhile_le isSpace c
  omega

/-- Reads a term, which is a sized literal if the bracket of a size header turns up. -/
def term (lexicon : Lexicon) (here : Cursor Char) : Outcome :=
  match scanTerm here.pos [] here.rest with
  | .header =>
      let inner := sized lexicon here
      ⟨.term :: inner.calls, inner.found⟩
  | .foreign position => ⟨[.term], .error (.unexpectedCharacter position)⟩
  | .word word behind => ⟨[.term], located here (wordToken lexicon here word behind)⟩
termination_by 3 * here.rest.length + 1

/-- Reads a sized literal: its header, all headers behind that, and then the next token. -/
def sized (lexicon : Lexicon) (here : Cursor Char) : Outcome :=
  match _first : header here with
  | .error e => ⟨[.sized], .error e⟩
  | .ok (h, behind) =>
      match _more : headers [h] behind with
      | .error e => ⟨[.sized], .error e⟩
      | .ok (hs, there) =>
          let inner := token lexicon false there
          ⟨.sized :: inner.calls, checked here.pos hs inner.found⟩
termination_by 3 * here.rest.length
decreasing_by
  have shorter := header_shrinks _first
  have skipped := headers_shrinks _more
  omega

end

/-- The next token as a step of reading. -/
def step (lexicon : Lexicon) (placeholders : Bool) (c : Cursor Char) :
    Step (Cursor Char) Located Error :=
  match (token lexicon placeholders c).found with
  | .error e => .fault e
  | .ok none => .done
  | .ok (some (s, behind)) => .item s behind

section Calls

variable {lexicon : Lexicon} {placeholders : Bool} {c here : Cursor Char}

/-! ## Which calls are made -/

theorem isEmpty_of_startsTerm
    (starts : startsTerm here.rest = true) :
    here.rest.isEmpty = false := by
  cases rest : here.rest with
  | nil =>
      rw [rest] at starts
      cases starts
  | cons ch body =>
      rfl

theorem token_of_startsTerm
    (starts : startsTerm (c.skipWhile isSpace).rest = true) :
    token lexicon placeholders c =
      ⟨.token :: (term lexicon (c.skipWhile isSpace)).calls,
        orBare (c.skipWhile isSpace) (term lexicon (c.skipWhile isSpace)).found⟩ := by
  rw [token]
  simp only [isEmpty_of_startsTerm starts, Bool.false_eq_true, if_false, starts, if_true]

/-- Where no term starts, nothing else is called for. -/
theorem token_of_not_startsTerm
    (other : startsTerm (c.skipWhile isSpace).rest = false) :
    token lexicon placeholders c =
      ⟨[.token], plain lexicon placeholders (c.skipWhile isSpace)⟩ := by
  rw [token, plain]
  by_cases nothing : (c.skipWhile isSpace).rest.isEmpty = true
  · simp only [if_pos nothing]
  · simp only [if_neg nothing, other, Bool.false_eq_true, if_false]

theorem term_of_header
    (stopped : scanTerm here.pos [] here.rest = .header) :
    term lexicon here = ⟨.term :: (sized lexicon here).calls, (sized lexicon here).found⟩ := by
  rw [term, stopped]

/-- Other terms need no further call. -/
theorem term_calls_of_no_header
    (noHeader : scanTerm here.pos [] here.rest ≠ .header) :
    (term lexicon here).calls <+: [.term] := by
  rw [term]
  cases stopped : scanTerm here.pos [] here.rest with
  | header =>
      exact absurd stopped noHeader
  | foreign position =>
      exact List.prefix_rfl
  | word run behind =>
      exact List.prefix_rfl

/-- The test in front of a sized literal is as strong as the scan of a term. -/
theorem noHeader_of_no_mark
    (noMark : headerMark.isPrefixOf here.rest = false) :
    scanTerm here.pos [] here.rest ≠ .header := by
  intro stopped
  rw [Recursive.scanTerm_eq_header_iff.mp stopped] at noMark
  cases noMark

/-- Behind the headers of a sized literal there is no further header and no white space. -/
theorem stops_of_headers
    {outer hs : List Header}
    (read : headers outer c = .ok (hs, here)) :
    headerMark.isPrefixOf here.rest = false ∧ here.skipWhile isSpace = here := by
  fun_induction headers outer c with
  | case1 =>
      cases read
  | case2 outer c next mark h behind first ih =>
      exact ih read
  | case3 outer c next noMark =>
      simp only [Except.ok.injEq, Prod.mk.injEq] at read
      rw [← read.2]
      exact ⟨eq_false_of_ne_true noMark, Cursor.skipWhile_skipWhile isSpace c⟩

/-- Without a size header a token needs a term at most. -/
theorem token_calls_of_no_mark
    (noMark : headerMark.isPrefixOf (c.skipWhile isSpace).rest = false) :
    (token lexicon placeholders c).calls <+: [.token, .term] := by
  cases starts : startsTerm (c.skipWhile isSpace).rest with
  | true =>
      rw [token_of_startsTerm starts]
      exact (List.prefix_cons_inj _).mpr (term_calls_of_no_header (noHeader_of_no_mark noMark))
  | false =>
      rw [token_of_not_startsTerm starts]
      exact List.prefix_append [Call.token] [Call.term]

/-- A sized literal calls for a token where there is no size header any more. -/
theorem sized_calls_prefix :
    (sized lexicon here).calls <+: [.sized, .token, .term] := by
  rw [sized]
  split
  · exact List.prefix_append [Call.sized] _
  · split
    · exact List.prefix_append [Call.sized] _
    · next hs there read =>
        obtain ⟨noMark, stays⟩ := stops_of_headers read
        rw [← stays] at noMark
        exact (List.prefix_cons_inj _).mpr (token_calls_of_no_mark noMark)

theorem term_calls_prefix :
    (term lexicon here).calls <+: [.term, .sized, .token, .term] := by
  by_cases stopped : scanTerm here.pos [] here.rest = .header
  · rw [term_of_header stopped]
    exact (List.prefix_cons_inj _).mpr sized_calls_prefix
  · exact (term_calls_of_no_header stopped).trans (List.prefix_append [Call.term] _)

/-- The calls for a token are a first part of these five, however many size headers there are. -/
theorem token_calls_prefix :
    (token lexicon placeholders c).calls <+: [.token, .term, .sized, .token, .term] := by
  cases starts : startsTerm (c.skipWhile isSpace).rest with
  | true =>
      rw [token_of_startsTerm starts]
      exact (List.prefix_cons_inj _).mpr term_calls_prefix
  | false =>
      rw [token_of_not_startsTerm starts]
      exact List.prefix_append [Call.token] _

/-! ## What is found -/

/-- Checking a literal against headers at once comes to making their demands one after the other. -/
theorem checked_eq_demandAll
    (start : Nat)
    (inner : Header)
    (outer : List Header)
    (found : Found) :
    checked start (inner :: outer) found = demandAll (inner :: outer) found := by
  cases found with
  | error e =>
      exact (Recursive.demandAll_error _ e).symm
  | ok read =>
      cases read with
      | none =>
          exact (Recursive.demandAll_error outer _).symm
      | some read =>
          obtain ⟨⟨t, span⟩, behind⟩ := read
          cases t with
          | literal data =>
              exact (Recursive.demandAll_literal _ data span.start span.stop behind).symm
          | _ =>
              exact (Recursive.demandAll_error outer _).symm

theorem found_of_no_mark
    (noMark : headerMark.isPrefixOf (c.skipWhile isSpace).rest = false) :
    (token lexicon placeholders c).found = Recursive.token lexicon placeholders c := by
  cases starts : startsTerm (c.skipWhile isSpace).rest with
  | true =>
      rw [token_of_startsTerm starts, term, Recursive.token]
      simp only [isEmpty_of_startsTerm starts, Bool.false_eq_true, if_false, starts, if_true]
      cases stopped : scanTerm (c.skipWhile isSpace).pos [] (c.skipWhile isSpace).rest with
      | header =>
          exact absurd stopped (noHeader_of_no_mark noMark)
      | foreign position =>
          rfl
      | word run behind =>
          rfl
  | false =>
      rw [token_of_not_startsTerm starts, Recursive.token_of_no_mark noMark]

/-- A sized literal finds what the demands of its headers leave of the token behind them. -/
theorem found_sized :
    (sized lexicon here).found =
      match header here with
      | .error e => .error e
      | .ok (h, behind) => collected lexicon false (headers [h] behind) := by
  rw [sized]
  split
  · next e failed =>
      rw [failed]
  · next h behind first =>
      rw [first]
      dsimp only
      split
      · next e failed =>
          rw [failed]
          rfl
      · next hs there more =>
          obtain ⟨noMark, stays⟩ := stops_of_headers more
          rw [← stays] at noMark
          obtain ⟨inner, outer, rfl⟩ : ∃ inner outer, hs = inner :: outer := by
            obtain ⟨front, rfl⟩ := headers_suffix more
            exact List.exists_cons_of_ne_nil (by simp)
          rw [more, found_of_no_mark noMark, Recursive.token_of_no_mark noMark, stays,
            checked_eq_demandAll]
          exact (Recursive.sizedLiteral_eq_demandAll inner outer there).symm

/-- The calls find what the recursion on single headers finds. -/
theorem found_token :
    (token lexicon placeholders c).found = Recursive.token lexicon placeholders c := by
  cases mark : headerMark.isPrefixOf (c.skipWhile isSpace).rest with
  | false =>
      exact found_of_no_mark mark
  | true =>
      have starts : startsTerm (c.skipWhile isSpace).rest = true := by
        obtain ⟨rest, split⟩ := List.isPrefixOf_iff_prefix.mp mark
        rw [← split]
        rfl
      rw [token_of_startsTerm starts, term_of_header (Recursive.scanTerm_eq_header_iff.mpr mark),
        Recursive.orBare_of_mark mark, found_sized, Recursive.token_of_mark mark]
      cases header (c.skipWhile isSpace) with
      | error e =>
          rfl
      | ok read =>
          exact Recursive.collected_headers [read.1] read.2

/-- A step by calls is a step. -/
theorem step_eq
    (c : Cursor Char) :
    step lexicon placeholders c = Asm.step lexicon placeholders c := by
  rw [← Recursive.step_eq, step, found_token]
  rfl

/-! ## Progress -/

/-- A token that is found takes something from the text and ends in it. -/
theorem progress
    {text : List Char}
    {pos : Nat}
    {s : Located}
    {behind : Cursor Char}
    (inside : pos ≤ text.length)
    (found : (token lexicon placeholders ⟨pos, text.drop pos⟩).found = .ok (some (s, behind))) :
    pos < behind.pos ∧ behind.pos ≤ text.length ∧ behind.rest = text.drop behind.pos := by
  have item : Asm.step lexicon placeholders ⟨pos, text.drop pos⟩ = .item s behind := by
    rw [← step_eq, step, found]
  have shorter := step_shrinks item
  obtain ⟨taken, rest, moved⟩ := step_reaches item
  have whole := congrArg List.length rest
  simp only [List.length_drop, List.length_append] at shorter whole
  dsimp only at moved rest
  refine ⟨by omega, by omega, ?_⟩
  rw [moved, ← List.drop_drop, rest, List.drop_left]

end Calls

end Calling

/-- **Calls and progress**: wherever the next token of a text is asked for, the calls are a first
part of one fixed sequence with one sized literal in it, and a token that is found takes at least
one character and ends in the text.  Asking for tokens one after the other therefore ends, after at most
one step for every character and one more; no more tokens are found than the text has characters,
and the result is the one of this library's reader. -/
theorem calls_prefix_and_progress
    (text : List Char)
    (options : Options)
    (table : Opcode.Table) :
    (∀ placeholders pos, pos ≤ text.length →
      let outcome := Calling.token ⟨options.terms, table⟩ placeholders ⟨pos, text.drop pos⟩
      outcome.calls <+: [.token, .term, .sized, .token, .term] ∧
      outcome.calls.count .sized ≤ 1 ∧
      ∀ s behind, outcome.found = .ok (some (s, behind)) →
        pos < behind.pos ∧ behind.pos ≤ text.length ∧ behind.rest = text.drop behind.pos) ∧
    ∃ run,
      runWithin (Calling.step ⟨options.terms, table⟩ options.allowPlaceholders) (text.length + 1)
        (Cursor.start text) = some run ∧
      run.items.length ≤ text.length ∧
      decodeLocated text options table = run.toExcept := by
  constructor
  · intro placeholders pos inside
    have calls : (Calling.token ⟨options.terms, table⟩ placeholders ⟨pos, text.drop pos⟩).calls <+:
        [.token, .term, .sized, .token, .term] :=
      Calling.token_calls_prefix
    exact ⟨calls, calls.sublist.count_le .sized, fun s behind => Calling.progress inside⟩
  · have steps : Calling.step ⟨options.terms, table⟩ options.allowPlaceholders =
        (reader ⟨options.terms, table⟩ options.allowPlaceholders).step :=
      funext fun _ => Calling.step_eq _
    refine ⟨scan text options table, ?_, Reader.length_items_le _ (Cursor.start text), rfl⟩
    rw [steps]
    exact Reader.runWithin_step_eq _ (Nat.lt_succ_self text.length)

/-- A word, and behind it a literal with two size headers whose digits are tried as a word first. -/
def headed : List Char :=
  "dup PUSHDATA(2)PUSHDATA(2) beef".toList

theorem calls_prefix_and_progress_headed :
    3 ≤ headed.length ∧
    (Calling.token ⟨Overrides.empty, Opcode.Table.standard⟩ false ⟨3, headed.drop 3⟩).found =
      .ok (some (⟨.literal [0xbe, 0xef], ⟨4, 31⟩⟩, ⟨31, []⟩)) ∧
    (Calling.token ⟨Overrides.empty, Opcode.Table.standard⟩ false ⟨3, headed.drop 3⟩).calls.count
      .sized ≤ 1 ∧
    3 < 31 ∧ 31 ≤ headed.length := by
  have inside : 3 ≤ headed.length := by
    decide +kernel
  have found :
      (Calling.token ⟨Overrides.empty, Opcode.Table.standard⟩ false ⟨3, headed.drop 3⟩).found =
        .ok (some (⟨.literal [0xbe, 0xef], ⟨4, 31⟩⟩, ⟨31, []⟩)) := by
    decide +kernel
  obtain ⟨_, once, progress⟩ :=
    (calls_prefix_and_progress headed Options.default Opcode.Table.standard).1 false 3 inside
  exact ⟨inside, found, once, (progress _ _ found).1, (progress _ _ found).2.1⟩

/-- All five calls can be needed. -/
example :
    (Calling.token ⟨Overrides.empty, Opcode.Table.standard⟩ false ⟨3, headed.drop 3⟩).calls =
      [.token, .term, .sized, .token, .term] := by
  decide +kernel

end Asm
end ScriptCodec
