import ScriptCodec.Proofs.Script.Canonical
import ScriptCodec.Proofs.Script.Plain
import ScriptCodec.Session

/-!
# The scripts of sessions

A command leaves the script of a session as it is or replaces it by one that it has read.
`source_of_run` lists the ways, and invariants of scripts follow from them: `isPlain_step` is one
command, and `isPlain_afterEach` a sequence of commands, each under options of its own, of which the
commands of a session are a special case (`exists_afterEach_eq_after`).

`exists_toBytes_afterEach` draws the conclusion for the raw forms and the JSON string: unless tokens
are put into a session directly, or as template entries of a text, all its scripts can be written.
-/

namespace ScriptCodec

namespace Command

/-- Whether a command can put tokens into a session that no script has: given tokens, or a text with
the template entries that the options allow. -/
def injects
    (options : Options) :
    Command → Bool
  | .loadTokens _ => true
  | .loadAsm _ => options.allowPlaceholders
  | .reloadAsm => options.allowPlaceholders
  | _ => false

end Command

namespace Session

variable {s next : Session} {command : Command} {reply : Reply}

/-! ## One command -/

/-- Where the script behind a command comes from. -/
inductive Source
    (s : Session) :
    Command → Script → Prop
  | kept
      {command : Command} {script : Script}
      (same : script = s.script) :
      Source s command script
  | raw
      {command : Command} {script : Script} {bytes : List UInt8}
      (read : Script.ofBytes bytes = .ok script) :
      Source s command script
  | text
      {command : Command} {script : Script} {text : String}
      (asked : command = .loadAsm text ∨ command = .reloadAsm)
      (read : Script.ofAsm text s.options = .ok script) :
      Source s command script
  | plainText
      {command : Command} {script : Script} {text : String}
      (read : Script.ofAsm text {} = .ok script) :
      Source s command script
  | address
      {command : Command} {script : Script} {address : String}
      (read : Script.ofAddress address s.options = .ok script) :
      Source s command script
  | tokens
      (tokens : List Token) :
      Source s (.loadTokens tokens) ⟨tokens⟩

theorem script_of_map_withOptions
    {α : Type}
    {result : Except Error α}
    {options : α → Options}
    (ran : (result.map fun a => s.withOptions (options a)) = .ok (next, reply)) :
    next.script = s.script := by
  cases result with
  | error e =>
      cases ran
  | ok a =>
      cases ran
      rfl

theorem read_of_map_withScript
    {result : Except Error Script}
    (ran : result.map s.withScript = .ok (next, reply)) :
    result = .ok next.script := by
  cases result with
  | error e =>
      cases ran
  | ok script =>
      cases ran
      rfl

theorem eq_of_answer
    {α : Type}
    {result : Except Error α}
    {form : α → Reply}
    (ran : s.answer form result = .ok (next, reply)) :
    next = s := by
  cases result with
  | error e =>
      cases ran
  | ok a =>
      cases ran
      rfl

/-- Every command that is carried out keeps the script or reads one. -/
theorem source_of_run
    (ran : s.run command = .ok (next, reply)) :
    Source s command next.script := by
  cases command with
  | resetOptions json =>
      cases json with
      | none =>
          cases ran
          exact .kept rfl
      | some json =>
          exact .kept (script_of_map_withOptions ran)
  | onlyEncoding name | setEncoding name | setLiteralStyle name | setOpcodeStyle name =>
      exact .kept (script_of_map_withOptions ran)
  | onlyParams params | setParams params =>
      cases ran
      exact .kept rfl
  | addTerm word code =>
      cases ran
      exact .kept rfl
  | addOpcodeWord code word =>
      cases ran
      exact .kept rfl
  | setPlaceholders allow =>
      cases ran
      exact .kept rfl
  | loadHex text =>
      obtain ⟨bytes, read⟩ := Script.exists_ofBytes_of_ofRaw (read_of_map_withScript ran)
      exact .raw read
  | loadRawText text =>
      obtain ⟨bytes, read⟩ := Script.exists_ofBytes_of_ofRaw (read_of_map_withScript ran)
      exact .raw read
  | loadBytes bytes =>
      exact .raw (read_of_map_withScript ran)
  | loadAsm text =>
      exact .text (.inl rfl) (read_of_map_withScript ran)
  | loadPlainAsm text =>
      exact .plainText (read_of_map_withScript ran)
  | loadAddress address =>
      exact .address (read_of_map_withScript ran)
  | loadTokens tokens =>
      cases ran
      exact .tokens tokens
  | reloadAsm =>
      simp only [run] at ran
      split at ran
      · exact .text (.inr rfl) (read_of_map_withScript ran)
      · cases ran
  | reloadRaw =>
      simp only [run] at ran
      split at ran
      · exact .raw (read_of_map_withScript ran)
      · cases ran
  | reloadAddress =>
      simp only [run] at ran
      split at ran
      · next address _ =>
          cases read : Script.ofAddress address s.options with
          | error e =>
              rw [read] at ran
              cases ran
          | ok script =>
              rw [read] at ran
              cases ran
              exact .address read
      · cases ran
        exact .kept rfl
      · cases ran
  | redeem =>
      simp only [run] at ran
      split at ran
      · next script found =>
          cases ran
          obtain ⟨bytes, read⟩ := Script.exists_ofBytes_of_redeem? found
          exact .raw read
      · cases ran
        exact .kept rfl
  | toAsm | toHex | toBytes | toRaw | toAddress =>
      exact .kept (congrArg script (eq_of_answer ran))
  | shape | hasAddress | display | describe | tokens =>
      cases ran
      exact .kept rfl

/-- Whatever its source is, a script is plain unless tokens were put into the session. -/
theorem Source.isPlain
    {script : Script}
    (source : Source s command script)
    (plain : s.script.IsPlain)
    (no_injection : command.injects s.options = false) :
    script.IsPlain := by
  cases source with
  | kept same =>
      rw [same]
      exact plain
  | raw read =>
      exact Script.isPlain_ofBytes read
  | text asked read =>
      rcases asked with rfl | rfl
      · exact Script.isPlain_ofAsm no_injection read
      · exact Script.isPlain_ofAsm no_injection read
  | plainText read =>
      exact Script.isPlain_ofAsm rfl read
  | address read =>
      exact Script.isPlain_ofAddress read
  | tokens tokens =>
      cases no_injection

/-- A command keeps the script of a session plain. -/
theorem isPlain_step
    (plain : s.script.IsPlain)
    (no_injection : command.injects s.options = false) :
    (s.step command).1.script.IsPlain := by
  rw [step]
  cases ran : s.run command with
  | ok outcome =>
      exact (source_of_run ran).isPlain plain no_injection
  | error e =>
      exact plain

/-! ## Sequences of commands -/

/-- The state that commands lead to, each under options of its own. -/
def afterEach
    (s : Session) :
    List (Options × Command) → Session
  | [] => s
  | (options, command) :: steps =>
      afterEach ({ s with options := options }.step command).1 steps

/-- Commands under the options of the session itself are a special case. -/
theorem exists_afterEach_eq_after
    (s : Session)
    (commands : List Command) :
    ∃ steps, steps.map Prod.snd = commands ∧ s.afterEach steps = s.after commands := by
  induction commands generalizing s with
  | nil =>
      exact ⟨[], rfl, rfl⟩
  | cons command commands ih =>
      obtain ⟨steps, same, behind⟩ := ih (s.step command).1
      exact ⟨(s.options, command) :: steps, by rw [List.map_cons, same], behind⟩

/-- Commands that put no tokens into a session keep its script plain. -/
theorem isPlain_afterEach
    {steps : List (Options × Command)}
    (plain : s.script.IsPlain)
    (no_injection : ∀ step ∈ steps, step.2.injects step.1 = false) :
    (s.afterEach steps).script.IsPlain := by
  induction steps generalizing s with
  | nil =>
      exact plain
  | cons step steps ih =>
      obtain ⟨first, others⟩ := List.forall_mem_cons.mp no_injection
      have plain_under : { s with options := step.1 }.script.IsPlain := plain
      exact ih (isPlain_step plain_under first) others

/-- **What a session reads can be written.**  Whatever commands are carried out under whatever
options, with any overriding terms, as long as no tokens and no template entries are put in: the
script has literals and opcodes that start no push, and unless a literal is too large it has its
bytes, their hexadecimal form, its raw form in every encoding, and the JSON string with the
hexadecimal form, as which scripts are stored. -/
theorem exists_toBytes_afterEach
    {steps : List (Options × Command)}
    (plain : s.script.IsPlain)
    (no_injection : ∀ step ∈ steps, step.2.injects step.1 = false) :
    (∀ t ∈ (s.afterEach steps).script.tokens,
      (∃ data, t = .literal data) ∨ ∃ code, t = .opcode code ∧ Opcode.isPush code = false) ∧
    ((∀ data, .literal data ∈ (s.afterEach steps).script.tokens → data.length < 2 ^ 32) →
      ∃ bytes,
        (s.afterEach steps).script.toBytes = .ok bytes ∧
        (s.afterEach steps).script.toHex = .ok (Hex.encode bytes) ∧
        (∀ encoding, ∃ output, (s.afterEach steps).script.toRaw encoding = .ok output) ∧
        (s.afterEach steps).script.toJson = .ok (Json.writeText (Hex.encode bytes))) := by
  have plain_after := isPlain_afterEach plain no_injection
  refine ⟨?_, Script.exists_toBytes_of_isPlain plain_after⟩
  intro t mem
  have own := plain_after t mem
  cases t with
  | literal data =>
      exact .inl ⟨data, rfl⟩
  | opcode code =>
      exact .inr ⟨code, rfl, own⟩
  | placeholder text =>
      exact own.elim
  | repetition =>
      exact own.elim

/-- A text with an empty literal is read under options that map a word to an opcode that starts a
push, and written and read again as bytes. -/
theorem exists_toBytes_afterEach_reload :
    let options := Options.default.withTerm "push" Opcode.pushData1
    let steps : List (Options × Command) :=
      [(options, .loadAsm "[] [ab]"), (options, .reloadRaw)]
    let script : Script := ⟨[.opcode Opcode.zero, .literal [0xab]]⟩
    ({} : Session).script.IsPlain ∧
    (∀ step ∈ steps, step.2.injects step.1 = false) ∧
    (({} : Session).afterEach steps).script = script ∧
    (∀ data, .literal data ∈ script.tokens → data.length < 2 ^ 32) ∧
    ∃ bytes,
      script.toBytes = .ok bytes ∧
      script.toHex = .ok (Hex.encode bytes) ∧
      (∀ encoding, ∃ output, script.toRaw encoding = .ok output) ∧
      script.toJson = .ok (Json.writeText (Hex.encode bytes)) := by
  intro options steps script
  have plain : ({} : Session).script.IsPlain := by
    intro t mem
    cases mem
  have no_injection : ∀ step ∈ steps, step.2.injects step.1 = false := by
    simp only [steps, List.forall_mem_cons, List.not_mem_nil, false_implies, implies_true, and_true]
    exact ⟨rfl, rfl⟩
  have loaded : Script.ofAsm "[] [ab]" options = .ok ⟨[.literal [], .literal [0xab]]⟩ :=
    Script.ofAsm_bracketed (by decide +kernel) options
  have alone : ∀ code, .opcode code ∈ [Token.literal [], .literal [0xab]] →
      Script.table.StandsAlone code := by
    simp
  have written : Script.toBytes ⟨[.literal [], .literal [0xab]]⟩ = .ok [0x00, 0x01, 0xab] := by
    rfl
  have reloaded : Script.ofBytes [0x00, 0x01, 0xab] = .ok script :=
    Script.ofBytes_toBytes alone written
  have behind : (({} : Session).afterEach steps).script = script := by
    simp only [steps, afterEach, step, run, loaded, Except.map, withScript, written, reloaded]
  have small : ∀ data, .literal data ∈ script.tokens → data.length < 2 ^ 32 := by
    simp [script]
  obtain ⟨_, writes⟩ := exists_toBytes_afterEach plain no_injection
  rw [behind] at writes
  exact ⟨plain, no_injection, behind, small, writes small⟩

end Session
end ScriptCodec
