import ScriptCodec.Proofs.Raw.Appending

/-!
# Tokens that can be written

Writing knows no table: an opcode has bytes if it does not start a push, and data if it is not too
large.  `exists_encode_iff` says that nothing else can make the writing of a script fail.  What a raw
script is read as can be written again, whatever the table is: `isPlain_of_decode`.
-/

namespace ScriptCodec

namespace Token

/-- The tokens of scripts: no slot, no repeat mark and no opcode that starts a push. -/
def IsPlain : Token → Prop
  | .literal _ => True
  | .opcode code => Opcode.isPush code = false
  | .placeholder _ => False
  | .repetition => False

theorem Encodable.isPlain
    {table : Opcode.Table}
    {t : Token}
    (encodable : t.Encodable table) :
    t.IsPlain := by
  cases t with
  | literal data =>
      trivial
  | opcode code =>
      exact encodable.2
  | placeholder text =>
      exact encodable
  | repetition =>
      exact encodable

/-- Which tokens have bytes. -/
theorem isWritable_iff
    {t : Token} :
    t.isWritable = true ↔ t.IsPlain ∧ ∀ data, t = .literal data → data.length < 2 ^ 32 := by
  cases t with
  | literal data =>
      simp [isWritable, refusal?, IsPlain]
  | opcode code =>
      rw [IsPlain, ← Bool.not_eq_true, Opcode.isPush_iff]
      simp [isWritable, refusal?]
  | placeholder text =>
      simp [isWritable, refusal?, IsPlain]
  | repetition =>
      simp [isWritable, refusal?, IsPlain]

end Token

namespace Raw

/-- Which scripts have bytes. -/
theorem exists_encode_iff
    {ts : List Token} :
    (∃ bytes, encode ts = .ok bytes) ↔
      ∀ t ∈ ts, t.IsPlain ∧ ∀ data, t = .literal data → data.length < 2 ^ 32 := by
  simp only [encode_eq_ok_iff, exists_and_left, exists_eq, and_true, Token.isWritable_iff]

/-- Every token of a raw script is plain. -/
theorem isPlain_of_decode
    {table : Opcode.Table}
    {bytes : List UInt8}
    {ts : List Token}
    (read : decode bytes table = .ok ts) :
    ∀ t ∈ ts, t.IsPlain :=
  fun t mem => (encodable_of_decode read t mem).isPlain

end Raw
end ScriptCodec
