import ScriptCodec.Choice
import ScriptCodec.Proofs.Address.Canonical
import ScriptCodec.Proofs.Asm.Agreement
import ScriptCodec.Proofs.Asm.Calls
import ScriptCodec.Proofs.Asm.Chunks
import ScriptCodec.Proofs.Asm.Composition
import ScriptCodec.Proofs.Asm.Folding
import ScriptCodec.Proofs.Asm.Nesting
import ScriptCodec.Proofs.Asm.Permission
import ScriptCodec.Proofs.Asm.Spans
import ScriptCodec.Proofs.Opcode.Inversion
import ScriptCodec.Proofs.Options.Order
import ScriptCodec.Proofs.Raw.Appending
import ScriptCodec.Proofs.Raw.Composition
import ScriptCodec.Proofs.Script.Canonical
import ScriptCodec.Proofs.Script.Carrying
import ScriptCodec.Proofs.Script.Redeeming
import ScriptCodec.Proofs.Session
import ScriptCodec.Proofs.Template.Classification
import ScriptCodec.Proofs.Template.Sizes
import ScriptCodec.Session
