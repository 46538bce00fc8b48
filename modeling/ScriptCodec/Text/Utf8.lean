/-!
# The UTF-8 form of a text

Offsets and sizes of encoded text count bytes, so the byte list of a text is named here once.
-/

namespace ScriptCodec

/-- The bytes of the UTF-8 form of `text`. -/
def utf8Bytes (text : String) : List UInt8 :=
  text.toList.flatMap String.utf8EncodeChar

end ScriptCodec
