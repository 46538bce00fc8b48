/-!
# Terms

A term is a word as a user writes it: in any letter case and with or without the mark `OP_` in
front.  Its normal form is in capitals and has the mark.
-/

namespace ScriptCodec
namespace Term

/-- What every normal form starts with. -/
def mark : List Char :=
  ['O', 'P', '_']

/-- The normal form of a term as characters. -/
def normalChars (term : List Char) : List Char :=
  let upper := term.map Char.toUpper
  if mark.isPrefixOf upper then upper else mark ++ upper

/-- The normal form of a term.  Only ASCII letters change their case. -/
def normalize (term : List Char) : String :=
  String.ofList (normalChars term)

end Term
end ScriptCodec
