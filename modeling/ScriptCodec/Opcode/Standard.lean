import ScriptCodec.Opcode.Table

/-!
# The standard opcode table

The opcodes of the network's script language, by group.  A row with one opcode may have several
words for it, the first of them the usual one.
-/

namespace ScriptCodec
namespace Opcode
namespace Standard

/-- A row of opcodes that may be used. -/
def row (words : List String) (opcodes : List UInt8) (input output description : String) : Row :=
  ⟨words, opcodes, input, output, description, false⟩

/-- A row of opcodes that are refused. -/
def disabledRow (words : List String) (opcodes : List UInt8)
    (input output description : String) : Row :=
  ⟨words, opcodes, input, output, description, true⟩

/-- The description of opcodes that may stand in a branch that is not taken. -/
def reserved : String :=
  "Transaction is invalid unless occuring in an unexecuted OP_IF branch"

/-- The description of opcodes that may stand nowhere. -/
def illegal : String :=
  "Transaction is invalid even when occuring in an unexecuted OP_IF branch"

/-- Pushes of data and of small numbers. -/
def constants : List Row :=
  [row ["OP_0", "OP_FALSE"] [0x00]
      "Nothing." "(empty value)"
      ("An empty array of bytes is pushed onto the stack. (This is not a no-op: an item is "
      ++ "added to the stack.)"),
    row [] ((List.range 75).map fun n => UInt8.ofNat (n + 1))
      "(special)" "data"
      "The next opcode bytes is data to be pushed onto the stack",
    row ["OP_PUSHDATA1"] [0x4c]
      "(special)" "data"
      "The next byte contains the number of bytes to be pushed onto the stack.",
    row ["OP_PUSHDATA2"] [0x4d]
      "(special)" "data"
      ("The next two bytes contain the number of bytes to be pushed onto the stack in "
      ++ "little endian order."),
    row ["OP_PUSHDATA4"] [0x4e]
      "(special)" "data"
      ("The next four bytes contain the number of bytes to be pushed onto the stack in "
      ++ "little endian order."),
    row ["OP_1NEGATE"] [0x4f] "Nothing." "-1" "The number -1 is pushed onto the stack.",
    row ["OP_1", "OP_TRUE"] [0x51] "Nothing." "1" "The number 1 is pushed onto the stack.",
    row
      ["OP_2", "OP_3", "OP_4", "OP_5", "OP_6", "OP_7", "OP_8", "OP_9", "OP_10", "OP_11",
       "OP_12", "OP_13", "OP_14", "OP_15", "OP_16"]
      [0x52, 0x53, 0x54, 0x55, 0x56, 0x57, 0x58, 0x59, 0x5a, 0x5b, 0x5c, 0x5d, 0x5e, 0x5f,
       0x60]
      "Nothing." "2-16"
      "The number in the word name (2-16) is pushed onto the stack."]

/-- Branches and early ends. -/
def flowControl : List Row :=
  [row ["OP_NOP"] [0x61] "Nothing" "Nothing" "Does nothing.",
    row ["OP_IF"] [0x63]
      "<expression> if [statements] [else [statements]]* endif" ""
      ("If the top stack value is not False, the statements are executed. The top stack "
      ++ "value is removed."),
    row ["OP_NOTIF"] [0x64]
      "<expression> notif [statements] [else [statements]]* endif" ""
      ("If the top stack value is False, the statements are executed. The top stack value "
      ++ "is removed."),
    row ["OP_ELSE"] [0x67]
      "<expression> if [statements] [else [statements]]* endif" ""
      ("If the preceding OP_IF or OP_NOTIF or OP_ELSE was not executed then these "
      ++ "statements are and if the preceding OP_IF or OP_NOTIF or OP_ELSE was executed then "
      ++ "these statements are not."),
    row ["OP_ENDIF"] [0x68]
      "<expression> if [statements] [else [statements]]* endif" ""
      ("Ends an if/else block. All blocks must end, or the transaction is invalid. An "
      ++ "OP_ENDIF without OP_IF earlier is also invalid."),
    row ["OP_VERIFY"] [0x69]
      "True / false" "Nothing / fail"
      ("Marks transaction as invalid if top stack value is not true. The top stack value is "
      ++ "removed."),
    row ["OP_RETURN"] [0x6a]
      "Nothing" "fail"
      ("Marks transaction as invalid. Since bitcoin 0.9, a standard way of attaching extra "
      ++ "data to transactions is to add a zero-value output with a scriptPubKey consisting "
      ++ "of OP_RETURN followed by data.")]

/-- Rearranging of stack items. -/
def stack : List Row :=
  [row ["OP_TOALTSTACK"] [0x6b]
      "x1" "(alt)x1"
      "Puts the input onto the top of the alt stack. Removes it from the main stack.",
    row ["OP_FROMALTSTACK"] [0x6c]
      "(alt)x1" "x1"
      "Puts the input onto the top of the main stack. Removes it from the alt stack.",
    row ["OP_IFDUP"] [0x73] "x" "x / x x" "If the top stack value is not 0, duplicate it.",
    row ["OP_DEPTH"] [0x74]
      "Nothing" "<Stack size>"
      "Puts the number of stack items onto the stack.",
    row ["OP_DROP"] [0x75] "x" "Nothing" "Removes the top stack item.",
    row ["OP_DUP"] [0x76] "x" "x x" "Duplicates the top stack item.",
    row ["OP_NIP"] [0x77] "x1 x2" "x2" "Removes the second-to-top stack item.",
    row ["OP_OVER"] [0x78] "x1 x2" "x1 x2 x1" "Copies the second-to-top stack item to the top.",
    row ["OP_PICK"] [0x79]
      "xn ... x2 x1 x0 <n>" "xn ... x2 x1 x0 xn"
      "The item n back in the stack is copied to the top.",
    row ["OP_ROLL"] [0x7a]
      "xn ... x2 x1 x0 <n>" "... x2 x1 x0 xn"
      "The item n back in the stack is moved to the top.",
    row ["OP_ROT"] [0x7b] "x1 x2 x3" "x2 x3 x1" "The 3rd item down the stack is moved to the top.",
    row ["OP_SWAP"] [0x7c] "x1 x2" "x2 x1" "The top two items on the stack are swapped.",
    row ["OP_TUCK"] [0x7d]
      "x1 x2" "x2 x1 x2"
      "The item at the top of the stack is copied and inserted before the second-to-top item.",
    row ["OP_2DROP"] [0x6d] "x1 x2" "Nothing" "Removes the top two stack items.",
    row ["OP_2DUP"] [0x6e] "x1 x2" "x1 x2 x1 x2" "Duplicates the top two stack items.",
    row ["OP_3DUP"] [0x6f] "x1 x2 x3" "x1 x2 x3 x1 x2 x3" "Duplicates the top three stack items.",
    row ["OP_2OVER"] [0x70]
      "x1 x2 x3 x4" "x1 x2 x3 x4 x1 x2"
      "Copies the pair of items two spaces back in the stack to the front.",
    row ["OP_2ROT"] [0x71]
      "x1 x2 x3 x4 x5 x6" "x3 x4 x5 x6 x1 x2"
      "The fifth and sixth items back are moved to the top of the stack.",
    row ["OP_2SWAP"] [0x72] "x1 x2 x3 x4" "x3 x4 x1 x2" "Swaps the top two pairs of items."]

/-- Operations on byte strings. -/
def splice : List Row :=
  [disabledRow ["OP_CAT"] [0x7e] "x1 x2" "out" "Concatenates two strings. disabled.",
    disabledRow ["OP_SUBSTR"] [0x7f]
      "in begin size" "out"
      "Returns a section of a string. disabled.",
    disabledRow ["OP_LEFT"] [0x80]
      "in size" "out"
      "Keeps only characters left of the specified point in a string. disabled.",
    disabledRow ["OP_RIGHT"] [0x81]
      "in size" "out"
      "Keeps only characters right of the specified point in a string. disabled.",
    row ["OP_SIZE"] [0x82]
      "in" "in size"
      "Pushes the string length of the top element of the stack (without popping it)."]

/-- Operations on bits and comparison. -/
def bitwiseLogic : List Row :=
  [disabledRow ["OP_INVERT"] [0x83] "in" "out" "Flips all of the bits in the input. disabled.",
    disabledRow ["OP_AND"] [0x84]
      "x1 x2" "out"
      "Boolean and between each bit in the inputs. disabled.",
    disabledRow ["OP_OR"] [0x85]
      "x1 x2" "out"
      "Boolean or between each bit in the inputs. disabled.",
    disabledRow ["OP_XOR"] [0x86]
      "x1 x2" "out"
      "Boolean exclusive or between each bit in the inputs. disabled.",
    row ["OP_EQUAL"] [0x87]
      "x1 x2" "True / false"
      "Returns 1 if the inputs are exactly equal, 0 otherwise.",
    row ["OP_EQUALVERIFY"] [0x88]
      "x1 x2" "Nothing / fail"
      "Same as OP_EQUAL, but runs OP_VERIFY afterward."]

/-- Operations on numbers. -/
def arithmetic : List Row :=
  [row ["OP_1ADD"] [0x8b] "in" "out" "1 is added to the input.",
    row ["OP_1SUB"] [0x8c] "in" "out" "1 is subtracted from the input.",
    disabledRow ["OP_2MUL"] [0x8d] "in" "out" "The input is multiplied by 2. disabled.",
    disabledRow ["OP_2DIV"] [0x8e] "in" "out" "The input is divided by 2. disabled.",
    row ["OP_NEGATE"] [0x8f] "in" "out" "The sign of the input is flipped.",
    row ["OP_ABS"] [0x90] "in" "out" "The input is made positive.",
    row ["OP_NOT"] [0x91]
      "in" "out"
      "If the input is 0 or 1, it is flipped. Otherwise the output will be 0.",
    row ["OP_0NOTEQUAL"] [0x92] "in" "out" "Returns 0 if the input is 0. 1 otherwise.",
    row ["OP_ADD"] [0x93] "a b" "out" "a is added to b.",
    row ["OP_SUB"] [0x94] "a b" "out" "b is subtracted from a.",
    disabledRow ["OP_MUL"] [0x95] "a b" "out" "a is multiplied by b. disabled.",
    disabledRow ["OP_DIV"] [0x96] "a b" "out" "a is divided by b. disabled.",
    disabledRow ["OP_MOD"] [0x97]
      "a b" "out"
      "Returns the remainder after dividing a by b. disabled.",
    disabledRow ["OP_LSHIFT"] [0x98]
      "a b" "out"
      "Shifts a left b bits, preserving sign. disabled.",
    disabledRow ["OP_RSHIFT"] [0x99]
      "a b" "out"
      "Shifts a right b bits, preserving sign. disabled.",
    row ["OP_BOOLAND"] [0x9a]
      "a b" "out"
      "If both a and b are not 0, the output is 1. Otherwise 0.",
    row ["OP_BOOLOR"] [0x9b] "a b" "out" "If a or b is not 0, the output is 1. Otherwise 0.",
    row ["OP_NUMEQUAL"] [0x9c] "a b" "out" "Returns 1 if the numbers are equal, 0 otherwise.",
    row ["OP_NUMEQUALVERIFY"] [0x9d]
      "a b" "Nothing / fail"
      "Same as OP_NUMEQUAL, but runs OP_VERIFY afterward.",
    row ["OP_NUMNOTEQUAL"] [0x9e]
      "a b" "out"
      "Returns 1 if the numbers are not equal, 0 otherwise.",
    row ["OP_LESSTHAN"] [0x9f] "a b" "out" "Returns 1 if a is less than b, 0 otherwise.",
    row ["OP_GREATERTHAN"] [0xa0] "a b" "out" "Returns 1 if a is greater than b, 0 otherwise.",
    row ["OP_LESSTHANOREQUAL"] [0xa1]
      "a b" "out"
      "Returns 1 if a is less than or equal to b, 0 otherwise.",
    row ["OP_GREATERTHANOREQUAL"] [0xa2]
      "a b" "out"
      "Returns 1 if a is greater than or equal to b, 0 otherwise.",
    row ["OP_MIN"] [0xa3] "a b" "out" "Returns the smaller of a and b.",
    row ["OP_MAX"] [0xa4] "a b" "out" "Returns the larger of a and b.",
    row ["OP_WITHIN"] [0xa5]
      "x min max" "out"
      "Returns 1 if x is within the specified range (left-inclusive), 0 otherwise."]

/-- Hashes and signatures. -/
def crypto : List Row :=
  [row ["OP_RIPEMD160"] [0xa6] "in" "hash" "The input is hashed using RIPEMD-160.",
    row ["OP_SHA1"] [0xa7] "in" "hash" "The input is hashed using SHA-1.",
    row ["OP_SHA256"] [0xa8] "in" "hash" "The input is hashed using SHA-256.",
    row ["OP_HASH160"] [0xa9]
      "in" "hash"
      "The input is hashed twice: first with SHA-256 and then with RIPEMD-160.",
    row ["OP_HASH256"] [0xaa] "in" "hash" "The input is hashed two times with SHA-256.",
    row ["OP_CODESEPARATOR"] [0xab]
      "Nothing" "Nothing"
      ("All of the signature checking words will only match signatures to the data after "
      ++ "the most recently-executed OP_CODESEPARATOR."),
    row ["OP_CHECKSIG"] [0xac]
      "sig pubkey" "True / false"
      ("The entire transaction's outputs, inputs, and script (from the most "
      ++ "recently-executed OP_CODESEPARATOR to the end) are hashed. The signature used by "
      ++ "OP_CHECKSIG must be a valid signature for this hash and public key. If it is, 1 is "
      ++ "returned, 0 otherwise."),
    row ["OP_CHECKSIGVERIFY"] [0xad]
      "sig pubkey" "Nothing / fail"
      "Same as OP_CHECKSIG, but OP_VERIFY is executed afterward.",
    row ["OP_CHECKMULTISIG"] [0xae]
      "x sig1 sig2 ... <number of signatures> pub1 pub2 <number of public keys>" "True / False"
      ("Compares the first signature against each public key until it finds an ECDSA match. "
      ++ "Starting with the subsequent public key, it compares the second signature against "
      ++ "each remaining public key until it finds an ECDSA match. The process is repeated "
      ++ "until all signatures have been checked or not enough public keys remain to produce "
      ++ "a successful result. If all signatures are valid, 1 is returned, 0 otherwise."),
    row ["OP_CHECKMULTISIGVERIFY"] [0xaf]
      "x sig1 sig2 ... <number of signatures> pub1 pub2 ... <number of public keys>"
      "Nothing / fail"
      "Same as OP_CHECKMULTISIG, but OP_VERIFY is executed afterward."]

/-- Time conditions. -/
def lockTime : List Row :=
  [row ["OP_CHECKLOCKTIMEVERIFY", "OP_NOP2"] [0xb1]
      "x" "x / fail"
      ("Marks transaction as invalid if the top stack item is greater than the "
      ++ "transaction's nLockTime field, otherwise script evaluation continues as though an "
      ++ "OP_NOP was executed."),
    row ["OP_CHECKSEQUENCEVERIFY", "OP_NOP3"] [0xb2]
      "x" "x / fail"
      ("Marks transaction as invalid if the relative lock time of the input is not equal to "
      ++ "or longer than the value of the top stack item.")]

/-- Words that stand for classes of data or opcodes. -/
def pseudoWords : List Row :=
  [row ["OP_PUBKEYHASH"] [0xfd] "" "" "Represents a public key hashed with OP_HASH160.",
    row ["OP_PUBKEY"] [0xfe] "" "" "Represents a public key compatible with OP_CHECKSIG.",
    row ["OP_INVALIDOPCODE"] [0xff] "" "" "Matches any opcode that is not yet assigned."]

/-- Words without a meaning yet, and words that do nothing. -/
def reservedWords : List Row :=
  [row ["OP_RESERVED"] [0x50] "" "" reserved,
    row ["OP_VER"] [0x62] "" "" reserved,
    row ["OP_VERIF"] [0x65] "" "" illegal,
    row ["OP_VERNOTIF"] [0x66] "" "" illegal,
    row ["OP_RESERVED1"] [0x89] "" "" reserved,
    row ["OP_RESERVED2"] [0x8a] "" "" reserved,
    row
      ["OP_NOP1", "OP_NOP4", "OP_NOP5", "OP_NOP6", "OP_NOP7", "OP_NOP8", "OP_NOP9",
       "OP_NOP10"]
      [0xb0, 0xb3, 0xb4, 0xb5, 0xb6, 0xb7, 0xb8, 0xb9]
      "" ""
      "The word is ignored. Does not mark transaction as invalid."]

/-- All rows. -/
def rows : List Row :=
  constants ++ flowControl ++ stack ++ splice ++ bitwiseLogic ++ arithmetic ++ crypto
    ++ lockTime ++ pseudoWords ++ reservedWords

end Standard

/-- The table of the network's script language. -/
def Table.standard : Table :=
  Table.ofRows Standard.rows

end Opcode
end ScriptCodec
