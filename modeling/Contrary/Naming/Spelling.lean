import Contrary.Naming.Names

/-!
# Spellings

Which names a program may introduce.  Every name must be an identifier of C,
because it becomes part of one in the generated program.

* A flag becomes a label with the same spelling, so it must not be a keyword, a
  macro of the included headers or of the generated preamble, or an identifier
  that C reserves.
* A variable is spelled with two underscores in front of it, among the
  identifiers reserved for the compiler and its library, so it must not complete
  one that they use.
* An array gets a distinctive beginning, so every identifier will do.
-/

namespace Contrary
namespace Spelling

/-- Keywords of C and of its common extensions. -/
def keywords : List Bytes :=
  [ "auto", "break", "case", "char", "const", "continue", "default", "do", "double", "else",
    "enum", "extern", "float", "for", "goto", "if", "inline", "int", "long", "register",
    "restrict", "return", "short", "signed", "sizeof", "static", "struct", "switch", "typedef",
    "union", "unsigned", "void", "volatile", "while", "bool", "true", "false", "asm", "typeof",
    "typeof_unqual", "alignas", "alignof", "static_assert", "thread_local", "constexpr",
    "nullptr" ].map ascii

/-- Macros without arguments of the included headers, and the macros of the
preamble. -/
def macros : List Bytes :=
  [ "NULL", "EOF", "BUFSIZ", "FILENAME_MAX", "FOPEN_MAX", "TMP_MAX", "L_tmpnam", "L_ctermid",
    "L_cuserid", "P_tmpdir", "SEEK_SET", "SEEK_CUR", "SEEK_END", "SEEK_DATA", "SEEK_HOLE",
    "EXIT_SUCCESS", "EXIT_FAILURE", "RAND_MAX", "MB_CUR_MAX", "WNOHANG", "WUNTRACED",
    "WSTOPPED", "WEXITED", "WCONTINUED", "WNOWAIT", "LITTLE_ENDIAN", "BIG_ENDIAN",
    "PDP_ENDIAN", "BYTE_ORDER", "FD_SETSIZE", "NFDBITS", "linux", "unix", "i386", "GOTO",
    "LEAK_CHECK", "ASSERT_ALIVE" ].map ascii

/-- Words that the compiler or its library uses after two underscores. -/
def compilerWords : List Bytes :=
  [ "asm", "attribute", "auto_type", "alignof", "bf16", "complex", "const", "extension",
    "float80", "float128", "fp16", "ibm128", "imag", "inline", "int128", "label", "real",
    "restrict", "seg_fs", "seg_gs", "signed", "thread", "typeof", "typeof_unqual", "volatile",
    "linux", "unix", "i386", "i486", "i586", "i686", "amd64", "x86_64", "k8", "always_inline",
    "flexarr", "long_double_t", "ptr_t", "returns_nonnull", "wur" ].map ascii

/-- Beginnings of such words. -/
def compilerStems : List Bytes :=
  [ "attr_", "attribute_", "builtin_", "extern_", "fortif", "glibc_", "has_",
    "restrict" ].map ascii

/-- The bytes of identifiers. -/
def isIdentifierByte (b : UInt8) : Bool :=
  b == '_'.toUInt8 || Bytes.isDigit b || Bytes.isLower b || Bytes.isUpper b

/-- A name of letters, digits and underscores that does not start with a digit. -/
def isIdentifier : Bytes → Bool
  | [] => false
  | b :: s => !Bytes.isDigit b && (b :: s).all isIdentifierByte

/-- A name that C reserves: it starts with an underscore and another one, or
with an underscore and a capital. -/
def isReserved : Bytes → Bool
  | a :: b :: _ => a == '_'.toUInt8 && (b == '_'.toUInt8 || Bytes.isUpper b)
  | _ => false

/-- A name without lower case letters and with a capital. -/
def isMacroCase (name : Bytes) : Bool :=
  !name.any Bytes.isLower && name.any Bytes.isUpper

/-- A name that spells a word of the compiler or its library once two
underscores stand before it. -/
def completesReserved (name : Bytes) : Bool :=
  compilerWords.contains name ||
    (ascii "__").isSuffixOf name || (ascii "_defined").isSuffixOf name ||
    (name.length > 1 && isMacroCase name) ||
    compilerStems.any (·.isPrefixOf name)

/-- Whether a program may introduce a name for a kind of thing. -/
def allowed (name : Bytes) : NameKind → Bool
  | .flag => isIdentifier name && !keywords.contains name && !macros.contains name &&
      !isReserved name
  | .variable => isIdentifier name && !completesReserved name
  | .array => isIdentifier name

end Spelling
end Contrary
