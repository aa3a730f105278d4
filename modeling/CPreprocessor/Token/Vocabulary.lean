import CPreprocessor.Text

/-!
The fixed words of the language: punctuators of several bytes, names that no macro may
have, and the encoding letters in front of literals.
-/

namespace CPreprocessor
namespace Vocabulary

/-- The punctuators of several bytes, longest first. The scanner takes the first that fits. -/
def punctuators : List Text :=
  ["%:%:", "->*", "...", ">>=", "<<=",
    "##", "<:", ":>", "<%", "%>", "%:", "::", ".*",
    "+=", "-=", "*=", "/=", "%=", "^=", "&=", "|=",
    "<<", ">>", "==", "!=", "<=", ">=", "&&", "||",
    "++", "--", "->"].map ascii

def isPunctuator (t : Text) : Bool :=
  punctuators.contains t

/-- The parameter that stands for the variable arguments. -/
def variadicName : Text :=
  ascii "__VA_ARGS__"

def definedName : Text :=
  ascii "defined"

/-- The names that no macro may have. -/
def reserved : List Text :=
  [definedName, variadicName] ++
    ["and", "and_eq", "bitand", "bitor", "compl", "not", "not_eq", "or", "or_eq", "xor",
      "xor_eq"].map ascii

def isReserved (t : Text) : Bool :=
  reserved.contains t

/-- The encoding letters that may stand directly in front of a quote. -/
def encodings : List Text :=
  ["u8", "u", "U", "L", "R", "u8R", "uR", "UR", "LR"].map ascii

def isEncoding (t : Text) : Bool :=
  encodings.contains t

end Vocabulary
end CPreprocessor
