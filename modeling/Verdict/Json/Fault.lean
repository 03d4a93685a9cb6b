import Verdict.Decimal
import Verdict.Text.Quoted

set_option autoImplicit false

namespace Verdict.Json

inductive Found where
  | null
  | bool (b : Bool)
  | integer (n : Int)
  | floating (d : Decimal)
  | string (s : String)
  | sequence
  | map
deriving DecidableEq, Repr

inductive Expected where
  | string
  | sequence
  | rule
  | domain
  | spec
deriving DecidableEq, Repr

inductive Fault where
  | endInValue
  | endInList
  | endInObject
  | endInString
  | noValue
  | badWord
  | badNumber
  | numberOutOfRange
  | keyNotString
  | noColon
  | noCommaInObject
  | noCommaInList
  | trailingComma
  | trailingCharacters
  | badEscape
  | loneSurrogate
  | surrogateCutShort
  | controlCharacter
  | wrongType (found : Found) (expected : Expected)
  | duplicateField (name : String)
  | missingField (name : String)
  | tooShort (length : Nat) (expected : Expected) (elements : Nat)
deriving DecidableEq, Repr

def floatStyle : Decimal.Style := ⟨-5, 15⟩

namespace Found

def text : Found → String
  | null => "null"
  | bool b => s!"boolean `{b}`"
  | integer n => s!"integer `{n}`"
  | floating d => "floating point `" ++ d.text floatStyle ++ "`"
  | string s => "string " ++ Text.quote s
  | sequence => "sequence"
  | map => "map"

end Found

def Expected.text : Expected → String
  | .string => "a string"
  | .sequence => "a sequence"
  | .rule => "struct RuleOption"
  | .domain => "struct Domain"
  | .spec => "struct TreeSpec"

inductive Category where
  | syntactic
  | data
  | ending
deriving DecidableEq, Repr

namespace Fault

def category : Fault → Category
  | endInValue | endInList | endInObject | endInString => .ending
  | wrongType _ _ | duplicateField _ | missingField _ | tooShort _ _ _ => .data
  | _ => .syntactic

def text : Fault → String
  | endInValue => "EOF while parsing a value"
  | endInList => "EOF while parsing a list"
  | endInObject => "EOF while parsing an object"
  | endInString => "EOF while parsing a string"
  | noValue => "expected value"
  | badWord => "expected ident"
  | badNumber => "invalid number"
  | numberOutOfRange => "number out of range"
  | keyNotString => "key must be a string"
  | noColon => "expected `:`"
  | noCommaInObject => "expected `,` or `\x7d`"
  | noCommaInList => "expected `,` or `]`"
  | trailingComma => "trailing comma"
  | trailingCharacters => "trailing characters"
  | badEscape => "invalid escape"
  | loneSurrogate => "lone leading surrogate in hex escape"
  | surrogateCutShort => "unexpected end of hex escape"
  | controlCharacter => "control character (\\u0000-\\u001F) found while parsing a string"
  | wrongType found expected => "invalid type: " ++ found.text ++ ", expected " ++ expected.text
  | duplicateField name => "duplicate field `" ++ name ++ "`"
  | missingField name => "missing field `" ++ name ++ "`"
  | tooShort length expected elements =>
    s!"invalid length {length}, expected {expected.text} with {elements} elements"

def message (f : Fault) : String := "invalid JSON rule file: " ++ f.text

end Fault

end Verdict.Json
