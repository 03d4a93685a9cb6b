import Verdict.Text.Reading

/-! The words and signs of the rule language. A word is as long as it can be; blanks and comments
may stand between words and signs and mean nothing. Every lexeme carries its place in the text,
counted in bytes of UTF-8.
-/

set_option autoImplicit false

namespace Verdict.Language

inductive Token where
  | word (text : String)
  | leftParen
  | rightParen
  | comma
  | colon
  | stray (c : Char)
deriving DecidableEq, Repr

structure Lexeme where
  token : Token
  start : Nat
  stop : Nat
deriving DecidableEq, Repr

def isBlank (c : Char) : Bool := c == ' ' || c == '\t' || c == '\n' || c == '\x0c' || c == '\r'

def startsWord (c : Char) : Bool := c.isAlpha || c == '_'

def continuesWord (c : Char) : Bool := c.isAlphanum || c == '_' || c == '.' || c == '-'

def sign? : Char → Option Token
  | '(' => some .leftParen
  | ')' => some .rightParen
  | ',' => some .comma
  | ':' => some .colon
  | _ => none

def endsLine (c : Char) : Bool := c == '\r' || c == '\n'

/-- The text of a comment behind its sign, which goes up to the end of the line or of the text. A
carriage return ends a line only together with a line feed. -/
def comment? (s : List Char) : Option (List Char) :=
  match s.dropWhile (!endsLine ·) with
  | [] | '\n' :: _ | '\r' :: '\n' :: _ => some (s.takeWhile (!endsLine ·))
  | _ => none

/-- The lexemes from an offset on. At a character that fits nowhere the scan ends; nothing behind it
is looked at. -/
def scanFrom (offset : Nat) (s : List Char) : List Lexeme :=
  match s with
  | [] => []
  | c :: r =>
    if isBlank c then scanFrom (offset + c.utf8Size) r
    else if c == '#' then
      match comment? r with
      | some text =>
        scanFrom (offset + 1 + Text.byteLength text) (r.drop text.length)
      | none => [⟨.stray c, offset, offset + 1⟩]
    else if startsWord c then
      let word := c :: r.takeWhile continuesWord
      let stop := offset + Text.byteLength word
      ⟨.word (String.ofList word), offset, stop⟩ :: scanFrom stop (r.dropWhile continuesWord)
    else
      let stop := offset + c.utf8Size
      match sign? c with
      | some token => ⟨token, offset, stop⟩ :: scanFrom stop r
      | none => [⟨.stray c, offset, stop⟩]
termination_by s.length
decreasing_by
  · exact Nat.lt_succ_self _
  · simp only [List.length_drop, List.length_cons]; omega
  · exact Nat.lt_succ_of_le (List.dropWhile_suffix _).length_le
  · exact Nat.lt_succ_self _

def scan (text : String) : List Lexeme := scanFrom 0 text.toList

inductive Keyword where
  | and
  | or
  | option
  | domain
  | priority
deriving DecidableEq, Repr

namespace Keyword

def text : Keyword → String
  | and => "and"
  | or => "or"
  | option => "option"
  | domain => "domain"
  | priority => "priority"

def all : List Keyword := [and, or, option, domain, priority]

def spells (k : Keyword) (word : String) : Bool := word.toLower == k.text

def isToken (k : Keyword) : Token → Bool
  | .word w => k.spells w
  | _ => false

end Keyword

def isName (word : String) : Bool := Keyword.all.all (!·.spells word)

end Verdict.Language
