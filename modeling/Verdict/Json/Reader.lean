import Verdict.Json.Fault
import Verdict.Text.Reading

/-! Reading of JSON, one piece at a time. A reader takes the text from a place on and either names
what is wrong there or returns a value with the rest of the text, which is always shorter. The
pieces here are blanks, words, strings and the punctuation of lists and objects.
-/

set_option autoImplicit false

namespace Verdict.Json

abbrev Reader (α : Type) : Type := (s : List Char) → Except Fault (Step α s)

def isBlank (c : Char) : Bool := c == ' ' || c == '\t' || c == '\n' || c == '\r'

def trim (s : List Char) : Place s := ⟨s.dropWhile isBlank, (List.dropWhile_suffix _).length_le⟩

def isDigit (c : Char) : Bool := '0' ≤ c && c ≤ '9'

def startsWithDigit : List Char → Bool
  | c :: _ => isDigit c
  | [] => false

def skipDigits (s : List Char) : Place s :=
  ⟨s.dropWhile isDigit, (List.dropWhile_suffix _).length_le⟩

def word : List Char → (s : List Char) → Except Fault (Place s)
  | [], s => .ok (Place.here s)
  | _ :: _, [] => .error .endInValue
  | c :: cs, d :: r =>
    if c == d then (word cs r).map fun p => ⟨p.1, Nat.le_succ_of_le p.2⟩ else .error .badWord

def hexValue? (c : Char) : Option Nat :=
  if '0' ≤ c && c ≤ '9' then some (c.toNat - 48)
  else if 'a' ≤ c && c ≤ 'f' then some (c.toNat - 87)
  else if 'A' ≤ c && c ≤ 'F' then some (c.toNat - 55)
  else none

/-- Four hexadecimal digits. The text ends too early if it has fewer than four bytes left, whatever
they are. -/
def hexUnit : Reader Nat
  | a :: b :: c :: d :: r =>
    match hexValue? a, hexValue? b, hexValue? c, hexValue? d with
    | some a, some b, some c, some d => .ok ⟨((a * 16 + b) * 16 + c) * 16 + d, r, by simp; omega⟩
    | _, _, _, _ => .error .badEscape
  | s => if Text.byteLength s < 4 then .error .endInString else .error .badEscape

def isLow (unit : Nat) : Bool := 0xDC00 ≤ unit && unit ≤ 0xDFFF

def isHigh (unit : Nat) : Bool := 0xD800 ≤ unit && unit ≤ 0xDBFF

/-- The second half of a surrogate pair, which has to be an escape too. -/
def pairWith (high : Nat) : Reader Char
  | [] | ['\\'] => .error .endInString
  | '\\' :: 'u' :: r =>
    match hexUnit r with
    | .error fault => .error fault
    | .ok low =>
      if isLow low.value then
        .ok ⟨Char.ofNat (0x10000 + (high - 0xD800) * 0x400 + (low.value - 0xDC00)), low.rest,
          by have := low.shorter; simp; omega⟩
      else .error .loneSurrogate
  | _ => .error .surrogateCutShort

def unicodeEscape (s : List Char) : Except Fault (Step Char s) :=
  match hexUnit s with
  | .error fault => .error fault
  | .ok unit =>
    if isLow unit.value then .error .loneSurrogate
    else if isHigh unit.value then
      (pairWith unit.value unit.rest).map (·.widen (Nat.le_of_lt unit.shorter))
    else .ok (unit.map Char.ofNat)

def letterEscape? : Char → Option Char
  | '"' => some '"'
  | '\\' => some '\\'
  | '/' => some '/'
  | 'b' => some '\x08'
  | 'f' => some '\x0c'
  | 'n' => some '\n'
  | 'r' => some '\r'
  | 't' => some '\t'
  | _ => none

def escape : Reader Char
  | [] => .error .endInString
  | 'u' :: r => (unicodeEscape r).map (·.widen (by simp))
  | c :: r =>
    match letterEscape? c with
    | some d => .ok ⟨d, r, by simp⟩
    | none => .error .badEscape

def stringBody (s : List Char) : Except Fault (Step (List Char) s) :=
  match s with
  | [] => .error .endInString
  | '"' :: r => .ok ⟨[], r, by simp⟩
  | '\\' :: r =>
    match escape r with
    | .error fault => .error fault
    | .ok head =>
      have := head.shorter
      match stringBody head.rest with
      | .error fault => .error fault
      | .ok tail => .ok ⟨head.value :: tail.value, tail.rest, by have := tail.shorter; simp; omega⟩
  | c :: r =>
    if c < ' ' then .error .controlCharacter
    else match stringBody r with
      | .error fault => .error fault
      | .ok tail => .ok ⟨c :: tail.value, tail.rest, by have := tail.shorter; simp; omega⟩
termination_by s.length
decreasing_by all_goals simp <;> omega

/-- As a string is passed over: its escapes have to be well formed, but halves of surrogate pairs
are not looked at. -/
def skipString (s : List Char) : Except Fault (Step Unit s) :=
  match s with
  | [] => .error .endInString
  | '"' :: r => .ok ⟨(), r, by simp⟩
  | '\\' :: 'u' :: r =>
    match hexUnit r with
    | .error fault => .error fault
    | .ok unit =>
      have := unit.shorter
      (skipString unit.rest).map (·.widen (by simp; omega))
  | ['\\'] => .error .endInString
  | '\\' :: c :: r =>
    if (letterEscape? c).isSome then (skipString r).map (·.widen (by simp; omega))
    else .error .badEscape
  | c :: r =>
    if c < ' ' then .error .controlCharacter
    else (skipString r).map (·.widen (by simp))
termination_by s.length
decreasing_by all_goals simp <;> omega

inductive Next (s : List Char) where
  | closed (rest : List Char) (shorter : rest.length < s.length)
  | more (rest : List Char) (le : rest.length ≤ s.length)

def nextElement (first : Bool) (s : List Char) : Except Fault (Next s) :=
  match trim s with
  | ⟨[], _⟩ => .error .endInList
  | ⟨']' :: r, h⟩ => .ok (.closed r h)
  | ⟨c :: r, h⟩ =>
    if first then .ok (.more (c :: r) h)
    else if c == ',' then
      match trim r with
      | ⟨[], _⟩ => .error .endInValue
      | ⟨']' :: _, _⟩ => .error .trailingComma
      | ⟨d :: t, ht⟩ => .ok (.more (d :: t) (by simp at h ht; simp; omega))
    else .error .noCommaInList

def nextMember (first : Bool) (s : List Char) : Except Fault (Next s) :=
  match trim s with
  | ⟨[], _⟩ => .error .endInObject
  | ⟨'\x7d' :: r, h⟩ => .ok (.closed r h)
  | ⟨c :: r, h⟩ =>
    if first then
      if c == '"' then .ok (.more r (by simp at h; omega)) else .error .keyNotString
    else if c == ',' then
      match trim r with
      | ⟨[], _⟩ => .error .endInValue
      | ⟨'"' :: t, ht⟩ => .ok (.more t (by simp at h ht; omega))
      | ⟨'\x7d' :: _, _⟩ => .error .trailingComma
      | _ => .error .keyNotString
    else .error .noCommaInObject

def closing (s : List Char) : Except Fault (Place s) :=
  match trim s with
  | ⟨[], _⟩ => .error .endInList
  | ⟨']' :: r, h⟩ => .ok ⟨r, by simp at h; omega⟩
  | ⟨',' :: r, _⟩ =>
    match trim r with
    | ⟨']' :: _, _⟩ => .error .trailingComma
    | _ => .error .trailingCharacters
  | _ => .error .trailingCharacters

def colon (s : List Char) : Except Fault (Place s) :=
  match trim s with
  | ⟨[], _⟩ => .error .endInObject
  | ⟨':' :: r, h⟩ => .ok ⟨r, by simp at h; omega⟩
  | _ => .error .noColon

end Verdict.Json
