import Verdict.Json.Number

set_option autoImplicit false

namespace Verdict.Json

inductive Frame where
  | list
  | object
deriving DecidableEq, Repr

namespace Frame

def close : Frame → Char
  | list => ']'
  | object => '\x7d'

def ended : Frame → Fault
  | list => .endInList
  | object => .endInObject

def noComma : Frame → Fault
  | list => .noCommaInList
  | object => .noCommaInObject

end Frame

def enter (frame : Frame) (s : List Char) : Except Fault (Place s) :=
  match frame with
  | .list => .ok (Place.here s)
  | .object =>
    match trim s with
    | ⟨[], _⟩ => .error .endInObject
    | ⟨'"' :: r, h⟩ =>
      match skipString r with
      | .error fault => .error fault
      | .ok key =>
        (colon key.rest).map fun p =>
          ⟨p.1, by have := p.2; have := key.shorter; simp at h; omega⟩
    | _ => .error .keyNotString

/-- The place after a complete value and all brackets that close there. If a frame is still open, it
is the place of its next value. -/
structure Resume (s : List Char) where
  frames : List Frame
  place : Place s

def resume : List Frame → (s : List Char) → Except Fault (Resume s)
  | [], s => .ok ⟨[], s, Nat.le_refl _⟩
  | frame :: outer, s =>
    match trim s with
    | ⟨[], _⟩ => .error frame.ended
    | ⟨c :: r, h⟩ =>
      if c == ',' then
        (enter frame r).map fun p => ⟨frame :: outer, p.1, by have := p.2; simp at h; omega⟩
      else if c == frame.close then
        (resume outer r).map fun t => ⟨t.frames, t.place.1, by have := t.place.2; simp at h; omega⟩
      else .error frame.noComma

def skipWord (w : String) (c : Char) (r : List Char) : Except Fault (Step Unit (c :: r)) :=
  (word w.toList r).map fun p => ⟨(), p.1, Nat.lt_succ_of_le p.2⟩

def skipPlain : Reader Unit
  | [] => .error .endInValue
  | 'n' :: r => skipWord "ull" _ r
  | 't' :: r => skipWord "rue" _ r
  | 'f' :: r => skipWord "alse" _ r
  | '-' :: r => (skipNumber r).map (·.after _)
  | '"' :: r => (skipString r).map (·.after _)
  | c :: r => if isDigit c then skipNumber (c :: r) else .error .noValue

def bracket? : Char → Option Frame
  | '[' => some .list
  | '\x7b' => some .object
  | _ => none

/-- After the first bracket of a list or an object: either it is closed at once and the value is
complete, or its first value comes next. -/
def opened (frame : Frame) (outer : List Frame) (s : List Char) : Except Fault (Resume s) :=
  match trim s with
  | ⟨[], _⟩ => .error frame.ended
  | ⟨c :: r, h⟩ =>
    if c == frame.close then
      (resume outer r).map fun t => ⟨t.frames, t.place.1, by have := t.place.2; simp at h; omega⟩
    else
      (enter frame (c :: r)).map fun p => ⟨frame :: outer, p.1, Nat.le_trans p.2 h⟩

def skipIn (frames : List Frame) (s : List Char) : Except Fault (Step Unit s) :=
  match trim s with
  | ⟨[], _⟩ => .error .endInValue
  | ⟨c :: r, h⟩ =>
    let next : Except Fault (Resume r) :=
      match bracket? c with
      | some frame => opened frame frames r
      | none =>
        match skipPlain (c :: r) with
        | .error fault => .error fault
        | .ok plain =>
          (resume frames plain.rest).map fun t =>
            ⟨t.frames, t.place.1, by have := t.place.2; have := plain.shorter; simp at this; omega⟩
    match next with
    | .error fault => .error fault
    | .ok ⟨[], place⟩ => .ok ⟨(), place.1, by have := place.2; simp at h; omega⟩
    | .ok ⟨frame :: outer, place⟩ =>
      have : place.1.length < s.length := by have := place.2; simp at h; omega
      (skipIn (frame :: outer) place.1).map (·.widen (Nat.le_of_lt this))
termination_by s.length

def skipValue : Reader Unit := skipIn []

end Verdict.Json
