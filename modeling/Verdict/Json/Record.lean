import Verdict.Json.Skip

/-! Typed values in JSON: strings, lists, and records. A record is an object whose keys name the
fields, in any order and among keys that mean nothing, or a list of the fields in their order, of
which the last may be missing.
-/

set_option autoImplicit false

namespace Verdict.Json

variable {α σ : Type}

/-- What is wrong with a value of another type. A plain value is read before it is judged; of a list
or an object the bracket is enough. -/
def mistyped (expected : Expected) (s : List Char) : Fault :=
  let judge (found : Except Fault Found) : Fault :=
    match found with
    | .error fault => fault
    | .ok found => .wrongType found expected
  match s with
  | [] => .endInValue
  | 'n' :: r => judge ((word "ull".toList r).map fun _ => .null)
  | 't' :: r => judge ((word "rue".toList r).map fun _ => .bool true)
  | 'f' :: r => judge ((word "alse".toList r).map fun _ => .bool false)
  | '-' :: r => judge (number true r)
  | '"' :: r => judge ((stringBody r).map fun step => .string (String.ofList step.value))
  | '[' :: _ => .wrongType .sequence expected
  | '\x7b' :: _ => .wrongType .map expected
  | c :: r => if isDigit c then judge (number false (c :: r)) else .noValue

def string : Reader String := fun s =>
  match trim s with
  | ⟨'"' :: r, h⟩ => (stringBody r).map fun step => (step.map String.ofList).widen (Nat.le_of_lt h)
  | ⟨r, _⟩ => .error (mistyped .string r)

def elements (item : Reader α) (first : Bool) (s : List Char) : Except Fault (Step (List α) s) :=
  match nextElement first s with
  | .error fault => .error fault
  | .ok (.closed r h) => .ok ⟨[], r, h⟩
  | .ok (.more r h) =>
    match item r with
    | .error fault => .error fault
    | .ok head =>
      have := head.shorter
      match elements item false head.rest with
      | .error fault => .error fault
      | .ok tail => .ok ⟨head.value :: tail.value, tail.rest, by have := tail.shorter; omega⟩
termination_by s.length
decreasing_by omega

def list (item : Reader α) : Reader (List α) := fun s =>
  match trim s with
  | ⟨'[' :: r, h⟩ => (elements item true r).map (·.widen (Nat.le_of_lt h))
  | ⟨r, _⟩ => .error (mistyped .sequence r)

structure Field (σ : Type) where
  name : String
  given : σ → Bool
  read : σ → Reader σ

/-- The members of an object. A field may be given once; a repetition is refused at its key. -/
def members (fields : List (Field σ)) (first : Bool) (state : σ) (s : List Char) :
    Except Fault (Step σ s) :=
  match nextMember first s with
  | .error fault => .error fault
  | .ok (.closed r h) => .ok ⟨state, r, h⟩
  | .ok (.more r h) =>
    match stringBody r with
    | .error fault => .error fault
    | .ok key =>
      let known := fields.find? (·.name == String.ofList key.value)
      if known.any (·.given state) then .error (.duplicateField (String.ofList key.value))
      else match colon key.rest with
        | .error fault => .error fault
        | .ok place =>
          let value : Except Fault (Step σ place.1) := match known with
            | some field => field.read state place.1
            | none => (skipValue place.1).map (·.map fun _ => state)
          match value with
          | .error fault => .error fault
          | .ok value =>
            have : value.rest.length < s.length := by
              have := value.shorter; have := place.2; have := key.shorter; omega
            (members fields false value.value value.rest).map (·.widen (Nat.le_of_lt this))
termination_by s.length

def positions (first : Bool) (state : σ) : List (Field σ) → (s : List Char) →
    Except Fault (σ × Place s)
  | [], s => (closing s).map fun p => (state, p)
  | field :: fields, s =>
    match nextElement first s with
    | .error fault => .error fault
    | .ok (.closed r h) => .ok (state, ⟨r, Nat.le_of_lt h⟩)
    | .ok (.more r h) =>
      match field.read state r with
      | .error fault => .error fault
      | .ok value =>
        (positions false value.value fields value.rest).map fun p =>
          (p.1, ⟨p.2.1, by have := p.2.2; have := value.shorter; omega⟩)

inductive Shape where
  | object
  | list
deriving DecidableEq, Repr

/-- A record from its first bracket on; `finish` refuses it if a field is missing that has to be
there. -/
def record (expected : Expected) (fields : List (Field σ)) (start : σ)
    (finish : Shape → σ → Except Fault α) : Reader α := fun s =>
  match trim s with
  | ⟨'\x7b' :: r, h⟩ =>
    match members fields true start r with
    | .error fault => .error fault
    | .ok step => (finish .object step.value).map fun a =>
      ⟨a, step.rest, by have := step.shorter; simp at h; omega⟩
  | ⟨'[' :: r, h⟩ =>
    match positions true start fields r with
    | .error fault => .error fault
    | .ok (state, place) => (finish .list state).map fun a =>
      ⟨a, place.1, by have := place.2; simp at h; omega⟩
  | ⟨r, _⟩ => .error (mistyped expected r)

def whole (reader : Reader α) (text : String) : Except Fault α :=
  match reader text.toList with
  | .error fault => .error fault
  | .ok step =>
    match trim step.rest with
    | ⟨[], _⟩ => .ok step.value
    | _ => .error .trailingCharacters

end Verdict.Json
