import Verdict.Json.Reader

set_option autoImplicit false

namespace Verdict.Json

def digitValue (c : Char) : Nat := c.toNat - 48

def takeDigits (n : Nat) : List Char → Nat × List Char
  | [] => (n, [])
  | c :: r =>
    if isDigit c && n * 10 + digitValue c < 0x10000000000000000 then
      takeDigits (n * 10 + digitValue c) r
    else (n, c :: r)

def powerOfTen (n : Nat) : Float := Float.ofScientific 1 false n

def lower (x : Float) (n : Nat) : Float :=
  if n ≤ 308 then x / powerOfTen n
  else if x == 0 then x
  else lower (x / powerOfTen 308) (n - 308)
termination_by n
decreasing_by omega

def scaled (negative : Bool) (significand : Nat) (exponent : Int) : Except Fault Found :=
  let x := Float.ofNat significand
  let signed (x : Float) := Found.floating (Decimal.ofFloat (if negative then -x else x))
  if exponent < 0 then .ok (signed (lower x exponent.natAbs))
  else if 308 < exponent then if significand == 0 then .ok (signed x) else .error .numberOutOfRange
  else
    let y := x * powerOfTen exponent.toNat
    if y.isInf then .error .numberOutOfRange else .ok (signed y)

def greatestExponent : Nat := 0x7FFFFFFF

def exponentPart (negative : Bool) (significand : Nat) (exponent : Int) (s : List Char) :
    Except Fault Found :=
  let (down, s) := match s with
    | '+' :: r => (false, r)
    | '-' :: r => (true, r)
    | _ => (false, s)
  if s.isEmpty then .error .endInValue
  else if !startsWithDigit s then .error .badNumber
  else
    let n := (s.takeWhile isDigit).foldl (fun n c => n * 10 + digitValue c) 0
    if greatestExponent < n then
      if significand != 0 && !down then .error .numberOutOfRange else scaled negative 0 0
    else scaled negative significand (if down then exponent - n else exponent + n)

def afterDigits (negative : Bool) (significand : Nat) (exponent : Int) (s : List Char) :
    Except Fault Found :=
  match s with
  | 'e' :: r | 'E' :: r => exponentPart negative significand exponent r
  | _ => scaled negative significand exponent

/-- What follows a decimal point. Digits that no longer fit are ignored. -/
def fractionPart (negative : Bool) (significand : Nat) (exponent : Int) (s : List Char) :
    Except Fault Found :=
  let (more, r) := takeDigits significand s
  let exponent := exponent - (s.length - r.length : Nat)
  if startsWithDigit r then afterDigits negative more exponent (skipDigits r).1
  else if s.length == r.length then .error (if r.isEmpty then .endInValue else .badNumber)
  else afterDigits negative more exponent r

def wholeNumber (negative : Bool) (n : Nat) : Except Fault Found :=
  if !negative then .ok (.integer n)
  else if n == 0 || 0x8000000000000000 < n then scaled true n 0
  else .ok (.integer (-n))

/-- What follows the digits in front of a decimal point. Digits that do not fit any more count as
powers of ten. -/
def afterWhole (negative : Bool) (significand : Nat) (s : List Char) : Except Fault Found :=
  let r := (skipDigits s).1
  let exponent : Int := (s.length - r.length : Nat)
  match r with
  | '.' :: r => fractionPart negative significand exponent r
  | 'e' :: r | 'E' :: r => exponentPart negative significand exponent r
  | _ =>
    if startsWithDigit s then scaled negative significand exponent
    else wholeNumber negative significand

def number (negative : Bool) : List Char → Except Fault Found
  | [] => .error .endInValue
  | '0' :: r => if startsWithDigit r then .error .badNumber else afterWhole negative 0 r
  | c :: r =>
    if isDigit c then
      let (significand, rest) := takeDigits (digitValue c) r
      afterWhole negative significand rest
    else .error .badNumber

def skipExponent (s : List Char) : Except Fault (Place s) :=
  match s with
  | '+' :: c :: r | '-' :: c :: r =>
    if isDigit c then .ok ⟨(skipDigits r).1, by have := (skipDigits r).2; simp; omega⟩
    else .error .badNumber
  | c :: r =>
    if isDigit c then .ok ⟨(skipDigits r).1, by have := (skipDigits r).2; simp; omega⟩
    else .error .badNumber
  | [] => .error .badNumber

def skipFraction (s : List Char) : Except Fault (Place s) :=
  if !startsWithDigit s then .error .badNumber
  else match skipDigits s with
    | ⟨'e' :: r, h⟩ | ⟨'E' :: r, h⟩ =>
      (skipExponent r).map fun p => ⟨p.1, by have := p.2; simp at h; omega⟩
    | p => .ok p

def skipAfterWhole {s : List Char} (r : List Char) (h : r.length < s.length) :
    Except Fault (Step Unit s) :=
  match r with
  | '.' :: t => (skipFraction t).map fun p => ⟨(), p.1, by have := p.2; simp at h; omega⟩
  | 'e' :: t | 'E' :: t =>
    (skipExponent t).map fun p => ⟨(), p.1, by have := p.2; simp at h; omega⟩
  | t => .ok ⟨(), t, h⟩

def skipNumber : Reader Unit
  | '0' :: r =>
    if startsWithDigit r then .error .badNumber else skipAfterWhole r (length_lt_cons _ r)
  | c :: r =>
    if isDigit c then skipAfterWhole (skipDigits r).1 (by have := (skipDigits r).2; simp; omega)
    else .error .badNumber
  | [] => .error .badNumber

end Verdict.Json
