/-! How texts are read: steps of a reader, each of which leaves less to read than there was; places
in a text, in bytes and in lines and columns; and UTF-8, with the place where a text of bytes stops
being one.
-/

set_option autoImplicit false

namespace Verdict

structure Step {γ : Type} (α : Type) (s : List γ) where
  value : α
  rest : List γ
  shorter : rest.length < s.length

/-- What is left to read, at or after the present place. -/
abbrev Place {γ : Type} (s : List γ) : Type := { r : List γ // r.length ≤ s.length }

def Place.here {γ : Type} (s : List γ) : Place s := ⟨s, Nat.le_refl _⟩

theorem length_lt_cons {γ : Type} (c : γ) (r : List γ) : r.length < (c :: r).length :=
  Nat.lt_succ_self _

namespace Step

variable {γ α β : Type} {s t : List γ}

def widen (step : Step α t) (h : t.length ≤ s.length) : Step α s :=
  ⟨step.value, step.rest, Nat.lt_of_lt_of_le step.shorter h⟩

def after (c : γ) (step : Step α s) : Step α (c :: s) :=
  step.widen (Nat.le_of_lt (length_lt_cons c s))

def map (f : α → β) (step : Step α s) : Step β s := ⟨f step.value, step.rest, step.shorter⟩

end Step

end Verdict

namespace Verdict.Text

def byteLength (s : List Char) : Nat := s.foldr (fun c n => c.utf8Size + n) 0

/-- The characters that end at or before an offset in bytes. -/
def upTo : Nat → List Char → List Char
  | _, [] => []
  | offset, c :: cs => if c.utf8Size ≤ offset then c :: upTo (offset - c.utf8Size) cs else []

/-- Both numbers count from one. An offset behind the end of the text is taken for the end. -/
def lineColumn (text : String) (offset : Nat) : Nat × Nat :=
  let before := upTo offset text.toList
  (before.count '\n' + 1, (before.reverse.takeWhile (· != '\n')).length + 1)

def encodeUtf8 (s : String) : List UInt8 := s.toList.flatMap String.utf8EncodeChar

/-- Up to `valid` all is well. Then come bytes that no character starts with, as many as `length`
says, or the text ends inside a character. -/
structure Utf8Fault where
  valid : Nat
  length : Option Nat
deriving DecidableEq, Repr

/-- What the first byte of a character says: how many bytes follow, the bits it holds itself, and
the bounds of the second byte. -/
structure Lead where
  following : Nat
  bits : Nat
  least : Nat
  greatest : Nat
deriving DecidableEq, Repr

def lead? (b : Nat) : Option Lead :=
  if b < 0x80 then some ⟨0, b, 0, 0⟩
  else if b < 0xC2 then none
  else if b < 0xE0 then some ⟨1, b - 0xC0, 0x80, 0xBF⟩
  else if b < 0xF0 then
    some ⟨2, b - 0xE0, if b == 0xE0 then 0xA0 else 0x80, if b == 0xED then 0x9F else 0xBF⟩
  else if b < 0xF5 then
    some ⟨3, b - 0xF0, if b == 0xF0 then 0x90 else 0x80, if b == 0xF4 then 0x8F else 0xBF⟩
  else none

/-- The bytes of a character from the second on; `taken` counts those before. -/
def continuation (least greatest taken code : Nat) : Nat → (bs : List UInt8) →
    Except (Option Nat) (Nat × Place bs)
  | 0, bs => .ok (code, ⟨bs, Nat.le_refl _⟩)
  | _ + 1, [] => .error none
  | n + 1, b :: bs =>
    if least ≤ b.toNat && b.toNat ≤ greatest then
      (continuation 0x80 0xBF (taken + 1) (code * 64 + (b.toNat - 0x80)) n bs).map fun p =>
        (p.1, ⟨p.2.1, Nat.le_succ_of_le p.2.2⟩)
    else .error (some taken)

def decodeFrom (valid : Nat) (bs : List UInt8) : Except Utf8Fault (List Char) :=
  match bs with
  | [] => .ok []
  | b :: r =>
    match lead? b.toNat with
    | none => .error ⟨valid, some 1⟩
    | some lead =>
      match continuation lead.least lead.greatest 1 lead.bits lead.following r with
      | .error length => .error ⟨valid, length⟩
      | .ok (code, place) =>
        have : place.1.length < (b :: r).length := Nat.lt_succ_of_le place.2
        (decodeFrom (valid + 1 + lead.following) place.1).map (Char.ofNat code :: ·)
termination_by bs.length
decreasing_by exact this

def decodeUtf8 (bs : List UInt8) : Except Utf8Fault String := (decodeFrom 0 bs).map String.ofList

end Verdict.Text
