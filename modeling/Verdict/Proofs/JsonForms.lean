import Mathlib.Data.List.Forall2
import Verdict.Json.Spec

/-! The forms of JSON. Blanks may stand around every value and every sign; a character of a string
may stand for itself or be spelled with an escape; a number has a sign, digits, a fraction and an
exponent. What is written without blanks has these forms.
-/

set_option autoImplicit false

namespace Verdict.Json

def Blanks (s : List Char) : Prop := ∀ c ∈ s, isBlank c = true

section

variable {β κ : Type}

inductive Separated (Piece : List Char → β → Prop) : List Char → List β → Prop where
  | last {b t b' : List Char} {x : β} (hb : Blanks b) (ht : Piece t x) (hb' : Blanks b') :
      Separated Piece (b ++ (t ++ b')) [x]
  | more {b t b' ts : List Char} {x : β} {xs : List β} (hb : Blanks b) (ht : Piece t x)
      (hb' : Blanks b') (hts : Separated Piece ts xs) :
      Separated Piece (b ++ (t ++ (b' ++ ',' :: ts))) (x :: xs)

inductive Enclosed (opening closing : Char) (Piece : List Char → β → Prop) :
    List Char → List β → Prop where
  | empty {b : List Char} (hb : Blanks b) :
      Enclosed opening closing Piece (opening :: (b ++ [closing])) []
  | full {ts : List Char} {xs : List β} (hts : Separated Piece ts xs) :
      Enclosed opening closing Piece (opening :: (ts ++ [closing])) xs

inductive Member (Key : List Char → κ → Prop) : List Char → κ × List Char → Prop where
  | mk {k b b' v : List Char} {key : κ} (hk : Key k key) (hb : Blanks b) (hb' : Blanks b') :
      Member Key ('"' :: (k ++ '"' :: (b ++ ':' :: (b' ++ v)))) (key, v)

end

inductive Quad : List Char → Nat → Prop where
  | mk {a b c d : Char} {w x y z : Nat} (ha : hexValue? a = some w) (hb : hexValue? b = some x)
      (hc : hexValue? c = some y) (hd : hexValue? d = some z) :
      Quad [a, b, c, d] (((w * 16 + x) * 16 + y) * 16 + z)

structure Plain (c : Char) : Prop where
  ne_quote : c ≠ '"'
  ne_slash : c ≠ '\\'
  not_control : ¬ c < ' '

/-- What may stand between the quotes of a string, whether or not it spells any characters. -/
inductive Body : List Char → Prop where
  | done : Body []
  | plain {c : Char} {s : List Char} (hc : Plain c) (h : Body s) : Body (c :: s)
  | letter {d : Char} {s : List Char} (hd : (letterEscape? d).isSome = true) (h : Body s) :
      Body ('\\' :: d :: s)
  | unit {q s : List Char} {n : Nat} (hq : Quad q n) (h : Body s) : Body ('\\' :: 'u' :: (q ++ s))

/-- The characters that are spelled between two quotes: each one by itself, by a letter, by its
number, or by the two numbers of a surrogate pair. -/
inductive Spelled : List Char → List Char → Prop where
  | done : Spelled [] []
  | plain {c : Char} {s cs : List Char} (hc : Plain c) (h : Spelled s cs) :
      Spelled (c :: s) (c :: cs)
  | letter {c d : Char} {s cs : List Char} (hd : letterEscape? d = some c) (h : Spelled s cs) :
      Spelled ('\\' :: d :: s) (c :: cs)
  | unit {c : Char} {q s cs : List Char} (hq : Quad q c.toNat) (h : Spelled s cs) :
      Spelled ('\\' :: 'u' :: (q ++ s)) (c :: cs)
  | pair {c : Char} {q r s cs : List Char} {high low : Nat} (hq : Quad q (0xD800 + high))
      (hr : Quad r (0xDC00 + low)) (hhigh : high < 0x400) (hlow : low < 0x400)
      (hc : c.toNat = 0x10000 + high * 0x400 + low) (h : Spelled s cs) :
      Spelled ('\\' :: 'u' :: (q ++ '\\' :: 'u' :: (r ++ s))) (c :: cs)

def Spelling (k : List Char) (s : String) : Prop := Spelled k s.toList

def Digits (s : List Char) : Prop := s ≠ [] ∧ ∀ c ∈ s, isDigit c = true

inductive Whole : List Char → Prop where
  | zero : Whole ['0']
  | digits {c : Char} {s : List Char} (hne : c ≠ '0') (h : Digits (c :: s)) : Whole (c :: s)

inductive Fraction : List Char → Prop where
  | none : Fraction []
  | some {s : List Char} (h : Digits s) : Fraction ('.' :: s)

inductive Exponent : List Char → Prop where
  | none : Exponent []
  | some {e : Char} {sign s : List Char} (he : e = 'e' ∨ e = 'E')
      (hsign : sign ∈ [[], ['+'], ['-']]) (h : Digits s) : Exponent (e :: (sign ++ s))

inductive Value : List Char → Prop where
  | word {w : List Char} (hw : w ∈ ["null".toList, "true".toList, "false".toList]) : Value w
  | number {sign w f e : List Char} (hsign : sign ∈ [[], ['-']]) (hw : Whole w) (hf : Fraction f)
      (he : Exponent e) : Value (sign ++ (w ++ (f ++ e)))
  | string {s : List Char} (h : Body s) : Value ('"' :: (s ++ ['"']))
  | list {t : List Char} {vs : List (List Char)} (h : Enclosed '[' ']' Eq t vs)
      (hvs : ∀ v ∈ vs, Value v) : Value t
  | object {t : List Char} {ms : List (Unit × List Char)}
      (h : Enclosed '\x7b' '\x7d' (Member fun k _ => Body k) t ms) (hms : ∀ m ∈ ms, Value m.2) :
      Value t

theorem hexValue?_hexDigit : ∀ n, n < 16 → hexValue? (hexDigit n) = some n := by decide

theorem writeChar_cases (c : Char) :
    (∃ d, letterEscape? d = some c ∧ writeChar c = ['\\', d]) ∨
      (c.toNat < 32 ∧ writeChar c =
        ['\\', 'u', '0', '0', hexDigit (c.toNat / 16), hexDigit (c.toNat % 16)]) ∨
      (c ≠ '"' ∧ c ≠ '\\' ∧ ¬ c < ' ' ∧ writeChar c = [c]) := by
  by_cases hletter : c ∈ ['"', '\\', '\x08', '\x0c', '\n', '\r', '\t']
  · left
    simp only [List.mem_cons, List.not_mem_nil, or_false] at hletter
    rcases hletter with rfl | rfl | rfl | rfl | rfl | rfl | rfl
    · exact ⟨'"', by decide⟩
    · exact ⟨'\\', by decide⟩
    · exact ⟨'b', by decide⟩
    · exact ⟨'f', by decide⟩
    · exact ⟨'n', by decide⟩
    · exact ⟨'r', by decide⟩
    · exact ⟨'t', by decide⟩
  · right
    simp only [List.mem_cons, List.not_mem_nil, or_false, not_or] at hletter
    obtain ⟨hquote, hslash, hb, hf, hn, hr, ht⟩ := hletter
    have hwrite : writeChar c = if c < ' ' then
        ['\\', 'u', '0', '0', hexDigit (c.toNat / 16), hexDigit (c.toNat % 16)] else [c] := by
      simp [writeChar, hquote, hslash, hb, hf, hn, hr, ht]
    by_cases hcontrol : c < ' '
    · exact Or.inl ⟨hcontrol, by rw [hwrite, if_pos hcontrol]⟩
    · exact Or.inr ⟨hquote, hslash, hcontrol, by rw [hwrite, if_neg hcontrol]⟩

theorem spelled_writeChar (c : Char) {s cs : List Char} (h : Spelled s cs) :
    Spelled (writeChar c ++ s) (c :: cs) := by
  rcases writeChar_cases c with ⟨d, hd, hw⟩ | ⟨hlt, hw⟩ | ⟨hquote, hslash, hcontrol, hw⟩
  · rw [hw]
    exact .letter hd h
  · have hzero : hexValue? '0' = some 0 := by decide
    have hunit : ((0 * 16 + 0) * 16 + c.toNat / 16) * 16 + c.toNat % 16 = c.toNat := by omega
    have hquad := Quad.mk hzero hzero (hexValue?_hexDigit (c.toNat / 16) (by omega))
      (hexValue?_hexDigit (c.toNat % 16) (by omega))
    rw [hunit] at hquad
    rw [hw]
    exact .unit hquad h
  · rw [hw]
    exact .plain ⟨hquote, hslash, hcontrol⟩ h

theorem spelled_flatMap (cs : List Char) : Spelled (cs.flatMap writeChar) cs := by
  induction cs with
  | nil => exact .done
  | cons c cs ih => exact spelled_writeChar c ih

theorem blanks_nil : Blanks [] := by simp [Blanks]

section

variable {β : Type} {Piece : List Char → β → Prop}

theorem separated_writeItems {t : List Char} {ts : List (List Char)} {x : β} {xs : List β}
    (ht : Piece t x) (hts : List.Forall₂ Piece ts xs) :
    Separated Piece (writeItems (t :: ts)) (x :: xs) := by
  induction hts generalizing t x with
  | nil => simpa [writeItems] using Separated.last blanks_nil ht blanks_nil
  | cons hu _ ih => exact .more blanks_nil ht blanks_nil (ih hu)

theorem enclosed_writeItems {opening closing : Char} {ts : List (List Char)} {xs : List β}
    (h : List.Forall₂ Piece ts xs) :
    Enclosed opening closing Piece (opening :: (writeItems ts ++ [closing])) xs := by
  cases h with
  | nil => exact .empty blanks_nil
  | cons ht hts => exact .full (separated_writeItems ht hts)

end

theorem enclosed_writeList {β : Type} {Piece : List Char → β → Prop} {write : β → List Char}
    (h : ∀ x, Piece (write x) x) (xs : List β) :
    Enclosed '[' ']' Piece (writeList (xs.map write)) xs :=
  enclosed_writeItems (List.forall₂_map_left_iff.2 (List.forall₂_same.2 fun x _ => h x))

theorem member_writeMember {κ : Type} (Key : List Char → κ → Prop) {key : String} {x : κ}
    (h : Key (key.toList.flatMap writeChar) x) (v : List Char) :
    Member Key (writeMember key v) (x, v) := by
  have hmember : Member Key
      ('"' :: (key.toList.flatMap writeChar ++ '"' :: ([] ++ ':' :: ([] ++ v)))) (x, v) :=
    .mk h blanks_nil blanks_nil
  simpa [writeMember, writeString] using hmember

theorem enclosed_writeObject (ms : List (String × List Char)) :
    Enclosed '\x7b' '\x7d' (Member Spelling) (writeObject ms) ms :=
  enclosed_writeItems (List.forall₂_map_left_iff.2 (List.forall₂_same.2 fun m _ =>
    member_writeMember Spelling (spelled_flatMap m.1.toList) m.2))

theorem Spelled.body {s cs : List Char} (h : Spelled s cs) : Body s := by
  induction h with
  | done => exact .done
  | plain hc _ ih => exact .plain hc ih
  | letter hd _ ih => exact .letter (by simp [hd]) ih
  | unit hq _ ih => exact .unit hq ih
  | pair hq hr _ _ _ _ ih => exact .unit hq (.unit hr ih)

theorem value_writeList {vs : List (List Char)} (h : ∀ v ∈ vs, Value v) : Value (writeList vs) :=
  .list (enclosed_writeItems (List.forall₂_same.2 fun _ _ => rfl)) h

theorem value_writeObject {ms : List (String × List Char)} (h : ∀ m ∈ ms, Value m.2) :
    Value (writeObject ms) := by
  have hmembers : List.Forall₂ (Member fun k (_ : Unit) => Body k)
      (ms.map fun m => writeMember m.1 m.2) (ms.map fun m => ((), m.2)) := by
    refine List.forall₂_map_left_iff.2 (List.forall₂_map_right_iff.2 (List.forall₂_same.2 ?_))
    rintro ⟨key, v⟩ _
    exact member_writeMember (fun k _ => Body k) (spelled_flatMap key.toList).body v
  refine .object (enclosed_writeItems hmembers) fun m hm => ?_
  obtain ⟨m', hm', rfl⟩ := List.mem_map.1 hm
  exact h m' hm'

end Verdict.Json
