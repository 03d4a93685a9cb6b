import Verdict.Proofs.Layout
import Verdict.Proofs.Syntax

set_option autoImplicit false

namespace Verdict

namespace Text

theorem byteLength_cons (c : Char) (s : List Char) :
    byteLength (c :: s) = c.utf8Size + byteLength s := rfl

theorem byteLength_append (s r : List Char) :
    byteLength (s ++ r) = byteLength s + byteLength r := by
  induction s with
  | nil => exact (Nat.zero_add _).symm
  | cons c s ih =>
    rw [List.cons_append, byteLength_cons, byteLength_cons, ih, Nat.add_assoc]

theorem utf8ByteSize_ofList (s : List Char) : (String.ofList s).utf8ByteSize = byteLength s := by
  induction s with
  | nil => rfl
  | cons c s ih =>
    have hsplit : String.ofList (c :: s) = String.singleton c ++ String.ofList s := by
      rw [String.singleton_eq_ofList, ← String.ofList_append, List.singleton_append]
    rw [hsplit, String.utf8ByteSize_append, String.utf8ByteSize_singleton, ih, byteLength_cons]

end Text

namespace Language

open Verdict.Text

/-- What is behind a piece may be replaced by what ends a line and a word as well. -/
theorem Piece.before {piece r r' : List Char} {found : Option Token} (h : Piece piece found r)
    (hline : LineEnd r → LineEnd r') (hword : WordEnd r → WordEnd r') : Piece piece found r' := by
  cases h with
  | space hc => exact .space hc r'
  | comment ht hr => exact .comment ht (hline hr)
  | sign hc => exact .sign hc r'
  | word hw he => exact .word hw (hword he)

theorem WordEnd.cut {s r : List Char} (h : WordEnd s) (hr : r <+: s) : WordEnd r := by
  intro c hc
  obtain ⟨t, rfl⟩ := hr
  exact h c (by rw [List.head?_append, Option.mem_def.1 hc]; rfl)

inductive Visible : List Char → Prop where
  | mk {c : Char} (hc : ¬ Space c) (s : List Char) : Visible (c :: s)

theorem Piece.visible {piece r : List Char} {t : Token} (h : Piece piece (some t) r) :
    Visible piece := by
  cases h with
  | sign hc => cases hc <;> exact .mk (by simp [Space]) []
  | word hw =>
    obtain ⟨hc, -⟩ := hw
    refine .mk (fun hs => ?_) _
    rw [← isBlank_iff, hc.isBlank_eq_false] at hs
    cases hs

theorem LineEnd.cut {s own r : List Char} (hv : Visible own) (h : LineEnd (s ++ own ++ r)) :
    LineEnd s ∧ LineEnd (s ++ own) := by
  obtain ⟨hc, own⟩ := hv
  have hblank : Space '\n' ∧ Space '\r' := by simp [Space]
  rcases s with _ | ⟨d, _ | ⟨e, s⟩⟩ <;> simp only [List.nil_append, List.cons_append] at h ⊢
  · generalize own ++ r = t at h
    cases h with
    | lf => exact absurd hblank.1 hc
    | crlf => exact absurd hblank.2 hc
  · cases h with
    | lf => exact ⟨.lf _, .lf _⟩
    | crlf => exact absurd hblank.1 hc
  · cases h with
    | lf => exact ⟨.lf _, .lf _⟩
    | crlf => exact ⟨.crlf _, .crlf _⟩

/-- The lexeme of this number is the middle one of three texts. Without those behind it, there are
the lexemes up to it, or before it. -/
structure Placed (offset n : Nat) (l : Lexeme) (before own after : List Char) : Prop where
  visible : Visible own
  start : l.start = offset + byteLength before
  stop : l.stop = offset + byteLength (before ++ own)
  before_eq : scanFrom offset before = (scanFrom offset (before ++ own ++ after)).take n
  own_eq : ¬ Stray l.token →
    scanFrom offset (before ++ own) = (scanFrom offset (before ++ own ++ after)).take (n + 1)

theorem Placed.behind {offset n : Nat} {piece before own after : List Char} {found : Option Token}
    {l : Lexeme} (hp : Piece piece found (before ++ own ++ after))
    (h : Placed (offset + byteLength piece) n l before own after) :
    Placed offset ((lexemesOf found offset piece).length + n) l (piece ++ before) own after := by
  -- Cut at either place, the text behind the piece ends a line or a word where it did before.
  have hscan {t : List Char} {m : Nat} (ht : t <+: before ++ own ++ after)
      (hline : LineEnd (before ++ own ++ after) → LineEnd t)
      (h : scanFrom (offset + byteLength piece) t =
        (scanFrom (offset + byteLength piece) (before ++ own ++ after)).take m) :
      scanFrom offset (piece ++ t) = (scanFrom offset (piece ++ (before ++ own ++ after))).take
        ((lexemesOf found offset piece).length + m) := by
    rw [(hp.before hline fun hw => hw.cut ht).scan, hp.scan, List.take_length_add_append, h]
  have hown : before ++ own <+: before ++ own ++ after := List.prefix_append _ _
  have hbefore : before <+: before ++ own ++ after := (List.prefix_append _ _).trans hown
  constructor
  case visible => exact h.visible
  case start => rw [h.start, byteLength_append, Nat.add_assoc]
  case stop => rw [h.stop, List.append_assoc, byteLength_append piece, Nat.add_assoc]
  case before_eq =>
    simpa only [List.append_assoc] using hscan hbefore (fun hl => (hl.cut h.visible).1) h.before_eq
  case own_eq =>
    intro hs
    simpa only [List.append_assoc, Nat.add_assoc] using
      hscan hown (fun hl => (hl.cut h.visible).2) (h.own_eq hs)

theorem Piece.placed {piece r : List Char} {t : Token} (h : Piece piece (some t) r)
    (offset : Nat) : Placed offset 0 ⟨t, offset, offset + byteLength piece⟩ [] piece r := by
  have hend : Piece piece (some t) [] := h.before (fun _ => .end) fun _ => nofun
  constructor
  case visible => exact h.visible
  case start => rfl
  case stop => rfl
  case before_eq =>
    rw [scanFrom]
    rfl
  case own_eq =>
    intro _
    have hscan := hend.scan offset
    rw [List.append_nil, scanFrom, List.append_nil] at hscan
    rw [List.nil_append, hscan, h.scan]
    rfl

theorem exists_placed {offset n : Nat} {s : List Char} {l : Lexeme}
    (h : (scanFrom offset s)[n]? = some l) :
    ∃ before own after, s = before ++ own ++ after ∧ Placed offset n l before own after := by
  induction s using scan_induction generalizing offset n with
  | nil =>
    rw [scanFrom] at h
    cases h
  | @piece piece r found hp ih =>
    rw [hp.scan] at h
    by_cases hn : (lexemesOf found offset piece).length ≤ n
    · rw [List.getElem?_append_right hn] at h
      obtain ⟨before, own, after, rfl, hplaced⟩ := ih h
      have hbehind := hplaced.behind hp
      rw [Nat.add_sub_cancel' hn] at hbehind
      exact ⟨piece ++ before, own, after, by simp only [List.append_assoc], hbehind⟩
    · rw [List.getElem?_append_left (Nat.lt_of_not_le hn)] at h
      cases found with
      | none => cases h
      | some t =>
        obtain rfl : n = 0 := Nat.eq_zero_of_not_pos hn
        cases h
        exact ⟨[], piece, r, rfl, hp.placed offset⟩
  | @unread c r hu =>
    rw [hu.2 offset] at h
    cases n with
    | zero =>
      cases h
      refine ⟨[], [c], r, rfl, .mk hu.1 [], rfl, rfl, ?_, fun hs => absurd ⟨c, rfl⟩ hs⟩
      rw [scanFrom]
      rfl
    | succ n => cases h

theorem exists_cut_before {text : String} {n : Nat} {l : Lexeme} (h : (scan text)[n]? = some l) :
    ∃ before after, text = before ++ after ∧ before.utf8ByteSize = l.start ∧
      scan before = (scan text).take n := by
  obtain ⟨before, own, after, htext, hplaced⟩ := exists_placed h
  refine ⟨String.ofList before, String.ofList (own ++ after), ?_, ?_, ?_⟩
  · rw [← String.ofList_append, ← List.append_assoc, ← htext, String.ofList_toList]
  · rw [utf8ByteSize_ofList, hplaced.start, Nat.zero_add]
  · rw [scan, scan, String.toList_ofList, hplaced.before_eq, htext]

theorem exists_cut_behind {text : String} {n : Nat} {l : Lexeme} (h : (scan text)[n]? = some l)
    (hs : ¬ Stray l.token) :
    ∃ before after, text = before ++ after ∧ before.utf8ByteSize = l.stop ∧
      scan before = (scan text).take (n + 1) := by
  obtain ⟨before, own, after, htext, hplaced⟩ := exists_placed h
  refine ⟨String.ofList (before ++ own), String.ofList after, ?_, ?_, ?_⟩
  · rw [← String.ofList_append, ← htext, String.ofList_toList]
  · rw [utf8ByteSize_ofList, hplaced.stop, Nat.zero_add]
  · rw [scan, scan, String.toList_ofList, hplaced.own_eq hs, htext]

theorem Piece.carry_on {piece r : List Char} {found : Option Token} (h : Piece piece found r)
    (more : List Char) : Piece piece found (r ++ more) ∨ r = [] ∧ found ≠ some .leftParen := by
  cases h with
  | space hc => exact Or.inl (.space hc _)
  | comment ht hr =>
    cases hr with
    | «end» => exact Or.inr ⟨rfl, nofun⟩
    | lf s => exact Or.inl (.comment ht (.lf (s ++ more)))
    | crlf s => exact Or.inl (.comment ht (.crlf (s ++ more)))
  | sign hc => exact Or.inl (.sign hc _)
  | word hw he =>
    cases r with
    | nil => exact Or.inr ⟨rfl, by simp⟩
    | cons c r => exact Or.inl (.word hw he)

/-- Of the tokens of a text at most the last one is not kept when the text is carried on. It is a
word, which may be longer than it seemed, or a stray character. -/
theorem exists_kept (s more : List Char) (offset : Nat) : ∃ kept lost others,
    (scanFrom offset s).map Lexeme.token = kept ++ lost ∧ .leftParen ∉ lost ∧
    (scanFrom offset (s ++ more)).map Lexeme.token = kept ++ others := by
  induction s using scan_induction generalizing offset with
  | nil => exact ⟨[], [], _, by rw [scanFrom]; rfl, List.not_mem_nil, rfl⟩
  | @piece piece r found hp ih =>
    rcases hp.carry_on more with hmore | ⟨rfl, hfound⟩
    · obtain ⟨kept, lost, others, hs, hlost, hothers⟩ := ih (offset + byteLength piece)
      refine ⟨found.toList ++ kept, lost, others, ?_, hlost, ?_⟩
      · rw [hp.scan, List.map_append, map_token_lexemesOf, hs, List.append_assoc]
      · rw [List.append_assoc, hmore.scan, List.map_append, map_token_lexemesOf, hothers,
          List.append_assoc]
    · refine ⟨[], found.toList, _, ?_, by simpa using hfound, rfl⟩
      rw [hp.scan, scanFrom, List.append_nil, map_token_lexemesOf]
      rfl
  | @unread c r hu =>
    rw [hu.2 offset]
    exact ⟨[], [.stray c], _, rfl, by simp, rfl⟩

theorem Blank.append {s r : List Char} (h : Blank s r) (t : List Char) :
    Blank (s ++ '\n' :: t) (r ++ '\n' :: t) := by
  induction h with
  | none s => exact .none _
  | space hc _ ih => exact .space hc ih
  | comment ht hs _ ih =>
    rw [List.cons_append, List.append_assoc]
    refine .comment ht ?_ ih
    cases hs <;> constructor

theorem Blank.trans {s r t : List Char} (h : Blank s r) (h' : Blank r t) : Blank s t := by
  induction h with
  | none => exact h'
  | space hc _ ih => exact .space hc (ih h')
  | comment ht hs _ ih => exact .comment ht hs (ih h')

theorem Layout.append {s r : List Char} {ts us : List Token} (h : Layout s ts) (hr : Layout r us) :
    Layout (s ++ '\n' :: r) (ts ++ us) := by
  induction h with
  | nil h =>
    exact hr.after_blank fun t ht => (h.append r).trans (.space (by simp [Space]) ht)
  | sign h hc _ ih => exact .sign (h.append r) hc ih
  | @word s w v ts h hw he _ ih =>
    have hb := h.append r
    rw [List.append_assoc] at hb
    refine .word hb hw ?_ ih
    cases v with
    | nil =>
      rintro c ⟨⟩ hc
      exact absurd (continuesWord_iff.2 hc) (by decide)
    | cons c v => exact he

end Language

end Verdict
