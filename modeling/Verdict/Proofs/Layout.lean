import Verdict.Language.Token

/-! How tokens are laid out in a text. Before each token and behind the last one there may be blank
text, made of spaces and comments; a word goes on for as long as it can. A text has at most one list
of tokens, which is what a scan finds in it, and a text that has none is one with a stray character.
-/

set_option autoImplicit false

namespace Verdict.Language

def Space (c : Char) : Prop := c = ' ' ∨ c = '\t' ∨ c = '\n' ∨ c = '\x0c' ∨ c = '\r'

def Letter (c : Char) : Prop := ('a' ≤ c ∧ c ≤ 'z') ∨ ('A' ≤ c ∧ c ≤ 'Z')

def Digit (c : Char) : Prop := '0' ≤ c ∧ c ≤ '9'

def WordStart (c : Char) : Prop := Letter c ∨ c = '_'

def WordPart (c : Char) : Prop := Letter c ∨ Digit c ∨ c = '_' ∨ c = '.' ∨ c = '-'

theorem isBlank_iff {c : Char} : isBlank c = true ↔ Space c := by
  simp only [isBlank, Space, Bool.or_eq_true, beq_iff_eq, or_assoc]

theorem isAlpha_iff {c : Char} : c.isAlpha = true ↔ Letter c := by
  delta Char.isAlpha Char.isUpper Char.isLower Letter
  simp only [Bool.or_eq_true, Bool.and_eq_true, decide_eq_true_eq]
  exact or_comm

theorem startsWord_iff {c : Char} : startsWord c = true ↔ WordStart c := by
  simp only [startsWord, WordStart, Bool.or_eq_true, beq_iff_eq, isAlpha_iff]

theorem isDigit_iff {c : Char} : c.isDigit = true ↔ Digit c := by
  simp only [Char.isDigit, Digit, Bool.and_eq_true, decide_eq_true_eq]
  rfl

theorem continuesWord_iff {c : Char} : continuesWord c = true ↔ WordPart c := by
  simp only [continuesWord, WordPart, Char.isAlphanum, Bool.or_eq_true, beq_iff_eq, isAlpha_iff,
    isDigit_iff, or_assoc]

inductive LineEnd : List Char → Prop where
  | end : LineEnd []
  | lf (s : List Char) : LineEnd ('\n' :: s)
  | crlf (s : List Char) : LineEnd ('\r' :: '\n' :: s)

/-- The first text is blank text with the second one behind it. -/
inductive Blank : List Char → List Char → Prop where
  | none (s : List Char) : Blank s s
  | space {c : Char} {s r : List Char} (hc : Space c) (h : Blank s r) : Blank (c :: s) r
  | comment {text s r : List Char} (ht : ∀ c ∈ text, c ≠ '\r' ∧ c ≠ '\n') (hs : LineEnd s)
      (h : Blank s r) : Blank ('#' :: (text ++ s)) r

inductive Sign : Char → Token → Prop where
  | leftParen : Sign '(' .leftParen
  | rightParen : Sign ')' .rightParen
  | comma : Sign ',' .comma
  | colon : Sign ':' .colon

inductive IsWord : List Char → Prop where
  | mk {c : Char} {w : List Char} (hc : WordStart c) (hw : ∀ d ∈ w, WordPart d) : IsWord (c :: w)

theorem isWord_iff {s : List Char} :
    IsWord s ↔ s.head?.any startsWord = true ∧ s.all continuesWord = true := by
  rw [List.all_eq_true]
  constructor
  · rintro ⟨hc, hw⟩
    have hpart : WordPart _ := hc.imp_right fun h => Or.inr (Or.inl h)
    exact ⟨startsWord_iff.2 hc, List.forall_mem_cons.2
      ⟨continuesWord_iff.2 hpart, fun d hd => continuesWord_iff.2 (hw d hd)⟩⟩
  · rintro ⟨hc, hw⟩
    cases s with
    | nil => cases hc
    | cons c w =>
      exact .mk (startsWord_iff.1 hc) fun d hd =>
        continuesWord_iff.1 (hw d (List.mem_cons_of_mem c hd))

instance (s : List Char) : Decidable (IsWord s) := decidable_of_iff _ isWord_iff.symm

theorem IsWord.not_mem {s : List Char} (h : IsWord s) {c : Char}
    (hc : continuesWord c = false) : c ∉ s := by
  intro hm
  rw [List.all_eq_true.1 (isWord_iff.1 h).2 c hm] at hc
  cases hc

def WordEnd (s : List Char) : Prop := ∀ c ∈ s.head?, ¬ WordPart c

inductive Layout : List Char → List Token → Prop where
  | nil {s : List Char} (h : Blank s []) : Layout s []
  | sign {c : Char} {s r : List Char} {t : Token} {ts : List Token} (h : Blank s (c :: r))
      (hc : Sign c t) (hr : Layout r ts) : Layout s (t :: ts)
  | word {s w r : List Char} {ts : List Token} (h : Blank s (w ++ r)) (hw : IsWord w)
      (he : WordEnd r) (hr : Layout r ts) : Layout s (.word (String.ofList w) :: ts)

theorem sign?_eq_some_iff {c : Char} {t : Token} : sign? c = some t ↔ Sign c t := by
  constructor
  · intro h
    unfold sign? at h
    split at h <;> cases h <;> constructor
  · intro h
    cases h <;> rfl

theorem endsLine_eq_false_iff {c : Char} : endsLine c = false ↔ c ≠ '\r' ∧ c ≠ '\n' := by
  simp [endsLine]

theorem comment?_append {text s : List Char} (ht : ∀ c ∈ text, c ≠ '\r' ∧ c ≠ '\n')
    (hs : LineEnd s) : comment? (text ++ s) = some text := by
  have hall : ∀ c ∈ text, (!endsLine c) = true := fun c hc => by
    rw [endsLine_eq_false_iff.2 (ht c hc)]
    rfl
  have hdrop : (text ++ s).dropWhile (!endsLine ·) = s := by
    rw [List.dropWhile_append_of_pos hall]
    cases hs <;> rfl
  have htake : (text ++ s).takeWhile (!endsLine ·) = text := by
    rw [List.takeWhile_append_of_pos hall]
    cases hs <;> simp [endsLine]
  rw [comment?, hdrop, htake]
  cases hs <;> rfl

theorem exists_of_comment? {s text : List Char} (h : comment? s = some text) :
    ∃ r, s = text ++ r ∧ LineEnd r ∧ ∀ c ∈ text, c ≠ '\r' ∧ c ≠ '\n' := by
  have hend : LineEnd (s.dropWhile (!endsLine ·)) ∧ s.takeWhile (!endsLine ·) = text := by
    unfold comment? at h
    split at h
    · next hd => exact ⟨hd ▸ .end, Option.some.inj h⟩
    · next hd => exact ⟨hd ▸ .lf _, Option.some.inj h⟩
    · next hd => exact ⟨hd ▸ .crlf _, Option.some.inj h⟩
    · cases h
  obtain ⟨hline, rfl⟩ := hend
  refine ⟨_, List.takeWhile_append_dropWhile.symm, hline, fun c hc => ?_⟩
  have hn := List.all_eq_true.1 List.all_takeWhile c hc
  exact endsLine_eq_false_iff.1 (by simpa using hn)

theorem scanFrom_space {c : Char} (hc : Space c) (offset : Nat) (s : List Char) :
    scanFrom offset (c :: s) = scanFrom (offset + c.utf8Size) s := by
  rw [scanFrom, if_pos (isBlank_iff.2 hc)]

theorem scanFrom_comment {text s : List Char} (ht : ∀ c ∈ text, c ≠ '\r' ∧ c ≠ '\n')
    (hs : LineEnd s) (offset : Nat) :
    scanFrom offset ('#' :: (text ++ s)) = scanFrom (offset + 1 + Text.byteLength text) s := by
  rw [scanFrom, if_neg (by decide), if_pos (by decide), comment?_append ht hs]
  simp only [List.drop_left]

theorem Blank.scanFrom {s r : List Char} (h : Blank s r) (offset : Nat) :
    ∃ place, Language.scanFrom offset s = Language.scanFrom place r := by
  induction h generalizing offset with
  | none s => exact ⟨offset, rfl⟩
  | space hc _ ih =>
    rw [scanFrom_space hc]
    exact ih _
  | comment ht hs _ ih =>
    rw [scanFrom_comment ht hs]
    exact ih _

theorem scanFrom_sign {c : Char} {t : Token} (hc : Sign c t) (offset : Nat) (s : List Char) :
    scanFrom offset (c :: s) =
      ⟨t, offset, offset + c.utf8Size⟩ :: scanFrom (offset + c.utf8Size) s := by
  rw [scanFrom, sign?_eq_some_iff.2 hc]
  cases hc <;> rfl

theorem WordStart.isBlank_eq_false {c : Char} (h : WordStart c) : isBlank c = false := by
  rw [Bool.eq_false_iff]
  intro hb
  have hs := startsWord_iff.2 h
  rcases isBlank_iff.1 hb with rfl | rfl | rfl | rfl | rfl <;> exact absurd hs (by decide)

theorem WordStart.ne_hash {c : Char} (h : WordStart c) : c ≠ '#' := by
  rintro rfl
  exact absurd (startsWord_iff.2 h) (by decide)

theorem takeWhile_continuesWord {w s : List Char} (hw : ∀ c ∈ w, WordPart c) (he : WordEnd s) :
    (w ++ s).takeWhile continuesWord = w ∧ (w ++ s).dropWhile continuesWord = s := by
  have hall : ∀ c ∈ w, continuesWord c = true := fun c hc => continuesWord_iff.2 (hw c hc)
  rw [List.takeWhile_append_of_pos hall, List.dropWhile_append_of_pos hall]
  cases s with
  | nil => exact ⟨List.append_nil w, rfl⟩
  | cons c s =>
    have hc : ¬ continuesWord c = true := fun h => he c rfl (continuesWord_iff.1 h)
    rw [List.takeWhile_cons_of_neg hc, List.dropWhile_cons_of_neg hc]
    exact ⟨List.append_nil w, rfl⟩

theorem scanFrom_word {w : List Char} (hw : IsWord w) {s : List Char} (he : WordEnd s)
    (offset : Nat) :
    scanFrom offset (w ++ s) =
      ⟨.word (String.ofList w), offset, offset + Text.byteLength w⟩ ::
        scanFrom (offset + Text.byteLength w) s := by
  obtain ⟨hc, hall⟩ := hw
  obtain ⟨htake, hdrop⟩ := takeWhile_continuesWord hall he
  rw [List.cons_append, scanFrom, if_neg (by simp [hc.isBlank_eq_false]),
    if_neg (by simpa using hc.ne_hash), if_pos (startsWord_iff.2 hc), htake, hdrop]

theorem Layout.map_token_scanFrom {s : List Char} {ts : List Token} (h : Layout s ts)
    (offset : Nat) : (scanFrom offset s).map Lexeme.token = ts := by
  induction h generalizing offset with
  | nil h =>
    obtain ⟨place, hs⟩ := h.scanFrom offset
    rw [hs, scanFrom, List.map_nil]
  | sign h hc _ ih =>
    obtain ⟨place, hs⟩ := h.scanFrom offset
    rw [hs, scanFrom_sign hc, List.map_cons, ih]
  | word h hw he _ ih =>
    obtain ⟨place, hs⟩ := h.scanFrom offset
    rw [hs, scanFrom_word hw he, List.map_cons, ih]

theorem Layout.unique {s : List Char} {ts us : List Token} (ht : Layout s ts) (hu : Layout s us) :
    ts = us :=
  (ht.map_token_scanFrom 0).symm.trans (hu.map_token_scanFrom 0)

theorem Layout.after_blank {s s' : List Char} {ts : List Token}
    (hb : ∀ r, Blank s r → Blank s' r) (h : Layout s ts) : Layout s' ts := by
  cases h with
  | nil h => exact .nil (hb _ h)
  | sign h hc hr => exact .sign (hb _ h) hc hr
  | word h hw he hr => exact .word (hb _ h) hw he hr

theorem wordEnd_dropWhile (s : List Char) : WordEnd (s.dropWhile continuesWord) := by
  intro c hc hpart
  have hn := List.head?_dropWhile_not continuesWord s
  rw [Option.mem_def.1 hc] at hn
  exact absurd (continuesWord_iff.2 hpart) (Bool.eq_false_iff.1 hn)

/-- The first text is what a scan takes off in one go if the second one is behind it. It is a token
or means nothing. -/
inductive Piece : List Char → Option Token → List Char → Prop where
  | space {c : Char} (hc : Space c) (r : List Char) : Piece [c] none r
  | comment {text r : List Char} (ht : ∀ c ∈ text, c ≠ '\r' ∧ c ≠ '\n') (hr : LineEnd r) :
      Piece ('#' :: text) none r
  | sign {c : Char} {t : Token} (hc : Sign c t) (r : List Char) : Piece [c] (some t) r
  | word {w r : List Char} (hw : IsWord w) (he : WordEnd r) :
      Piece w (some (.word (String.ofList w))) r

def lexemesOf (found : Option Token) (offset : Nat) (piece : List Char) : List Lexeme :=
  (found.map fun t => ⟨t, offset, offset + Text.byteLength piece⟩).toList

theorem Piece.scan {piece r : List Char} {found : Option Token} (h : Piece piece found r)
    (offset : Nat) :
    scanFrom offset (piece ++ r) =
      lexemesOf found offset piece ++ scanFrom (offset + Text.byteLength piece) r := by
  cases h with
  | space hc => exact scanFrom_space hc offset r
  | comment ht hr =>
    rw [List.cons_append, scanFrom_comment ht hr, Nat.add_assoc]
    rfl
  | sign hc => exact scanFrom_sign hc offset r
  | word hw he => exact scanFrom_word hw he offset

theorem map_token_lexemesOf (found : Option Token) (offset : Nat) (piece : List Char) :
    (lexemesOf found offset piece).map Lexeme.token = found.toList := by
  cases found <;> rfl

def Unread (c : Char) (r : List Char) : Prop :=
  ¬ Space c ∧ ∀ offset, scanFrom offset (c :: r) = [⟨.stray c, offset, offset + c.utf8Size⟩]

/-- A text is taken off piece by piece, up to its end or to a character that fits nowhere. -/
theorem scan_induction {motive : List Char → Prop} (nil : motive [])
    (piece : ∀ {piece r found}, Piece piece found r → motive r → motive (piece ++ r))
    (unread : ∀ {c r}, Unread c r → motive (c :: r)) (s : List Char) : motive s := by
  have h (offset : Nat) : motive s := by
    fun_induction scanFrom offset s with
    | case1 => exact nil
    | case2 _ c r hc ih => exact piece (.space (isBlank_iff.1 hc) r) ih
    | case3 _ c r _ hhash text htext ih =>
      obtain ⟨r, rfl, hline, hall⟩ := exists_of_comment? htext
      obtain rfl : c = '#' := by simpa using hhash
      rw [List.drop_left] at ih
      exact piece (.comment hall hline) ih
    | case4 _ c r hblank hhash htext =>
      obtain rfl : c = '#' := by simpa using hhash
      refine unread ⟨fun hc => hblank (isBlank_iff.2 hc), fun offset => ?_⟩
      rw [scanFrom, if_neg hblank, if_pos hhash, htext]
      rfl
    | case5 _ c r _ _ hc word _ ih =>
      have hword : IsWord word := .mk (startsWord_iff.1 hc) fun d hd =>
        continuesWord_iff.1 (List.all_eq_true.1 List.all_takeWhile d hd)
      have hsplit : word ++ r.dropWhile continuesWord = c :: r := by
        rw [List.cons_append, List.takeWhile_append_dropWhile]
      rw [← hsplit]
      exact piece (.word hword (wordEnd_dropWhile r)) ih
    | case6 _ c r _ _ _ _ token htoken ih =>
      exact piece (.sign (sign?_eq_some_iff.1 htoken) r) ih
    | case7 _ c r hblank hhash hword _ hsign =>
      refine unread ⟨fun hc => hblank (isBlank_iff.2 hc), fun offset => ?_⟩
      rw [scanFrom, if_neg hblank, if_neg hhash, if_neg hword, hsign]
  exact h 0

theorem layout_scanFrom {offset : Nat} {s : List Char}
    (h : ∀ c, .stray c ∉ (scanFrom offset s).map Lexeme.token) :
    Layout s ((scanFrom offset s).map Lexeme.token) := by
  induction s using scan_induction generalizing offset with
  | nil =>
    rw [scanFrom]
    exact .nil (.none [])
  | piece hp ih =>
    rw [hp.scan, List.map_append, map_token_lexemesOf] at h ⊢
    have hrest := ih fun c hc => h c (List.mem_append_right _ hc)
    cases hp with
    | space hc => exact hrest.after_blank fun _ => .space hc
    | comment ht hr => exact hrest.after_blank fun _ => .comment ht hr
    | sign hc => exact .sign (.none _) hc hrest
    | word hw he => exact .word (.none _) hw he hrest
  | unread hu =>
    rw [hu.2] at h
    exact absurd List.mem_cons_self (h _)

end Verdict.Language
