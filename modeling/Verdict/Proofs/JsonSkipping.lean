import Mathlib.Data.Nat.Init
import Verdict.Proofs.JsonForms

set_option autoImplicit false

namespace Verdict.Json

variable {α : Type}

def Takes (read : Reader α) (s : List Char) (x : α) (rest : List Char) : Prop :=
  ∃ h, read s = .ok ⟨x, rest, h⟩

theorem trim_blanks {b : List Char} (hb : Blanks b) {c : Char} (hc : isBlank c = false)
    (s : List Char) : ∃ h, trim (b ++ c :: s) = ⟨c :: s, h⟩ := by
  have hdrop : (b ++ c :: s).dropWhile isBlank = c :: s := by
    rw [List.dropWhile_append_of_pos hb, List.dropWhile_cons, if_neg (by simp [hc])]
  exact ⟨by simp, Subtype.ext hdrop⟩

theorem trim_all {b : List Char} (hb : Blanks b) : ∃ h, trim b = ⟨[], h⟩ := by
  have hdrop : (b ++ []).dropWhile isBlank = [] := by rw [List.dropWhile_append_of_pos hb]; rfl
  rw [List.append_nil] at hdrop
  exact ⟨Nat.zero_le _, Subtype.ext hdrop⟩

def Ends (s : List Char) : Prop :=
  ∀ c, s.head? = some c → isDigit c = false ∧ c ≠ '.' ∧ c ≠ 'e' ∧ c ≠ 'E'

theorem ends_blanks {b : List Char} (hb : Blanks b) {s : List Char} (hs : Ends s) :
    Ends (b ++ s) := by
  cases b with
  | nil => exact hs
  | cons d b =>
    intro c hc
    obtain rfl : d = c := by simpa using hc
    have hblank := hb d List.mem_cons_self
    simp only [isBlank, Bool.or_eq_true, beq_iff_eq] at hblank
    rcases hblank with ((rfl | rfl) | rfl) | rfl <;> decide

theorem ends_sign {c : Char} (hc : c ∈ [',', ']', '\x7d']) (s : List Char) : Ends (c :: s) := by
  intro d hd
  obtain rfl : c = d := by simpa using hd
  simp only [List.mem_cons, List.not_mem_nil, or_false] at hc
  rcases hc with rfl | rfl | rfl <;> decide

def Stops (skip : (s : List Char) → Except Fault (Place s)) (s rest : List Char) : Prop :=
  ∃ h, skip s = .ok ⟨rest, h⟩

theorem startsWithDigit_of_ends {s : List Char} (h : Ends s) : startsWithDigit s = false := by
  cases s with
  | nil => rfl
  | cons c s => exact (h c rfl).1

theorem startsWithDigit_exponent {e s : List Char} (he : Exponent e) (hs : Ends s) :
    startsWithDigit (e ++ s) = false := by
  cases he with
  | none => exact startsWithDigit_of_ends hs
  | some he => rcases he with rfl | rfl <;> rfl

theorem skipDigits_append {ds s : List Char} (hd : ∀ c ∈ ds, isDigit c = true)
    (hs : startsWithDigit s = false) : ∃ h, skipDigits (ds ++ s) = ⟨s, h⟩ := by
  have hrest : s.dropWhile isDigit = s := by
    cases s with
    | nil => rfl
    | cons c s => rw [List.dropWhile_cons, if_neg (by simpa [startsWithDigit] using hs)]
  refine ⟨by simp, Subtype.ext ?_⟩
  show (ds ++ s).dropWhile isDigit = s
  rw [List.dropWhile_append_of_pos hd, hrest]

theorem skipExponent_append {sign ds s : List Char} (hsign : sign ∈ [[], ['+'], ['-']])
    (hd : Digits ds) (hs : Ends s) : Stops skipExponent (sign ++ (ds ++ s)) s := by
  obtain ⟨hne, hall⟩ := hd
  cases ds with
  | nil => contradiction
  | cons c ds =>
    obtain ⟨hc, hds⟩ := List.forall_mem_cons.1 hall
    obtain ⟨hle, hskip⟩ := skipDigits_append hds (startsWithDigit_of_ends hs)
    simp only [List.mem_cons, List.not_mem_nil, or_false] at hsign
    rcases hsign with rfl | rfl | rfl
    · rw [List.nil_append, List.cons_append]
      refine ⟨Nat.le_succ_of_le hle, ?_⟩
      rw [skipExponent]
      · simp only [hc, if_true, hskip]
      · rintro _ _ rfl
        cases hc
      · rintro _ _ rfl
        cases hc
    · exact ⟨by simp; omega, by simp [skipExponent, hc, hskip]⟩
    · exact ⟨by simp; omega, by simp [skipExponent, hc, hskip]⟩

theorem startsWithDigit_append {ds : List Char} (hd : Digits ds) (s : List Char) :
    startsWithDigit (ds ++ s) = true := by
  obtain ⟨hne, hall⟩ := hd
  cases ds with
  | nil => contradiction
  | cons c ds => exact hall c List.mem_cons_self

theorem skipFraction_end {ds s : List Char} (hd : Digits ds) (hs : Ends s) :
    Stops skipFraction (ds ++ s) s := by
  obtain ⟨hle, hskip⟩ := skipDigits_append hd.2 (startsWithDigit_of_ends hs)
  refine ⟨hle, ?_⟩
  rw [skipFraction, startsWithDigit_append hd, hskip]
  simp only [Bool.not_true, Bool.false_eq_true, if_false]
  split
  · next h =>
    cases h
    exact absurd rfl (hs 'e' rfl).2.2.1
  · next h =>
    cases h
    exact absurd rfl (hs 'E' rfl).2.2.2
  · rfl

theorem skipFraction_exponent {ds t s : List Char} {e : Char} (hd : Digits ds)
    (he : e = 'e' ∨ e = 'E') (hexp : Stops skipExponent t s) :
    Stops skipFraction (ds ++ e :: t) s := by
  obtain ⟨hlt, hexp⟩ := hexp
  have hletter : startsWithDigit (e :: t) = false := by rcases he with rfl | rfl <;> rfl
  obtain ⟨hle, hskip⟩ := skipDigits_append hd.2 hletter
  refine ⟨by simp; omega, ?_⟩
  rw [skipFraction, startsWithDigit_append hd, hskip]
  rcases he with rfl | rfl <;>
    simp only [Bool.not_true, Bool.false_eq_true, if_false, hexp, Except.map]

theorem skipFraction_append {ds e s : List Char} (hd : Digits ds) (he : Exponent e)
    (hs : Ends s) : Stops skipFraction (ds ++ (e ++ s)) s := by
  cases he with
  | none => exact skipFraction_end hd hs
  | some he hsign hd' =>
    rw [List.cons_append, List.append_assoc]
    exact skipFraction_exponent hd he (skipExponent_append hsign hd' hs)

theorem skipAfterWhole_append {t f e s : List Char} (hf : Fraction f) (he : Exponent e)
    (hs : Ends s) (h : (f ++ (e ++ s)).length < t.length) :
    ∃ hlt, skipAfterWhole (f ++ (e ++ s)) h = .ok ⟨(), s, hlt⟩ := by
  cases hf with
  | some hd =>
    obtain ⟨hle, hfraction⟩ := skipFraction_append hd he hs
    simp only [List.cons_append] at h ⊢
    exact ⟨by simp at h hle; omega, by simp only [skipAfterWhole, hfraction, Except.map]⟩
  | none =>
    cases he with
    | some he hsign hd =>
      obtain ⟨hle, hexp⟩ := skipExponent_append hsign hd hs
      simp only [List.nil_append, List.cons_append, List.append_assoc] at h ⊢
      refine ⟨by simp at h hle; omega, ?_⟩
      rcases he with rfl | rfl <;> simp only [skipAfterWhole, hexp, Except.map]
    | none =>
      refine ⟨h, ?_⟩
      simp only [List.nil_append]
      rw [skipAfterWhole]
      · rintro _ _ rfl
        exact absurd rfl (hs '.' rfl).2.1
      · rintro _ _ rfl
        exact absurd rfl (hs 'e' rfl).2.2.1
      · rintro _ _ rfl
        exact absurd rfl (hs 'E' rfl).2.2.2

theorem startsWithDigit_fraction {f e s : List Char} (hf : Fraction f) (he : Exponent e)
    (hs : Ends s) : startsWithDigit (f ++ (e ++ s)) = false := by
  cases hf with
  | none => simpa using startsWithDigit_exponent he hs
  | some _ => rfl

theorem skipNumber_append {w f e s : List Char} (hw : Whole w) (hf : Fraction f) (he : Exponent e)
    (hs : Ends s) : Takes skipNumber (w ++ (f ++ (e ++ s))) () s := by
  have hstart := startsWithDigit_fraction hf he hs
  cases hw with
  | zero =>
    have h := skipAfterWhole_append hf he hs (length_lt_cons '0' (f ++ (e ++ s)))
    simpa only [Takes, List.cons_append, List.nil_append, skipNumber, hstart, Bool.false_eq_true,
      if_false] using h
  | @digits c ds hne hd =>
    obtain ⟨hc, hds⟩ := List.forall_mem_cons.1 hd.2
    obtain ⟨hle, hskip⟩ := skipDigits_append hds hstart
    have h := skipAfterWhole_append (t := c :: (ds ++ (f ++ (e ++ s)))) hf he hs
      (Nat.lt_succ_of_le hle)
    rw [List.cons_append, Takes, skipNumber]
    · simpa only [hc, if_true, hskip] using h
    · simpa using hne

theorem Quad.hexUnit {q : List Char} {n : Nat} (hq : Quad q n) (s : List Char) :
    ∃ h, hexUnit (q ++ s) = .ok ⟨n, s, h⟩ := by
  cases hq with
  | mk ha hb hc hd => exact ⟨by simp; omega, by simp [Json.hexUnit, ha, hb, hc, hd]⟩

theorem skipString_append {k : List Char} (hk : Body k) (rest : List Char) :
    Takes skipString (k ++ '"' :: rest) () rest := by
  induction hk with
  | done =>
    rw [List.nil_append]
    exact ⟨length_lt_cons _ rest, by rw [skipString]⟩
  | plain hc _ ih =>
    obtain ⟨hlt, ih⟩ := ih
    rw [List.cons_append]
    refine ⟨Nat.lt_succ_of_lt hlt, ?_⟩
    rw [skipString]
    · simp only [if_neg hc.not_control, ih, Except.map, Step.widen]
    · simpa using hc.ne_quote
    · exact fun _ h => absurd h hc.ne_slash
    · exact fun h => absurd h hc.ne_slash
    · exact fun _ _ h => absurd h hc.ne_slash
  | letter hd _ ih =>
    obtain ⟨hlt, ih⟩ := ih
    rw [List.cons_append, List.cons_append]
    refine ⟨Nat.lt_succ_of_lt (Nat.lt_succ_of_lt hlt), ?_⟩
    rw [skipString]
    · simp only [hd, if_true, ih, Except.map, Step.widen]
    · rintro rfl
      cases hd
  | @unit q s _ hq _ ih =>
    obtain ⟨hlt, ih⟩ := ih
    obtain ⟨hle, hunit⟩ := hq.hexUnit (s ++ '"' :: rest)
    rw [List.cons_append, List.cons_append, List.append_assoc]
    refine ⟨by simp at hlt ⊢; omega, ?_⟩
    rw [skipString, hunit]
    simp only [ih, Except.map, Step.widen]

theorem skipPlain_word {w : List Char}
    (hw : w ∈ ["null".toList, "true".toList, "false".toList]) (s : List Char) :
    Takes skipPlain (w ++ s) () s := by
  simp only [List.mem_cons, List.not_mem_nil, or_false] at hw
  rcases hw with rfl | rfl | rfl <;>
    exact ⟨by simp; omega, by simp [skipPlain, skipWord, word, Except.map, Place.here]⟩

theorem skipPlain_string {k : List Char} (hk : Body k) (s : List Char) :
    Takes skipPlain ('"' :: (k ++ '"' :: s)) () s := by
  obtain ⟨hlt, h⟩ := skipString_append hk s
  exact ⟨Nat.lt_succ_of_lt hlt, by simp only [skipPlain, h, Except.map, Step.after, Step.widen]⟩

theorem Whole.exists_cons {w : List Char} (hw : Whole w) :
    ∃ c r, w = c :: r ∧ isDigit c = true := by
  cases hw with
  | zero => exact ⟨'0', [], rfl, rfl⟩
  | @digits c s _ h => exact ⟨c, s, rfl, h.2 c List.mem_cons_self⟩

theorem ne_of_isDigit {c d : Char} (hc : isDigit c = true) (hd : isDigit d = false) : c ≠ d := by
  rintro rfl
  simp [hd] at hc

theorem skipPlain_digit {c : Char} (hc : isDigit c = true) (r : List Char) :
    skipPlain (c :: r) = skipNumber (c :: r) := by
  rw [skipPlain, if_pos hc]
  all_goals exact ne_of_isDigit hc rfl

theorem skipPlain_number {sign w f e s : List Char} (hsign : sign ∈ [[], ['-']]) (hw : Whole w)
    (hf : Fraction f) (he : Exponent e) (hs : Ends s) :
    Takes skipPlain (sign ++ (w ++ (f ++ (e ++ s)))) () s := by
  obtain ⟨hlt, h⟩ := skipNumber_append hw hf he hs
  simp only [List.mem_cons, List.not_mem_nil, or_false] at hsign
  rcases hsign with rfl | rfl
  · obtain ⟨c, r, rfl, hc⟩ := hw.exists_cons
    refine ⟨hlt, ?_⟩
    rw [← h]
    exact skipPlain_digit hc _
  · exact ⟨Nat.lt_succ_of_lt hlt, by simp [skipPlain, h, Except.map, Step.after, Step.widen]⟩

/-- With these brackets open, everything from here on up to the rest is passed over. -/
def Passes (frames : List Frame) (s rest : List Char) : Prop := Takes (skipIn frames) s () rest

/-- What comes behind a value, or behind an opening bracket, leads to the rest: all brackets are
closed there, or the values that are still to come are passed over. -/
def Leads (next : (s : List Char) → Except Fault (Resume s)) (s rest : List Char) : Prop :=
  (∃ h, next s = .ok ⟨[], rest, h⟩) ∨
    ∃ frame outer place, next s = .ok ⟨frame :: outer, place⟩ ∧
      Passes (frame :: outer) place.1 rest

section

variable {frame : Frame} {frames outer : List Frame} {c : Char} {s r t u rest : List Char}

theorem Leads.widen {next next' : (s : List Char) → Except Fault (Resume s)}
    (h : Leads next' r rest) (hle : ∀ t : Resume r, t.place.1.length ≤ s.length)
    (hnext : next s = (next' r).map fun t => ⟨t.frames, t.place.1, hle t⟩) :
    Leads next s rest := by
  rcases h with ⟨hrest, h⟩ | ⟨frame, outer, place, h, hpasses⟩
  · rw [h] at hnext
    exact .inl ⟨hle ⟨[], rest, hrest⟩, hnext⟩
  · rw [h] at hnext
    exact .inr ⟨frame, outer, ⟨place.1, hle ⟨frame :: outer, place⟩⟩, hnext, hpasses⟩

theorem passes_bracket (htrim : ∃ h, trim s = ⟨c :: r, h⟩) (hc : bracket? c = some frame)
    (h : Leads (opened frame frames) r rest) : Passes frames s rest := by
  obtain ⟨hle, htrim⟩ := htrim
  rcases h with ⟨hrest, hnext⟩ | ⟨frame', outer, place, hnext, hlt, hpasses⟩
  · refine ⟨by simp at hle; omega, ?_⟩
    rw [skipIn, htrim]
    simp only [hc, hnext]
  · refine ⟨by simp at hle; have := place.2; omega, ?_⟩
    rw [skipIn, htrim]
    simp only [hc, hnext, hpasses, Except.map, Step.widen]

theorem passes_plain (htrim : ∃ h, trim s = ⟨c :: r, h⟩) (hc : bracket? c = none)
    (hplain : Takes skipPlain (c :: r) () t) (h : Leads (resume frames) t rest) :
    Passes frames s rest := by
  obtain ⟨hle, htrim⟩ := htrim
  obtain ⟨hlt, hplain⟩ := hplain
  rcases h with ⟨hrest, hnext⟩ | ⟨frame', outer, place, hnext, hlt', hpasses⟩
  · refine ⟨by omega, ?_⟩
    rw [skipIn, htrim]
    simp only [hc, hplain, hnext, Except.map]
  · refine ⟨by have := place.2; omega, ?_⟩
    rw [skipIn, htrim]
    simp only [hc, hplain, hnext, hpasses, Except.map, Step.widen]

theorem leads_nil (rest : List Char) : Leads (resume []) rest rest :=
  .inl ⟨Nat.le_refl _, rfl⟩

theorem leads_close (htrim : ∃ h, trim s = ⟨frame.close :: r, h⟩)
    (h : Leads (resume outer) r rest) : Leads (resume (frame :: outer)) s rest := by
  obtain ⟨hle, htrim⟩ := htrim
  have hcomma : (frame.close == ',') = false := by cases frame <;> rfl
  refine h.widen (fun t => by have := t.place.2; simp at hle; omega) ?_
  rw [resume, htrim]
  simp only [hcomma, Bool.false_eq_true, if_false, beq_self_eq_true, if_true]

theorem leads_comma (htrim : ∃ h, trim s = ⟨',' :: r, h⟩) (henter : Stops (enter frame) r u)
    (h : Passes (frame :: outer) u rest) : Leads (resume (frame :: outer)) s rest := by
  obtain ⟨hle, htrim⟩ := htrim
  obtain ⟨hu, henter⟩ := henter
  refine .inr ⟨frame, outer, ⟨u, by simp at hle; omega⟩, ?_, h⟩
  rw [resume, htrim]
  simp only [beq_self_eq_true, if_true, henter, Except.map]

theorem leads_closed (htrim : ∃ h, trim s = ⟨frame.close :: r, h⟩)
    (h : Leads (resume outer) r rest) : Leads (opened frame outer) s rest := by
  obtain ⟨hle, htrim⟩ := htrim
  refine h.widen (fun t => by have := t.place.2; simp at hle; omega) ?_
  rw [opened, htrim]
  simp only [beq_self_eq_true, if_true]

theorem leads_opened (htrim : ∃ h, trim s = ⟨c :: r, h⟩) (hc : c ≠ frame.close)
    (henter : Stops (enter frame) (c :: r) u) (h : Passes (frame :: outer) u rest) :
    Leads (opened frame outer) s rest := by
  obtain ⟨hle, htrim⟩ := htrim
  obtain ⟨hu, henter⟩ := henter
  refine .inr ⟨frame, outer, ⟨u, by simp at hle hu; omega⟩, ?_, h⟩
  rw [opened, htrim]
  simp only [beq_eq_false_iff_ne.2 hc, Bool.false_eq_true, if_false, henter, Except.map]

end

theorem colon_append {b : List Char} (hb : Blanks b) (s : List Char) :
    Stops colon (b ++ ':' :: s) s := by
  obtain ⟨hle, htrim⟩ := trim_blanks hb (by decide : isBlank ':' = false) s
  exact ⟨by simp; omega, by simp only [colon, htrim]⟩

theorem enter_member {b k b' : List Char} (hb : Blanks b) (hk : Body k) (hb' : Blanks b')
    (s : List Char) : Stops (enter .object) (b ++ '"' :: (k ++ '"' :: (b' ++ ':' :: s))) s := by
  obtain ⟨hle, htrim⟩ := trim_blanks hb (by decide : isBlank '"' = false)
    (k ++ '"' :: (b' ++ ':' :: s))
  obtain ⟨hlt, hskip⟩ := skipString_append hk (b' ++ ':' :: s)
  obtain ⟨hcolon, hplace⟩ := colon_append hb' s
  refine ⟨by simp at hle hlt hcolon ⊢; omega, ?_⟩
  rw [enter, htrim]
  simp only [hskip, hplace, Except.map]

def Passable (v : List Char) : Prop :=
  ∀ (frames : List Frame) (b s rest : List Char), Blanks b → Ends s → Leads (resume frames) s rest →
    Passes frames (b ++ (v ++ s)) rest

/-- A piece between the brackets of a frame: after it is entered, what is left of it is passed
over. -/
structure Nested (frame : Frame) (p : List Char) : Prop where
  start : ∃ c r, p = c :: r ∧ isBlank c = false ∧ c ≠ frame.close
  enters : ∀ (outer : List Frame) (b s rest : List Char), Blanks b → Ends s →
    Leads (resume (frame :: outer)) s rest →
    ∃ u, Stops (enter frame) (b ++ (p ++ s)) u ∧ Passes (frame :: outer) u rest

section

variable {β : Type} {Piece : List Char → β → Prop} {frame : Frame} {ts : List Char} {xs : List β}

theorem ends_close (frame : Frame) (s : List Char) : Ends (frame.close :: s) :=
  ends_sign (by cases frame <;> decide) s

theorem isBlank_close (frame : Frame) : isBlank frame.close = false := by cases frame <;> rfl

theorem Separated.nested (h : Separated Piece ts xs)
    (hpiece : ∀ x ∈ xs, ∀ p, Piece p x → Nested frame p) {outer : List Frame} {s rest : List Char}
    (hs : Leads (resume outer) s rest) :
    ∃ b c r, ts = b ++ c :: r ∧ Blanks b ∧ isBlank c = false ∧ c ≠ frame.close ∧
      ∀ b', Blanks b' → ∃ u, Stops (enter frame) (b' ++ (c :: r ++ frame.close :: s)) u ∧
        Passes (frame :: outer) u rest := by
  -- What follows a piece leads to the rest: the closing bracket, or a comma and further pieces.
  induction h with
  | @last b t b' x hb ht hb' =>
    have hnested := hpiece x List.mem_cons_self t ht
    obtain ⟨c, r, rfl, hc, hclose⟩ := hnested.start
    refine ⟨b, c, r ++ b', rfl, hb, hc, hclose, fun b'' hb'' => ?_⟩
    have hlead : Leads (resume (frame :: outer)) (b' ++ frame.close :: s) rest :=
      leads_close (trim_blanks hb' (isBlank_close frame) s) hs
    have h := hnested.enters outer b'' _ rest hb'' (ends_blanks hb' (ends_close frame s)) hlead
    simpa only [List.cons_append, List.append_assoc] using h
  | @more b t b' ts x xs hb ht hb' _ ih =>
    have hnested := hpiece x List.mem_cons_self t ht
    obtain ⟨c, r, rfl, hc, hclose⟩ := hnested.start
    refine ⟨b, c, r ++ (b' ++ ',' :: ts), rfl, hb, hc, hclose, fun b'' hb'' => ?_⟩
    obtain ⟨d, e, r', rfl, hd, _, _, hmore⟩ := ih fun x hx => hpiece x (List.mem_cons_of_mem _ hx)
    obtain ⟨u, hu, hpasses⟩ := hmore d hd
    have hlead : Leads (resume (frame :: outer))
        (b' ++ ',' :: (d ++ (e :: r' ++ frame.close :: s))) rest :=
      leads_comma (trim_blanks hb' (by decide) _) hu hpasses
    have h := hnested.enters outer b'' _ rest hb'' (ends_blanks hb' (ends_sign (by decide) _)) hlead
    simpa only [List.cons_append, List.append_assoc] using h

theorem Enclosed.passable {opening : Char} (h : Enclosed opening frame.close Piece ts xs)
    (hopening : bracket? opening = some frame) (hblank : isBlank opening = false)
    (hpiece : ∀ x ∈ xs, ∀ p, Piece p x → Nested frame p) : Passable ts := by
  intro frames b s rest hb hs hlead
  cases h with
  | @empty b' hb' =>
    rw [List.cons_append, List.append_assoc]
    refine passes_bracket (trim_blanks hb hblank _) hopening ?_
    exact leads_closed (trim_blanks hb' (isBlank_close frame) s) hlead
  | full hts =>
    obtain ⟨d, c, r, rfl, hd, hc, hclose, hmore⟩ := hts.nested hpiece hlead
    obtain ⟨u, hu, hpasses⟩ := hmore [] blanks_nil
    have htrim := trim_blanks hd hc (r ++ frame.close :: s)
    rw [List.cons_append, List.append_assoc, List.append_assoc, List.cons_append]
    exact passes_bracket (trim_blanks hb hblank _) hopening (leads_opened htrim hclose hu hpasses)

theorem Enclosed.exists_cons {opening closing : Char} (h : Enclosed opening closing Piece ts xs) :
    ∃ r, ts = opening :: r := by
  cases h with
  | empty _ => exact ⟨_, rfl⟩
  | full _ => exact ⟨_, rfl⟩

end

def Begins (v : List Char) : Prop := ∃ c r, v = c :: r ∧ isBlank c = false ∧ c ≠ ']'

theorem begins_number {sign w : List Char} (hsign : sign ∈ [[], ['-']]) (hw : Whole w)
    (s : List Char) : ∃ c r, sign ++ (w ++ s) = c :: r ∧ isBlank c = false ∧ c ≠ ']' ∧
      bracket? c = none := by
  simp only [List.mem_cons, List.not_mem_nil, or_false] at hsign
  rcases hsign with rfl | rfl
  · obtain ⟨c, r, rfl, hc⟩ := hw.exists_cons
    refine ⟨c, r ++ s, rfl, ?_, ne_of_isDigit hc rfl, ?_⟩
    · simp [isBlank, ne_of_isDigit hc (d := ' ') rfl, ne_of_isDigit hc (d := '\t') rfl,
        ne_of_isDigit hc (d := '\n') rfl, ne_of_isDigit hc (d := '\r') rfl]
    · rw [bracket?]
      all_goals exact ne_of_isDigit hc rfl
  · exact ⟨'-', w ++ s, rfl, by decide, by decide, rfl⟩

theorem Value.begins {v : List Char} (h : Value v) : Begins v := by
  cases h with
  | word hw =>
    simp only [List.mem_cons, List.not_mem_nil, or_false] at hw
    rcases hw with rfl | rfl | rfl <;> exact ⟨_, _, rfl, by decide, by decide⟩
  | number hsign hw _ _ =>
    obtain ⟨c, r, hcons, hblank, hclose, _⟩ := begins_number hsign hw _
    exact ⟨c, r, hcons, hblank, hclose⟩
  | string _ => exact ⟨'"', _, rfl, by decide, by decide⟩
  | list h _ =>
    obtain ⟨r, rfl⟩ := h.exists_cons
    exact ⟨'[', r, rfl, by decide, by decide⟩
  | object h _ =>
    obtain ⟨r, rfl⟩ := h.exists_cons
    exact ⟨'\x7b', r, rfl, by decide, by decide⟩

theorem nested_element {v : List Char} (hbegins : Begins v) (h : Passable v) : Nested .list v where
  start := hbegins
  enters := fun outer b s rest hb hs hlead =>
    ⟨b ++ (v ++ s), ⟨Nat.le_refl _, rfl⟩, h (.list :: outer) b s rest hb hs hlead⟩

theorem nested_member {p v : List Char} (hp : Member (fun k _ => Body k) p ((), v))
    (h : Passable v) : Nested .object p := by
  cases hp with
  | @mk k b b' _ _ hk hb hb' =>
    refine ⟨⟨'"', _, rfl, by decide, by decide⟩, fun outer d s rest hd hs hlead => ?_⟩
    refine ⟨b' ++ (v ++ s), ?_, h (.object :: outer) b' s rest hb' hs hlead⟩
    have henter := enter_member hd hk hb (b' ++ (v ++ s))
    simpa only [List.cons_append, List.append_assoc] using henter

theorem Value.passable {v : List Char} (h : Value v) : Passable v := by
  -- The frames are general in the induction: a nested value is passed over inside one more of them.
  induction h with
  | word hw =>
    intro frames b s rest hb hs hlead
    have hskip := skipPlain_word hw s
    simp only [List.mem_cons, List.not_mem_nil, or_false] at hw
    rcases hw with rfl | rfl | rfl <;>
      exact passes_plain (trim_blanks hb (by decide) _) rfl hskip hlead
  | number hsign hw hf he =>
    intro frames b s rest hb hs hlead
    have hskip := skipPlain_number hsign hw hf he hs
    obtain ⟨c, r, hcons, hblank, _, hbracket⟩ := begins_number hsign hw (_ ++ (_ ++ s))
    rw [hcons] at hskip
    simp only [List.append_assoc]
    rw [hcons]
    exact passes_plain (trim_blanks hb hblank r) hbracket hskip hlead
  | @string k hk =>
    intro frames b s rest hb hs hlead
    rw [List.cons_append, List.append_assoc]
    exact passes_plain (trim_blanks hb (by decide) _) rfl (skipPlain_string hk s) hlead
  | @list t vs h hvs ih =>
    have hlist : Enclosed '[' Frame.list.close Eq t vs := h
    refine hlist.passable rfl rfl ?_
    rintro v hv _ rfl
    exact nested_element (hvs _ hv).begins (ih _ hv)
  | @object t ms h hms ih =>
    have hobject : Enclosed '\x7b' Frame.object.close (Member fun k _ => Body k) t ms := h
    refine hobject.passable rfl rfl ?_
    rintro ⟨_, v⟩ hv p hp
    exact nested_member hp (ih _ hv)

theorem Value.takes {v : List Char} (h : Value v) {b rest : List Char} (hb : Blanks b)
    (hrest : Ends rest) : Takes skipValue (b ++ (v ++ rest)) () rest :=
  h.passable [] b rest rest hb hrest (leads_nil rest)

end Verdict.Json
