import Verdict.Proofs.JsonSkipping

set_option autoImplicit false

namespace Verdict.Json

variable {α σ : Type}

theorem Takes.map {β : Type} {read : Reader α} {s rest : List Char} {x : α}
    (h : Takes read s x rest) (f : α → β) :
    Takes (fun s => (read s).map (·.map f)) s (f x) rest := by
  obtain ⟨hlt, h⟩ := h
  exact ⟨hlt, by simp only [h, Except.map, Step.map]⟩

theorem Takes.widen {read read' : Reader α} {s s' rest : List Char} {x : α}
    (h : Takes read' s' x rest) (hle : s'.length ≤ s.length)
    (hread : read s = (read' s').map (·.widen hle)) : Takes read s x rest := by
  obtain ⟨hlt, h⟩ := h
  rw [h] at hread
  exact ⟨_, hread⟩

theorem takes_quote (rest : List Char) : Takes stringBody ('"' :: rest) [] rest :=
  ⟨length_lt_cons _ rest, by rw [stringBody]⟩

theorem takes_escape {s r rest : List Char} {c : Char} {cs : List Char}
    (hc : Takes escape r c s) (h : Takes stringBody s cs rest) :
    Takes stringBody ('\\' :: r) (c :: cs) rest := by
  obtain ⟨hlt, hc⟩ := hc
  obtain ⟨hlt', h⟩ := h
  refine ⟨by simp; omega, ?_⟩
  rw [stringBody]
  simp only [hc, h]

theorem takes_plain {s rest : List Char} {c : Char} {cs : List Char} (hc : Plain c)
    (h : Takes stringBody s cs rest) : Takes stringBody (c :: s) (c :: cs) rest := by
  obtain ⟨hlt, h⟩ := h
  refine ⟨by simp; omega, ?_⟩
  rw [stringBody]
  · simp only [if_neg hc.not_control, h]
  · simpa using hc.ne_quote
  · simpa using hc.ne_slash

theorem escape_letter {c d : Char} (h : letterEscape? d = some c) (s : List Char) :
    Takes escape (d :: s) c s := by
  refine ⟨length_lt_cons d s, ?_⟩
  rw [escape]
  · rw [h]
  · rintro rfl
    cases h

theorem not_surrogate (c : Char) : isLow c.toNat = false ∧ isHigh c.toNat = false := by
  have hvalid : c.toNat < 0xD800 ∨ 0xDFFF < c.toNat ∧ c.toNat < 0x110000 := c.valid
  simp only [isLow, isHigh, Bool.and_eq_false_iff, decide_eq_false_iff_not]
  omega

theorem escape_unit {c : Char} {q : List Char} (hq : Quad q c.toNat) (s : List Char) :
    Takes escape ('u' :: (q ++ s)) c s := by
  obtain ⟨hlt, hunit⟩ := hq.hexUnit s
  obtain ⟨hlow, hhigh⟩ := not_surrogate c
  refine ⟨Nat.lt_succ_of_lt hlt, ?_⟩
  simp only [escape, unicodeEscape, hunit, hlow, hhigh, Bool.false_eq_true, if_false, Except.map,
    Step.map, Step.widen, Char.ofNat_toNat]

theorem escape_pair {c : Char} {q r : List Char} {high low : Nat} (hq : Quad q (0xD800 + high))
    (hr : Quad r (0xDC00 + low)) (hhigh : high < 0x400) (hlow : low < 0x400)
    (hc : c.toNat = 0x10000 + high * 0x400 + low) (s : List Char) :
    Takes escape ('u' :: (q ++ '\\' :: 'u' :: (r ++ s))) c s := by
  obtain ⟨hlt, hunit⟩ := hq.hexUnit ('\\' :: 'u' :: (r ++ s))
  obtain ⟨hlt', hunit'⟩ := hr.hexUnit s
  have hnotLow : isLow (0xD800 + high) = false := by simp [isLow]; omega
  have hisHigh : isHigh (0xD800 + high) = true := by simp [isHigh]; omega
  have hisLow : isLow (0xDC00 + low) = true := by simp [isLow]; omega
  have hback : Char.ofNat (0x10000 + high * 0x400 + low) = c := by rw [← hc, Char.ofNat_toNat]
  refine ⟨by simp at hlt hlt' ⊢; omega, ?_⟩
  simp only [escape, unicodeEscape, pairWith, hunit, hunit', hnotLow, hisHigh, hisLow, if_true,
    Bool.false_eq_true, if_false, Except.map, Step.widen, Nat.add_sub_cancel_left, hback]

theorem Spelled.takes {body cs : List Char} (h : Spelled body cs) (rest : List Char) :
    Takes stringBody (body ++ '"' :: rest) cs rest := by
  induction h with
  | done => exact takes_quote rest
  | plain hc _ ih => exact takes_plain hc ih
  | letter hd _ ih => exact takes_escape (escape_letter hd _) ih
  | unit hq _ ih =>
    rw [List.cons_append, List.cons_append, List.append_assoc]
    exact takes_escape (escape_unit hq _) ih
  | pair hq hr hhigh hlow hc _ ih =>
    simp only [List.cons_append, List.append_assoc]
    exact takes_escape (escape_pair hq hr hhigh hlow hc _) ih

/-- The text stands for the value: it can begin an element of a list, and the reader takes it with
any blanks before it, whatever follows it. -/
structure Written (read : Reader α) (t : List Char) (x : α) : Prop where
  begins : Begins t
  takes : ∀ b rest, Blanks b → Takes read (b ++ (t ++ rest)) x rest

theorem Written.map {β : Type} {read : Reader α} {t : List Char} {x : α} (h : Written read t x)
    (f : α → β) : Written (fun s => (read s).map (·.map f)) t (f x) :=
  ⟨h.begins, fun b rest hb => (h.takes b rest hb).map f⟩

theorem takes_string {b s rest cs : List Char} (hb : Blanks b)
    (h : Takes stringBody s cs rest) : Takes string (b ++ '"' :: s) (String.ofList cs) rest := by
  obtain ⟨hle, htrim⟩ := trim_blanks hb (by decide : isBlank '"' = false) s
  refine (h.map String.ofList).widen (Nat.le_of_lt hle) ?_
  rw [string, htrim]
  show (stringBody s).map _ = _
  cases stringBody s <;> rfl

theorem Spelling.written {body : List Char} {s : String} (h : Spelling body s) :
    Written string ('"' :: (body ++ ['"'])) s := by
  refine ⟨⟨'"', _, rfl, by decide, by decide⟩, fun b rest hb => ?_⟩
  have htakes := takes_string hb (Spelled.takes h rest)
  rw [String.ofList_toList] at htakes
  simpa only [List.cons_append, List.append_assoc, List.nil_append] using htakes

theorem nextElement_closed {b : List Char} (hb : Blanks b) (first : Bool) (r : List Char) :
    ∃ h, nextElement first (b ++ ']' :: r) = .ok (.closed r h) := by
  obtain ⟨hle, htrim⟩ := trim_blanks hb (by decide : isBlank ']' = false) r
  exact ⟨by simp; omega, by simp only [nextElement, htrim]⟩

theorem nextElement_first {b : List Char} (hb : Blanks b) {c : Char} (hblank : isBlank c = false)
    (hc : c ≠ ']') (r : List Char) :
    ∃ h, nextElement true (b ++ c :: r) = .ok (.more (c :: r) h) := by
  obtain ⟨hle, htrim⟩ := trim_blanks hb hblank r
  refine ⟨hle, ?_⟩
  rw [nextElement, htrim]
  split
  · next h => cases h
  · next h => cases h; contradiction
  · next h => cases h; rfl

theorem nextElement_later {b b' : List Char} (hb : Blanks b) (hb' : Blanks b') {c : Char}
    (hblank : isBlank c = false) (hc : c ≠ ']') (r : List Char) :
    ∃ h, nextElement false (b ++ ',' :: (b' ++ c :: r)) = .ok (.more (c :: r) h) := by
  obtain ⟨hle, htrim⟩ := trim_blanks hb (by decide : isBlank ',' = false) (b' ++ c :: r)
  obtain ⟨hle', htrim'⟩ := trim_blanks hb' hblank r
  refine ⟨by simp; omega, ?_⟩
  rw [nextElement, htrim]
  split
  · next h => cases h
  · next h => cases h
  · next h =>
    cases h
    -- The comma is passed; what comes behind it is looked at in the same way.
    simp only [Bool.false_eq_true, if_false, beq_self_eq_true, if_true]
    split
    · next h => rw [htrim'] at h; cases h
    · next h => rw [htrim'] at h; cases h; contradiction
    · next h => rw [htrim'] at h; cases h; rfl

section

variable {item : Reader α}

theorem takes_closed {b : List Char} (hb : Blanks b) (first : Bool) (rest : List Char) :
    Takes (elements item first) (b ++ ']' :: rest) [] rest := by
  obtain ⟨hlt, hnext⟩ := nextElement_closed hb first rest
  exact ⟨hlt, by rw [elements, hnext]⟩

theorem takes_element {first : Bool} {s r more rest : List Char} {x : α} {xs : List α}
    (hnext : ∃ hle, nextElement first s = .ok (.more r hle)) (hx : Takes item r x more)
    (hxs : Takes (elements item false) more xs rest) :
    Takes (elements item first) s (x :: xs) rest := by
  obtain ⟨hle, hnext⟩ := hnext
  obtain ⟨hlt, hx⟩ := hx
  obtain ⟨hlt', hxs⟩ := hxs
  refine ⟨by omega, ?_⟩
  rw [elements, hnext]
  simp only [hx, hxs]

variable {Piece : List Char → α → Prop}

theorem Separated.takes_elements {ts : List Char} {xs : List α} (h : Separated Piece ts xs)
    (hpiece : ∀ t x, Piece t x → Written item t x) (rest : List Char) :
    ∃ b c r, ts = b ++ c :: r ∧ Blanks b ∧ isBlank c = false ∧ c ≠ ']' ∧
      ∀ first s, (∃ hle, nextElement first s = .ok (.more (c :: r ++ ']' :: rest) hle)) →
        Takes (elements item first) s xs rest := by
  induction h with
  | @last b t b' x hb ht hb' =>
    have hx := hpiece t x ht
    obtain ⟨c, r, rfl, hblank, hc⟩ := hx.begins
    refine ⟨b, c, r ++ b', rfl, hb, hblank, hc, fun first s hnext => ?_⟩
    refine takes_element hnext ?_ (takes_closed hb' false rest)
    simpa using hx.takes [] (b' ++ ']' :: rest) blanks_nil
  | @more b t b' ts x xs hb ht hb' _ ih =>
    have hx := hpiece t x ht
    obtain ⟨c, r, rfl, hblank, hc⟩ := hx.begins
    obtain ⟨d, e, r', rfl, hd, heblank, he, hmore⟩ := ih
    refine ⟨b, c, r ++ (b' ++ ',' :: (d ++ e :: r')), rfl, hb, hblank, hc, fun first s hnext => ?_⟩
    refine takes_element hnext ?_ (hmore false _ (nextElement_later hb' hd heblank he _))
    simpa using hx.takes [] (b' ++ ',' :: (d ++ e :: (r' ++ ']' :: rest))) blanks_nil

theorem takes_list {b s rest : List Char} {xs : List α} (hb : Blanks b)
    (h : Takes (elements item true) s xs rest) : Takes (list item) (b ++ '[' :: s) xs rest := by
  obtain ⟨hle, htrim⟩ := trim_blanks hb (by decide : isBlank '[' = false) s
  refine h.widen (Nat.le_of_lt hle) ?_
  rw [list, htrim]
  rfl

theorem Enclosed.written_list {t : List Char} {xs : List α} (h : Enclosed '[' ']' Piece t xs)
    (hpiece : ∀ t x, Piece t x → Written item t x) : Written (list item) t xs := by
  cases h with
  | empty hb' =>
    refine ⟨⟨'[', _, rfl, by decide, by decide⟩, fun b rest hb => ?_⟩
    rw [List.cons_append, List.append_assoc]
    exact takes_list hb (takes_closed hb' true rest)
  | full hts =>
    refine ⟨⟨'[', _, rfl, by decide, by decide⟩, fun b rest hb => ?_⟩
    obtain ⟨d, c, r, rfl, hd, hblank, hc, htakes⟩ := hts.takes_elements hpiece rest
    have hnext := nextElement_first hd hblank hc (r ++ ']' :: rest)
    rw [List.cons_append, List.append_assoc, List.append_assoc]
    exact takes_list hb (htakes true _ hnext)

end

theorem nextMember_closed {b : List Char} (hb : Blanks b) (first : Bool) (r : List Char) :
    ∃ h, nextMember first (b ++ '\x7d' :: r) = .ok (.closed r h) := by
  obtain ⟨hle, htrim⟩ := trim_blanks hb (by decide : isBlank '\x7d' = false) r
  exact ⟨by simp; omega, by simp only [nextMember, htrim]⟩

theorem nextMember_first {b : List Char} (hb : Blanks b) (r : List Char) :
    ∃ h, nextMember true (b ++ '"' :: r) = .ok (.more r h) := by
  obtain ⟨hle, htrim⟩ := trim_blanks hb (by decide : isBlank '"' = false) r
  refine ⟨by simp; omega, ?_⟩
  rw [nextMember, htrim]
  rfl

theorem nextMember_later {b b' : List Char} (hb : Blanks b) (hb' : Blanks b') (r : List Char) :
    ∃ h, nextMember false (b ++ ',' :: (b' ++ '"' :: r)) = .ok (.more r h) := by
  obtain ⟨hle, htrim⟩ := trim_blanks hb (by decide : isBlank ',' = false) (b' ++ '"' :: r)
  obtain ⟨hle', htrim'⟩ := trim_blanks hb' (by decide : isBlank '"' = false) r
  refine ⟨by simp; omega, ?_⟩
  rw [nextMember, htrim]
  split
  · next h => cases h
  · next h => cases h
  · next h =>
    cases h
    simp only [Bool.false_eq_true, if_false, beq_self_eq_true, if_true]
    split
    · next h => rw [htrim'] at h; cases h
    · next h => rw [htrim'] at h; cases h; rfl
    · next h => rw [htrim'] at h; cases h
    · next h _ => exact absurd htrim' (h r _)

section

variable {fields : List (Field σ)}

def reading (fields : List (Field σ)) (key : String) (state : σ) : Reader σ := fun s =>
  match fields.find? (·.name == key) with
  | some field => field.read state s
  | none => (skipValue s).map (·.map fun _ => state)

/-- A member takes the record from one state to the next: its key is no field that was given before,
and its value is read, or passed over if the key means nothing. -/
structure Moves (fields : List (Field σ)) (key : String) (v : List Char) (state next : σ) :
    Prop where
  new : (fields.find? (·.name == key)).any (·.given state) = false
  takes : ∀ b rest, Blanks b → Ends rest →
    Takes (reading fields key state) (b ++ (v ++ rest)) next rest

theorem moves_field {key : String} {field : Field σ} {state next : σ} {v : List Char}
    (hfield : fields.find? (·.name == key) = some field) (hnew : field.given state = false)
    (hv : Written (field.read state) v next) : Moves fields key v state next := by
  refine ⟨by simp [hfield, hnew], fun b rest hb _ => ?_⟩
  obtain ⟨hlt, h⟩ := hv.takes b rest hb
  exact ⟨hlt, by simp only [reading, hfield, h]⟩

theorem moves_other {key : String} {v : List Char} (hother : fields.find? (·.name == key) = none)
    (hv : Value v) (state : σ) : Moves fields key v state state := by
  refine ⟨by simp [hother], fun b rest hb hrest => ?_⟩
  obtain ⟨hlt, h⟩ := hv.takes hb hrest
  exact ⟨hlt, by simp only [reading, hother, h, Except.map, Step.map]⟩

inductive Gathers (fields : List (Field σ)) : σ → List (String × List Char) → σ → Prop where
  | done (state : σ) : Gathers fields state [] state
  | member {state next final : σ} {key : String} {v : List Char} {ms : List (String × List Char)}
      (hmember : Moves fields key v state next) (hmore : Gathers fields next ms final) :
      Gathers fields state ((key, v) :: ms) final

theorem takes_closing {b : List Char} (hb : Blanks b) (first : Bool) (state : σ)
    (rest : List Char) : Takes (members fields first state) (b ++ '\x7d' :: rest) state rest := by
  obtain ⟨hlt, hnext⟩ := nextMember_closed hb first rest
  exact ⟨hlt, by rw [members, hnext]⟩

theorem takes_member {first : Bool} {s k b t more rest : List Char} {state next final : σ}
    {key : String}
    (hnext : ∃ hle, nextMember first s = .ok (.more (k ++ '"' :: (b ++ ':' :: t)) hle))
    (hk : Spelling k key) (hb : Blanks b)
    (hnew : (fields.find? (·.name == key)).any (·.given state) = false)
    (hvalue : Takes (reading fields key state) t next more)
    (hmore : Takes (members fields false next) more final rest) :
    Takes (members fields first state) s final rest := by
  obtain ⟨hle, hnext⟩ := hnext
  obtain ⟨hkey, hstring⟩ := Spelled.takes hk (b ++ ':' :: t)
  obtain ⟨hplace, hcolon⟩ := colon_append hb t
  obtain ⟨hlt, hvalue⟩ := hvalue
  obtain ⟨hlt', hmore⟩ := hmore
  refine ⟨by omega, ?_⟩
  rw [members, hnext]
  simp only [hstring, String.ofList_toList, hnew, Bool.false_eq_true, if_false, hcolon]
  unfold reading at hvalue
  cases hfind : fields.find? (·.name == key) <;>
  · simp only [hfind] at hvalue ⊢
    rw [hvalue]
    simp only [hmore, Except.map, Step.widen]

theorem Separated.takes_members {ts : List Char} {ms : List (String × List Char)}
    (h : Separated (Member Spelling) ts ms) {state final : σ}
    (hgathers : Gathers fields state ms final) (rest : List Char) :
    ∃ b r, ts = b ++ '"' :: r ∧ Blanks b ∧
      ∀ first s, (∃ hle, nextMember first s = .ok (.more (r ++ '\x7d' :: rest) hle)) →
        Takes (members fields first state) s final rest := by
  -- The state behind one member is the state before the next, so the readings are put end to end.
  induction h generalizing state with
  | @last b t b' m hb ht hb' =>
    obtain _ | ⟨hmember, _ | _⟩ := hgathers
    obtain ⟨hk, hd, hd'⟩ := ht
    refine ⟨b, _, rfl, hb, fun first s hnext => ?_⟩
    have hvalue := hmember.takes _ _ hd'
      (ends_blanks hb' (ends_sign (c := '\x7d') (by decide) rest))
    refine takes_member ?_ hk hd hmember.new hvalue (takes_closing hb' false _ rest)
    simpa using hnext
  | @more b t b' ts m ms hb ht hb' _ ih =>
    obtain _ | ⟨hmember, hmore⟩ := hgathers
    obtain ⟨hk, hd, hd'⟩ := ht
    obtain ⟨d, r, rfl, hblanks, hmembers⟩ := ih hmore
    refine ⟨b, _, rfl, hb, fun first s hnext => ?_⟩
    have hvalue := hmember.takes _ _ hd'
      (ends_blanks hb' (ends_sign (c := ',') (by decide) (d ++ '"' :: (r ++ '\x7d' :: rest))))
    refine takes_member ?_ hk hd hmember.new hvalue
      (hmembers false _ (nextMember_later hb' hblanks _))
    simpa using hnext

theorem takes_record {expected : Expected} {start final : σ} {finish : Shape → σ → Except Fault α}
    {b s rest : List Char} {x : α} (hb : Blanks b)
    (h : Takes (members fields true start) s final rest) (hx : finish .object final = .ok x) :
    Takes (record expected fields start finish) (b ++ '\x7b' :: s) x rest := by
  obtain ⟨hlt, h⟩ := h
  obtain ⟨hle, htrim⟩ := trim_blanks hb (by decide : isBlank '\x7b' = false) s
  refine ⟨by simp; omega, ?_⟩
  rw [record, htrim]
  -- The text starts with a brace, so the first case of the match is taken.
  conv => lhs; whnf
  simp only [h, hx, Except.map]

theorem Enclosed.written_record {expected : Expected} {start final : σ}
    {finish : Shape → σ → Except Fault α} {t : List Char} {ms : List (String × List Char)} {x : α}
    (h : Enclosed '\x7b' '\x7d' (Member Spelling) t ms)
    (hgathers : Gathers fields start ms final) (hx : finish .object final = .ok x) :
    Written (record expected fields start finish) t x := by
  cases h with
  | empty hb' =>
    cases hgathers
    refine ⟨⟨'\x7b', _, rfl, by decide, by decide⟩, fun b rest hb => ?_⟩
    rw [List.cons_append, List.append_assoc]
    exact takes_record hb (takes_closing hb' true start rest) hx
  | full hts =>
    refine ⟨⟨'\x7b', _, rfl, by decide, by decide⟩, fun b rest hb => ?_⟩
    obtain ⟨d, r, rfl, hd, htakes⟩ := hts.takes_members hgathers rest
    rw [List.cons_append, List.append_assoc, List.append_assoc]
    exact takes_record hb (htakes true _ (nextMember_first hd (r ++ '\x7d' :: rest))) hx

end

theorem Written.whole_blanks {read : Reader α} {text : String} {t b b' : List Char} {x : α}
    (h : Written read t x) (hb : Blanks b) (hb' : Blanks b')
    (htext : text.toList = b ++ (t ++ b')) : whole read text = .ok x := by
  have htakes : Takes read text.toList x b' := by
    rw [htext]
    exact h.takes b b' hb
  obtain ⟨hlt, ht⟩ := htakes
  obtain ⟨hle, htrim⟩ := trim_all hb'
  rw [Json.whole, ht]
  simp only [htrim]

theorem Written.whole {read : Reader α} {t : List Char} {x : α} (h : Written read t x) :
    whole read (String.ofList t) = .ok x :=
  h.whole_blanks blanks_nil blanks_nil (by simp)

end Verdict.Json
