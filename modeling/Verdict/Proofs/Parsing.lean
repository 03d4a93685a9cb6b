import Verdict.Language.Grammar
import Verdict.Proofs.Layout
import Verdict.Proofs.Syntax

/-! What the readers of the rule language accept. A reader that takes a form off the front of the
tokens takes nothing else off, and it does so wherever the tokens behind the form cannot carry on
what was read. For a whole text this says that it is accepted exactly if it is a layout of tokens
that make up a specification, and that what it stands for follows from these tokens alone.
-/

set_option autoImplicit false

namespace Verdict

namespace Language

theorem bind_eq_ok {ε α β : Type} {x : Except ε α} {f : α → Except ε β} {b : β} :
    (x >>= f) = .ok b ↔ ∃ a, x = .ok a ∧ f a = .ok b := by
  cases x with
  | error e => exact ⟨nofun, nofun⟩
  | ok a => exact ⟨fun h => ⟨a, rfl, h⟩, fun ⟨_, ha, h⟩ => Except.ok.inj ha ▸ h⟩

theorem map_eq_ok {ε α β : Type} {x : Except ε α} {f : α → β} {b : β} :
    x.map f = .ok b ↔ ∃ a, x = .ok a ∧ f a = b := by
  cases x with
  | error e => exact ⟨nofun, nofun⟩
  | ok a => exact ⟨fun h => ⟨a, rfl, Except.ok.inj h⟩, fun ⟨_, ha, h⟩ => by cases ha; exact h ▸ rfl⟩

abbrev Reading (α : Type) : Type := List Token → α → List Token → Prop

def Parser.reads {α : Type} (p : Parser α) : Reading α :=
  fun ts a rest => ∃ h, p ts = .ok ⟨a, rest, h⟩

/-- The reading covers the form: what is read is a case of the form, and the form is read wherever
what follows it allows for that. -/
structure Covers {α : Type} (reads : Reading α) (form : List Token → α → Prop)
    (follow : List Token → Prop) : Prop where
  sound : ∀ {ts a rest}, reads ts a rest → ∃ us, form us a ∧ ts = us ++ rest
  complete : ∀ {us a rest}, form us a → follow rest → reads (us ++ rest) a rest

def Reading.map {α β : Type} (f : α → β) (reads : Reading α) : Reading β :=
  fun ts b rest => ∃ a, reads ts a rest ∧ f a = b

def Anything (_ : List Token) : Prop := True

def Without (mark : Token → Prop) (ts : List Token) : Prop := ∀ t ∈ ts.head?, ¬ mark t

theorem without_nil (mark : Token → Prop) : Without mark [] := by simp [Without]

/-- One round of a loop that reads behind each mark, and ends where it stops. -/
structure Repeats {α : Type} (mark : Token → Prop) (reads : Reading α) (loop : Reading (List α))
    (stops : List Token → Prop) : Prop where
  stop : ∀ {ts}, stops ts → loop ts [] ts
  step : ∀ {t ts a mid as rest}, mark t → reads ts a mid → loop mid as rest →
    loop (t :: ts) (a :: as) rest
  cases : ∀ {ts as rest}, loop ts as rest → (as = [] ∧ ts = rest) ∨
    ∃ t us a mid bs, ts = t :: us ∧ as = a :: bs ∧ mark t ∧ reads us a mid ∧ loop mid bs rest

section

variable {α : Type} {mark : Token → Prop} {reads : Reading α} {loop : Reading (List α)}
  {stops follow : List Token → Prop} {form : List Token → α → Prop}

theorem Repeats.map {β : Type} (h : Repeats mark reads loop stops) (f : α → β) :
    Repeats mark (Reading.map f reads) (Reading.map (List.map f) loop) stops where
  stop hs := ⟨[], h.stop hs, rfl⟩
  step ht ha has := by
    obtain ⟨a, ha, rfl⟩ := ha
    obtain ⟨as, has, rfl⟩ := has
    exact ⟨a :: as, h.step ht ha has, rfl⟩
  cases hl := by
    obtain ⟨as, hl, rfl⟩ := hl
    obtain ⟨rfl, rfl⟩ | ⟨t, us, a, mid, bs, rfl, rfl, ht, ha, hbs⟩ := h.cases hl
    · exact .inl ⟨rfl, rfl⟩
    · exact .inr ⟨t, us, f a, mid, bs.map f, rfl, rfl, ht, ⟨a, ha, rfl⟩, bs, hbs, rfl⟩

/-- A loop covers the form any number of times if a round covers it once. What may follow one round
has to allow for the mark of the next one. -/
theorem Repeats.covers (h : Repeats mark reads loop stops) (hf : Covers reads form follow)
    (hm : ∀ {t ts}, mark t → follow (t :: ts)) :
    Covers loop (Several (After mark form)) fun rest => follow rest ∧ stops rest where
  -- Every round adds one value, so the induction is on the values.
  sound {ts as rest} hl := by
    induction as generalizing ts with
    | nil =>
      obtain ⟨-, rfl⟩ | ⟨_, _, _, _, _, -, hnil, -⟩ := h.cases hl
      · exact ⟨[], .nil, rfl⟩
      · cases hnil
    | cons a as ih =>
      obtain ⟨hnil, -⟩ | ⟨t, us, _, mid, _, rfl, hcons, ht, hr, hmore⟩ := h.cases hl
      · cases hnil
      · cases hcons
        obtain ⟨vs, hv, rfl⟩ := hf.sound hr
        obtain ⟨ws, hw, rfl⟩ := ih hmore
        exact ⟨t :: vs ++ ws, .cons ⟨ht, hv⟩ hw, by simp⟩
  complete {us as rest} hs hrest := by
    induction hs with
    | nil => exact h.stop hrest.2
    | @cons ts us a as hone hs ih =>
      obtain ⟨ht, hone⟩ := hone
      rw [List.append_assoc, List.cons_append]
      refine h.step ht (hf.complete hone ?_) ih
      -- Behind this round is the mark of the next one, or what is behind the loop.
      cases hs with
      | nil => exact hrest.1
      | cons hnext _ =>
        obtain ⟨hnext, _⟩ := hnext
        exact hm hnext

end

theorem expect_reads_iff {accepts : Token → Bool} {reason : Reason} {ts rest : List Token} :
    Parser.reads (expect accepts reason) ts () rest ↔ ∃ t, accepts t = true ∧ ts = t :: rest := by
  constructor
  · rintro ⟨_, h⟩
    cases ts with
    | nil => cases h
    | cons t ts =>
      rw [expect] at h
      split at h
      · next ht =>
        cases h
        exact ⟨t, ht, rfl⟩
      · cases h
  · rintro ⟨t, ht, rfl⟩
    exact ⟨length_lt_cons _ _, if_pos ht⟩

theorem sign_reads_iff {t : Token} {reason : Reason} {ts rest : List Token} :
    Parser.reads (expect (· == t) reason) ts () rest ↔ ts = t :: rest := by
  rw [expect_reads_iff]
  constructor
  · rintro ⟨u, hu, rfl⟩
    rw [beq_iff_eq.1 hu]
  · exact fun h => ⟨t, beq_self_eq_true t, h⟩

theorem name_covers (reason : Reason) : Covers (Parser.reads (name reason)) NameForm Anything where
  sound {ts w rest} h := by
    obtain ⟨_, h⟩ := h
    cases ts with
    | nil => cases h
    | cons t ts =>
      cases t with
      | word v =>
        rw [name] at h
        split at h
        · next hv =>
          cases h
          exact ⟨_, ⟨isName_iff.1 hv⟩, rfl⟩
        · cases h
      | _ => cases h
  complete {us w rest} h _ := by
    obtain ⟨h⟩ := h
    exact ⟨length_lt_cons _ _, if_pos (isName_iff.2 h)⟩

def moreNamesReads (separates : Token → Bool) : Reading (List String) :=
  fun ts ws rest => (moreNames separates ts).1 = ws ∧ (moreNames separates ts).2.1 = rest

/-- Also at a separator that no name is behind the loop ends, but at other tokens it always does. -/
theorem moreNames_repeats (separates : Token → Bool) (reason : Reason) :
    Repeats (separates · = true) (Parser.reads (name reason)) (moreNamesReads separates)
      (Without (separates · = true)) where
  stop {ts} h := by
    unfold moreNamesReads moreNames
    split
    · next t w us =>
      have hsep : ¬ (separates t && isName w) = true := fun hsep =>
        h t rfl (Bool.and_eq_true_iff.1 hsep).1
      rw [if_neg hsep]
      exact ⟨rfl, rfl⟩
    · exact ⟨rfl, rfl⟩
  step {t ts w mid ws rest} ht hw hmore := by
    obtain ⟨_, ⟨hname⟩, rfl⟩ := (name_covers reason).sound hw
    obtain ⟨rfl, rfl⟩ := hmore
    have hsep : (separates t && isName w) = true :=
      Bool.and_eq_true_iff.2 ⟨ht, isName_iff.2 hname⟩
    rw [moreNamesReads, List.cons_append, List.nil_append, moreNames, if_pos hsep]
    exact ⟨rfl, rfl⟩
  cases {ts ws rest} h := by
    unfold moreNamesReads moreNames at h
    split at h
    · next t w us =>
      split at h
      · next hsep =>
        obtain ⟨ht, hw⟩ := Bool.and_eq_true_iff.1 hsep
        have hname : Parser.reads (name reason) (.word w :: us) w us :=
          (name_covers reason).complete ⟨isName_iff.1 hw⟩ trivial
        exact .inr ⟨t, _, w, us, _, rfl, h.1.symm, ht, hname, rfl, h.2⟩
      · exact .inl ⟨h.1.symm, h.2⟩
    · exact .inl ⟨h.1.symm, h.2⟩

theorem moreNames_covers (separates : Token → Bool) :
    Covers (moreNamesReads separates) (Several (After (separates · = true) NameForm))
      fun rest => Anything rest ∧ Without (separates · = true) rest :=
  (moreNames_repeats separates .noTerm).covers (name_covers .noTerm) fun _ => trivial

theorem enclosed_reads_iff {separates : Token → Bool} {noName noEnd : Reason} {ts : List Token}
    {ws : List String} {rest : List Token} :
    Parser.reads (enclosed separates noName noEnd) ts ws rest ↔
      ∃ w mid vs, Parser.reads (name noName) ts w mid ∧
        moreNamesReads separates mid vs (.rightParen :: rest) ∧ ws = w :: vs := by
  constructor
  · rintro ⟨_, h⟩
    obtain ⟨first, hfirst, h⟩ := bind_eq_ok.1 h
    obtain ⟨last, hlast, h⟩ := bind_eq_ok.1 h
    cases h
    exact ⟨first.value, first.rest, _, ⟨first.shorter, hfirst⟩,
      ⟨rfl, sign_reads_iff.1 ⟨last.shorter, hlast⟩⟩, rfl⟩
  · rintro ⟨w, mid, _, ⟨_, hfirst⟩, ⟨rfl, hmid⟩, rfl⟩
    have hlast : Parser.reads (expect (· == .rightParen) noEnd) (moreNames separates mid).2.1 ()
        rest := sign_reads_iff.2 hmid
    obtain ⟨_, hlast⟩ := hlast
    exact ⟨_, bind_eq_ok.2 ⟨_, hfirst, bind_eq_ok.2 ⟨_, hlast, rfl⟩⟩⟩

theorem enclosed_covers {separates : Token → Bool} (hr : separates .rightParen = false)
    (noName noEnd : Reason) :
    Covers (Parser.reads (enclosed separates noName noEnd))
      (fun ts ws => ∃ us, Joined NameForm (separates · = true) us ws ∧ ts = us ++ [.rightParen])
      Anything where
  sound {ts ws rest} h := by
    obtain ⟨w, mid, vs, hname, hmore, rfl⟩ := enclosed_reads_iff.1 h
    obtain ⟨us, hu, rfl⟩ := (name_covers noName).sound hname
    obtain ⟨vs, hv, rfl⟩ := (moreNames_covers separates).sound hmore
    exact ⟨us ++ vs ++ [.rightParen], ⟨us ++ vs, ⟨hu, hv⟩, rfl⟩, by simp⟩
  complete {us ws rest} h _ := by
    obtain ⟨_, ⟨hname, hmore⟩, rfl⟩ := h
    have hend : Without (separates · = true) (.rightParen :: rest) := by
      rintro t ht
      obtain rfl := Option.some.inj ht
      simp [hr]
    rw [List.append_assoc, List.append_assoc]
    exact enclosed_reads_iff.2 ⟨_, _, _, (name_covers noName).complete hname trivial,
      (moreNames_covers separates).complete hmore ⟨trivial, hend⟩, rfl⟩

theorem key_eq (k : Keyword) : Key k = fun t => k.isToken t = true :=
  funext fun _ => propext key_iff

def Term.parts : Term → List String × List (List String)
  | condition name => ([name], [])
  | group names => ([], [names])

theorem term_covers :
    Covers (Reading.map Term.parts (Parser.reads term)) TermForm Anything where
  sound {ts a rest} h := by
    obtain ⟨_, ⟨_, h⟩, rfl⟩ := h
    unfold term at h
    split at h
    · next us =>
      obtain ⟨step, hstep, h⟩ := map_eq_ok.1 h
      cases h
      obtain ⟨_, ⟨vs, hv, rfl⟩, hus⟩ :=
        (enclosed_covers rfl .noTerm .noGroupEnd).sound ⟨step.shorter, hstep⟩
      rw [← key_eq] at hv
      exact ⟨_, .group hv, congrArg _ hus⟩
    · obtain ⟨step, hstep, h⟩ := map_eq_ok.1 h
      cases h
      obtain ⟨us, hu, hts⟩ := (name_covers .noTerm).sound ⟨step.shorter, hstep⟩
      exact ⟨us, .condition hu, hts⟩
  complete {us a rest} h _ := by
    cases h with
    | @condition _ name h =>
      obtain ⟨_, hname⟩ := (name_covers .noTerm).complete h trivial
      obtain ⟨_⟩ := h
      exact ⟨.condition name, ⟨_, map_eq_ok.2 ⟨_, hname, rfl⟩⟩, rfl⟩
    | @group _ names h =>
      rw [key_eq] at h
      obtain ⟨_, hnames⟩ :=
        (enclosed_covers rfl .noTerm .noGroupEnd).complete ⟨_, h, rfl⟩ trivial
      exact ⟨.group names, ⟨_, map_eq_ok.2 ⟨_, hnames, rfl⟩⟩, rfl⟩

def leaves {β : Type} (p : (ts : List Token) → Except Refusal (β × Place ts)) : Reading β :=
  fun ts b rest => ∃ h, p ts = .ok (b, ⟨rest, h⟩)

section

variable {α : Type} {k : Keyword} {p : Parser α}
  {loop : (ts : List Token) → Except Refusal (List α × Place ts)}

def rounds (p : Parser α) (loop : (ts : List Token) → Except Refusal (List α × Place ts))
    (t : Token) (ts : List Token) : Except Refusal (List α × Place (t :: ts)) := do
  let head ← p ts
  let (others, place) ← loop head.rest
  .ok (head.value :: others,
    ⟨place.1, by have := head.shorter; have := place.2; rw [List.length_cons]; omega⟩)

theorem rounds_eq_ok_iff {t : Token} {ts : List Token} {as : List α} {rest : List Token} :
    (∃ h, rounds p loop t ts = .ok (as, ⟨rest, h⟩)) ↔
      ∃ a mid bs, p.reads ts a mid ∧ leaves loop mid bs rest ∧ as = a :: bs := by
  constructor
  · rintro ⟨_, h⟩
    obtain ⟨head, hhead, h⟩ := bind_eq_ok.1 h
    obtain ⟨⟨others, place⟩, hmore, h⟩ := bind_eq_ok.1 h
    cases h
    exact ⟨_, _, _, ⟨head.shorter, hhead⟩, ⟨place.2, hmore⟩, rfl⟩
  · rintro ⟨a, mid, bs, ⟨_, hhead⟩, ⟨_, hmore⟩, rfl⟩
    exact ⟨_, bind_eq_ok.2 ⟨_, hhead, bind_eq_ok.2 ⟨_, hmore, rfl⟩⟩⟩

/-- A loop that ends unless its keyword comes next, and goes on behind the keyword otherwise. -/
structure Loops (k : Keyword) (p : Parser α)
    (loop : (ts : List Token) → Except Refusal (List α × Place ts)) : Prop where
  nil : loop [] = .ok ([], .here [])
  other : ∀ t ts, ¬ k.isToken t = true → loop (t :: ts) = .ok ([], .here (t :: ts))
  key : ∀ t ts, k.isToken t = true → loop (t :: ts) = rounds p loop t ts

theorem Loops.repeats (hl : Loops k p loop) :
    Repeats (Key k) p.reads (leaves loop) (Without (Key k)) where
  stop {ts} h := by
    cases ts with
    | nil => exact ⟨_, hl.nil⟩
    | cons t ts => exact ⟨_, hl.other t ts fun ht => h t rfl (key_iff.2 ht)⟩
  step {t ts a mid as rest} ht hr hmore := by
    rw [leaves, hl.key t ts (key_iff.1 ht)]
    exact rounds_eq_ok_iff.2 ⟨a, mid, as, hr, hmore, rfl⟩
  cases {ts as rest} h := by
    cases ts with
    | nil =>
      obtain ⟨_, h⟩ := h
      cases hl.nil.symm.trans h
      exact .inl ⟨rfl, rfl⟩
    | cons t ts =>
      by_cases ht : k.isToken t = true
      · rw [leaves, hl.key t ts ht] at h
        obtain ⟨a, mid, bs, hr, hmore, rfl⟩ := rounds_eq_ok_iff.1 h
        exact .inr ⟨t, ts, a, mid, bs, rfl, rfl, key_iff.2 ht, hr, hmore⟩
      · obtain ⟨_, h⟩ := h
        cases (hl.other t ts ht).symm.trans h
        exact .inl ⟨rfl, rfl⟩

end

theorem moreTerms_loops : Loops .and term moreTerms where
  nil := by
    rw [moreTerms]
    rfl
  other t ts ht := by
    rw [moreTerms, if_neg ht]
    rfl
  key t ts ht := by
    rw [moreTerms, if_pos ht, rounds]
    cases term ts with
    | error refusal => rfl
    | ok head => cases hmore : moreTerms head.rest <;> simp [hmore, bind, Except.bind]

theorem moreTerms_covers :
    Covers (Reading.map (List.map Term.parts) (leaves moreTerms))
      (Several (After (Key .and) TermForm)) fun rest => Anything rest ∧ Without (Key .and) rest :=
  (moreTerms_loops.repeats.map Term.parts).covers term_covers fun _ => trivial

theorem flatMap_conditions (terms : List Term) : terms.flatMap Term.conditions =
    ((terms.map Term.parts).flatMap Prod.fst).map Condition.mk := by
  induction terms with
  | nil => rfl
  | cons a terms ih => cases a <;> simp [Term.conditions, Term.parts, ih]

theorem flatMap_alternatives (terms : List Term) : terms.flatMap Term.alternatives =
    ((terms.map Term.parts).flatMap Prod.snd).flatten.map Condition.mk := by
  induction terms with
  | nil => rfl
  | cons a terms ih => cases a <;> simp [Term.alternatives, Term.parts, ih]

theorem countP_isGroup (terms : List Term) :
    terms.countP (·.isGroup) = ((terms.map Term.parts).flatMap Prod.snd).length := by
  induction terms with
  | nil => rfl
  | cons a terms ih =>
    rw [List.countP_cons, ih]
    cases a <;> simp [Term.isGroup, Term.parts, Nat.add_comm]

theorem eq_ruleOf_iff {r : Rule} {result : String} {terms : List Term} :
    r = ruleOf result terms ↔ r.result.name = result ∧
      r.want.members = (((terms.map Term.parts).flatMap Prod.fst).map Condition.mk).eraseDups ∧
      r.anyOf.members =
        (((terms.map Term.parts).flatMap Prod.snd).flatten.map Condition.mk).eraseDups := by
  rw [← flatMap_conditions, ← flatMap_alternatives, ← Conditions.eq_ofList_iff,
    ← Conditions.eq_ofList_iff]
  obtain ⟨⟨name⟩, want, anyOf⟩ := r
  simp [ruleOf]

theorem option_reads_iff {ts : List Token} {r : Rule} {rest : List Token} :
    Parser.reads option ts r rest ↔
      ∃ w us a mid as, Parser.reads (name .noOutcome) ts w (.colon :: us) ∧
        Parser.reads term us a mid ∧ leaves moreTerms mid as rest ∧
        (a :: as).countP (·.isGroup) ≤ 1 ∧ r = ruleOf w (a :: as) := by
  constructor
  · rintro ⟨_, h⟩
    obtain ⟨result, hresult, h⟩ := bind_eq_ok.1 h
    obtain ⟨sign, hsign, h⟩ := bind_eq_ok.1 h
    obtain ⟨first, hfirst, h⟩ := bind_eq_ok.1 h
    obtain ⟨⟨others, place⟩, hothers, h⟩ := bind_eq_ok.1 h
    have hname : Parser.reads (name .noOutcome) ts result.value result.rest :=
      ⟨result.shorter, hresult⟩
    rw [sign_reads_iff.1 ⟨sign.shorter, hsign⟩] at hname
    dsimp only at h
    split at h
    · cases h
    · next hgroup =>
      cases h
      exact ⟨_, _, _, _, _, hname, ⟨first.shorter, hfirst⟩, ⟨place.2, hothers⟩,
        Nat.not_lt.1 hgroup, rfl⟩
  · rintro ⟨w, us, a, mid, as, ⟨hr, hresult⟩, ⟨hf, hfirst⟩, ⟨ho, hothers⟩, hgroup, rfl⟩
    have hsign : Parser.reads (expect (· == .colon) .noColonInOption) (.colon :: us) () us :=
      sign_reads_iff.2 rfl
    obtain ⟨_, hsign⟩ := hsign
    have hshorter : rest.length < ts.length := by
      rw [List.length_cons] at hr
      omega
    exact ⟨hshorter, bind_eq_ok.2 ⟨_, hresult, bind_eq_ok.2 ⟨_, hsign, bind_eq_ok.2 ⟨_, hfirst,
      bind_eq_ok.2 ⟨_, hothers, if_neg (Nat.not_lt.2 hgroup)⟩⟩⟩⟩⟩

theorem option_covers : Covers (Parser.reads option) OptionForm (Without (Key .and)) where
  sound {ts r rest} h := by
    obtain ⟨w, us, a, mid, as, hname, hterm, hmore, hgroup, hr⟩ := option_reads_iff.1 h
    obtain ⟨ns, hns, rfl⟩ := (name_covers .noOutcome).sound hname
    obtain ⟨us, hu, rfl⟩ := term_covers.sound ⟨a, hterm, rfl⟩
    obtain ⟨vs, hv, rfl⟩ := moreTerms_covers.sound ⟨as, hmore, rfl⟩
    obtain ⟨result, want, anyOf⟩ := eq_ruleOf_iff.1 hr
    rw [countP_isGroup] at hgroup
    exact ⟨_, ⟨hns, ⟨hu, hv⟩, hgroup, result, want, anyOf⟩, by simp⟩
  complete {us r rest} h hrest := by
    obtain ⟨hname, ⟨hterm, hmore⟩, group, result, want, anyOf⟩ := h
    obtain ⟨a, ha, rfl⟩ := term_covers.complete hterm trivial
    obtain ⟨as, has, rfl⟩ := moreTerms_covers.complete hmore ⟨trivial, hrest⟩
    refine option_reads_iff.2 ⟨_, _, a, _, as, ?_, ha, has, ?_,
      eq_ruleOf_iff.2 ⟨result, want, anyOf⟩⟩
    · rw [List.append_assoc, List.cons_append, List.append_assoc]
      exact (name_covers .noOutcome).complete hname trivial
    · rwa [countP_isGroup]

theorem options_loops : Loops .option option options where
  nil := by
    rw [options]
    rfl
  other t ts ht := by
    rw [options, if_neg ht]
    rfl
  key t ts ht := by
    rw [options, if_pos ht, rounds]
    cases option ts with
    | error refusal => rfl
    | ok head => cases hmore : options head.rest <;> simp [hmore, bind, Except.bind]

theorem Key.without {k l : Keyword} (hkl : k ≠ l) {t : Token} {ts : List Token} (h : Key k t) :
    Without (Key l) (t :: ts) := by
  rintro u hu hl
  obtain rfl := Option.some.inj hu
  obtain ⟨hk⟩ := h
  obtain ⟨hl⟩ := hl
  exact hkl (hk.unique hl)

theorem options_covers : Covers (leaves options) (Several (After (Key .option) OptionForm))
    fun rest => Without (Key .and) rest ∧ Without (Key .option) rest :=
  options_loops.repeats.covers option_covers (Key.without (by decide))

theorem comma_eq : (fun t => t = Token.comma) = fun t => (t == .comma) = true :=
  funext fun _ => propext beq_iff_eq.symm

theorem priority_of_without {ts : List Token} (h : Without (· = .leftParen) ts) :
    priority ts = .ok (Conditions.empty, .here ts) := by
  cases ts with
  | nil => rfl
  | cons t ts =>
    cases t with
    | leftParen => exact absurd rfl (h _ rfl)
    | _ => rfl

theorem priority_covers : Covers (leaves priority)
    (fun ts s => ∃ names, PriorityForm ts names ∧
      s.members = (names.map Condition.mk).eraseDups) (Without (· = .leftParen)) where
  sound {ts s rest} h := by
    obtain ⟨_, h⟩ := h
    unfold priority at h
    split at h
    · next us =>
      obtain ⟨head, hhead, h⟩ := bind_eq_ok.1 h
      obtain ⟨names, hnames, h⟩ := bind_eq_ok.1 h
      cases h
      obtain ⟨t, ht, hus⟩ := expect_reads_iff.1 ⟨head.shorter, hhead⟩
      obtain ⟨_, ⟨vs, hv, rfl⟩, hrest⟩ :=
        (enclosed_covers rfl .noPriorityName .noPriorityEnd).sound ⟨names.shorter, hnames⟩
      rw [← comma_eq] at hv
      refine ⟨_, ⟨names.value, .some (key_iff.2 ht) hv, Conditions.members_ofList _⟩, ?_⟩
      exact congrArg _ (hus.trans (congrArg _ hrest))
    · cases h
      exact ⟨[], ⟨[], .none, rfl⟩, rfl⟩
  complete {us s rest} h hrest := by
    obtain ⟨names, hform, hs⟩ := h
    obtain rfl := Conditions.eq_ofList_iff.2 hs
    cases hform with
    | none => exact ⟨_, priority_of_without hrest⟩
    | @some t ts _ hk h =>
      have hhead : Parser.reads (expect (Keyword.priority.isToken ·) .noPriority)
          (t :: (ts ++ [.rightParen]) ++ rest) () (ts ++ [.rightParen] ++ rest) :=
        expect_reads_iff.2 ⟨t, key_iff.1 hk, rfl⟩
      obtain ⟨_, hhead⟩ := hhead
      rw [comma_eq] at h
      obtain ⟨_, hnames⟩ :=
        (enclosed_covers rfl .noPriorityName .noPriorityEnd).complete ⟨_, h, rfl⟩ trivial
      exact ⟨_, bind_eq_ok.2 ⟨_, hhead, bind_eq_ok.2 ⟨_, hnames, rfl⟩⟩⟩

theorem domain_reads_iff {ts : List Token} {d : Domain} {rest : List Token} :
    Parser.reads domain ts d rest ↔
      ∃ us, leaves priority ts d.priority (.colon :: us) ∧ leaves options us d.rules rest := by
  constructor
  · rintro ⟨_, h⟩
    obtain ⟨⟨order, place⟩, horder, h⟩ := bind_eq_ok.1 h
    obtain ⟨sign, hsign, h⟩ := bind_eq_ok.1 h
    obtain ⟨⟨rules, last⟩, hrules, h⟩ := bind_eq_ok.1 h
    cases h
    have horder : leaves priority ts order place.1 := ⟨place.2, horder⟩
    rw [sign_reads_iff.1 ⟨sign.shorter, hsign⟩] at horder
    exact ⟨sign.rest, horder, ⟨last.2, hrules⟩⟩
  · rintro ⟨us, ⟨ho, horder⟩, ⟨hr, hrules⟩⟩
    have hsign : Parser.reads (expect (· == .colon) .noColonInDomain) (.colon :: us) () us :=
      sign_reads_iff.2 rfl
    obtain ⟨_, hsign⟩ := hsign
    have hshorter : rest.length < ts.length := by
      rw [List.length_cons] at ho
      omega
    exact ⟨hshorter, bind_eq_ok.2 ⟨_, horder, bind_eq_ok.2 ⟨_, hsign, bind_eq_ok.2 ⟨_, hrules,
      rfl⟩⟩⟩⟩

theorem domain_covers : Covers (Parser.reads domain) DomainForm
    fun rest => Without (Key .and) rest ∧ Without (Key .option) rest where
  sound {ts d rest} h := by
    obtain ⟨us, horder, hrules⟩ := domain_reads_iff.1 h
    obtain ⟨ps, ⟨names, hp, hnames⟩, rfl⟩ := priority_covers.sound horder
    obtain ⟨us, hu, rfl⟩ := options_covers.sound hrules
    exact ⟨_, .mk hp hu hnames, by simp⟩
  complete {us d rest} h hrest := by
    obtain ⟨hp, hrules, hnames⟩ := h
    have hcolon (us : List Token) : Without (· = .leftParen) (.colon :: us) := by simp [Without]
    rw [List.append_assoc]
    exact domain_reads_iff.2 ⟨_, priority_covers.complete ⟨_, hp, hnames⟩ (hcolon _),
      options_covers.complete hrules hrest⟩

def domainsRead : Reading (List Domain) := fun ts ds rest => domains ts = .ok ds ∧ rest = []

theorem domains_repeats :
    Repeats (Key .domain) (Parser.reads domain) domainsRead (· = []) where
  stop {ts} h := by
    subst h
    exact ⟨by rw [domains], rfl⟩
  step {t ts d mid ds rest} ht hr hmore := by
    obtain ⟨_, hhead⟩ := hr
    obtain ⟨hmore, rfl⟩ := hmore
    refine ⟨?_, rfl⟩
    rw [domains, if_pos (key_iff.1 ht), hhead]
    dsimp only
    rw [hmore]
  cases {ts ds rest} h := by
    obtain ⟨h, rfl⟩ := h
    cases ts with
    | nil =>
      rw [domains] at h
      cases h
      exact .inl ⟨rfl, rfl⟩
    | cons t ts =>
      rw [domains] at h
      split at h
      · next ht =>
        split at h
        · cases h
        · next head hhead =>
          dsimp only at h
          split at h
          · cases h
          · next es hmore =>
            cases h
            exact .inr ⟨t, ts, _, _, es, rfl, rfl, key_iff.2 ht, ⟨head.shorter, hhead⟩, hmore, rfl⟩
      · cases h

theorem domains_covers : Covers domainsRead (Several (After (Key .domain) DomainForm))
    fun rest => (Without (Key .and) rest ∧ Without (Key .option) rest) ∧ rest = [] :=
  domains_repeats.covers domain_covers fun h =>
    ⟨h.without (by decide), h.without (by decide)⟩

theorem domains_eq_ok_iff {ts : List Token} {ds : List Domain} :
    domains ts = .ok ds ↔ Several (After (Key .domain) DomainForm) ts ds := by
  constructor
  · intro h
    obtain ⟨us, hu, hts⟩ := domains_covers.sound ⟨h, rfl⟩
    rwa [hts, List.append_nil]
  · intro h
    have hread := (domains_covers.complete h ⟨⟨without_nil _, without_nil _⟩, rfl⟩).1
    rwa [List.append_nil] at hread

end Language

namespace Spec

open Verdict.Language

theorem ofTokens_eq_ok_iff {ts : List Token} {s : Spec} : ofTokens ts = .ok s ↔ SpecForm ts s := by
  rw [ofTokens, map_eq_ok, SpecForm, ← domains_eq_ok_iff]
  constructor
  · rintro ⟨ds, h, rfl⟩
    exact h
  · exact fun h => ⟨_, h, rfl⟩

theorem parse_eq_ok_iff {text : String} {s : Spec} :
    parse text = .ok s ↔ SpecForm ((scan text).map Lexeme.token) s := by
  rw [← ofTokens_eq_ok_iff, parse]
  cases ofTokens ((scan text).map Lexeme.token) with
  | error e => exact ⟨nofun, nofun⟩
  | ok t => simp only [Except.mapError, Except.ok.injEq]

/-- A text is accepted exactly if it is a layout of tokens that make up a specification, and gives
the specification that these tokens stand for. Texts with the same tokens, but for the letters of
their keywords, give the same. -/
theorem parse_accepts_grammar :
    (∀ (text : String) (s : Spec),
      parse text = .ok s ↔ ∃ ts, Layout text.toList ts ∧ SpecForm ts s) ∧
    ∀ (text text' : String) (ts ts' : List Token), Layout text.toList ts →
      Layout text'.toList ts' → List.Forall₂ Respelt ts ts' →
        ∀ s, parse text = .ok s ↔ parse text' = .ok s := by
  have haccepts {text : String} {ts : List Token} (hl : Layout text.toList ts) (s : Spec) :
      parse text = .ok s ↔ SpecForm ts s := by
    rw [parse_eq_ok_iff, scan, hl.map_token_scanFrom]
  constructor
  · intro text s
    constructor
    · intro h
      have hform := parse_eq_ok_iff.1 h
      exact ⟨_, layout_scanFrom hform.clean, hform⟩
    · rintro ⟨ts, hl, hform⟩
      exact (haccepts hl s).2 hform
  · intro text text' ts ts' hl hl' hr s
    rw [haccepts hl, haccepts hl']
    exact ⟨fun h => h.caseBlind hr, fun h => h.caseBlind (hr.imp fun _ _ => Respelt.symm).flip⟩

theorem parse_accepts_grammar_paid :
    ∃ ts ts' s,
      s = ⟨[⟨[⟨⟨"go"⟩, ⟨[⟨"paid"⟩, ⟨"vip"⟩], by decide⟩, ⟨[⟨"new"⟩, ⟨"old"⟩], by decide⟩⟩],
        ⟨[⟨"vip"⟩], by decide⟩⟩]⟩ ∧
      Layout "domain (priority vip): option go: paid and (new or old or new) and vip".toList ts ∧
      Layout "# go\nDOMAIN(Priority vip):OPTION go:paid AND(new Or old oR new)And vip".toList ts' ∧
      List.Forall₂ Respelt ts ts' ∧ SpecForm ts s ∧
      parse "domain (priority vip): option go: paid and (new or old or new) and vip" = .ok s ∧
      parse "# go\nDOMAIN(Priority vip):OPTION go:paid AND(new Or old oR new)And vip" = .ok s := by
  obtain ⟨haccepts, hsame⟩ := parse_accepts_grammar
  have hplain : parse "domain (priority vip): option go: paid and (new or old or new) and vip" =
      .ok ⟨[⟨[⟨⟨"go"⟩, ⟨[⟨"paid"⟩, ⟨"vip"⟩], by decide⟩, ⟨[⟨"new"⟩, ⟨"old"⟩], by decide⟩⟩],
        ⟨[⟨"vip"⟩], by decide⟩⟩]⟩ := by
    decide +kernel
  obtain ⟨ts, hl, hform⟩ := (haccepts _ _).1 hplain
  have htokens : (scanFrom 0
      "# go\nDOMAIN(Priority vip):OPTION go:paid AND(new Or old oR new)And vip".toList).map
        Lexeme.token = [.word "DOMAIN", .leftParen, .word "Priority", .word "vip", .rightParen,
          .colon, .word "OPTION", .word "go", .colon, .word "paid", .word "AND", .leftParen,
          .word "new", .word "Or", .word "old", .word "oR", .word "new", .rightParen, .word "And",
          .word "vip"] := by decide +kernel
  have hl' := layout_scanFrom fun c => by rw [htokens]; simp
  have hrespelt : List.Forall₂ Respelt ts ((scanFrom 0
      "# go\nDOMAIN(Priority vip):OPTION go:paid AND(new Or old oR new)And vip".toList).map
        Lexeme.token) := by
    rw [htokens, ← hl.map_token_scanFrom 0]
    decide +kernel
  exact ⟨ts, _, _, rfl, hl, hl', hrespelt, hform, hplain,
    (hsame _ _ _ _ hl hl' hrespelt _).1 hplain⟩

end Spec

end Verdict
