import Mathlib.Data.List.Infix
import Verdict.Proofs.Syntax

/-! Options with more than one group. Whether an option has too many groups can be told from the
parentheses alone, as no other part of an option has any: two of them are opened with neither
`option` nor `domain` between them. Tokens without such a place make up a specification as soon as
they do so but for the number of groups, and no specification has such a place.
-/

set_option autoImplicit false

namespace Verdict.Language

section

variable {α β : Type} {mark : Token → Prop} {form : List Token → α → Prop} {f : α → List β}
  {u : Token}

theorem Several.count (h : ∀ ts a, form ts a → ts.count u = (f a).length) {ts : List Token}
    {as : List α} (hs : Several form ts as) : ts.count u = (as.flatMap f).length := by
  induction hs with
  | nil => rfl
  | cons hone _ ih =>
    rw [List.count_append, h _ _ hone, ih, List.flatMap_cons, List.length_append]

theorem Joined.count (hm : ¬ mark u) (h : ∀ ts a, form ts a → ts.count u = (f a).length)
    {ts : List Token} {as : List α} (hj : Joined form mark ts as) :
    ts.count u = (as.flatMap f).length := by
  obtain ⟨hone, hmore⟩ := hj
  have hafter : ∀ ts a, After mark form ts a → ts.count u = (f a).length := by
    rintro _ a ⟨ht, hform⟩
    have hne : _ ≠ u := fun hu => hm (hu ▸ ht)
    rw [List.count_cons_of_ne hne, h _ _ hform]
  rw [List.count_append, h _ _ hone, hmore.count hafter, List.flatMap_cons, List.length_append]

end

theorem leftParen_not_mem_names {mark : Token → Prop} (hm : ¬ mark .leftParen) {ts : List Token}
    {names : List String} (h : Joined NameForm mark ts names) : .leftParen ∉ ts := by
  have hname : Avoids (· = .leftParen) NameForm := by
    rintro _ _ ⟨_⟩ t ht rfl
    cases List.mem_singleton.1 ht
  have hmark : ∀ t, mark t → ¬ t = .leftParen := fun t ht he => hm (he ▸ ht)
  exact fun hmem => Joined.avoids hmark hname h _ hmem rfl

theorem TermForm.count {ts : List Token} {a : List String × List (List String)}
    (h : TermForm ts a) : ts.count .leftParen = a.2.length := by
  cases h with
  | condition h =>
    obtain ⟨_⟩ := h
    rfl
  | group h =>
    have hnames := leftParen_not_mem_names nofun h
    simp [List.count_append, List.count_eq_zero.2 hnames]

theorem LooseOption.count {ts : List Token} {groups : Nat} (h : LooseOption ts groups) :
    ts.count .leftParen = groups := by
  obtain ⟨hn, ht⟩ := h
  obtain ⟨_⟩ := hn
  have hand : ¬ Key .and .leftParen := nofun
  exact ht.count hand fun _ _ h => h.count

theorem PriorityForm.count_le {ts : List Token} {names : List String} (h : PriorityForm ts names) :
    ts.count .leftParen ≤ 1 := by
  cases h with
  | none => exact Nat.zero_le 1
  | some hk h =>
    obtain ⟨_⟩ := hk
    have hnames := leftParen_not_mem_names nofun h
    simp [List.count_append, List.count_eq_zero.2 hnames]

theorem OptionForm.count_le {ts : List Token} {r : Rule} (h : OptionForm ts r) :
    ts.count .leftParen ≤ 1 := by
  obtain ⟨groups, hloose, hgroups⟩ := h.loose
  exact hloose.count.trans_le hgroups

instance (k : Keyword) (t : Token) : Decidable (Key k t) := decidable_of_iff _ key_iff.symm

instance (t : Token) : Decidable (Heading t) :=
  inferInstanceAs (Decidable (Key .option t ∨ Key .domain t))

/-- Two parentheses are opened with neither `option` nor `domain` between them. -/
def Crowded (ts : List Token) : Prop :=
  ∃ run, run <:+: ts ∧ (∀ t ∈ run, ¬ Heading t) ∧ 2 ≤ run.count .leftParen

theorem Crowded.mono {ts us : List Token} (h : Crowded ts) (hi : ts <:+: us) : Crowded us := by
  obtain ⟨run, hrun, hhead, hcount⟩ := h
  exact ⟨run, hrun.trans hi, hhead, hcount⟩

theorem not_crowded_of_count {ts : List Token} (h : ts.count .leftParen ≤ 1) : ¬ Crowded ts := by
  rintro ⟨run, hrun, -, hcount⟩
  have := hrun.sublist.count_le .leftParen
  omega

theorem crowded_append_cons {k : Token} (hk : Heading k) {ts us : List Token}
    (h : Crowded (ts ++ k :: us)) : Crowded ts ∨ Crowded us := by
  obtain ⟨run, hrun, hhead, hcount⟩ := h
  have hnot : ∀ {v w : List Token}, run = v ++ k :: w → False := fun hv =>
    hhead k (by simp [hv]) hk
  rcases List.infix_append_iff.1 hrun with h | h | ⟨v, w, hvw, hv, hw⟩
  · exact Or.inl ⟨run, h, hhead, hcount⟩
  · rcases List.infix_cons_iff.1 h with h | h
    · rcases List.prefix_cons_iff.1 h with rfl | ⟨w, hw, -⟩
      · cases hcount
      · exact (hnot (v := []) hw).elim
    · exact Or.inr ⟨run, h, hhead, hcount⟩
  · rcases List.prefix_cons_iff.1 hw with rfl | ⟨x, rfl, -⟩
    · rw [List.append_nil] at hvw
      exact Or.inl ⟨run, hvw ▸ hv.isInfix, hhead, hcount⟩
    · exact (hnot hvw).elim

theorem crowded_of_append {ts us : List Token} (h : Crowded (ts ++ us)) (hus : .leftParen ∉ us) :
    Crowded ts := by
  obtain ⟨run, hrun, hhead, hcount⟩ := h
  rcases List.infix_append_iff.1 hrun with h | h | ⟨v, w, rfl, hv, hw⟩
  · exact ⟨run, h, hhead, hcount⟩
  · have := (h.sublist.count_le .leftParen).trans_eq (List.count_eq_zero.2 hus)
    omega
  · have := (hw.sublist.count_le .leftParen).trans_eq (List.count_eq_zero.2 hus)
    rw [List.count_append] at hcount
    exact ⟨v, hv.isInfix, fun t ht => hhead t (List.mem_append_left w ht), by omega⟩

theorem Several.not_crowded {α : Type} {mark : Token → Prop} {form : List Token → α → Prop}
    (hm : ∀ t, mark t → Heading t) (hf : ∀ us a, form us a → ¬ Crowded us) {us : List Token}
    {as : List α} (hs : Several (After mark form) us as) {ts : List Token} (ht : ¬ Crowded ts) :
    ¬ Crowded (ts ++ us) := by
  induction hs generalizing ts with
  | nil => rwa [List.append_nil]
  | cons h _ ih =>
    obtain ⟨hmark, h⟩ := h
    rw [List.cons_append]
    exact fun hc => (crowded_append_cons (hm _ hmark) hc).elim ht (ih (hf _ _ h))

theorem DomainForm.not_crowded {ts : List Token} {d : Domain} (h : DomainForm ts d) :
    ¬ Crowded ts := by
  obtain @⟨ps, us, _, _, hp, rules, -⟩ := h
  have hcolon : (ps ++ [Token.colon]).count .leftParen ≤ 1 := by
    rw [List.count_append]
    exact hp.count_le
  have hoptions := rules.not_crowded (fun _ => Or.inl)
    (fun _ _ h => not_crowded_of_count (OptionForm.count_le h)) (not_crowded_of_count hcolon)
  rwa [List.append_assoc] at hoptions

theorem SpecForm.not_crowded {ts : List Token} {s : Spec} (h : SpecForm ts s) : ¬ Crowded ts :=
  List.nil_append ts ▸ Several.not_crowded (fun _ => Or.inr) (fun _ _ => DomainForm.not_crowded) h
    (not_crowded_of_count (Nat.zero_le 1))

inductive LooseDomain : List Token → List Nat → Prop where
  | mk {ps ts : List Token} {names : List String} {options : List Nat}
      (hp : PriorityForm ps names) (ho : Several (After (Key .option) LooseOption) ts options) :
      LooseDomain (ps ++ .colon :: ts) options

def LooseSpec (ts : List Token) (domains : List (List Nat)) : Prop :=
  Several (After (Key .domain) LooseDomain) ts domains

theorem Several.exists_form {α β : Type} {mark : Token → Prop} {form : List Token → α → Prop}
    {form' : List Token → β → Prop} {ts : List Token} {as : List α}
    (h : Several (After mark form) ts as)
    (hf : ∀ us a, us <:+: ts → form us a → ∃ b, form' us b) :
    ∃ bs, Several (After mark form') ts bs := by
  induction h with
  | nil => exact ⟨[], .nil⟩
  | @cons us vs a as h _ ih =>
    obtain @⟨t, us, _, hm, h⟩ := h
    obtain ⟨b, hb⟩ := hf us a ((List.suffix_cons t us).isInfix.trans
      (List.prefix_append (t :: us) vs).isInfix) h
    obtain ⟨bs, hbs⟩ := ih fun ws c hw => hf ws c (hw.trans (List.suffix_append _ vs).isInfix)
    exact ⟨b :: bs, .cons ⟨hm, hb⟩ hbs⟩

theorem DomainForm.loose {ts : List Token} {d : Domain} (h : DomainForm ts d) :
    ∃ options, LooseDomain ts options := by
  obtain ⟨hp, rules, -⟩ := h
  obtain ⟨options, ho⟩ := rules.exists_form fun us r _ hr => hr.loose.imp fun _ h => h.1
  exact ⟨options, hp, ho⟩

theorem LooseDomain.avoids_stray : Avoids Stray LooseDomain := by
  rintro ts options ⟨hp, ho⟩ t ht
  have hoption : Avoids Stray LooseOption := fun _ _ h t ht hs =>
    LooseOption.avoids_foreign h t ht (Or.inl hs)
  have hoptions := Several.avoids (After.avoids (fun _ => Key.not_stray) hoption) ho
  simp only [List.mem_append, List.mem_cons] at ht
  rcases ht with ht | rfl | ht
  · exact fun hs => PriorityForm.avoids_foreign hp t ht (Or.inl hs)
  · exact nofun
  · exact hoptions t ht

theorem LooseSpec.avoids_stray : Avoids Stray LooseSpec :=
  Several.avoids (After.avoids (fun _ => Key.not_stray) LooseDomain.avoids_stray)

theorem LooseOption.crowded {ts : List Token} {groups : Nat} (h : LooseOption ts groups)
    (hgroups : 1 < groups) : Crowded ts :=
  ⟨ts, List.infix_rfl, fun t ht hh => h.avoids_foreign t ht (Or.inr hh),
    hgroups.trans_eq h.count.symm⟩

theorem LooseOption.exists_form {ts : List Token} {groups : Nat} (h : LooseOption ts groups)
    (hc : ¬ Crowded ts) : ∃ r, OptionForm ts r := by
  have hgroups : groups ≤ 1 := Nat.not_lt.1 (mt h.crowded hc)
  obtain ⟨hn, ht⟩ := h
  exact ⟨⟨⟨_⟩, Conditions.ofList _, Conditions.ofList _⟩,
    ⟨hn, ht, hgroups, rfl, Conditions.members_ofList _, Conditions.members_ofList _⟩⟩

theorem LooseDomain.exists_form {ts : List Token} {options : List Nat}
    (h : LooseDomain ts options) (hc : ¬ Crowded ts) : ∃ d, DomainForm ts d := by
  obtain @⟨ps, us, names, _, hp, ho⟩ := h
  have hus : us <:+: ps ++ .colon :: us :=
    (List.suffix_cons _ _).isInfix.trans (List.suffix_append ps _).isInfix
  obtain ⟨rules, hrules⟩ := ho.exists_form fun vs _ hv h =>
    h.exists_form fun hvc => hc (hvc.mono (hv.trans hus))
  exact ⟨⟨rules, Conditions.ofList (names.map Condition.mk)⟩, hp, hrules,
    Conditions.members_ofList _⟩

/-- Too many groups in an option are all that can be wrong with tokens that make up a specification
but for the number of groups. -/
theorem exists_specForm_iff {ts : List Token} :
    (∃ s, SpecForm ts s) ↔ (∃ domains, LooseSpec ts domains) ∧ ¬ Crowded ts := by
  constructor
  · rintro ⟨s, h⟩
    exact ⟨Several.exists_form h fun _ _ _ hd => hd.loose, h.not_crowded⟩
  · rintro ⟨⟨domains, h⟩, hc⟩
    obtain ⟨ds, hds⟩ := Several.exists_form h fun us _ hu hd =>
      hd.exists_form fun huc => hc (huc.mono hu)
    exact ⟨⟨ds⟩, hds⟩

end Verdict.Language
