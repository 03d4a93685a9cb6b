import Mathlib.Data.List.Forall2
import Verdict.Language.Grammar
import Verdict.Proofs.Members

/-! The grammar of the rule language, as rules that build a list of tokens from smaller ones and say
what it stands for. A keyword may be written in letters of either case, and writing it in others
does not change what the tokens stand for.
-/

set_option autoImplicit false

namespace Verdict

namespace Language

/-- The word is the keyword, each letter in lower or in upper case. -/
def Keyword.Spelt (k : Keyword) (word : String) : Prop :=
  List.Forall₂ (fun c letter => c = letter ∨ c = letter.toUpper) word.toList k.text.toList

def IsName (word : String) : Prop := ∀ k : Keyword, ¬ k.Spelt word

theorem toLower_eq_iff {c d : Char} (hd : 'a' ≤ d ∧ d ≤ 'z') :
    c.toLower = d ↔ c = d ∨ c = d.toUpper := by
  have hl : 97 ≤ d.val.toNat := by simpa [UInt32.le_iff_toNat_le] using Char.le_def.1 hd.1
  have hu : d.val.toNat ≤ 122 := by simpa [UInt32.le_iff_toNat_le] using Char.le_def.1 hd.2
  have hupper : d.toUpper.val.toNat = d.val.toNat - 32 := by
    have h : 'a'.val ≤ d.val ∧ d.val ≤ 'z'.val := ⟨Char.le_def.1 hd.1, Char.le_def.1 hd.2⟩
    have hgap : ('A'.val - 'a'.val).toNat = 2 ^ 32 - 32 := by decide
    delta Char.toUpper
    simp only [dif_pos h, UInt32.toNat_add]
    omega
  have hlower : c.toLower.val.toNat =
      if 65 ≤ c.val.toNat ∧ c.val.toNat ≤ 90 then c.val.toNat + 32 else c.val.toNat := by
    by_cases h : c.val ≥ 'A'.val ∧ c.val ≤ 'Z'.val
    · have h' : 65 ≤ c.val.toNat ∧ c.val.toNat ≤ 90 := by
        simpa [UInt32.le_iff_toNat_le] using h
      have hgap : ('a'.val - 'A'.val).toNat = 32 := by decide
      delta Char.toLower
      simp only [dif_pos h, if_pos h', UInt32.toNat_add]
      omega
    · have h' : ¬ (65 ≤ c.val.toNat ∧ c.val.toNat ≤ 90) := by
        simpa [UInt32.le_iff_toNat_le] using h
      delta Char.toLower
      simp only [dif_neg h, if_neg h']
  have hext : ∀ {a b : Char}, a = b ↔ a.val.toNat = b.val.toNat := fun {a b} => by
    rw [Char.ext_iff, UInt32.toNat_inj]
  rw [hext, hext, hext, hlower, hupper]
  split <;> omega

theorem Keyword.letters (k : Keyword) : ∀ d ∈ k.text.toList, 'a' ≤ d ∧ d ≤ 'z' := by
  have hall : k.text.toList.all Char.isLower = true := by cases k <;> decide
  intro d hd
  have hd : (decide (d.val ≥ 'a'.val) && decide (d.val ≤ 'z'.val)) = true :=
    List.all_eq_true.1 hall d hd
  simpa [Char.le_def] using hd

theorem map_toLower_eq_iff {cs ds : List Char} (hd : ∀ d ∈ ds, 'a' ≤ d ∧ d ≤ 'z') :
    cs.map Char.toLower = ds ↔ List.Forall₂ (fun c d => c = d ∨ c = d.toUpper) cs ds := by
  induction ds generalizing cs with
  | nil => simp
  | cons d ds ih =>
    have hds : ∀ d ∈ ds, 'a' ≤ d ∧ d ≤ 'z' := fun e he => hd e (List.mem_cons_of_mem d he)
    cases cs with
    | nil => simp
    | cons c cs =>
      rw [List.map_cons, List.cons.injEq, toLower_eq_iff (hd d List.mem_cons_self), ih hds,
        List.forall₂_cons]

theorem Keyword.spells_iff {k : Keyword} {word : String} : k.spells word = true ↔ k.Spelt word := by
  have hlower : word.toLower = word.map Char.toLower := rfl
  rw [spells, beq_iff_eq, ← String.toList_inj, hlower, String.toList_map,
    map_toLower_eq_iff k.letters]
  rfl

theorem isName_iff {word : String} : isName word = true ↔ IsName word := by
  simp only [isName, List.all_eq_true, Bool.not_eq_true', Bool.eq_false_iff, ne_eq,
    Keyword.spells_iff]
  constructor
  · intro h k
    exact h k (by cases k <;> decide)
  · intro h k _
    exact h k

inductive Key (k : Keyword) : Token → Prop where
  | mk {word : String} (h : k.Spelt word) : Key k (.word word)

theorem key_iff {k : Keyword} {t : Token} : Key k t ↔ k.isToken t = true := by
  constructor
  · rintro ⟨h⟩
    exact Keyword.spells_iff.2 h
  · intro h
    cases t with
    | word word => exact .mk (Keyword.spells_iff.1 h)
    | _ => cases h

section

variable {α : Type}

inductive Several (form : List Token → α → Prop) : List Token → List α → Prop where
  | nil : Several form [] []
  | cons {ts us : List Token} {a : α} {as : List α} (h : form ts a) (hs : Several form us as) :
      Several form (ts ++ us) (a :: as)

inductive After (mark : Token → Prop) (form : List Token → α → Prop) : List Token → α → Prop where
  | mk {t : Token} {ts : List Token} {a : α} (hm : mark t) (h : form ts a) :
      After mark form (t :: ts) a

/-- The form once or more, with a separator before every repetition. -/
inductive Joined (form : List Token → α → Prop) (separator : Token → Prop) :
    List Token → List α → Prop where
  | mk {ts us : List Token} {a : α} {as : List α} (h : form ts a)
      (hs : Several (After separator form) us as) : Joined form separator (ts ++ us) (a :: as)

end

inductive NameForm : List Token → String → Prop where
  | mk {word : String} (h : IsName word) : NameForm [.word word] word

/-- A term stands for the names that it wants and for its groups, of each of which one name is
enough. -/
inductive TermForm : List Token → List String × List (List String) → Prop where
  | condition {ts : List Token} {name : String} (h : NameForm ts name) : TermForm ts ([name], [])
  | group {ts : List Token} {names : List String} (h : Joined NameForm (Key .or) ts names) :
      TermForm (.leftParen :: (ts ++ [.rightParen])) ([], [names])

inductive OptionForm : List Token → Rule → Prop where
  | mk {ns ts : List Token} {name : String} {terms : List (List String × List (List String))}
      {r : Rule} (hn : NameForm ns name) (ht : Joined TermForm (Key .and) ts terms)
      (group : (terms.flatMap Prod.snd).length ≤ 1)
      (result : r.result.name = name)
      (want : r.want.members = ((terms.flatMap Prod.fst).map Condition.mk).eraseDups)
      (anyOf : r.anyOf.members = ((terms.flatMap Prod.snd).flatten.map Condition.mk).eraseDups) :
      OptionForm (ns ++ .colon :: ts) r

inductive PriorityForm : List Token → List String → Prop where
  | none : PriorityForm [] []
  | some {t : Token} {ts : List Token} {names : List String} (hk : Key .priority t)
      (h : Joined NameForm (· = .comma) ts names) :
      PriorityForm (.leftParen :: t :: (ts ++ [.rightParen])) names

inductive DomainForm : List Token → Domain → Prop where
  | mk {ps ts : List Token} {names : List String} {d : Domain} (hp : PriorityForm ps names)
      (rules : Several (After (Key .option) OptionForm) ts d.rules)
      (priority : d.priority.members = (names.map Condition.mk).eraseDups) :
      DomainForm (ps ++ .colon :: ts) d

def SpecForm (ts : List Token) (s : Spec) : Prop :=
  Several (After (Key .domain) DomainForm) ts s.domains

/-- The same token, but for the case of the letters in a keyword. -/
inductive Respelt : Token → Token → Prop where
  | refl (t : Token) : Respelt t t
  | keyword {k : Keyword} {v w : String} (hv : k.Spelt v) (hw : k.Spelt w) :
      Respelt (.word v) (.word w)

theorem Respelt.symm {t u : Token} (h : Respelt t u) : Respelt u t := by
  cases h with
  | refl => exact .refl t
  | keyword hv hw => exact .keyword hw hv

theorem respelt_iff {t u : Token} :
    Respelt t u ↔ t = u ∨ ∃ k ∈ Keyword.all, k.isToken t = true ∧ k.isToken u = true := by
  constructor
  · intro h
    cases h with
    | refl => exact .inl rfl
    | @keyword k _ _ hv hw =>
      exact .inr ⟨k, by cases k <;> decide, Keyword.spells_iff.2 hv, Keyword.spells_iff.2 hw⟩
  · rintro (rfl | ⟨k, -, ht, hu⟩)
    · exact .refl t
    · obtain ⟨hv⟩ := key_iff.2 ht
      obtain ⟨hw⟩ := key_iff.2 hu
      exact .keyword hv hw

instance (t u : Token) : Decidable (Respelt t u) := decidable_of_iff _ respelt_iff.symm

theorem Keyword.Spelt.unique {k l : Keyword} {word : String} (hk : k.Spelt word)
    (hl : l.Spelt word) : k = l := by
  have ht : k.text = l.text :=
    (beq_iff_eq.1 (spells_iff.2 hk)).symm.trans (beq_iff_eq.1 (spells_iff.2 hl))
  cases k <;> cases l <;> first | rfl | exact absurd ht (by decide)

theorem Key.respelt {k : Keyword} {t u : Token} (h : Key k t) (hr : Respelt t u) : Key k u := by
  obtain ⟨hk⟩ := h
  cases hr with
  | refl => exact ⟨hk⟩
  | keyword hv hw => exact ⟨hk.unique hv ▸ hw⟩

def CaseBlind {α : Type} (form : List Token → α → Prop) : Prop :=
  ∀ ⦃ts us a⦄, form ts a → List.Forall₂ Respelt ts us → form us a

theorem exists_of_respelt_append {ts us vs : List Token}
    (h : List.Forall₂ Respelt (ts ++ us) vs) :
    ∃ ts' us', vs = ts' ++ us' ∧ List.Forall₂ Respelt ts ts' ∧ List.Forall₂ Respelt us us' :=
  ⟨vs.take ts.length, vs.drop ts.length, (List.take_append_drop _ vs).symm,
    (List.forall₂_take_append vs ts us h.flip).flip,
    (List.forall₂_drop_append vs ts us h.flip).flip⟩

section

variable {α : Type} {form : List Token → α → Prop}

theorem Several.caseBlind (hf : CaseBlind form) : CaseBlind (Several form) := by
  intro ts us as h hr
  induction h generalizing us with
  | nil =>
    cases hr
    exact .nil
  | cons h _ ih =>
    obtain ⟨ts', us', rfl, ht, hu⟩ := exists_of_respelt_append hr
    exact .cons (hf h ht) (ih hu)

theorem After.caseBlind {mark : Token → Prop} (hm : ∀ t u, mark t → Respelt t u → mark u)
    (hf : CaseBlind form) : CaseBlind (After mark form) := by
  rintro ts us a ⟨ht, h⟩ (_ | ⟨hr, hrs⟩)
  exact ⟨hm _ _ ht hr, hf h hrs⟩

theorem Joined.caseBlind {separator : Token → Prop}
    (hs : ∀ t u, separator t → Respelt t u → separator u) (hf : CaseBlind form) :
    CaseBlind (Joined form separator) := by
  rintro ts us as ⟨h, hmore⟩ hr
  obtain ⟨ts', us', rfl, ht, hu⟩ := exists_of_respelt_append hr
  exact ⟨hf h ht, Several.caseBlind (After.caseBlind hs hf) hmore hu⟩

end

theorem NameForm.caseBlind : CaseBlind NameForm := by
  rintro ts us a ⟨hn⟩ (_ | ⟨hr, _ | _⟩)
  cases hr with
  | refl => exact ⟨hn⟩
  | keyword hv _ => exact absurd hv (hn _)

theorem Respelt.eq_of_sign {t u : Token} (ht : ∀ w, t ≠ .word w) (h : Respelt t u) : u = t := by
  cases h with
  | refl => rfl
  | keyword => exact absurd rfl (ht _)

theorem exists_of_respelt_closed {ts vs : List Token}
    (h : List.Forall₂ Respelt (ts ++ [.rightParen]) vs) :
    ∃ ts', vs = ts' ++ [.rightParen] ∧ List.Forall₂ Respelt ts ts' := by
  obtain ⟨ts', us', rfl, ht, hu⟩ := exists_of_respelt_append h
  cases hu with
  | cons hsign hnil =>
    cases hnil
    exact ⟨ts', by rw [hsign.eq_of_sign (by simp)], ht⟩

theorem exists_of_respelt_colon {ts us vs : List Token}
    (h : List.Forall₂ Respelt (ts ++ .colon :: us) vs) :
    ∃ ts' us', vs = ts' ++ .colon :: us' ∧ List.Forall₂ Respelt ts ts' ∧
      List.Forall₂ Respelt us us' := by
  obtain ⟨ts', us', rfl, ht, hu⟩ := exists_of_respelt_append h
  cases hu with
  | cons hsign hu => exact ⟨ts', _, by rw [hsign.eq_of_sign (by simp)], ht, hu⟩

theorem TermForm.caseBlind : CaseBlind TermForm := by
  intro ts us a h hr
  cases h with
  | condition h => exact .condition (NameForm.caseBlind h hr)
  | group h =>
    obtain _ | ⟨hleft, hr⟩ := hr
    obtain ⟨ts', rfl, ht⟩ := exists_of_respelt_closed hr
    rw [hleft.eq_of_sign (by simp)]
    exact .group (Joined.caseBlind (fun _ _ => Key.respelt) NameForm.caseBlind h ht)

theorem OptionForm.caseBlind : CaseBlind OptionForm := by
  rintro ts us r ⟨hn, ht, group, result, want, anyOf⟩ hr
  obtain ⟨ns', ts', rfl, hrn, hrt⟩ := exists_of_respelt_colon hr
  exact ⟨NameForm.caseBlind hn hrn,
    Joined.caseBlind (fun _ _ => Key.respelt) TermForm.caseBlind ht hrt, group, result, want, anyOf⟩

theorem PriorityForm.caseBlind : CaseBlind PriorityForm := by
  intro ts us names h hr
  cases h with
  | none =>
    cases hr
    exact .none
  | some hk h =>
    have hcomma : ∀ t u, t = Token.comma → Respelt t u → u = .comma := by
      rintro _ u rfl hu
      exact hu.eq_of_sign (by simp)
    obtain _ | ⟨hleft, _ | ⟨hrk, hr⟩⟩ := hr
    obtain ⟨ts', rfl, ht⟩ := exists_of_respelt_closed hr
    rw [hleft.eq_of_sign (by simp)]
    exact .some (hk.respelt hrk) (Joined.caseBlind hcomma NameForm.caseBlind h ht)

theorem DomainForm.caseBlind : CaseBlind DomainForm := by
  rintro ts us d ⟨hp, rules, priority⟩ hr
  obtain ⟨ps', ts', rfl, hrp, hrt⟩ := exists_of_respelt_colon hr
  exact ⟨PriorityForm.caseBlind hp hrp,
    Several.caseBlind (After.caseBlind (fun _ _ => Key.respelt) OptionForm.caseBlind) rules hrt,
    priority⟩

theorem SpecForm.caseBlind : CaseBlind SpecForm := fun _ _ _ h =>
  Several.caseBlind (After.caseBlind (fun _ _ => Key.respelt) DomainForm.caseBlind) h

inductive LooseOption : List Token → Nat → Prop where
  | mk {ns ts : List Token} {name : String} {terms : List (List String × List (List String))}
      (hn : NameForm ns name) (ht : Joined TermForm (Key .and) ts terms) :
      LooseOption (ns ++ .colon :: ts) (terms.flatMap Prod.snd).length

theorem OptionForm.loose {ts : List Token} {r : Rule} (h : OptionForm ts r) :
    ∃ groups, LooseOption ts groups ∧ groups ≤ 1 := by
  obtain ⟨hn, ht, group, -, -, -⟩ := h
  exact ⟨_, ⟨hn, ht⟩, group⟩

def Avoids {α : Type} (mark : Token → Prop) (form : List Token → α → Prop) : Prop :=
  ∀ ⦃ts a⦄, form ts a → ∀ t ∈ ts, ¬ mark t

section

variable {α : Type} {mark : Token → Prop} {form : List Token → α → Prop}

theorem Several.avoids (hf : Avoids mark form) : Avoids mark (Several form) := by
  intro ts as h t
  induction h with
  | nil => exact fun ht => absurd ht List.not_mem_nil
  | cons h _ ih => exact fun ht => (List.mem_append.1 ht).elim (hf h t) ih

theorem After.avoids {lead : Token → Prop} (hl : ∀ t, lead t → ¬ mark t) (hf : Avoids mark form) :
    Avoids mark (After lead form) := by
  rintro ts a ⟨hlead, h⟩ t ht
  rcases List.mem_cons.1 ht with rfl | ht
  · exact hl t hlead
  · exact hf h t ht

theorem Joined.avoids {separator : Token → Prop} (hs : ∀ t, separator t → ¬ mark t)
    (hf : Avoids mark form) : Avoids mark (Joined form separator) := by
  rintro ts as ⟨h, hmore⟩ t ht
  exact (List.mem_append.1 ht).elim (hf h t) (Several.avoids (After.avoids hs hf) hmore t)

end

def Stray (t : Token) : Prop := ∃ c, t = .stray c

def Heading (t : Token) : Prop := Key .option t ∨ Key .domain t

def Foreign (t : Token) : Prop := Stray t ∨ Heading t

theorem Key.not_stray {k : Keyword} {t : Token} (h : Key k t) : ¬ Stray t := by
  obtain ⟨_⟩ := h
  exact nofun

theorem Key.not_foreign {k : Keyword} (hk : k ≠ .option ∧ k ≠ .domain) {t : Token} (h : Key k t) :
    ¬ Foreign t := by
  rintro (hs | ho | hd)
  · exact h.not_stray hs
  · obtain ⟨h⟩ := h
    obtain ⟨ho⟩ := ho
    exact hk.1 (h.unique ho)
  · obtain ⟨h⟩ := h
    obtain ⟨hd⟩ := hd
    exact hk.2 (h.unique hd)

theorem not_foreign_sign {t : Token} (hw : ∀ word, t ≠ .word word) (hs : ¬ Stray t) :
    ¬ Foreign t := by
  rintro (h | h | h)
  · exact hs h
  · obtain ⟨_⟩ := h
    exact hw _ rfl
  · obtain ⟨_⟩ := h
    exact hw _ rfl

theorem NameForm.avoids_foreign : Avoids Foreign NameForm := by
  rintro ts a ⟨hname⟩ t ht
  obtain rfl := List.mem_singleton.1 ht
  rintro (⟨_, h⟩ | h | h)
  · cases h
  · obtain ⟨h⟩ := h
    exact hname _ h
  · obtain ⟨h⟩ := h
    exact hname _ h

theorem TermForm.avoids_foreign : Avoids Foreign TermForm := by
  intro ts a h t ht
  cases h with
  | condition h => exact NameForm.avoids_foreign h t ht
  | group h =>
    have hnames := Joined.avoids (fun _ => Key.not_foreign (by decide)) NameForm.avoids_foreign h
    simp only [List.mem_cons, List.mem_append, List.not_mem_nil, or_false] at ht
    rcases ht with rfl | ht | rfl
    · exact not_foreign_sign nofun nofun
    · exact hnames t ht
    · exact not_foreign_sign nofun nofun

theorem LooseOption.avoids_foreign : Avoids Foreign LooseOption := by
  rintro ts _ ⟨hn, h⟩ t ht
  have hterms := Joined.avoids (fun _ => Key.not_foreign (by decide)) TermForm.avoids_foreign h
  simp only [List.mem_append, List.mem_cons] at ht
  rcases ht with ht | rfl | ht
  · exact NameForm.avoids_foreign hn t ht
  · exact not_foreign_sign nofun nofun
  · exact hterms t ht

theorem PriorityForm.avoids_foreign : Avoids Foreign PriorityForm := by
  intro ts names h t ht
  cases h with
  | none => cases ht
  | some hk h =>
    have hcomma : ∀ t, t = .comma → ¬ Foreign t := fun t ht =>
      ht ▸ not_foreign_sign nofun nofun
    have hnames := Joined.avoids hcomma NameForm.avoids_foreign h
    simp only [List.mem_cons, List.mem_append, List.not_mem_nil, or_false] at ht
    rcases ht with rfl | rfl | ht | rfl
    · exact not_foreign_sign nofun nofun
    · exact hk.not_foreign (by decide)
    · exact hnames t ht
    · exact not_foreign_sign nofun nofun

theorem OptionForm.avoids_stray : Avoids Stray OptionForm := by
  intro ts r h t ht hs
  obtain ⟨_, hloose, -⟩ := h.loose
  exact LooseOption.avoids_foreign hloose t ht (Or.inl hs)

theorem DomainForm.avoids_stray : Avoids Stray DomainForm := by
  rintro ts d ⟨hp, rules, -⟩ t ht
  have hrules :=
    Several.avoids (After.avoids (fun _ => Key.not_stray) OptionForm.avoids_stray) rules
  simp only [List.mem_append, List.mem_cons] at ht
  rcases ht with ht | rfl | ht
  · exact fun hs => PriorityForm.avoids_foreign hp t ht (Or.inl hs)
  · exact nofun
  · exact hrules t ht

def Clean {α : Type} (form : List Token → α → Prop) : Prop :=
  ∀ ⦃ts a⦄, form ts a → ∀ c, Token.stray c ∉ ts

theorem SpecForm.clean : Clean SpecForm := fun _ _ h c hc =>
  Several.avoids (After.avoids (fun _ => Key.not_stray) DomainForm.avoids_stray) h _ hc ⟨c, rfl⟩

end Language

end Verdict
