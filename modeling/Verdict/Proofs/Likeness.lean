import Verdict.Proofs.Footprint
import Verdict.Proofs.Precedence

/-! Equality up to the order inside sets. Rules that are equal in this way say the same, and
expanded they are still rules that say the same, though their order may be another one. Only what
the rules say and which conditions were found to hold makes the verdict, so a verdict does not
depend on order as long as the same conditions were found to hold.
-/

set_option autoImplicit false

namespace Verdict

theorem isEqv_iff_forall₂ {α : Type} {same : α → α → Bool} {l l' : List α} :
    l.isEqv l' same = true ↔ List.Forall₂ (fun a b => same a b = true) l l' := by
  induction l generalizing l' with
  | nil => cases l' <;> simp [List.isEqv]
  | cons a l ih => cases l' <;> simp [List.isEqv, ih]

theorem Rule.equiv_iff {r s : Rule} :
    r.equiv s = true ↔ r.result = s.result ∧ r.Alike s ∧ ∀ c, c ∈ r.anyOf ↔ c ∈ s.anyOf := by
  simp [equiv, Conditions.equiv_iff, Alike, and_assoc]

theorem Domain.equiv_iff {d e : Domain} :
    d.equiv e = true ↔ List.Forall₂ (fun r s => r.equiv s = true) d.rules e.rules ∧
      ∀ c, c ∈ d.priority ↔ c ∈ e.priority := by
  simp [equiv, Conditions.equiv_iff, isEqv_iff_forall₂]

theorem Spec.equiv_iff {s t : Spec} :
    s.equiv t = true ↔ List.Forall₂ (fun d e => d.equiv e = true) s.domains t.domains :=
  isEqv_iff_forall₂

structure Rule.Twin (r s : Rule) : Prop where
  result : r.result = s.result
  alike : r.Alike s

theorem Rule.Twin.refl (r : Rule) : r.Twin r := ⟨rfl, fun _ => Iff.rfl⟩

theorem Rule.Twin.symm {r s : Rule} (h : r.Twin s) : s.Twin r :=
  ⟨h.result.symm, fun c => (h.alike c).symm⟩

theorem Rule.Twin.trans {r s t : Rule} (h : r.Twin s) (h' : s.Twin t) : r.Twin t :=
  ⟨h.result.trans h'.result, fun c => (h.alike c).trans (h'.alike c)⟩

theorem Rule.Twin.wants_eq {r s : Rule} (h : r.Twin s) (c : Condition) : r.wants c = s.wants c := by
  rw [Bool.eq_iff_iff, wants_iff, wants_iff, h.alike c]

theorem Rule.Twin.strike {r s : Rule} (h : r.Twin s) (c : Condition) :
    (r.strike c).Twin (s.strike c) :=
  ⟨h.result, fun d => by rw [mem_strike, mem_strike, h.alike d]⟩

structure Paired (rules rules' : List Rule) : Prop where
  left : ∀ r ∈ rules, ∃ s ∈ rules', r.Twin s
  right : ∀ s ∈ rules', ∃ r ∈ rules, s.Twin r

namespace Paired

variable {rules rules' more more' : List Rule}

theorem symm (h : Paired rules rules') : Paired rules' rules := ⟨h.right, h.left⟩

theorem trans (h : Paired rules rules') (h' : Paired rules' more) : Paired rules more := by
  have hside : ∀ {l l' l'' : List Rule}, Paired l l' → Paired l' l'' →
      ∀ r ∈ l, ∃ t ∈ l'', r.Twin t := by
    intro l l' l'' hl hl' r hr
    obtain ⟨s, hs, hrs⟩ := hl.left r hr
    obtain ⟨t, ht, hst⟩ := hl'.left s hs
    exact ⟨t, ht, hrs.trans hst⟩
  exact ⟨hside h h', hside h'.symm h.symm⟩

theorem of_perm (h : rules.Perm rules') : Paired rules rules' :=
  ⟨fun r hr => ⟨r, h.mem_iff.1 hr, .refl r⟩, fun r hr => ⟨r, h.mem_iff.2 hr, .refl r⟩⟩

theorem singleton {r s : Rule} (h : r.Twin s) : Paired [r] [s] :=
  ⟨by simpa using h, by simpa using h.symm⟩

theorem append (h : Paired rules rules') (hmore : Paired more more') :
    Paired (rules ++ more) (rules' ++ more') := by
  -- The statement is the same from either side, so it is shown for one.
  have hside : ∀ {l l' m m' : List Rule}, Paired l l' → Paired m m' →
      ∀ r ∈ l ++ m, ∃ s ∈ l' ++ m', r.Twin s := by
    intro l l' m m' hl hm r hr
    rcases List.mem_append.1 hr with hr | hr
    · obtain ⟨s, hs, ht⟩ := hl.left r hr
      exact ⟨s, List.mem_append_left m' hs, ht⟩
    · obtain ⟨s, hs, ht⟩ := hm.left r hr
      exact ⟨s, List.mem_append_right l' hs, ht⟩
  exact ⟨hside h hmore, hside h.symm hmore.symm⟩

theorem mem_wanted (h : Paired rules rules') {c : Condition} :
    c ∈ wanted rules ↔ c ∈ wanted rules' := by
  rw [Verdict.mem_wanted, Verdict.mem_wanted]
  constructor
  · rintro ⟨r, hr, hc⟩
    obtain ⟨s, hs, ht⟩ := h.left r hr
    exact ⟨s, hs, (ht.alike c).1 hc⟩
  · rintro ⟨s, hs, hc⟩
    obtain ⟨r, hr, ht⟩ := h.right s hs
    exact ⟨r, hr, (ht.alike c).1 hc⟩

end Paired

theorem Rule.exists_twin_expand {r s e : Rule} (h : r.equiv s = true) (he : e ∈ r.expand) :
    ∃ e' ∈ s.expand, e.Twin e' := by
  obtain ⟨hresult, hwant, hany⟩ := equiv_iff.1 h
  rcases mem_expand.1 he with ⟨hempty, rfl⟩ | ⟨c, hc, rfl⟩
  · have hs : s.anyOf = .empty := by
      apply Conditions.ext
      refine List.eq_nil_iff_forall_not_mem.2 fun c hc => ?_
      have hr := (hany c).2 hc
      rw [hempty] at hr
      cases hr
    exact ⟨s, mem_expand.2 (Or.inl ⟨hs, rfl⟩), hresult, hwant⟩
  · refine ⟨_, mem_expand.2 (Or.inr ⟨c, (hany c).1 hc, rfl⟩), hresult, fun x => ?_⟩
    rw [Conditions.mem_insert, Conditions.mem_insert, hwant x]

theorem Rule.paired_expand {r s : Rule} (h : r.equiv s = true) : Paired r.expand s.expand := by
  obtain ⟨hresult, hwant, hany⟩ := equiv_iff.1 h
  have hback : s.equiv r = true :=
    equiv_iff.2 ⟨hresult.symm, fun c => (hwant c).symm, fun c => (hany c).symm⟩
  exact ⟨fun _ => exists_twin_expand h, fun _ => exists_twin_expand hback⟩

theorem Domain.paired_expand {d e : Domain} (h : d.equiv e = true) :
    Paired d.expand e.expand := by
  obtain ⟨rules, _⟩ := d
  obtain ⟨rules', _⟩ := e
  have hrules : List.Forall₂ (fun r s => r.equiv s = true) rules rules' := (equiv_iff.1 h).1
  clear h
  unfold expand
  induction hrules with
  | nil => exact ⟨by simp, by simp⟩
  | cons hr _ ih =>
    rw [List.flatMap_cons, List.flatMap_cons]
    exact (Rule.paired_expand hr).append ih

/-- The results alone make the verdict, not how often or in which order they come. -/
theorem verdict?_congr {rules rules' : List Rule}
    (h : ∀ o, (∃ r ∈ rules, r.result = o) ↔ ∃ r ∈ rules', r.result = o) :
    verdict? rules = verdict? rules' := by
  cases rules with
  | nil =>
    have hnil : rules' = [] := by
      refine List.eq_nil_iff_forall_not_mem.2 fun r hr => ?_
      obtain ⟨_, hs, _⟩ := (h r.result).2 ⟨r, hr, rfl⟩
      cases hs
    rw [hnil]
  | cons first rest =>
    obtain ⟨s, hs, hsr⟩ := (h first.result).1 ⟨first, List.mem_cons_self, rfl⟩
    by_cases hall : ∀ r ∈ first :: rest, r.result = first.result
    · have hall' : ∀ t ∈ rules', t.result = s.result := by
        intro t ht
        obtain ⟨r, hr, hrt⟩ := (h t.result).2 ⟨t, ht, rfl⟩
        rw [← hrt, hall r hr, hsr]
      rw [verdict?_of_agree List.mem_cons_self hall, verdict?_of_agree hs hall', hsr]
    · simp only [not_forall] at hall
      obtain ⟨r, hr, hne⟩ := hall
      obtain ⟨t, ht, htr⟩ := (h r.result).1 ⟨r, hr, rfl⟩
      have hne' : t.result ≠ s.result := by
        rw [htr, hsr]
        exact hne
      rw [verdict?_of_differ hr List.mem_cons_self hne, verdict?_of_differ ht hs hne']

theorem Remnant.verdict?_eq {rules rules' left left' : List Rule} {query : Conditions}
    {held held' : List Condition} (h : Remnant rules query held left)
    (h' : Remnant rules' query held' left') (hpair : Paired rules rules')
    (hheld : ∀ c, c ∈ held ↔ c ∈ held') : verdict? left = verdict? left' := by
  have hside : ∀ {l l' : List Rule} {k k' : List Condition}, Paired l l' →
      (∀ c, c ∈ k ↔ c ∈ k') → ∀ o, (∃ r ∈ l, (∀ c, c ∈ r.want ↔ c ∈ k) ∧ r.result = o) →
        ∃ r ∈ l', (∀ c, c ∈ r.want ↔ c ∈ k') ∧ r.result = o := by
    rintro l l' k k' hl hk o ⟨r, hr, hsame, ho⟩
    obtain ⟨s, hs, ht⟩ := hl.left r hr
    exact ⟨s, hs, fun c => by rw [← ht.alike c, hsame c, hk c], ht.result ▸ ho⟩
  refine verdict?_congr fun o => ?_
  rw [h.results o, h'.results o]
  exact ⟨hside hpair hheld o, hside hpair.symm (fun c => (hheld c).symm) o⟩

end Verdict
