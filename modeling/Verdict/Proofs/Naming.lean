import Verdict.Tree

set_option autoImplicit false

namespace Verdict

def Conditions.Named (s : Conditions) : Prop := ∀ c ∈ s.members, c.name ≠ ""

structure Rule.Named (r : Rule) : Prop where
  result : r.result.name ≠ ""
  want : r.want.Named
  anyOf : r.anyOf.Named

structure Domain.Named (d : Domain) : Prop where
  rules : ∀ r ∈ d.rules, r.Named
  priority : d.priority.Named

def Spec.Named (s : Spec) : Prop := ∀ d ∈ s.domains, d.Named

instance (s : Conditions) : Decidable s.Named :=
  inferInstanceAs (Decidable (∀ c ∈ s.members, c.name ≠ ""))

instance (r : Rule) : Decidable r.Named :=
  decidable_of_iff (r.result.name ≠ "" ∧ r.want.Named ∧ r.anyOf.Named)
    ⟨fun h => ⟨h.1, h.2.1, h.2.2⟩, fun h => ⟨h.result, h.want, h.anyOf⟩⟩

instance (d : Domain) : Decidable d.Named :=
  decidable_of_iff ((∀ r ∈ d.rules, r.Named) ∧ d.priority.Named)
    ⟨fun h => ⟨h.1, h.2⟩, fun h => ⟨h.rules, h.priority⟩⟩

instance (s : Spec) : Decidable s.Named :=
  inferInstanceAs (Decidable (∀ d ∈ s.domains, d.Named))

/-- Orders are approved, reviewed or refused. One that is paid and flagged is both to be reviewed
and to be refused. -/
def Domain.orders : Domain :=
  ⟨[⟨⟨"approve"⟩, .ofList [⟨"paid"⟩, ⟨"verified"⟩], .empty⟩,
    ⟨⟨"review"⟩, .ofList [⟨"paid"⟩], .ofList [⟨"flagged"⟩, ⟨"new"⟩]⟩,
    ⟨⟨"refuse"⟩, .ofList [⟨"flagged"⟩, ⟨"paid"⟩], .empty⟩], .ofList [⟨"verified"⟩]⟩

def Domain.oldOrders : Domain :=
  ⟨[⟨⟨"reject"⟩, .ofList [⟨"expired"⟩, ⟨"notified"⟩], .empty⟩], .empty⟩

def Spec.orders : Spec := ⟨[Domain.orders, Domain.oldOrders]⟩

theorem Conditions.hasEmptyName_iff {s : Conditions} : s.hasEmptyName = true ↔ ¬ s.Named := by
  simp [hasEmptyName, Named]

theorem Rule.emptyName?_eq_none_iff {r : Rule} : r.emptyName? = none ↔ r.Named := by
  unfold emptyName?
  by_cases ho : r.result.name = ""
  · have hn : ¬ r.Named := fun h => h.result ho
    simp [ho, hn]
  · by_cases hs : r.want.Named ∧ r.anyOf.Named
    · have hn : r.Named := ⟨ho, hs.1, hs.2⟩
      simp [ho, Conditions.hasEmptyName_iff, hs, hn]
    · have hn : ¬ r.Named := fun h => hs ⟨h.want, h.anyOf⟩
      have hf : r.want.hasEmptyName = true ∨ r.anyOf.hasEmptyName = true := by
        rw [Conditions.hasEmptyName_iff, Conditions.hasEmptyName_iff]
        exact Classical.not_and_iff_not_or_not.1 hs
      simp [ho, hf, hn]

theorem Domain.emptyName?_eq_none_iff {d : Domain} : d.emptyName? = none ↔ d.Named := by
  unfold emptyName?
  cases hr : d.rules.findSome? Rule.emptyName? with
  | some fault =>
    obtain ⟨r, hmem, hfault⟩ := List.exists_of_findSome?_eq_some hr
    have hn : ¬ d.Named := fun h => by
      rw [Rule.emptyName?_eq_none_iff.2 (h.rules r hmem)] at hfault
      cases hfault
    simp [hn]
  | none =>
    have hrules : ∀ r ∈ d.rules, r.Named := fun r hmem =>
      Rule.emptyName?_eq_none_iff.1 (List.findSome?_eq_none_iff.1 hr r hmem)
    by_cases hp : d.priority.Named
    · have hn : d.Named := ⟨hrules, hp⟩
      simp [Conditions.hasEmptyName_iff, hp, hn]
    · have hn : ¬ d.Named := fun h => hp h.priority
      simp [Conditions.hasEmptyName_iff, hp, hn]

theorem Spec.fault?_eq_none_iff {s : Spec} : s.fault? = none ↔ s.Named := by
  unfold fault?
  rw [List.findSome?_eq_none_iff]
  constructor
  · intro h d hd
    obtain ⟨i, hi, rfl⟩ := List.mem_iff_getElem.1 hd
    have hmem : (s.domains[i], i) ∈ s.domains.zipIdx := by
      rw [List.mem_zipIdx_iff_getElem?]
      simp [hi]
    exact Domain.emptyName?_eq_none_iff.1 (Option.map_eq_none_iff.1 (h _ hmem))
  · rintro h ⟨d, i⟩ hmem
    have hd : d ∈ s.domains := List.fst_mem_of_mem_zipIdx hmem
    exact Option.map_eq_none_iff.2 (Domain.emptyName?_eq_none_iff.2 (h d hd))

theorem Spec.compile_eq_ok_iff {s : Spec} {compact : Bool} {t : Tree} :
    s.compile compact = .ok t ↔ s.Named ∧ t = s.tree compact := by
  unfold compile
  cases hf : s.fault? with
  | none =>
    have hn := Spec.fault?_eq_none_iff.1 hf
    simp [hn, eq_comm]
  | some fault =>
    have hn : ¬ s.Named := fun h => by
      rw [Spec.fault?_eq_none_iff.2 h] at hf
      cases hf
    simp [hn]

theorem Spec.compile_of_named {s : Spec} (h : s.Named) (compact : Bool) :
    s.compile compact = .ok (s.tree compact) :=
  Spec.compile_eq_ok_iff.2 ⟨h, rfl⟩

theorem Spec.Named.tail {d : Domain} {rest : List Domain} (h : (Spec.mk (d :: rest)).Named) :
    (Spec.mk rest).Named :=
  fun e he => h e (List.mem_cons_of_mem d he)

theorem Conditions.Named.insert {s : Conditions} {c : Condition} (h : s.Named)
    (hc : c.name ≠ "") : (s.insert c).Named := by
  intro d hd
  rcases Conditions.mem_insert.1 hd with hs | rfl
  · exact h d hs
  · exact hc

theorem Rule.Named.expand {r e : Rule} (h : r.Named) (he : e ∈ r.expand) : e.Named := by
  unfold Rule.expand at he
  split at he
  · obtain rfl := List.mem_singleton.1 he
    exact h
  · obtain ⟨c, hc, rfl⟩ := List.mem_map.1 he
    exact ⟨h.result, h.want.insert (h.anyOf c hc), by simp [Conditions.Named, Conditions.empty]⟩

theorem Domain.Named.expand {d : Domain} {e : Rule} (h : d.Named) (he : e ∈ d.expand) :
    e.Named := by
  obtain ⟨r, hr, her⟩ := List.mem_flatMap.1 he
  exact (h.rules r hr).expand her

end Verdict
