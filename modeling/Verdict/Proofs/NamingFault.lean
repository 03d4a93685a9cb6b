import Verdict.Proofs.Footprint

set_option autoImplicit false

namespace Verdict

theorem Conditions.named_iff {s : Conditions} : s.Named ↔ ⟨""⟩ ∉ s := by
  constructor
  · intro h hmem
    exact h _ hmem rfl
  · rintro h ⟨name⟩ hc rfl
    exact h hc

def Rule.Nameless (r : Rule) : Prop := r.result.name = "" ∨ ⟨""⟩ ∈ r.want ∨ ⟨""⟩ ∈ r.anyOf

def Domain.Nameless (d : Domain) : Prop := (∃ r ∈ d.rules, r.Nameless) ∨ ⟨""⟩ ∈ d.priority

/-- The first rule of the domain with an empty name has an empty result. -/
def Domain.LacksResult (d : Domain) : Prop :=
  ∃ before r after, d.rules = before ++ r :: after ∧ r.result.name = "" ∧
    ∀ x ∈ before, ¬ x.Nameless

theorem Rule.named_iff {r : Rule} : r.Named ↔ ¬ r.Nameless := by
  simp only [Nameless, not_or, ← Conditions.named_iff]
  exact ⟨fun h => ⟨h.result, h.want, h.anyOf⟩, fun h => ⟨h.1, h.2.1, h.2.2⟩⟩

theorem Domain.named_iff {d : Domain} : d.Named ↔ ¬ d.Nameless := by
  simp only [Nameless, not_or, not_exists, not_and, ← Conditions.named_iff, ← Rule.named_iff]
  exact ⟨fun h => ⟨h.rules, h.priority⟩, fun h => ⟨h.1, h.2⟩⟩

theorem Spec.named_iff {s : Spec} : s.Named ↔ ¬ ∃ d ∈ s.domains, d.Nameless := by
  simp only [Named, Domain.named_iff, not_exists, not_and]

theorem Rule.emptyName?_eq_outcome {r : Rule} :
    r.emptyName? = some .outcome ↔ r.result.name = "" := by
  unfold emptyName?
  by_cases hr : r.result.name = ""
  · simp [hr]
  · by_cases hc : (r.want.hasEmptyName || r.anyOf.hasEmptyName) = true <;> simp [hr, hc]

namespace Domain

variable {d : Domain}

theorem emptyName?_eq_outcome : d.emptyName? = some .outcome ↔ d.LacksResult := by
  have hrules : d.emptyName? = some .outcome ↔
      d.rules.findSome? Rule.emptyName? = some .outcome := by
    unfold emptyName?
    cases d.rules.findSome? Rule.emptyName? with
    | some fault => rfl
    | none => by_cases hp : d.priority.hasEmptyName = true <;> simp [hp]
  rw [hrules, List.findSome?_eq_some_iff]
  simp only [LacksResult, Rule.emptyName?_eq_outcome, Rule.emptyName?_eq_none_iff, Rule.named_iff]

theorem LacksResult.nameless (h : d.LacksResult) : d.Nameless := by
  obtain ⟨before, r, after, hsplit, hresult, -⟩ := h
  exact Or.inl ⟨r, by simp [hsplit], Or.inl hresult⟩

theorem emptyName?_eq_some {fault : EmptyName} :
    d.emptyName? = some fault ↔ d.Nameless ∧ (fault = .outcome ↔ d.LacksResult) := by
  cases fault with
  | outcome =>
    simp only [emptyName?_eq_outcome, true_iff]
    exact ⟨fun h => ⟨h.nameless, h⟩, fun h => h.2⟩
  | condition =>
    rw [← emptyName?_eq_outcome]
    have hnone : d.emptyName? = none ↔ ¬ d.Nameless := emptyName?_eq_none_iff.trans named_iff
    cases hfault : d.emptyName? with
    | none => simp [hnone.1 hfault]
    | some found =>
      have hnameless : d.Nameless := by
        by_contra hnot
        simp [hnone.2 hnot] at hfault
      cases found <;> simp [hnameless]

end Domain

/-- The complaint is of the first domain with an empty name in it, and of a result exactly where the
first faulty rule of this domain has none. -/
def NamingError.First (e : NamingError) (s : Spec) : Prop :=
  ∃ before d after, s.domains = before ++ d :: after ∧ e.domain = before.length ∧
    (∀ x ∈ before, ¬ x.Nameless) ∧ d.Nameless ∧ (e.name = .outcome ↔ d.LacksResult)

/-- No name in the tree is empty: not in what its nodes want, its leaves answer, or its domains
list. -/
structure Tree.Named (t : Tree) : Prop where
  wants : ∀ want m f, .node want m f ∈ t.root.descendants → want.Named
  answers : ∀ outcome, .leaf outcome ∈ t.root.descendants → outcome.name ≠ ""
  conditions : ∀ listed ∈ t.conditions, listed.Named
  outcomes : ∀ listed ∈ t.outcomes, ∀ outcome ∈ listed, outcome.name ≠ ""

theorem Domain.Named.conditions {d : Domain} (h : d.Named) : d.conditions.Named := by
  intro c hc
  obtain ⟨r, hr, hwant | hany⟩ := Domain.mem_conditions.1 hc
  · exact (h.rules r hr).want c hwant
  · exact (h.rules r hr).anyOf c hany

theorem Domain.Named.outcomes {d : Domain} (h : d.Named) : ∀ outcome ∈ d.outcomes,
    outcome.name ≠ "" := by
  intro outcome ho
  obtain ⟨r, hr, rfl⟩ := List.mem_map.1 (List.mem_eraseDups.1 ho)
  exact (h.rules r hr).result

namespace Spec

variable {s : Spec}

theorem fault?_eq_some {e : NamingError} : s.fault? = some e ↔ e.First s := by
  obtain ⟨place, fault⟩ := e
  simp only [NamingError.First, ← Domain.emptyName?_eq_some, ← Domain.named_iff,
    ← Domain.emptyName?_eq_none_iff]
  rw [fault?, List.findSome?_eq_some_iff]
  constructor
  · rintro ⟨pairs, p, later, hsplit, hp, hpairs⟩
    obtain ⟨before, rest, hdomains, rfl, hrest⟩ := List.zipIdx_eq_append_iff.1 hsplit
    obtain ⟨d, after, rfl, rfl, -⟩ := List.zipIdx_eq_cons_iff.1 hrest.symm
    obtain ⟨found, hfound, hmk⟩ := Option.map_eq_some_iff.1 hp
    cases hmk
    refine ⟨before, d, after, hdomains, Nat.zero_add _, fun x hx => ?_, hfound⟩
    obtain ⟨i, hi, rfl⟩ := List.mem_iff_getElem.1 hx
    have hmem : (before[i], i) ∈ before.zipIdx := by simp [List.mem_zipIdx_iff_getElem?, hi]
    simpa using hpairs _ hmem
  · rintro ⟨before, d, after, hdomains, rfl, hbefore, hd⟩
    refine ⟨before.zipIdx, (d, before.length), after.zipIdx (before.length + 1), ?_, ?_, ?_⟩
    · simp [hdomains, List.zipIdx_append]
    · simp [hd]
    · rintro ⟨x, i⟩ hx
      simp [hbefore x (List.fst_mem_of_mem_zipIdx hx)]

theorem compile_eq_error {compact : Bool} {e : NamingError} :
    s.compile compact = .error e ↔ e.First s := by
  rw [← fault?_eq_some, compile]
  cases s.fault? <;> simp

theorem Named.tree (h : s.Named) (compact : Bool) : (s.tree compact).Named := by
  have hnames : ∀ c, s.Names c → c.name ≠ "" := by
    rintro c ⟨d, hd, hc⟩
    exact (h d hd).conditions c hc
  have hgives : ∀ outcome, s.Gives outcome → outcome.name ≠ "" := by
    rintro outcome (rfl | ⟨d, hd, ho⟩)
    · decide
    · exact (h d hd).outcomes outcome ho
  obtain ⟨htests, hanswers⟩ := Branch.every_iff_preorder.1 (s.every_root compact)
  constructor
  case wants =>
    intro want m f hb c hc
    rw [Branch.descendants_eq_preorder] at hb
    exact hnames c (htests want m f hb c hc)
  case answers =>
    intro outcome hb
    rw [Branch.descendants_eq_preorder] at hb
    exact hgives outcome (hanswers outcome hb)
  case conditions =>
    intro listed hl
    obtain ⟨d, hd, rfl⟩ := List.mem_map.1 hl
    exact (h d hd).conditions
  case outcomes =>
    intro listed hl
    obtain ⟨d, hd, rfl⟩ := List.mem_map.1 hl
    exact (h d hd).outcomes

/-- A specification is refused exactly if some name in it is empty, and for the first reason there
is; of one that is not refused no name of the tree is empty. -/
theorem names_checked (s : Spec) (compact : Bool) :
    ((∃ e, s.compile compact = .error e) ↔ ∃ d ∈ s.domains, d.Nameless) ∧
    (∀ e, s.compile compact = .error e ↔ e.First s) ∧
    ∀ t, s.compile compact = .ok t → t.Named := by
  refine ⟨?_, fun e => compile_eq_error, fun t ht => ?_⟩
  · rw [← not_iff_not, ← named_iff]
    constructor
    · intro hnone
      cases hc : s.compile compact with
      | error e => exact absurd ⟨e, hc⟩ hnone
      | ok t => exact (compile_eq_ok_iff.1 hc).1
    · rintro h ⟨e, he⟩
      rw [compile_of_named h compact] at he
      cases he
  · obtain ⟨hnamed, rfl⟩ := compile_eq_ok_iff.1 ht
    exact hnamed.tree compact

def unnamedOrders : Spec :=
  ⟨[Domain.orders, ⟨[⟨⟨"hold"⟩, .ofList [⟨"new"⟩, ⟨""⟩], .empty⟩, ⟨⟨""⟩, .empty, .empty⟩], .empty⟩]⟩

theorem names_checked_orders :
    (∃ t, orders.compile true = .ok t ∧ t.Named) ∧
    unnamedOrders.compile true = .error ⟨1, .condition⟩ ∧
    NamingError.First ⟨1, .condition⟩ unnamedOrders := by
  have hnamed : orders.compile true = .ok (orders.tree true) :=
    compile_of_named (by decide) true
  have hfault : unnamedOrders.compile true = .error ⟨1, .condition⟩ := by rfl
  obtain ⟨-, -, htree⟩ := names_checked orders true
  obtain ⟨-, hfirst, -⟩ := names_checked unnamedOrders true
  exact ⟨⟨_, hnamed, htree _ hnamed⟩, hfault, (hfirst _).1 hfault⟩

end Spec

end Verdict
