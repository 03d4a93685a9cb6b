import Verdict.Proofs.Choice
import Verdict.Proofs.Compaction

/-! Judging a query by the rules themselves, without a tree. One condition after another is asked
for, and only the rules that go with the answer are kept, until none of those wants anything more.
Searching a compiled tree comes to the same.
-/

set_option autoImplicit false

namespace Verdict

theorem mem_wanted_of_question? {priority : Conditions} {rules : List Rule} {c : Condition}
    (h : question? priority rules = some c) : c ∈ wanted rules := by
  rw [question?_eq] at h
  obtain ⟨p, hp, rfl⟩ := Option.map_eq_some_iff.1 h
  exact mem_wanted_of_pivot? hp

/-- The answer of rules that are weighed against each other, if they have one. -/
def judgeRules (priority query : Conditions) (rules : List Rule) : Option Outcome :=
  match h : question? priority rules with
  | none => verdict? rules
  | some c =>
    have := mem_wanted_of_question? h
    if c ∈ query then judgeRules priority query (matching c rules)
    else judgeRules priority query (failing c rules)
termination_by load rules
decreasing_by
  · exact load_matching_lt this
  · exact load_failing_lt this

/-- The answer of the first domain that has one. -/
def judge (query : Conditions) : List Domain → Outcome
  | [] => Outcome.default
  | d :: later =>
    match judgeRules d.priority query d.expand with
    | some outcome => outcome
    | none => judge query later

theorem judgeRules_eq_verdict? (priority query : Conditions) (rules : List Rule) :
    judgeRules priority query rules = (Plan.ofRules priority rules).verdict? query := by
  fun_induction judgeRules priority query rules with
  | case1 rules h =>
    rw [question?_eq, Option.map_eq_none_iff] at h
    rw [Plan.ofRules_none h]
    rfl
  | case2 rules c h _ hc ih =>
    rw [question?_eq] at h
    obtain ⟨p, hp, rfl⟩ := Option.map_eq_some_iff.1 h
    rw [Plan.ofRules_some hp, Plan.verdict?_split, if_pos hc, ih]
  | case3 rules c h _ hc ih =>
    rw [question?_eq] at h
    obtain ⟨p, hp, rfl⟩ := Option.map_eq_some_iff.1 h
    rw [Plan.ofRules_some hp, Plan.verdict?_split, if_neg hc, ih]

theorem Spec.search_root_eq_judge (compact : Bool) (s : Spec) (query : Conditions) :
    (s.root compact).search query = judge query s.domains := by
  rw [Spec.search_root]
  induction s.domains with
  | nil => rfl
  | cons d later ih =>
    rw [List.foldr_cons, ih, judge, judgeRules_eq_verdict?]
    unfold Domain.plan
    cases (Plan.ofRules d.priority d.expand).verdict? query <;> rfl

-- No rule for orders holds of this one, so the rule for old orders is asked.
example : judge (.ofList [⟨"paid"⟩, ⟨"expired"⟩, ⟨"notified"⟩]) Spec.orders.domains =
    ⟨"reject"⟩ := by decide +kernel

theorem Spec.compile_refines_judge (s : Spec) (h : s.Named) (compact : Bool) :
    ∃ t, s.compile compact = .ok t ∧ ∀ query, t.search query = judge query s.domains :=
  ⟨s.tree compact, Spec.compile_of_named h compact, Spec.search_root_eq_judge compact s⟩

theorem Spec.compile_refines_judge_orders :
    Spec.orders.Named ∧ ∃ t, Spec.orders.compile true = .ok t ∧
      ∀ query, t.search query = judge query Spec.orders.domains :=
  ⟨by decide, Spec.compile_refines_judge Spec.orders (by decide) true⟩

end Verdict
