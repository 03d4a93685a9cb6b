import Verdict.Proofs.Judgement
import Verdict.Proofs.Precedence

set_option autoImplicit false

namespace Verdict

def decision? (query : Conditions) (domains : List Domain) : Option Outcome :=
  domains.findSome? fun d => judgeRules d.priority query d.expand

theorem judge_append (query : Conditions) (first rest : List Domain) :
    judge query (first ++ rest) = (decision? query first).getD (judge query rest) := by
  induction first with
  | nil => rfl
  | cons d first ih =>
    rw [List.cons_append, judge, decision?, List.findSome?_cons]
    cases judgeRules d.priority query d.expand with
    | some outcome => rfl
    | none => exact ih

theorem judge_eq_decision? (query : Conditions) (domains : List Domain) :
    judge query domains = (decision? query domains).getD Outcome.default := by
  have h := judge_append query domains []
  rwa [List.append_nil] at h

theorem Remnant.exists_satisfied {rules left : List Rule} {query : Conditions}
    {held : List Condition} (h : Remnant rules query held left) (hleft : left ≠ []) :
    ∃ e ∈ rules, e.want ⊆ query := by
  obtain ⟨s, hs⟩ := List.exists_mem_of_ne_nil left hleft
  obtain ⟨e, he, hsame, _⟩ := (h.results s.result).1 ⟨s, hs, rfl⟩
  exact ⟨e, he, fun c hc => h.held_query c ((hsame c).1 hc)⟩

theorem judgeRules_eq_none {priority query : Conditions} {rules : List Rule}
    (h : ∀ e ∈ rules, ¬ e.want ⊆ query) : judgeRules priority query rules = none := by
  rw [judgeRules_eq_verdict?]
  refine verdict?_eq_none_iff.2 (Classical.byContradiction fun hleft => ?_)
  obtain ⟨e, he, hsub⟩ :=
    ((Plan.splits_ofRules priority rules).remnant query).exists_satisfied hleft
  exact h e he hsub

theorem decision?_eq_none {query : Conditions} {domains : List Domain}
    (h : ∀ d ∈ domains, ∀ e ∈ d.expand, ¬ e.want ⊆ query) : decision? query domains = none :=
  List.findSome?_eq_none_iff.2 fun d hd => judgeRules_eq_none (h d hd)

theorem Spec.Named.append {first rest : List Domain} (hf : (Spec.mk first).Named)
    (hr : (Spec.mk rest).Named) : (Spec.mk (first ++ rest)).Named := by
  intro d hd
  rcases List.mem_append.1 hd with hd | hd
  · exact hf d hd
  · exact hr d hd

/-- This is the answer whatever domains come after the first ones. -/
def Decided (compact : Bool) (first : List Domain) (query : Conditions) (answer : Outcome) : Prop :=
  ∀ rest, (Spec.mk rest).Named →
    ∃ t, Spec.compile compact ⟨first ++ rest⟩ = .ok t ∧ t.search query = answer

/-- The answer is that of the domains that come after the first ones, whatever they are. -/
def Deferred (compact : Bool) (first : List Domain) (query : Conditions) : Prop :=
  ∀ rest, (Spec.mk rest).Named →
    ∃ t u, Spec.compile compact ⟨first ++ rest⟩ = .ok t ∧ Spec.compile compact ⟨rest⟩ = .ok u ∧
      t.search query = u.search query

theorem Spec.search_tree_append (compact : Bool) (first rest : List Domain) (query : Conditions) :
    (Spec.tree compact ⟨first ++ rest⟩).search query =
      (decision? query first).getD ((Spec.tree compact ⟨rest⟩).search query) := by
  have happend := Spec.search_root_eq_judge compact ⟨first ++ rest⟩ query
  have hrest := Spec.search_root_eq_judge compact ⟨rest⟩ query
  exact happend.trans ((judge_append query first rest).trans (by rw [← hrest]; rfl))

theorem decided_of_decision? {compact : Bool} {first : List Domain} {query : Conditions}
    {answer : Outcome} (h : (Spec.mk first).Named) (ha : decision? query first = some answer) :
    Decided compact first query answer := by
  intro rest hrest
  refine ⟨_, Spec.compile_of_named (h.append hrest) compact, ?_⟩
  rw [Spec.search_tree_append, ha]
  rfl

theorem deferred_of_decision? {compact : Bool} {first : List Domain} {query : Conditions}
    (h : (Spec.mk first).Named) (ha : decision? query first = none) :
    Deferred compact first query := by
  intro rest hrest
  refine ⟨_, _, Spec.compile_of_named (h.append hrest) compact,
    Spec.compile_of_named hrest compact, ?_⟩
  rw [Spec.search_tree_append, ha]
  rfl

/-- What the answer of some domains says about the answer with more domains after them. -/
structure Chained (compact : Bool) (first : List Domain) (query : Conditions) (answer : Outcome) :
    Prop where
  cases : Decided compact first query answer ∨ Deferred compact first query
  unsatisfied : (∀ d ∈ first, ∀ e ∈ d.expand, ¬ e.want ⊆ query) → Deferred compact first query
  decided : ∀ outcome, decision? query first = some outcome →
    answer = outcome ∧ Decided compact first query outcome
  undecided : decision? query first = none → Deferred compact first query

theorem Spec.chaining_all_or_nothing (compact : Bool) (first : List Domain)
    (h : (Spec.mk first).Named) :
    ∃ t, Spec.compile compact ⟨first⟩ = .ok t ∧
      ∀ query, Chained compact first query (t.search query) := by
  refine ⟨Spec.tree compact ⟨first⟩, Spec.compile_of_named h compact, fun query => ?_⟩
  have hsearch : (Spec.tree compact ⟨first⟩).search query =
      (decision? query first).getD Outcome.default :=
    (Spec.search_root_eq_judge compact ⟨first⟩ query).trans (judge_eq_decision? query first)
  have hdecided : ∀ outcome, decision? query first = some outcome →
      (Spec.tree compact ⟨first⟩).search query = outcome ∧
        Decided compact first query outcome := by
    intro outcome ho
    exact ⟨by rw [hsearch, ho]; rfl, decided_of_decision? h ho⟩
  refine ⟨?_, fun hnone => deferred_of_decision? h (decision?_eq_none hnone), hdecided,
    deferred_of_decision? h⟩
  cases ho : decision? query first with
  | some outcome =>
    obtain ⟨hanswer, hall⟩ := hdecided outcome ho
    exact Or.inl (hanswer ▸ hall)
  | none => exact Or.inr (deferred_of_decision? h ho)

/-- An order that is paid and flagged gets its answer by contradiction, and one that is only new
gets none. -/
theorem Spec.chaining_all_or_nothing_orders :
    (Spec.mk [Domain.orders]).Named ∧
      decision? (.ofList [⟨"paid"⟩, ⟨"flagged"⟩]) [Domain.orders] = some Outcome.default ∧
      decision? (.ofList [⟨"new"⟩]) [Domain.orders] = none ∧
      ∃ t, Spec.compile true ⟨[Domain.orders]⟩ = .ok t ∧
        ∀ query, Chained true [Domain.orders] query (t.search query) :=
  ⟨by decide, by decide +kernel, by decide +kernel,
    Spec.chaining_all_or_nothing true [Domain.orders] (by decide)⟩

end Verdict
