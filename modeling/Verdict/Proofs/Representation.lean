import Verdict.Proofs.Precedence
import Verdict.Proofs.Probes

/-! What the ways of a tree stand for. In the tree of a single domain, grown without compaction, a
way is told apart by the conditions that were matched on it: a query that holds these and no others
takes it. So there is one way for each set of conditions that a rule wants, at its end is what the
rules with these wants give, and every other way ends at the fallback.
-/

set_option autoImplicit false

namespace Verdict

def Trail.Meets (w : Trail) (r : Rule) : Prop := ∀ c, c ∈ w.matched ↔ c ∈ r.want

namespace Plan

/-- The tree of a plan that stands alone, without compaction and on top of a single outcome. -/
def bare (p : Plan) (fallback : Outcome) : Branch := (p.graft false (.leaf fallback)).branch

theorem bare_settled (rules : List Rule) (fallback : Outcome) :
    (settled rules).bare fallback = .leaf ((Verdict.verdict? rules).getD fallback) := by
  rw [bare, graft, branch_settlement]
  cases Verdict.verdict? rules <;> rfl

theorem bare_split (p : Pivot) (m f : Plan) (fallback : Outcome) :
    (split p m f).bare fallback =
      .node (.singleton p.condition) (m.bare fallback) (f.bare fallback) := rfl

theorem trail_bare_split (p : Pivot) (m f : Plan) (fallback : Outcome) (query : Conditions) :
    ((split p m f).bare fallback).trail query =
      if p.condition ∈ query
      then ((m.bare fallback).trail query).after ⟨.singleton p.condition, true⟩
      else ((f.bare fallback).trail query).after ⟨.singleton p.condition, false⟩ := by
  simp only [bare_split, Branch.trail_node, Conditions.includes_singleton]

theorem matched_trail_bare (p : Plan) (fallback : Outcome) (query : Conditions) :
    ((p.bare fallback).trail query).matched = p.held query := by
  induction p with
  | settled rules =>
    rw [bare_settled]
    rfl
  | split p m f hm hf =>
    rw [trail_bare_split, held]
    by_cases hc : p.condition ∈ query
    · rw [if_pos hc, if_pos hc, Trail.matched_after_held, hm]
      rfl
    · rw [if_neg hc, if_neg hc, Trail.matched_after_failed, hf]

theorem outcome_trail_bare (p : Plan) (fallback : Outcome) (query : Conditions) :
    ((p.bare fallback).trail query).outcome = (p.verdict? query).getD fallback := by
  rw [Branch.outcome_trail]
  exact search_graft false (.leaf fallback) p query

end Plan

namespace Plan.Splits

variable {p : Plan} {rules : List Rule} {fallback : Outcome}

theorem eq_of_matched (h : p.Splits rules) {v w : Trail} (hv : v ∈ (p.bare fallback).ways)
    (hw : w ∈ (p.bare fallback).ways) (hsame : ∀ c, c ∈ v.matched ↔ c ∈ w.matched) : v = w := by
  have hv' : (p.bare fallback).trail (.ofList w.matched) = v :=
    h.trail_eq_of_matched hv fun c _ => by rw [Conditions.mem_ofList, hsame c]
  exact hv'.symm.trans (h.trail_ofList_matched hw)

theorem exists_meets (h : p.Splits rules) {e : Rule} (he : e ∈ rules) :
    ∃ w ∈ (p.bare fallback).ways, w.Meets e := by
  refine ⟨(p.bare fallback).trail e.want, Branch.trail_mem_ways _ _, fun c => ?_⟩
  rw [matched_trail_bare]
  refine ((h.remnant e.want).exact e he (fun d => ?_) c).symm
  exact ⟨fun hd => ⟨hd, mem_wanted.2 ⟨e, he, hd⟩⟩, And.left⟩

end Plan.Splits

/-- The ways of a tree stand for the rules: each set of conditions that a rule wants is what was
matched on one way, which ends at what the rules with this want give; all other ways end at the
fallback. -/
structure Represents (rules : List Rule) (fallback : Outcome) (b : Branch) : Prop where
  distinct : b.ways.Pairwise fun v w => ¬ ∀ c, c ∈ v.matched ↔ c ∈ w.matched
  reached : ∀ e ∈ rules, ∃! w, w ∈ b.ways ∧ w.Meets e
  agreed : ∀ e ∈ rules, ∀ w ∈ b.ways, w.Meets e →
    (∀ r ∈ rules, r.Alike e → r.result = e.result) → w.outcome = e.result
  contradicted : ∀ e ∈ rules, ∀ w ∈ b.ways, w.Meets e →
    (∃ r ∈ rules, r.Alike e ∧ r.result ≠ e.result) → w.outcome = Outcome.default
  unwanted : ∀ w ∈ b.ways, (∀ e ∈ rules, ¬ w.Meets e) → w.outcome = fallback

namespace Plan.Splits

variable {p : Plan} {rules : List Rule} {fallback : Outcome}

/-- The rules that are left at the end of a way are those whose wants were matched on it. -/
theorem remnant_way (h : p.Splits rules) {w : Trail} (hw : w ∈ (p.bare fallback).ways) :
    ∃ left, Remnant rules (.ofList w.matched) w.matched left ∧
      w.outcome = (Verdict.verdict? left).getD fallback := by
  have htrail : (p.bare fallback).trail (.ofList w.matched) = w := h.trail_ofList_matched hw
  have hrest := h.remnant (.ofList w.matched)
  rw [← matched_trail_bare p fallback, htrail] at hrest
  refine ⟨_, hrest, ?_⟩
  have hout := outcome_trail_bare p fallback (.ofList w.matched)
  rwa [htrail] at hout

theorem decides_way (h : p.Splits rules) {w : Trail} (hw : w ∈ (p.bare fallback).ways) {e : Rule}
    (he : e ∈ rules) (hmeets : w.Meets e) :
    Decides rules (.ofList w.matched) e w.outcome := by
  obtain ⟨left, hrest, hout⟩ := h.remnant_way hw
  have hsame : ∀ c, c ∈ e.want ↔ c ∈ w.matched := fun c => (hmeets c).symm
  obtain ⟨s, hs, _⟩ := (hrest.results e.result).2 ⟨e, he, hsame, rfl⟩
  cases hv : Verdict.verdict? left with
  | none =>
    rw [verdict?_eq_none_iff.1 hv] at hs
    cases hs
  | some answer =>
    rw [hv] at hout
    exact hout ▸ hrest.decides he hsame hv

theorem represents (h : p.Splits rules) (fallback : Outcome) :
    Represents rules fallback (p.bare fallback) := by
  refine ⟨?_, ?_, ?_, ?_, ?_⟩
  · exact (Branch.nodup_ways _).pairwise_of_forall_ne fun v hv w hw hne hsame =>
      hne (h.eq_of_matched hv hw hsame)
  · intro e he
    have hmet : ∃ w ∈ (p.bare fallback).ways, w.Meets e := h.exists_meets he
    obtain ⟨w, hw, hmeets⟩ := hmet
    refine ⟨w, ⟨hw, hmeets⟩, ?_⟩
    rintro v ⟨hv, hv'⟩
    exact h.eq_of_matched hv hw fun c => (hv' c).trans (hmeets c).symm
  · intro e he w hw hmeets
    exact (h.decides_way hw he hmeets).agreed
  · intro e he w hw hmeets
    exact (h.decides_way hw he hmeets).contradicted
  · intro w hw hnone
    obtain ⟨left, hrest, hout⟩ := h.remnant_way hw
    cases left with
    | nil => exact hout
    | cons s left =>
      obtain ⟨e, he, hsame, _⟩ := (hrest.results s.result).1 ⟨s, List.mem_cons_self, rfl⟩
      exact absurd (fun c => (hsame c).symm) (hnone e he)

end Plan.Splits

/-- The tree is grown on the default outcome. On any other outcome as its fallback the rules are
represented as well, so a way that ends at the fallback is told from one where rules contradict each
other. -/
theorem Spec.rules_represented (d : Domain) (h : (Spec.mk [d]).Named) :
    ∃ t, Spec.compile false ⟨[d]⟩ = .ok t ∧ t.root = d.grow false (.leaf Outcome.default) ∧
      ∀ fallback, Represents d.expand fallback (d.grow false (.leaf fallback)) :=
  ⟨Spec.tree false ⟨[d]⟩, Spec.compile_of_named h false, rfl,
    (Plan.splits_ofRules d.priority d.expand).represents⟩

theorem Spec.rules_represented_orders :
    (Spec.mk [Domain.orders]).Named ∧
      ∃ t, Spec.compile false ⟨[Domain.orders]⟩ = .ok t ∧
        t.root = Domain.orders.grow false (.leaf Outcome.default) ∧
        ∀ fallback, Represents Domain.orders.expand fallback
          (Domain.orders.grow false (.leaf fallback)) :=
  ⟨by decide, Spec.rules_represented Domain.orders (by decide)⟩

end Verdict
