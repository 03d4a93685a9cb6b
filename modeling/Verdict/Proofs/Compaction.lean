import Verdict.Proofs.Naming
import Verdict.Tree

/-! Compaction cannot be observed. What is recorded of a branch is true of it, so two branches that
are taken for the same are the same, and a test that is left out or merged into another one sends no
query elsewhere. With and without compaction the tree of a domain gives the verdict of its plan and
leaves the queries without one to its fallback.
-/

set_option autoImplicit false

namespace Verdict

/-- The common result of some rules, or the default outcome where they contradict each other. Where
there are no rules, there is no answer. -/
def verdict? (rules : List Rule) : Option Outcome :=
  match rules.map Rule.result with
  | [] => none
  | o :: os => some (if ∀ result ∈ os, result = o then o else Outcome.default)

theorem verdict?_cons (r : Rule) (rules : List Rule) :
    verdict? (r :: rules) =
      some (if ∀ s ∈ rules, s.result = r.result then r.result else Outcome.default) := by
  simp only [verdict?, List.map_cons, List.forall_mem_map]

theorem verdict?_eq_none_iff {rules : List Rule} : verdict? rules = none ↔ rules = [] := by
  cases rules <;> simp [verdict?]

theorem verdict?_of_agree {rules : List Rule} {r : Rule} (hr : r ∈ rules)
    (h : ∀ s ∈ rules, s.result = r.result) : verdict? rules = some r.result := by
  cases rules with
  | nil => cases hr
  | cons first rest =>
    have hf : first.result = r.result := h first List.mem_cons_self
    have hall : ∀ s ∈ rest, s.result = first.result := fun s hs =>
      (h s (List.mem_cons_of_mem first hs)).trans hf.symm
    rw [verdict?_cons, if_pos hall, hf]

theorem verdict?_of_differ {rules : List Rule} {r s : Rule} (hr : r ∈ rules) (hs : s ∈ rules)
    (h : r.result ≠ s.result) : verdict? rules = some Outcome.default := by
  cases rules with
  | nil => cases hr
  | cons first rest =>
    have hn : ¬ ∀ t ∈ rest, t.result = first.result := by
      intro hall
      have hsame : ∀ t ∈ first :: rest, t.result = first.result := by
        intro t ht
        rcases List.mem_cons.1 ht with rfl | ht
        · rfl
        · exact hall t ht
      exact h ((hsame r hr).trans (hsame s hs).symm)
    rw [verdict?_cons, if_neg hn]

theorem branch_settlement (fallback : Branch) (rules : List Rule) :
    ((settlement rules).graft fallback).branch =
      ((verdict? rules).map Branch.leaf).getD fallback := by
  cases rules with
  | nil => rfl
  | cons r rest =>
    rw [verdict?_cons]
    by_cases h : ∀ s ∈ rest, s.result = r.result
    · have ha : settlement (r :: rest) = .agreed r.result := if_pos (by simpa using h)
      rw [ha, if_pos h]
      rfl
    · have hc : settlement (r :: rest) = .contradicted ((r :: rest).map Rule.result) :=
        if_neg (by simpa using h)
      rw [hc, if_neg h]
      rfl

namespace Plan

def reached (query : Conditions) : Plan → List Rule
  | settled rules => rules
  | split p m f => if p.condition ∈ query then m.reached query else f.reached query

def verdict? (p : Plan) (query : Conditions) : Option Outcome :=
  Verdict.verdict? (p.reached query)

theorem verdict?_split (p : Pivot) (m f : Plan) (query : Conditions) :
    (split p m f).verdict? query =
      if p.condition ∈ query then m.verdict? query else f.verdict? query := by
  by_cases h : p.condition ∈ query <;> simp [verdict?, reached, h]

end Plan

theorem Conditions.includes_singleton (query : Conditions) (c : Condition) :
    query.includes (singleton c) = true ↔ c ∈ query := by
  rw [includes_iff]
  simp [singleton, mem_iff]

theorem Conditions.includes_insert (query s : Conditions) (c : Condition) :
    query.includes (s.insert c) = true ↔ query.includes s = true ∧ c ∈ query := by
  simp only [includes_iff, mem_insert]
  constructor
  · intro h
    exact ⟨fun d hd => h d (Or.inl hd), h c (Or.inr rfl)⟩
  · rintro ⟨hs, hc⟩ d (hd | rfl)
    · exact hs d hd
    · exact hc

def Clue.Fits (fallback : Branch) : Clue → Branch → Prop
  | .fallback, b => fallback.isLeaf = false ∧ b = fallback
  | .leaf outcome, b => b = .leaf outcome
  | .unknown, _ => True

theorem Clue.eq_of_same {fallback b b' : Branch} {k k' : Clue} (h : k.same k' = true)
    (hb : k.Fits fallback b) (hb' : k'.Fits fallback b') : b = b' := by
  have hk : k ≠ .unknown ∧ k = k' := by simpa [Clue.same] using h
  obtain ⟨hne, rfl⟩ := hk
  cases k with
  | fallback => exact hb.2.trans hb'.2.symm
  | leaf outcome => exact Eq.trans hb (Eq.symm hb')
  | unknown => exact absurd rfl hne

theorem Clue.fits_ofFallback (fallback : Branch) :
    (ofFallback fallback).Fits fallback fallback := by
  cases fallback with
  | leaf outcome => rfl
  | node want m f => exact ⟨rfl, rfl⟩

namespace Graft

structure Truthful (fallback : Branch) (g : Graft) : Prop where
  clue : g.clue.Fits fallback g.branch
  leaf : ∀ outcome, g.branch = .leaf outcome → g.clue = .leaf outcome
  failClue : ∀ want m f, g.branch = .node want m f → g.failClue.Fits fallback f

theorem truthful_leaf (fallback : Branch) (outcome : Outcome) :
    (Graft.leaf outcome).Truthful fallback := by
  refine ⟨rfl, ?_, ?_⟩
  · intro o h
    cases h
    rfl
  · intro want m f h
    cases h

theorem truthful_ofFallback (fallback : Branch) : (ofFallback fallback).Truthful fallback := by
  refine ⟨Clue.fits_ofFallback fallback, ?_, ?_⟩
  · intro outcome h
    obtain rfl : fallback = .leaf outcome := h
    rfl
  · intro want m f _
    trivial

theorem truthful_node {fallback : Branch} (c : Condition) (m : Graft) {f : Graft}
    (hf : f.Truthful fallback) : (node c m f).Truthful fallback := by
  refine ⟨trivial, ?_, ?_⟩
  · intro outcome h
    cases h
  · intro want m f h
    cases h
    exact hf.clue

/-- The three ways to join: the test is not needed, the match side takes it, or it stands alone. -/
theorem join_cases (c : Condition) (m f : Graft) :
    (m.clue.same f.clue = true ∧ join c m f = f) ∨
    (m.clue.same f.clue = false ∧ ∃ want inner fail, m.branch = .node want inner fail ∧
      m.failClue.same f.clue = true ∧
      join c m f = ⟨.node (want.insert c) inner fail, .unknown, m.failClue⟩) ∨
    (m.clue.same f.clue = false ∧
      (∀ want inner fail, m.branch = .node want inner fail → m.failClue.same f.clue = false) ∧
      join c m f = node c m f) := by
  unfold join
  cases hs : m.clue.same f.clue with
  | true => exact Or.inl ⟨rfl, rfl⟩
  | false =>
    cases hb : m.branch with
    | leaf outcome => simp
    | node want inner fail =>
      cases hi : m.failClue.same f.clue with
      | true => exact Or.inr (Or.inl ⟨rfl, want, inner, fail, rfl, rfl, rfl⟩)
      | false => simp

theorem truthful_join {fallback : Branch} (c : Condition) {m f : Graft}
    (hm : m.Truthful fallback) (hf : f.Truthful fallback) : (join c m f).Truthful fallback := by
  rcases join_cases c m f with ⟨_, hj⟩ | ⟨_, want, inner, fail, hb, _, hj⟩ | ⟨_, _, hj⟩
  · rw [hj]
    exact hf
  · rw [hj]
    refine ⟨trivial, ?_, ?_⟩
    · intro outcome h
      cases h
    · intro want' inner' fail' h
      cases h
      exact hm.failClue want inner fail hb
  · rw [hj]
    exact truthful_node c m hf

theorem search_node (c : Condition) (m f : Graft) (query : Conditions) :
    (node c m f).branch.search query =
      if c ∈ query then m.branch.search query else f.branch.search query := by
  simp only [node, Branch.search, Conditions.includes_singleton]

theorem search_join {fallback : Branch} (c : Condition) {m f : Graft}
    (hm : m.Truthful fallback) (hf : f.Truthful fallback) (query : Conditions) :
    (join c m f).branch.search query =
      if c ∈ query then m.branch.search query else f.branch.search query := by
  rcases join_cases c m f with ⟨hs, hj⟩ | ⟨_, want, inner, fail, hb, hs, hj⟩ | ⟨_, _, hj⟩
  · have he : m.branch = f.branch := Clue.eq_of_same hs hm.clue hf.clue
    rw [hj, he, ite_self]
  · -- The inner test fails to where this one does, so both may fail there at once.
    have he : fail = f.branch := Clue.eq_of_same hs (hm.failClue want inner fail hb) hf.clue
    rw [hj, hb, ← he]
    simp only [Branch.search, Conditions.includes_insert]
    by_cases hc : c ∈ query <;> simp [hc]
  · rw [hj]
    exact search_node c m f query

end Graft

theorem Settlement.truthful_graft (fallback : Branch) (s : Settlement) :
    (s.graft fallback).Truthful fallback := by
  cases s with
  | deferred => exact Graft.truthful_ofFallback fallback
  | agreed outcome => exact Graft.truthful_leaf fallback outcome
  | contradicted outcomes => exact Graft.truthful_leaf fallback Outcome.default

namespace Plan

theorem truthful_graft (compact : Bool) (fallback : Branch) (p : Plan) :
    (p.graft compact fallback).Truthful fallback := by
  induction p with
  | settled rules => exact Settlement.truthful_graft fallback _
  | split pivot m f hm hf =>
    cases compact with
    | true => exact Graft.truthful_join pivot.condition hm hf
    | false => exact Graft.truthful_node pivot.condition _ hf

theorem search_graft (compact : Bool) (fallback : Branch) (p : Plan) (query : Conditions) :
    (p.graft compact fallback).branch.search query =
      (p.verdict? query).getD (fallback.search query) := by
  induction p with
  | settled rules =>
    simp only [graft, branch_settlement, verdict?, reached]
    cases Verdict.verdict? rules <;> rfl
  | split pivot m f hm hf =>
    have hside : ((split pivot m f).graft compact fallback).branch.search query =
        if pivot.condition ∈ query then (m.graft compact fallback).branch.search query
        else (f.graft compact fallback).branch.search query := by
      cases compact with
      | true =>
        exact Graft.search_join pivot.condition (truthful_graft true fallback m)
          (truthful_graft true fallback f) query
      | false => exact Graft.search_node pivot.condition _ _ query
    rw [hside, verdict?_split, hm, hf]
    by_cases hc : pivot.condition ∈ query <;> simp [hc]

end Plan

theorem Domain.search_grow (compact : Bool) (d : Domain) (fallback : Branch) (query : Conditions) :
    (d.grow compact fallback).search query =
      (d.plan.verdict? query).getD (fallback.search query) :=
  Plan.search_graft compact fallback d.plan query

theorem Spec.search_root (compact : Bool) (s : Spec) (query : Conditions) :
    (s.root compact).search query =
      s.domains.foldr (fun d later => (d.plan.verdict? query).getD later) Outcome.default := by
  unfold Spec.root
  induction s.domains with
  | nil => rfl
  | cons d rest ih => rw [List.foldr_cons, List.foldr_cons, Domain.search_grow, ih]

theorem Spec.compaction_hidden (s : Spec) (h : s.Named) :
    ∃ t u, s.compile true = .ok t ∧ s.compile false = .ok u ∧
      (∀ query, t.search query = u.search query) ∧
      t.conditions = u.conditions ∧ t.outcomes = u.outcomes := by
  refine ⟨s.tree true, s.tree false, Spec.compile_of_named h true, Spec.compile_of_named h false,
    ?_, rfl, rfl⟩
  intro query
  exact (Spec.search_root true s query).trans (Spec.search_root false s query).symm

theorem Spec.compaction_hidden_orders :
    Spec.orders.Named ∧ ∃ t u, Spec.orders.compile true = .ok t ∧
      Spec.orders.compile false = .ok u ∧ (∀ query, t.search query = u.search query) ∧
      t.conditions = u.conditions ∧ t.outcomes = u.outcomes :=
  ⟨by decide, Spec.compaction_hidden Spec.orders (by decide)⟩

end Verdict
