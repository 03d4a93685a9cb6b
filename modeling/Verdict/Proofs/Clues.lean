import Verdict.Proofs.NormalForm

set_option autoImplicit false

namespace Verdict

namespace Graft

structure Known (fallback : Branch) (g : Graft) : Prop where
  leaf : ∀ outcome, g.clue = .leaf outcome ↔ g.branch = .leaf outcome
  copy : g.clue = .fallback → fallback.isLeaf = false ∧ g.branch = fallback
  failLeaf : ∀ want m f outcome, g.branch = .node want m f → g.failClue = .leaf outcome →
    f = .leaf outcome
  failCopy : ∀ want m f, g.branch = .node want m f → g.failClue = .fallback →
    fallback.isLeaf = false ∧ f = fallback

/-- Whatever is taken for the same when the two are joined is the same: the one branch and the
other, or the fail side of the one and the other. -/
structure Comparable (m f : Graft) : Prop where
  sides : m.clue.same f.clue = true → m.branch = f.branch
  fails : ∀ want inner fail, m.branch = .node want inner fail → m.failClue.same f.clue = true →
    fail = f.branch

variable {fallback : Branch} {g m f : Graft}

theorem Truthful.known (h : g.Truthful fallback) : g.Known fallback where
  leaf outcome := by
    refine ⟨fun hclue => ?_, h.leaf outcome⟩
    simpa [hclue, Clue.Fits] using h.clue
  copy hclue := by simpa [hclue, Clue.Fits] using h.clue
  failLeaf want m f outcome hb hclue := by
    simpa [hclue, Clue.Fits] using h.failClue want m f hb
  failCopy want m f hb hclue := by
    simpa [hclue, Clue.Fits] using h.failClue want m f hb

theorem Truthful.comparable (hm : m.Truthful fallback) (hf : f.Truthful fallback) :
    m.Comparable f where
  sides hs := Clue.eq_of_same hs hm.clue hf.clue
  fails want inner fail hb hs := Clue.eq_of_same hs (hm.failClue want inner fail hb) hf.clue

end Graft

def Branch.payment : Branch :=
  .node (.singleton ⟨"paid"⟩) (.leaf ⟨"approve"⟩) (.leaf Outcome.default)

namespace Plan

variable (compact : Bool) (fallback : Branch)

/-- All branches that are made while a plan is grown, that of the plan itself first. -/
def grafts : Plan → List Graft
  | settled rules => [(settled rules).graft compact fallback]
  | split pivot m f => (split pivot m f).graft compact fallback :: (m.grafts ++ f.grafts)

/-- The two sides of each split, as they are joined. -/
def joined : Plan → List (Graft × Graft)
  | settled _ => []
  | split _ m f => (m.graft compact fallback, f.graft compact fallback) :: (m.joined ++ f.joined)

theorem known_of_mem_grafts {p : Plan} {g : Graft} (h : g ∈ p.grafts compact fallback) :
    g.Known fallback := by
  induction p with
  | settled rules =>
    obtain rfl := List.mem_singleton.1 h
    exact (truthful_graft compact fallback (settled rules)).known
  | split pivot m f hm hf =>
    simp only [grafts, List.mem_cons, List.mem_append] at h
    rcases h with rfl | h | h
    · exact (truthful_graft compact fallback (split pivot m f)).known
    · exact hm h
    · exact hf h

theorem comparable_of_mem_joined {p : Plan} {sides : Graft × Graft}
    (h : sides ∈ p.joined compact fallback) : sides.1.Comparable sides.2 := by
  induction p with
  | settled rules => simp [joined] at h
  | split pivot m f hm hf =>
    simp only [joined, List.mem_cons, List.mem_append] at h
    rcases h with rfl | h | h
    · exact (truthful_graft compact fallback m).comparable (truthful_graft compact fallback f)
    · exact hm h
    · exact hf h

/-- Only what is grown from no rules is known as a copy of the fallback. -/
theorem clues_truthful (priority : Conditions) (rules : List Rule) :
    (∀ g ∈ (ofRules priority rules).grafts compact fallback, g.Known fallback) ∧
    (∀ m f, (m, f) ∈ (ofRules priority rules).joined compact fallback → m.Comparable f) ∧
    (rules ≠ [] → ((ofRules priority rules).graft compact fallback).clue ≠ .fallback) := by
  refine ⟨fun g hg => known_of_mem_grafts compact fallback hg, fun m f hmf => ?_, fun hne => ?_⟩
  · exact comparable_of_mem_joined compact fallback hmf
  · exact (splits_ofRules priority rules).clue_ne_fallback hne compact fallback

/-- Both tests of an old order fail to the question whether it is paid, so they become one. -/
theorem clues_truthful_oldOrders :
    Domain.oldOrders.expand ≠ [] ∧
    ((ofRules .empty Domain.oldOrders.expand).graft true Branch.payment).clue ≠ .fallback ∧
    ∃ m f, (m, f) ∈ (ofRules .empty Domain.oldOrders.expand).joined true Branch.payment ∧
      m.failClue.same f.clue = true ∧ ∃ want inner, m.branch = .node want inner f.branch := by
  have hne : Domain.oldOrders.expand ≠ [] := by decide
  obtain ⟨-, hjoined, hclue⟩ :=
    clues_truthful true Branch.payment .empty Domain.oldOrders.expand
  have hplan : ofRules .empty Domain.oldOrders.expand =
      .split ⟨⟨"expired"⟩, .count 1⟩
        (.split ⟨⟨"notified"⟩, .count 1⟩ (.settled [⟨⟨"reject"⟩, .empty, .empty⟩]) (.settled []))
        (.settled []) := by decide +kernel
  have hmem : (Graft.node ⟨"notified"⟩ (.leaf ⟨"reject"⟩) (.ofFallback Branch.payment),
      Graft.ofFallback Branch.payment) ∈
        (ofRules .empty Domain.oldOrders.expand).joined true Branch.payment := by
    rw [hplan]
    exact List.mem_cons_self
  have hfail := (hjoined _ _ hmem).fails _ _ _ rfl (by decide)
  exact ⟨hne, hclue hne, _, _, hmem, by decide, _, _, congrArg _ hfail⟩

end Plan

end Verdict
