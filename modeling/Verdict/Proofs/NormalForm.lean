import Verdict.Branch.Walk
import Verdict.Proofs.Footprint

/-! Compaction leaves nothing to compact. A test is left out or merged once, when its node is
made, from what is recorded of the two sides; no later step brings back a node with the same leaf
on both sides, or a test above another one that fails to the same leaf. The record is good enough
for that since a branch grown from some rules is never a bare copy of the fallback, of whose fail
side nothing is recorded.
-/

set_option autoImplicit false

namespace Verdict

namespace Branch

/-- A node that asks for something, and for nothing twice, and that could neither be left out nor be
merged with the test on its match side because of a leaf that occurs twice. -/
structure Irreducible (want : Conditions) (m f : Branch) : Prop where
  asks : want.members ≠ []
  nodup : want.members.Nodup
  differ : ∀ outcome, ¬ (m = leaf outcome ∧ f = leaf outcome)
  apart : ∀ outcome want' m', ¬ (m = node want' m' (leaf outcome) ∧ f = leaf outcome)

def Compacted (b : Branch) : Prop :=
  ∀ want m f, node want m f ∈ b.descendants → Irreducible want m f

theorem compacted_leaf (outcome : Outcome) : (leaf outcome).Compacted := by
  intro want m f h
  simp [descendants_eq_preorder, preorder] at h

theorem compacted_node_iff {want : Conditions} {m f : Branch} :
    (node want m f).Compacted ↔ Irreducible want m f ∧ m.Compacted ∧ f.Compacted := by
  simp only [Compacted, descendants_eq_preorder, preorder, List.mem_cons, List.mem_append,
    node.injEq]
  constructor
  · intro h
    exact ⟨h want m f (.inl ⟨rfl, rfl, rfl⟩), fun w m' f' hm => h w m' f' (.inr (.inl hm)),
      fun w m' f' hf => h w m' f' (.inr (.inr hf))⟩
  · rintro ⟨hnode, hm, hf⟩ want' m' f' (⟨rfl, rfl, rfl⟩ | h | h)
    · exact hnode
    · exact hm want' m' f' h
    · exact hf want' m' f' h

theorem Irreducible.insert {want : Conditions} {m f : Branch} (h : Irreducible want m f)
    (c : Condition) : Irreducible (want.insert c) m f where
  asks := List.ne_nil_of_mem (Conditions.mem_insert.2 (Or.inr rfl))
  nodup := (want.insert c).nodup
  differ := h.differ
  apart := h.apart

end Branch

theorem Clue.same_iff {a b : Clue} : a.same b = true ↔ a ≠ .unknown ∧ a = b := by
  simp [same]

theorem Clue.same_leaf (outcome : Outcome) : (leaf outcome).same (leaf outcome) = true :=
  same_iff.2 ⟨nofun, rfl⟩

namespace Graft

variable {fallback : Branch} {c : Condition} {m f : Graft}

def Records (g : Graft) : Prop :=
  ∀ want inner outcome, g.branch = .node want inner (.leaf outcome) → g.failClue = .leaf outcome

theorem irreducible_node (hm : m.Truthful fallback) (hf : f.Truthful fallback) (hr : m.Records)
    (hs : m.clue.same f.clue = false)
    (hi : ∀ want inner fail, m.branch = .node want inner fail → m.failClue.same f.clue = false) :
    Branch.Irreducible (.singleton c) m.branch f.branch where
  asks := List.cons_ne_nil c []
  nodup := (Conditions.singleton c).nodup
  differ outcome h := by
    rw [hm.leaf outcome h.1, hf.leaf outcome h.2, Clue.same_leaf] at hs
    cases hs
  apart outcome want inner h := by
    have hsame := hi want inner _ h.1
    rw [hr want inner outcome h.1, hf.leaf outcome h.2, Clue.same_leaf] at hsame
    cases hsame

theorem compacted_join (hm : m.Truthful fallback) (hf : f.Truthful fallback) (hr : m.Records)
    (hmc : m.branch.Compacted) (hfc : f.branch.Compacted) : (join c m f).branch.Compacted := by
  rcases join_cases c m f with ⟨_, hj⟩ | ⟨_, want, inner, fail, hb, _, hj⟩ | ⟨hs, hi, hj⟩
  · rw [hj]
    exact hfc
  · rw [hb] at hmc
    obtain ⟨hnode, hsides⟩ := Branch.compacted_node_iff.1 hmc
    rw [hj]
    exact Branch.compacted_node_iff.2 ⟨hnode.insert c, hsides⟩
  · rw [hj]
    exact Branch.compacted_node_iff.2 ⟨irreducible_node hm hf hr hs hi, hmc, hfc⟩

theorem clue_join_ne_fallback (hm : m.clue ≠ .fallback) : (join c m f).clue ≠ .fallback := by
  rcases join_cases c m f with ⟨hs, hj⟩ | ⟨_, want, inner, fail, _, _, hj⟩ | ⟨_, _, hj⟩
  · rw [hj, ← (Clue.same_iff.1 hs).2]
    exact hm
  · rw [hj]
    exact nofun
  · rw [hj]
    exact nofun

theorem records_join (hm : m.Truthful fallback) (hf : f.Truthful fallback)
    (hne : m.clue ≠ .fallback) (hr : m.Records) : (join c m f).Records := by
  rcases join_cases c m f with ⟨hs, hj⟩ | ⟨_, want, inner, fail, hb, _, hj⟩ | ⟨_, _, hj⟩
  · -- Two sides known to be the same are leaves here, so nothing is left to record.
    have hsame : m.branch = f.branch := Clue.eq_of_same hs hm.clue hf.clue
    intro want inner outcome hb
    rw [hj, ← hsame] at hb
    cases hclue : m.clue with
    | fallback => exact absurd hclue hne
    | leaf o =>
      have hleaf : m.branch = .leaf o := by simpa [hclue, Clue.Fits] using hm.clue
      rw [hleaf] at hb
      cases hb
    | unknown => exact absurd hclue (Clue.same_iff.1 hs).1
  · rw [hj]
    rintro _ _ outcome ⟨⟩
    exact hr want inner outcome hb
  · rw [hj]
    intro want inner outcome hb
    obtain ⟨-, -, hfail⟩ := Branch.node.inj hb
    exact hf.leaf outcome hfail

end Graft

namespace Plan.Splits

variable {p : Plan} {rules : List Rule}

theorem clue_ne_fallback (h : p.Splits rules) (hne : rules ≠ []) (compact : Bool)
    (fallback : Branch) : (p.graft compact fallback).clue ≠ .fallback := by
  induction h with
  | @settled rules _ =>
    cases rules with
    | nil => exact absurd rfl hne
    | cons r rest =>
      intro hclue
      rw [graft, settlement] at hclue
      split at hclue <;> cases hclue
  | split hp _ _ hm _ =>
    cases compact with
    | true => exact Graft.clue_join_ne_fallback (hm (matching_ne_nil hp))
    | false =>
      intro hclue
      cases hclue

theorem records (h : p.Splits rules) (hne : rules ≠ []) (fallback : Branch) :
    (p.graft true fallback).Records := by
  induction h with
  | @settled rules _ =>
    intro want inner outcome hb
    obtain ⟨o, ho⟩ := Option.ne_none_iff_exists'.1 (mt verdict?_eq_none_iff.1 hne)
    rw [graft, branch_settlement, ho] at hb
    cases hb
  | split hp hms _ hm _ =>
    exact Graft.records_join (truthful_graft true fallback _) (truthful_graft true fallback _)
      (hms.clue_ne_fallback (matching_ne_nil hp) true fallback) (hm (matching_ne_nil hp))

theorem compacted (h : p.Splits rules) {fallback : Branch} (hfallback : fallback.Compacted) :
    (p.graft true fallback).branch.Compacted := by
  induction h with
  | @settled rules _ =>
    rw [graft, branch_settlement]
    cases Verdict.verdict? rules with
    | none => exact hfallback
    | some outcome => exact Branch.compacted_leaf outcome
  | split hp hms _ hm hf =>
    exact Graft.compacted_join (truthful_graft true fallback _) (truthful_graft true fallback _)
      (hms.records (matching_ne_nil hp) fallback) hm hf

end Plan.Splits

theorem Spec.compacted_root (s : Spec) : (s.root true).Compacted := by
  unfold root
  induction s.domains with
  | nil => exact Branch.compacted_leaf _
  | cons d rest ih =>
    rw [List.foldr_cons]
    exact (Plan.splits_ofRules d.priority d.expand).compacted ih

theorem Plan.every_single (p : Plan) {fallback : Branch}
    (h : fallback.Every (fun want => ∃ c, want.members = [c]) fun _ => True) :
    (p.graft false fallback).branch.Every (fun want => ∃ c, want.members = [c]) fun _ => True := by
  induction p with
  | settled rules =>
    rw [graft, branch_settlement]
    cases Verdict.verdict? rules with
    | none => exact h
    | some outcome => exact trivial
  | split pivot m f hm hf => exact Graft.every_node ⟨pivot.condition, rfl⟩ hm hf

theorem Spec.every_single (s : Spec) :
    (s.root false).Every (fun want => ∃ c, want.members = [c]) fun _ => True := by
  unfold root
  induction s.domains with
  | nil => exact trivial
  | cons d rest ih =>
    rw [List.foldr_cons]
    exact d.plan.every_single ih

/-- With compaction no node of a tree can be compacted any further, whichever domain it stands for;
without it every node asks for one condition. -/
theorem Spec.fully_compacted (s : Spec) (h : s.Named) :
    ∃ t u, s.compile true = .ok t ∧ s.compile false = .ok u ∧ t.root.Compacted ∧
      ∀ want m f, .node want m f ∈ u.root.descendants → ∃ c, want.members = [c] := by
  refine ⟨s.tree true, s.tree false, Spec.compile_of_named h true, Spec.compile_of_named h false,
    s.compacted_root, ?_⟩
  intro want m f hb
  rw [Branch.descendants_eq_preorder] at hb
  exact (Branch.every_iff_preorder.1 s.every_single).1 want m f hb

theorem Spec.fully_compacted_orders :
    Spec.orders.Named ∧ ∃ t u, Spec.orders.compile true = .ok t ∧
      Spec.orders.compile false = .ok u ∧ t.root.Compacted ∧
      ∀ want m f, .node want m f ∈ u.root.descendants → ∃ c, want.members = [c] :=
  ⟨by decide, Spec.fully_compacted Spec.orders (by decide)⟩

end Verdict
