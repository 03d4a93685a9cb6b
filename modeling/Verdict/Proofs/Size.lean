import Mathlib.Algebra.BigOperators.Group.List.Basic
import Mathlib.Algebra.GroupWithZero.Nat
import Verdict.Branch
import Verdict.Proofs.Choice
import Verdict.Proofs.Compaction

/-! How large a compiled tree is. Compaction never costs anything: neither the tree nor its depth
nor the way of any query gets longer by it. And each split takes a wanted condition from a rule, so
a domain splits at most as often as its rules want conditions in all, and multiplies the size of
the tree of the later domains by no more than that.
-/

set_option autoImplicit false

namespace Verdict

namespace Branch

/-- A tree with no more nodes, leaves and levels than another one, which asks no query more often. -/
structure Cheaper (b b' : Branch) : Prop where
  nodes : b.nodeCount ≤ b'.nodeCount
  leaves : b.leafCount ≤ b'.leafCount
  depth : b.depth ≤ b'.depth
  asked : ∀ query, (b.trail query).trials.length ≤ (b'.trail query).trials.length

theorem length_trail_node (want : Conditions) (m f : Branch) (query : Conditions) :
    ((node want m f).trail query).trials.length =
      (if query.includes want then (m.trail query).trials.length
        else (f.trail query).trials.length) + 1 := by
  by_cases h : query.includes want = true <;> simp [trail, h]

namespace Cheaper

variable {b b' b'' m m' f f' : Branch}

theorem refl (b : Branch) : b.Cheaper b :=
  ⟨Nat.le_refl _, Nat.le_refl _, Nat.le_refl _, fun _ => Nat.le_refl _⟩

theorem trans (h : b.Cheaper b') (h' : b'.Cheaper b'') : b.Cheaper b'' :=
  ⟨h.nodes.trans h'.nodes, h.leaves.trans h'.leaves, h.depth.trans h'.depth,
    fun query => (h.asked query).trans (h'.asked query)⟩

theorem of_nodes (hn : b.nodeCount ≤ b'.nodeCount) (hd : b.height ≤ b'.height)
    (ha : ∀ query, (b.trail query).trials.length ≤ (b'.trail query).trials.length) :
    b.Cheaper b' := by
  refine ⟨hn, ?_, ?_, ha⟩
  · rw [leafCount_eq, leafCount_eq]
    omega
  · rw [depth_eq_height, depth_eq_height]
    exact hd

theorem height (h : b.Cheaper b') : b.height ≤ b'.height := by
  rw [← depth_eq_height, ← depth_eq_height]
  exact h.depth

theorem node (want : Conditions) (hm : m.Cheaper m') (hf : f.Cheaper f') :
    (node want m f).Cheaper (node want m' f') := by
  refine of_nodes ?_ ?_ fun query => ?_
  · have := hm.nodes
    have := hf.nodes
    simp only [nodeCount_node]
    omega
  · have := hm.height
    have := hf.height
    simp only [Branch.height]
    omega
  · have := hm.asked query
    have := hf.asked query
    rw [length_trail_node, length_trail_node]
    split <;> omega

end Cheaper

end Branch

namespace Graft

theorem cheaper_join {fallback : Branch} (c : Condition) {m f : Graft}
    (hm : m.Truthful fallback) (hf : f.Truthful fallback) :
    (join c m f).branch.Cheaper (node c m f).branch := by
  rcases join_cases c m f with ⟨hs, hj⟩ | ⟨_, want, inner, fail, hb, hs, hj⟩ | ⟨_, _, hj⟩
  · have he : m.branch = f.branch := Clue.eq_of_same hs hm.clue hf.clue
    rw [hj, node, he]
    refine .of_nodes ?_ ?_ fun query => ?_
    · rw [Branch.nodeCount_node]
      omega
    · simp only [Branch.height]
      omega
    · rw [Branch.length_trail_node, ite_self]
      omega
  · have he : fail = f.branch := Clue.eq_of_same hs (hm.failClue want inner fail hb) hf.clue
    rw [hj, node, hb, ← he]
    refine .of_nodes ?_ ?_ fun query => ?_
    · simp only [Branch.nodeCount_node]
      omega
    · simp only [Branch.height]
      omega
    · -- Where both tests hold, one is asked instead of two; where one fails, so does the other.
      simp only [Branch.length_trail_node, Conditions.includes_insert,
        Conditions.includes_singleton]
      by_cases hc : c ∈ query <;> by_cases hw : query.includes want = true <;> simp [hc, hw]
  · rw [hj]
    exact .refl _

end Graft

theorem Plan.cheaper_graft {fallback fallback' : Branch} (h : fallback.Cheaper fallback')
    (p : Plan) :
    (p.graft true fallback).branch.Cheaper (p.graft false fallback').branch := by
  induction p with
  | settled rules =>
    simp only [graft, branch_settlement]
    cases Verdict.verdict? rules with
    | none => exact h
    | some outcome => exact .refl _
  | split p m f hm hf =>
    have hjoin := Graft.cheaper_join p.condition (truthful_graft true fallback m)
      (truthful_graft true fallback f)
    exact hjoin.trans (hm.node _ hf)

theorem Spec.cheaper_root (s : Spec) : (s.root true).Cheaper (s.root false) := by
  unfold root
  induction s.domains with
  | nil => exact .refl _
  | cons d rest ih => exact Plan.cheaper_graft ih d.plan

theorem Spec.compaction_never_costs (s : Spec) (h : s.Named) :
    ∃ t u, s.compile true = .ok t ∧ s.compile false = .ok u ∧
      t.root.Cheaper u.root ∧ ∀ query, t.search query = u.search query := by
  refine ⟨s.tree true, s.tree false, Spec.compile_of_named h true, Spec.compile_of_named h false,
    s.cheaper_root, ?_⟩
  intro query
  exact (Spec.search_root true s query).trans (Spec.search_root false s query).symm

theorem Spec.compaction_never_costs_orders :
    Spec.orders.Named ∧ ∃ t u, Spec.orders.compile true = .ok t ∧
      Spec.orders.compile false = .ok u ∧
      t.root.Cheaper u.root ∧ ∀ query, t.search query = u.search query :=
  ⟨by decide, Spec.compaction_never_costs Spec.orders (by decide)⟩

theorem Plan.Splits.nodeCount_graft {p : Plan} {rules : List Rule} (h : p.Splits rules)
    (fallback : Branch) :
    (p.graft false fallback).branch.nodeCount + 1 ≤
      (1 + load rules) * (fallback.nodeCount + 1) := by
  induction h with
  | @settled rules hw =>
    have hload : load rules = 0 := by rw [load, hw, List.length_nil]
    rw [graft, branch_settlement, hload]
    cases Verdict.verdict? rules with
    | none => simp
    | some outcome => simp [Branch.nodeCount_leaf]
  | @split rules p m f hp _ _ hm hf =>
    have hnodes : ((Plan.split p m f).graft false fallback).branch.nodeCount =
        (m.graft false fallback).branch.nodeCount +
          (f.graft false fallback).branch.nodeCount + 1 := Branch.nodeCount_node _ _ _
    have hload : 1 + load (matching p.condition rules) + (1 + load (failing p.condition rules)) ≤
        1 + load rules := by
      have hsplit := load_split p.condition rules
      have hpos := countP_wants_pos hp
      omega
    calc ((Plan.split p m f).graft false fallback).branch.nodeCount + 1
        = ((m.graft false fallback).branch.nodeCount + 1) +
            ((f.graft false fallback).branch.nodeCount + 1) := by rw [hnodes]; omega
      _ ≤ (1 + load (matching p.condition rules)) * (fallback.nodeCount + 1) +
            (1 + load (failing p.condition rules)) * (fallback.nodeCount + 1) :=
          Nat.add_le_add hm hf
      _ = (1 + load (matching p.condition rules) + (1 + load (failing p.condition rules))) *
            (fallback.nodeCount + 1) := (Nat.add_mul _ _ _).symm
      _ ≤ (1 + load rules) * (fallback.nodeCount + 1) := Nat.mul_le_mul_right _ hload

namespace Domain

/-- How many conditions the rules of a domain want in all, a rule with alternatives counted once for
each of them. -/
def wantTotal (d : Domain) : Nat := (d.expand.map fun e => e.want.size).sum

theorem load_expand (d : Domain) : load d.expand = d.wantTotal := by
  rw [load, wanted, List.length_flatMap, wantTotal]
  rfl

theorem nodeCount_grow (compact : Bool) (d : Domain) (fallback : Branch) :
    (d.grow compact fallback).nodeCount + 1 ≤ (1 + d.wantTotal) * (fallback.nodeCount + 1) := by
  have hplain := (Plan.splits_ofRules d.priority d.expand).nodeCount_graft fallback
  rw [load_expand] at hplain
  cases compact with
  | false => exact hplain
  | true =>
    have hcheaper := (Plan.cheaper_graft (.refl fallback) d.plan).nodes
    exact (Nat.add_le_add_right hcheaper 1).trans hplain

end Domain

theorem Spec.nodeCount_root (compact : Bool) (s : Spec) :
    (s.root compact).nodeCount + 1 ≤ (s.domains.map fun d => 1 + d.wantTotal).prod := by
  unfold root
  induction s.domains with
  | nil => simp [Branch.nodeCount_leaf]
  | cons d rest ih =>
    rw [List.foldr_cons, List.map_cons, List.prod_cons]
    exact (d.nodeCount_grow compact _).trans (Nat.mul_le_mul_left _ ih)

theorem Spec.size_bounded (s : Spec) (h : s.Named) (compact : Bool) :
    ∃ t, s.compile compact = .ok t ∧
      t.root.nodeCount + 1 ≤ (s.domains.map fun d => 1 + d.wantTotal).prod ∧
      ∀ d, s.domains = [d] → t.root.nodeCount ≤ d.wantTotal := by
  have hroot := s.nodeCount_root compact
  refine ⟨s.tree compact, Spec.compile_of_named h compact, hroot, ?_⟩
  intro d hd
  rw [hd, List.map_singleton, List.prod_singleton] at hroot
  have hle : (s.root compact).nodeCount ≤ d.wantTotal := by omega
  exact hle

theorem Spec.size_bounded_orders :
    Spec.orders.Named ∧
      (∃ t, Spec.orders.compile true = .ok t ∧ t.root.nodeCount + 1 ≤ (1 + 8) * (1 + 2)) ∧
      ∃ t, Spec.compile true ⟨[Domain.orders]⟩ = .ok t ∧ t.root.nodeCount ≤ 8 := by
  obtain ⟨t, ht, hproduct, _⟩ := Spec.size_bounded Spec.orders (by decide) true
  obtain ⟨u, hu, _, hsingle⟩ := Spec.size_bounded ⟨[Domain.orders]⟩ (by decide) true
  exact ⟨by decide, ⟨t, ht, hproduct⟩, u, hu, hsingle Domain.orders rfl⟩

end Verdict
