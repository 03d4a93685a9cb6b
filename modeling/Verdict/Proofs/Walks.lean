import Mathlib.Data.List.Nodup
import Verdict.Branch.Walk

/-! Every branch of a tree stands at the end of one walk from the root. In pre-order a branch comes
before those below it, and what is below the match side of a node before what is below its fail
side. The descents that keep pending branches in a list come to each branch once, in this order;
they count what the recursion on the tree counts, and the depth they find is the length of the
longest walk to a leaf.
-/

set_option autoImplicit false

namespace Verdict

/-- One walk comes before another in pre-order: it is the beginning of the other, or it takes the
match side where the other one takes the fail side. -/
inductive Earlier : List Bool → List Bool → Prop where
  | above (side : Bool) (sides : List Bool) : Earlier [] (side :: sides)
  | apart (sides sides' : List Bool) : Earlier (true :: sides) (false :: sides')
  | along (side : Bool) {sides sides' : List Bool} (h : Earlier sides sides') :
      Earlier (side :: sides) (side :: sides')

theorem Earlier.ne {sides sides' : List Bool} (h : Earlier sides sides') : sides ≠ sides' := by
  induction h with
  | above side sides => simp
  | apart sides sides' => simp
  | along side h ih => simpa using ih

namespace Branch

def walks : Branch → List (List Bool)
  | leaf _ => [[]]
  | node _ m f => [] :: (m.walks.map (true :: ·) ++ f.walks.map (false :: ·))

theorem length_walks (b : Branch) : b.walks.length = b.weight := by
  induction b with
  | leaf o => rfl
  | node w m f hm hf => simp [walks, weight, hm, hf]

theorem map_follow_walks (b : Branch) : b.walks.map b.follow = b.descendants.map some := by
  rw [descendants_eq_preorder]
  induction b with
  | leaf o => rfl
  | node w m f hm hf =>
    have hmatch : (node w m f).follow ∘ (true :: ·) = m.follow := rfl
    have hfail : (node w m f).follow ∘ (false :: ·) = f.follow := rfl
    simp [walks, preorder, follow, hmatch, hfail, hm, hf]

theorem mem_walks {b c : Branch} {sides : List Bool} (h : b.follow sides = some c) :
    sides ∈ b.walks := by
  induction b generalizing sides with
  | leaf o => cases sides <;> simp_all [walks, follow]
  | node w m f hm hf =>
    cases sides with
    | nil => simp [walks]
    | cons side sides =>
      cases side with
      | true => simpa [walks] using hm h
      | false => simpa [walks] using hf h

theorem mem_walks_iff {b : Branch} {sides : List Bool} :
    sides ∈ b.walks ↔ ∃ c, b.follow sides = some c := by
  constructor
  · intro h
    have hmem : b.follow sides ∈ b.descendants.map some :=
      b.map_follow_walks ▸ List.mem_map_of_mem h
    obtain ⟨c, _, hc⟩ := List.mem_map.1 hmem
    exact ⟨c, hc.symm⟩
  · rintro ⟨c, hc⟩
    exact mem_walks hc

theorem pairwise_walks (b : Branch) : b.walks.Pairwise Earlier := by
  induction b with
  | leaf o => exact List.pairwise_singleton _ _
  | node w m f hm hf =>
    have halong : ∀ (side : Bool) {l : List (List Bool)}, l.Pairwise Earlier →
        (l.map (side :: ·)).Pairwise Earlier :=
      fun side l h => List.pairwise_map.2 (h.imp (.along side))
    refine List.pairwise_cons.2 ⟨?_, List.pairwise_append.2 ⟨halong true hm, halong false hf, ?_⟩⟩
    · intro sides h
      rcases List.mem_append.1 h with h | h
      · obtain ⟨tail, _, rfl⟩ := List.mem_map.1 h
        exact .above true tail
      · obtain ⟨tail, _, rfl⟩ := List.mem_map.1 h
        exact .above false tail
    · intro sides h sides' h'
      obtain ⟨tail, _, rfl⟩ := List.mem_map.1 h
      obtain ⟨tail', _, rfl⟩ := List.mem_map.1 h'
      exact .apart tail tail'

theorem nodup_walks (b : Branch) : b.walks.Nodup := b.pairwise_walks.imp Earlier.ne

theorem getElem?_walks_match (w : Conditions) (m f : Branch) {i : Nat} {sides : List Bool}
    (h : m.walks[i]? = some sides) : (node w m f).walks[i + 1]? = some (true :: sides) := by
  have hlt := (List.getElem?_eq_some_iff.1 h).1
  rw [walks, List.getElem?_cons_succ, List.getElem?_append_left (by simpa using hlt),
    List.getElem?_map, h]
  rfl

theorem getElem?_walks_fail (w : Conditions) (m f : Branch) {i : Nat} {sides : List Bool}
    (h : f.walks[i]? = some sides) :
    (node w m f).walks[m.weight + i + 1]? = some (false :: sides) := by
  rw [walks, List.getElem?_cons_succ, List.getElem?_append_right (by simp [length_walks]),
    List.getElem?_map, List.length_map, length_walks, Nat.add_sub_cancel_left, h]
  rfl

theorem getElem?_walks_zero (b : Branch) : b.walks[0]? = some [] := by
  cases b <;> rfl

def nodes : Branch → Nat
  | leaf _ => 0
  | node _ m f => m.nodes + f.nodes + 1

def leaves : Branch → Nat
  | leaf _ => 1
  | node _ m f => m.leaves + f.leaves

theorem nodeCount_eq_nodes (b : Branch) : b.nodeCount = b.nodes := by
  induction b with
  | leaf o => exact nodeCount_leaf o
  | node w m f hm hf => rw [nodeCount_node, hm, hf, nodes]

theorem leafCount_eq_leaves (b : Branch) : b.leafCount = b.leaves := by
  induction b with
  | leaf o => rw [leafCount_eq, nodeCount_leaf, leaves]
  | node w m f hm hf => rw [leafCount_node, hm, hf, leaves]

theorem height_le_nodes (b : Branch) : b.height ≤ b.nodes := by
  induction b with
  | leaf o => exact Nat.le_refl 0
  | node w m f hm hf =>
    rw [height, nodes]
    omega

theorem length_le_height {b : Branch} {sides : List Bool} {outcome : Outcome}
    (h : b.follow sides = some (leaf outcome)) : sides.length ≤ b.height := by
  induction b generalizing sides with
  | leaf o => cases sides <;> simp_all [follow]
  | node w m f hm hf =>
    cases sides with
    | nil => exact Nat.zero_le _
    | cons side sides =>
      rw [List.length_cons, height]
      cases side with
      | true =>
        have := hm h
        omega
      | false =>
        have := hf h
        omega

theorem exists_follow_height (b : Branch) :
    ∃ sides outcome, b.follow sides = some (leaf outcome) ∧ sides.length = b.height := by
  induction b with
  | leaf o => exact ⟨[], o, rfl, rfl⟩
  | node w m f hm hf =>
    rw [height]
    by_cases hle : f.height ≤ m.height
    · obtain ⟨sides, outcome, hfollow, hlength⟩ := hm
      exact ⟨true :: sides, outcome, hfollow, by rw [List.length_cons, hlength]; omega⟩
    · obtain ⟨sides, outcome, hfollow, hlength⟩ := hf
      exact ⟨false :: sides, outcome, hfollow, by rw [List.length_cons, hlength]; omega⟩

/-- A tree of which the descents tell the truth. Its branches are listed as the recursion lists
them: one for each walk that does not lead beyond a leaf, in pre-order, and none for a second time.
The counts are those of the recursion, with one leaf more than there are nodes. The depth is that of
the recursion as well; some walk to a leaf passes as many nodes and none passes more. -/
structure Surveyed (b : Branch) : Prop where
  descendants : b.descendants = b.preorder
  places : b.descendants.map some = b.walks.map b.follow
  complete : ∀ sides, sides ∈ b.walks ↔ ∃ c, b.follow sides = some c
  order : b.walks.Pairwise Earlier
  once : b.walks.Nodup
  nodeCount : b.nodeCount = b.nodes
  leafCount : b.leafCount = b.leaves
  oneMore : b.leafCount = b.nodeCount + 1
  depth : b.depth = b.height
  longest : ∃ sides outcome, b.follow sides = some (leaf outcome) ∧ sides.length = b.depth
  noLonger : ∀ sides outcome, b.follow sides = some (leaf outcome) → sides.length ≤ b.depth
  depth_le : b.depth ≤ b.nodeCount

theorem survey_exact (b : Branch) : b.Surveyed where
  descendants := b.descendants_eq_preorder
  places := b.map_follow_walks.symm
  complete _ := mem_walks_iff
  order := b.pairwise_walks
  once := b.nodup_walks
  nodeCount := b.nodeCount_eq_nodes
  leafCount := b.leafCount_eq_leaves
  oneMore := b.leafCount_eq
  depth := b.depth_eq_height
  longest := by
    rw [depth_eq_height]
    exact b.exists_follow_height
  noLonger _ _ h := by
    rw [depth_eq_height]
    exact length_le_height h
  depth_le := by
    rw [depth_eq_height, nodeCount_eq_nodes]
    exact b.height_le_nodes

end Branch

end Verdict
