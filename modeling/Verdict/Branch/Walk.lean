import Verdict.Branch

set_option autoImplicit false

namespace Verdict.Branch

def weight : Branch → Nat
  | leaf _ => 1
  | node _ m f => m.weight + f.weight + 1

theorem weight_pos (b : Branch) : 0 < b.weight := by
  cases b <;> simp [weight]

def preorder : Branch → List Branch
  | leaf o => [leaf o]
  | node w m f => node w m f :: (m.preorder ++ f.preorder)

theorem length_preorder (b : Branch) : b.preorder.length = b.weight := by
  induction b with
  | leaf o => rfl
  | node w m f hm hf => simp [preorder, weight, hm, hf]

/-- Visits the pending branches in turn, the sides of a node right after the node. -/
def visit (seen : List Branch) : List Branch → List Branch
  | [] => seen.reverse
  | leaf o :: pending => visit (leaf o :: seen) pending
  | node w m f :: pending => visit (node w m f :: seen) (m :: f :: pending)
termination_by pending => (pending.flatMap preorder).length
decreasing_by
  all_goals simp only [preorder, List.flatMap_cons, List.length_append, List.length_cons]; omega

theorem visit_eq (seen pending : List Branch) :
    visit seen pending = seen.reverse ++ pending.flatMap preorder := by
  fun_induction visit seen pending with
  | case1 seen => simp
  | case2 seen o pending ih => simp [ih, preorder]
  | case3 seen w m f pending ih => simp [ih, preorder]

def descendants (b : Branch) : List Branch := visit [] [b]

theorem descendants_eq_preorder (b : Branch) : b.descendants = b.preorder := by
  simp [descendants, visit_eq]

def nodeCount (b : Branch) : Nat := b.descendants.countP (!·.isLeaf)

def leafCount (b : Branch) : Nat := b.descendants.countP (·.isLeaf)

theorem nodeCount_leaf (o : Outcome) : (leaf o).nodeCount = 0 := by
  simp [nodeCount, descendants_eq_preorder, preorder, isLeaf]

theorem nodeCount_node (want : Conditions) (m f : Branch) :
    (node want m f).nodeCount = m.nodeCount + f.nodeCount + 1 := by
  simp [nodeCount, descendants_eq_preorder, preorder, isLeaf]

theorem leafCount_node (want : Conditions) (m f : Branch) :
    (node want m f).leafCount = m.leafCount + f.leafCount := by
  simp [leafCount, descendants_eq_preorder, preorder, isLeaf]

theorem leafCount_eq (b : Branch) : b.leafCount = b.nodeCount + 1 := by
  induction b with
  | leaf o => simp [leafCount, nodeCount_leaf, descendants_eq_preorder, preorder, isLeaf]
  | node w m f hm hf => simp only [leafCount_node, nodeCount_node, hm, hf]; omega

/-- The greatest level of a leaf among the pending branches, each of which comes with its level. -/
def deepest (best : Nat) : List (Branch × Nat) → Nat
  | [] => best
  | (leaf _, level) :: pending => deepest (max best level) pending
  | (node _ m f, level) :: pending => deepest best ((f, level + 1) :: (m, level + 1) :: pending)
termination_by pending => (pending.flatMap fun p => p.1.preorder).length
decreasing_by
  all_goals simp only [preorder, List.flatMap_cons, List.length_append, List.length_cons]; omega

def depth (b : Branch) : Nat := deepest 0 [(b, 0)]

def height : Branch → Nat
  | leaf _ => 0
  | node _ m f => max m.height f.height + 1

theorem deepest_eq (best : Nat) (pending : List (Branch × Nat)) :
    deepest best pending = pending.foldl (fun d p => max d (p.2 + p.1.height)) best := by
  fun_induction deepest best pending with
  | case1 best => rfl
  | case2 best o level pending ih => simp [ih, height]
  | case3 best w m f level pending ih =>
    simp only [ih, height, List.foldl_cons]
    congr 1
    omega

theorem depth_eq_height (b : Branch) : b.depth = b.height := by
  simp [depth, deepest_eq]

end Verdict.Branch
