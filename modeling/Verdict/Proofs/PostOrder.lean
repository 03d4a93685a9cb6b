import Verdict.Binary.Arena

set_option autoImplicit false

namespace Verdict

/-- Every test wants something and every outcome has a name. -/
def Branch.Storable : Branch → Prop
  | .leaf outcome => outcome.name ≠ ""
  | .node want m f => want.members ≠ [] ∧ m.Storable ∧ f.Storable

structure Tree.Storable (t : Tree) : Prop where
  root : t.root.Storable
  domains : t.conditions.length = t.outcomes.length

namespace Binary

/-- The entries of a tree, the first of them at the given place. -/
def laid (start : Nat) : Branch → List Entry
  | .leaf outcome => [.leaf outcome]
  | .node want m f =>
    laid start m ++ (laid (start + m.weight) f ++
      [.node want (start + m.weight - 1) (start + m.weight + f.weight - 1)])

theorem length_laid (start : Nat) (b : Branch) : (laid start b).length = b.weight := by
  induction b generalizing start with
  | leaf outcome => rfl
  | node want m f hm hf =>
    simp only [laid, List.length_append, hm, hf, List.length_singleton, Branch.weight]
    omega

theorem size_lay (entries : Array Entry) (b : Branch) :
    (lay entries b).1.size = entries.size + b.weight := by
  induction b generalizing entries with
  | leaf outcome => simp [lay, Branch.weight]
  | node want m f hm hf =>
    simp only [lay, Array.size_push, hf, hm, Branch.weight]
    omega

theorem lay_eq (entries : Array Entry) (b : Branch) :
    (lay entries b).1.toList = entries.toList ++ laid entries.size b ∧
      (lay entries b).2 = entries.size + b.weight - 1 := by
  induction b generalizing entries with
  | leaf outcome => simp [lay, laid, Branch.weight]
  | node want m f hm hf =>
    obtain ⟨hm1, hm2⟩ := hm entries
    obtain ⟨hf1, hf2⟩ := hf (lay entries m).1
    rw [size_lay] at hf1 hf2
    constructor
    · simp only [lay, laid, Array.toList_push, hf1, hm1, hm2, hf2, List.append_assoc]
    · simp only [lay, size_lay, Branch.weight]
      omega

theorem countP_laid (start : Nat) (b : Branch) :
    (laid start b).countP Entry.isNode = b.nodeCount := by
  rw [Branch.nodeCount, Branch.descendants_eq_preorder]
  induction b generalizing start with
  | leaf outcome => rfl
  | node want m f hm hf =>
    simp [laid, Branch.preorder, Branch.isLeaf, Entry.isNode, hm, hf, Nat.add_assoc]

theorem nodeCount_add_leafCount (b : Branch) : b.nodeCount + b.leafCount = b.weight := by
  induction b with
  | leaf outcome => simp [Branch.leafCount_eq, Branch.nodeCount_leaf, Branch.weight]
  | node want m f hm hf =>
    simp only [Branch.nodeCount_node, Branch.leafCount_node, Branch.weight]
    omega

theorem mem_laid_node {start : Nat} {b : Branch} {want : Conditions} {i j : Nat}
    (h : .node want i j ∈ laid start b) : i < start + b.weight ∧ j < start + b.weight := by
  induction b generalizing start with
  | leaf outcome => simp [laid] at h
  | node w m f hm hf =>
    simp only [laid, List.mem_append, List.mem_singleton, Entry.node.injEq] at h
    have hmw := m.weight_pos
    have hfw := f.weight_pos
    simp only [Branch.weight]
    rcases h with h | h | ⟨_, rfl, rfl⟩
    · have := hm h
      omega
    · have := hf h
      omega
    · omega

namespace Arena

theorem checkFrom_append (index : Nat) (es fs : List Entry) :
    checkFrom index (es ++ fs) = .ok () ↔
      checkFrom index es = .ok () ∧ checkFrom (index + es.length) fs = .ok () := by
  induction es generalizing index with
  | nil => simp [checkFrom]
  | cons e es ih =>
    have hindex : index + (es.length + 1) = index + 1 + es.length := by omega
    rw [List.cons_append, checkFrom_cons_eq_ok_iff, checkFrom_cons_eq_ok_iff, List.length_cons,
      hindex, ih (index + 1), and_assoc]

theorem checkFrom_laid {b : Branch} (h : b.Storable) (start : Nat) :
    checkFrom start (laid start b) = .ok () := by
  induction b generalizing start with
  | leaf outcome =>
    have hn : outcome.name.isEmpty = false := by simpa [Branch.Storable] using h
    simp [laid, checkFrom, checkEntry, hn]
  | node want m f hm hf =>
    obtain ⟨hw, hms, hfs⟩ := h
    have hmw := m.weight_pos
    have hfw := f.weight_pos
    have hne : want.isEmpty = false := by simpa [Conditions.isEmpty] using hw
    have he : checkEntry (start + m.weight + f.weight)
        (.node want (start + m.weight - 1) (start + m.weight + f.weight - 1)) = .ok () := by
      rw [checkEntry, if_neg (by simp [hne]), if_neg (by omega), if_neg (by omega),
        if_neg (by simp; omega)]
    rw [laid, checkFrom_append, checkFrom_append, length_laid, length_laid]
    exact ⟨hm hms start, hf hfs (start + m.weight), by rw [checkFrom, he]; rfl⟩

theorem entries_ofTree (t : Tree) : (ofTree t).entries = laid 0 t.root := (lay_eq #[] t.root).1

theorem root_ofTree (t : Tree) : (ofTree t).root + 1 = t.root.weight := by
  have hroot : (ofTree t).root = 0 + t.root.weight - 1 := (lay_eq #[] t.root).2
  have hpos := t.root.weight_pos
  omega

theorem check_ofTree {t : Tree} (h : t.Storable) : (ofTree t).check = .ok () := by
  have hcounts := nodeCount_add_leafCount t.root
  rw [check_eq_ok_iff, entries_ofTree, countP_laid, length_laid]
  refine ⟨rfl, ?_, rfl, h.domains, root_ofTree t, checkFrom_laid h.root 0⟩
  have hnodes : (ofTree t).nodes = t.root.nodeCount := rfl
  have hleaves : (ofTree t).leaves = t.root.leafCount := rfl
  omega

/-- The places of a tree once it is built: the tree in the last one, and nothing before it. -/
def filled (b : Branch) : List (Option Branch) := List.replicate (b.weight - 1) none ++ [some b]

theorem length_filled (b : Branch) : (filled b).length = b.weight := by
  have := b.weight_pos
  simp only [filled, List.length_append, List.length_replicate, List.length_singleton]
  omega

theorem take_append (before after : List (Option Branch)) (b : Branch) :
    take (before ++ some b :: after).toArray before.length =
      .ok (b, (before ++ none :: after).toArray) := by
  simp [take]

theorem take_filled (before after : List (Option Branch)) (b : Branch) :
    take (before ++ (filled b ++ after)).toArray (before.length + b.weight - 1) =
      .ok (b, (before ++ (List.replicate b.weight none ++ after)).toArray) := by
  have hpos := b.weight_pos
  have hplace : (before ++ List.replicate (b.weight - 1) (none : Option Branch)).length =
      before.length + b.weight - 1 := by
    simp only [List.length_append, List.length_replicate]
    omega
  have hempty : List.replicate b.weight (none : Option Branch) =
      List.replicate (b.weight - 1) none ++ [none] := by
    rw [← List.replicate_succ', Nat.sub_add_cancel hpos]
  have h := take_append (before ++ List.replicate (b.weight - 1) none) after b
  rw [hplace] at h
  rw [hempty]
  simpa only [filled, List.append_assoc, List.singleton_append] using h

theorem place_node (slots : List (Option Branch)) (want : Conditions) (m f : Branch) :
    place (slots ++ (filled m ++ filled f)).toArray
        (.node want (slots.length + m.weight - 1) (slots.length + m.weight + f.weight - 1)) =
      .ok (slots ++ filled (.node want m f)).toArray := by
  have hm := take_filled slots (filled f) m
  have hf := take_filled (slots ++ List.replicate m.weight none) [] f
  rw [List.length_append, List.length_replicate, List.append_nil, List.append_nil,
    List.append_assoc, List.append_assoc] at hf
  refine place_node_eq_ok_iff.2 ⟨m, _, f, _, hm, hf, ?_⟩
  have hempty : (Branch.node want m f).weight - 1 = m.weight + f.weight := rfl
  rw [filled, hempty, ← List.replicate_append_replicate]
  simp only [List.push_toArray, List.append_assoc]

theorem placeAll_laid (slots : List (Option Branch)) (b : Branch) (es : List Entry) :
    placeAll slots.toArray (laid slots.length b ++ es) =
      placeAll (slots ++ filled b).toArray es := by
  -- For any slots and entries: those of the match side are there when the fail side is placed.
  induction b generalizing slots es with
  | leaf outcome => simp [laid, placeAll, place, filled, Branch.weight]
  | node want m f hm hf =>
    have hlen : (slots ++ filled m).length = slots.length + m.weight := by
      rw [List.length_append, length_filled]
    have hf' := hf (slots ++ filled m)
    rw [hlen] at hf'
    rw [laid, List.append_assoc, hm, List.append_assoc, hf', List.singleton_append, placeAll,
      List.append_assoc, place_node]

theorem rootOf_filled (b : Branch) : rootOf (filled b).toArray = .ok b := by
  have hback : (filled b).toArray.back? = some (some b) := by simp [filled]
  have hpop : (filled b).toArray.pop.findIdx? Option.isSome = none := by simp [filled]
  rw [rootOf, hback]
  simp only [hpop]

theorem rebuild_laid (b : Branch) : rebuild (laid 0 b) = .ok b := by
  have h := placeAll_laid [] b []
  rw [List.append_nil, List.length_nil, List.nil_append, placeAll] at h
  rw [rebuild, h]
  exact rootOf_filled b

theorem rebuild_ofTree (t : Tree) : rebuild (ofTree t).entries = .ok t.root := by
  rw [entries_ofTree, rebuild_laid]

theorem toTree_ofTree {t : Tree} (h : t.Storable) : (ofTree t).toTree = .ok t :=
  toTree_eq_ok_iff.2 ⟨check_ofTree h, t.root, rebuild_ofTree t, rfl⟩

end Arena

end Binary

end Verdict
