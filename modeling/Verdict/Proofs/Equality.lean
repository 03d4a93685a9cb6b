import Verdict.Proofs.Likeness
import Verdict.Proofs.Walks
import Verdict.Proofs.Ways

set_option autoImplicit false

namespace Verdict

theorem Conditions.includes_congr {query s t : Conditions} (h : s.equiv t = true) :
    query.includes s = query.includes t := by
  rw [Bool.eq_iff_iff, includes_iff, includes_iff]
  exact forall_congr' fun c => imp_congr_left (equiv_iff.1 h c)

theorem isEqv_equivalence {α : Type} {same : α → α → Bool}
    (h : Equivalence fun a b => same a b = true) :
    Equivalence fun l l' : List α => l.isEqv l' same = true where
  refl l := isEqv_iff_forall₂.2 (List.forall₂_same.2 fun a _ => h.refl a)
  symm hl := isEqv_iff_forall₂.2 ((isEqv_iff_forall₂.1 hl).imp fun _ _ hab => h.symm hab).flip
  trans {l l' l''} hl hl' := by
    rw [isEqv_iff_forall₂] at hl hl' ⊢
    induction hl generalizing l'' with
    | nil => exact hl'
    | cons hab _ ih =>
      cases hl' with
      | cons hbc htail => exact .cons (h.trans hab hbc) (ih htail)

namespace Branch

theorem equiv_leaf_iff {o : Outcome} {b : Branch} : (leaf o).equiv b = true ↔ b = leaf o := by
  cases b with
  | leaf o' => simpa [equiv] using eq_comm
  | node w m f => simp [equiv]

theorem equiv_node_iff {w : Conditions} {m f b : Branch} :
    (node w m f).equiv b = true ↔ ∃ w' m' f', b = node w' m' f' ∧
      w.equiv w' = true ∧ m.equiv m' = true ∧ f.equiv f' = true := by
  cases b <;> simp [equiv, and_assoc]

/-- What holds of equal leaves, and of nodes that want the same if it holds of their sides, holds of
all equal trees. -/
theorem equiv_induction {motive : Branch → Branch → Prop} (leaf : ∀ o, motive (leaf o) (leaf o))
    (node : ∀ {w w' m m' f f'}, w.equiv w' = true → motive m m' → motive f f' →
      motive (node w m f) (node w' m' f')) {a b : Branch} (h : a.equiv b = true) : motive a b := by
  induction a generalizing b with
  | leaf o =>
    obtain rfl := equiv_leaf_iff.1 h
    exact leaf o
  | node w m f hm hf =>
    obtain ⟨w', m', f', rfl, hw, hmatch, hfail⟩ := equiv_node_iff.1 h
    exact node hw (hm hmatch) (hf hfail)

theorem equiv_equivalence : Equivalence fun a b : Branch => a.equiv b = true where
  refl b := by
    induction b with
    | leaf o => exact equiv_leaf_iff.2 rfl
    | node w m f hm hf =>
      exact equiv_node_iff.2 ⟨w, m, f, rfl, Conditions.equiv_equivalence.refl w, hm, hf⟩
  symm h := by
    refine equiv_induction (motive := fun a b => b.equiv a = true) ?_ ?_ h
    · intro o
      exact equiv_leaf_iff.2 rfl
    · intro w w' m m' f f' hw hm hf
      exact equiv_node_iff.2 ⟨w, m, f, rfl, Conditions.equiv_equivalence.symm hw, hm, hf⟩
  trans {a b c} h h' := by
    refine equiv_induction (motive := fun a b => ∀ c, b.equiv c = true → a.equiv c = true)
      ?_ ?_ h c h'
    · intro o c hc
      exact hc
    · intro w w' m m' f f' hw hm hf c hc
      obtain ⟨w'', m'', f'', rfl, hw', hmatch, hfail⟩ := equiv_node_iff.1 hc
      exact equiv_node_iff.2 ⟨w'', m'', f'', rfl, Conditions.equiv_equivalence.trans hw hw',
        hm m'' hmatch, hf f'' hfail⟩

end Branch

/-- The same tests, up to the order in which they name conditions, with the same results, and the
same outcome at the end. -/
structure Trail.Alike (v w : Trail) : Prop where
  trials : List.Forall₂ (fun t u => t.want.equiv u.want = true ∧ t.held = u.held) v.trials w.trials
  outcome : v.outcome = w.outcome

theorem Trail.Alike.after {v w : Trail} (h : v.Alike w) {s t : Conditions}
    (hst : s.equiv t = true) (held : Bool) : (v.after ⟨s, held⟩).Alike (w.after ⟨t, held⟩) :=
  ⟨.cons ⟨hst, rfl⟩ h.trials, h.outcome⟩

namespace Branch

variable {a b : Branch}

theorem alike_trail (h : a.equiv b = true) (query : Conditions) :
    (a.trail query).Alike (b.trail query) := by
  refine equiv_induction (motive := fun a b => (a.trail query).Alike (b.trail query)) ?_ ?_ h
  · intro o
    exact ⟨.nil, rfl⟩
  · intro w w' m m' f f' hw hm hf
    rw [trail_node, trail_node, Conditions.includes_congr hw]
    split
    · exact hm.after hw true
    · exact hf.after hw false

theorem nodes_congr (h : a.equiv b = true) : a.nodes = b.nodes := by
  refine equiv_induction (motive := fun a b => a.nodes = b.nodes) ?_ ?_ h
  · intro o
    rfl
  · intro w w' m m' f f' _ hm hf
    rw [nodes, nodes, hm, hf]

theorem height_congr (h : a.equiv b = true) : a.height = b.height := by
  refine equiv_induction (motive := fun a b => a.height = b.height) ?_ ?_ h
  · intro o
    rfl
  · intro w w' m m' f f' _ hm hf
    rw [height, height, hm, hf]

structure Agrees (a b : Branch) : Prop where
  search : ∀ query, a.search query = b.search query
  trail : ∀ query, (a.trail query).Alike (b.trail query)
  nodeCount : a.nodeCount = b.nodeCount
  leafCount : a.leafCount = b.leafCount
  depth : a.depth = b.depth

theorem agrees_of_equiv (h : a.equiv b = true) : a.Agrees b where
  search query := by
    rw [← outcome_trail, ← outcome_trail]
    exact (alike_trail h query).outcome
  trail := alike_trail h
  nodeCount := by rw [nodeCount_eq_nodes, nodeCount_eq_nodes, nodes_congr h]
  leafCount := by rw [leafCount_eq, leafCount_eq, nodeCount_eq_nodes, nodeCount_eq_nodes,
    nodes_congr h]
  depth := by rw [depth_eq_height, depth_eq_height, height_congr h]

end Branch

namespace Tree

theorem equiv_iff {t u : Tree} :
    t.equiv u = true ↔ t.root.equiv u.root = true ∧
      t.conditions.isEqv u.conditions Conditions.equiv = true ∧ t.outcomes = u.outcomes := by
  simp [equiv, and_assoc]

theorem equiv_equivalence : Equivalence fun t u : Tree => t.equiv u = true where
  refl t := equiv_iff.2 ⟨Branch.equiv_equivalence.refl _,
    (isEqv_equivalence Conditions.equiv_equivalence).refl _, rfl⟩
  symm h := by
    obtain ⟨hroot, hconditions, houtcomes⟩ := equiv_iff.1 h
    exact equiv_iff.2 ⟨Branch.equiv_equivalence.symm hroot,
      (isEqv_equivalence Conditions.equiv_equivalence).symm hconditions, houtcomes.symm⟩
  trans h h' := by
    obtain ⟨hroot, hconditions, houtcomes⟩ := equiv_iff.1 h
    obtain ⟨hroot', hconditions', houtcomes'⟩ := equiv_iff.1 h'
    exact equiv_iff.2 ⟨Branch.equiv_equivalence.trans hroot hroot',
      (isEqv_equivalence Conditions.equiv_equivalence).trans hconditions hconditions',
      houtcomes.trans houtcomes'⟩

structure Agrees (t u : Tree) : Prop where
  search : ∀ query, t.search query = u.search query
  trail : ∀ query, (t.trail query).Alike (u.trail query)
  counts : t.counts = u.counts

theorem agrees_of_equiv {t u : Tree} (h : t.equiv u = true) : t.Agrees u := by
  obtain ⟨hroot, hconditions, _⟩ := equiv_iff.1 h
  have hagrees := Branch.agrees_of_equiv hroot
  refine ⟨hagrees.search, hagrees.trail, ?_⟩
  rw [counts, counts, (isEqv_iff_forall₂.1 hconditions).length_eq, hagrees.nodeCount,
    hagrees.leafCount, hagrees.depth]

theorem equality_congruent :
    (Equivalence fun a b : Branch => a.equiv b = true) ∧
      (Equivalence fun t u : Tree => t.equiv u = true) ∧
      (∀ a b : Branch, a.equiv b = true → a.Agrees b) ∧
      ∀ t u : Tree, t.equiv u = true → t.Agrees u :=
  ⟨Branch.equiv_equivalence, equiv_equivalence, fun _ _ => Branch.agrees_of_equiv,
    fun _ _ => agrees_of_equiv⟩

def approving (want : List Condition) : Tree :=
  ⟨.node (.ofList want) (.leaf ⟨"approve"⟩) (.leaf .default), [.ofList want], [[⟨"approve"⟩]]⟩

theorem equality_congruent_orders :
    approving [⟨"paid"⟩, ⟨"verified"⟩] ≠ approving [⟨"verified"⟩, ⟨"paid"⟩] ∧
      (approving [⟨"paid"⟩, ⟨"verified"⟩]).equiv (approving [⟨"verified"⟩, ⟨"paid"⟩]) = true ∧
      (approving [⟨"paid"⟩, ⟨"verified"⟩]).Agrees (approving [⟨"verified"⟩, ⟨"paid"⟩]) ∧
      (approving [⟨"paid"⟩, ⟨"verified"⟩]).root.Agrees
        (approving [⟨"verified"⟩, ⟨"paid"⟩]).root :=
  ⟨by decide, by decide, equality_congruent.2.2.2 _ _ (by decide),
    equality_congruent.2.2.1 _ _ (by decide)⟩

end Tree

end Verdict
