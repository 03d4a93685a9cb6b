import Mathlib.Logic.Relation
import Mathlib.Order.Bounds.Defs
import Verdict.Proofs.Decoding

/-! The places that a tree takes. Laid behind other entries, which stay as they are, a tree fills the
stretch of places right behind them, and each of its branches fills a stretch within that: its match
side, then its fail side, and the node itself in the place that closes both. So a node names the
place before its own and the place before the first one of its fail side, and of the places of a
tree only the last one is named by no node of it.
-/

set_option autoImplicit false

namespace Verdict

namespace Binary

namespace Arena

/-- A branch fills the places from the first one to the last one. -/
inductive Fills (entries : List Entry) : Nat → Nat → Branch → Prop where
  | leaf {i : Nat} {outcome : Outcome} (h : entries[i]? = some (.leaf outcome)) :
      Fills entries i i (.leaf outcome)
  | node {first m f : Nat} {want : Conditions} {onMatch onFail : Branch}
      (h : entries[f + 1]? = some (.node want m f)) (hm : Fills entries first m onMatch)
      (hf : Fills entries (m + 1) f onFail) :
      Fills entries first (f + 1) (.node want onMatch onFail)

theorem fills_laid {entries before after : List Entry} {b : Branch}
    (h : entries = before ++ (laid before.length b ++ after)) {last : Nat}
    (hlast : last + 1 = before.length + b.weight) : Fills entries before.length last b := by
  -- Whatever stands before and after: the fail side is laid with the match side before it.
  induction b generalizing before after last with
  | leaf outcome =>
    obtain rfl : last = before.length := by simpa [Branch.weight] using hlast
    exact .leaf (by simp [h, laid])
  | node want m f hm hf =>
    have hmw := m.weight_pos
    have hfw := f.weight_pos
    obtain ⟨i, hi⟩ : ∃ i, before.length + m.weight = i + 1 :=
      Nat.exists_eq_succ_of_ne_zero (by omega)
    obtain ⟨j, hj⟩ : ∃ j, i + 1 + f.weight = j + 1 := Nat.exists_eq_succ_of_ne_zero (by omega)
    obtain rfl : last = j + 1 := by
      simp only [Branch.weight] at hlast
      omega
    simp only [laid, hi, hj, Nat.add_sub_cancel, List.append_assoc] at h
    have hm' : (before ++ laid before.length m).length = i + 1 := by
      rw [List.length_append, length_laid, hi]
    have hf' : (before ++ laid before.length m ++ laid (i + 1) f).length = j + 1 := by
      rw [List.length_append, hm', length_laid, hj]
    refine .node ?_ (hm h hi.symm) ?_
    · have hentry : entries = before ++ laid before.length m ++ laid (i + 1) f ++
          .node want i j :: after := by simp [h]
      rw [hentry, ← hf', List.getElem?_append_right (Nat.le_refl _), Nat.sub_self]
      rfl
    · rw [← hm'] at h ⊢
      exact hf (by rw [h, List.append_assoc]) (by rw [hm', hj])

variable {entries : List Entry} {first last i j : Nat} {b : Branch}

theorem Fills.length_eq (h : Fills entries first last b) : last + 1 = first + b.weight := by
  induction h with
  | leaf h => rfl
  | node h _ _ hm hf =>
    simp only [Branch.weight]
    omega

theorem Fills.le (h : Fills entries first last b) : first ≤ last := by
  have hlen := h.length_eq
  have hpos := b.weight_pos
  omega

theorem Fills.unfolds (h : Fills entries first last b) : Unfolds entries last b := by
  induction h with
  | leaf h => exact .leaf h
  | node h _ _ hm hf => exact .node h hm hf

/-- At every place of the stretch a branch ends that fills a stretch within it. -/
theorem Fills.exists_fills (h : Fills entries first last b) (hi : first ≤ i) (hl : i ≤ last) :
    ∃ start c, first ≤ start ∧ Fills entries start i c := by
  induction h with
  | @leaf k outcome h =>
    obtain rfl : i = k := by omega
    exact ⟨i, _, hi, .leaf h⟩
  | @node first m f want onMatch onFail h hm hf ihm ihf =>
    rcases Nat.lt_trichotomy i (f + 1) with hlt | rfl | hgt
    · rcases Nat.lt_or_ge m i with hmi | him
      · obtain ⟨start, c, hs, hc⟩ := ihf hmi (by omega)
        have := hm.le
        exact ⟨start, c, by omega, hc⟩
      · exact ihm hi him
    · exact ⟨first, _, Nat.le_refl first, .node h hm hf⟩
    · omega

theorem Fills.of_node {want : Conditions} {m f : Nat} (h : Fills entries first i b)
    (he : entries[i]? = some (.node want m f)) :
    f + 1 = i ∧ (∃ c, Fills entries first m c) ∧ ∃ c, Fills entries (m + 1) f c := by
  cases h with
  | leaf h => simp [h] at he
  | node h hm hf =>
    rw [h] at he
    cases he
    exact ⟨rfl, ⟨_, hm⟩, _, hf⟩

theorem Fills.names (h : Fills entries first last b) (hi : first ≤ i) (hl : i ≤ last)
    (hn : Names entries i j) : first ≤ j ∧ j < i := by
  obtain ⟨start, c, hs, hc⟩ := h.exists_fills hi hl
  obtain ⟨e, he, hj⟩ := hn
  cases e with
  | leaf outcome => simp [Entry.sides] at hj
  | node want m f =>
    obtain ⟨rfl, ⟨_, hm⟩, _, hf⟩ := hc.of_node he
    have hmle := hm.le
    have hfle := hf.le
    rcases List.mem_pair.1 hj with rfl | rfl
    · omega
    · omega

def Within (entries : List Entry) : Nat → Nat → Prop := Relation.ReflTransGen (Names entries)

theorem Fills.within_iff (h : Fills entries first last b) :
    Within entries last j ↔ first ≤ j ∧ j ≤ last := by
  constructor
  · intro hw
    induction hw with
    | refl => exact ⟨h.le, Nat.le_refl last⟩
    | tail _ hn ih =>
      obtain ⟨hfirst, hlt⟩ := h.names ih.1 ih.2 hn
      exact ⟨hfirst, by omega⟩
  · rintro ⟨hfirst, hlast⟩
    induction h with
    | @leaf k outcome h =>
      obtain rfl : j = k := by omega
      exact .refl
    | @node first m f want onMatch onFail h _ _ ihm ihf =>
      have hnm : Names entries (f + 1) m := ⟨_, h, by simp [Entry.sides]⟩
      have hnf : Names entries (f + 1) f := ⟨_, h, by simp [Entry.sides]⟩
      rcases Nat.lt_trichotomy j (f + 1) with hlt | rfl | hgt
      · rcases Nat.lt_or_ge m j with hmj | hjm
        · exact .head hnf (ihf hmj (by omega))
        · exact .head hnm (ihm hfirst hjm)
      · exact .refl
      · omega

theorem Fills.part_of_names {m f : Nat} {want : Conditions} {onMatch onFail : Branch}
    (h : entries[f + 1]? = some (.node want m f)) (hm : Fills entries first m onMatch)
    (hf : Fills entries (m + 1) f onFail) (hj : first ≤ j) (hl : j ≤ f + 1)
    (hn : Names entries j i) :
    j ≤ m ∧ i < m ∨ m < j ∧ j ≤ f ∧ m < i ∧ i < f ∨ j = f + 1 ∧ (i = m ∨ i = f) := by
  rcases Nat.lt_trichotomy j (f + 1) with hlt | rfl | hgt
  · rcases Nat.lt_or_ge m j with hmj | hjm
    · have := hf.names hmj (by omega) hn
      omega
    · have := hm.names hj hjm hn
      omega
  · obtain ⟨e, he, hi⟩ := hn
    cases h.symm.trans he
    exact Or.inr (Or.inr ⟨rfl, List.mem_pair.1 hi⟩)
  · omega

theorem Fills.existsUnique_names (h : Fills entries first last b) (hi : first ≤ i)
    (hl : i < last) : ∃! j, j ≤ last ∧ first ≤ j ∧ Names entries j i := by
  induction h with
  | leaf h => omega
  | @node first m f want onMatch onFail h hm hf ihm ihf =>
    have hmle := hm.le
    have hfle := hf.le
    -- The two sides are named by the node alone, any other place by a node of its own side.
    by_cases hroot : i = m ∨ i = f
    · refine ⟨f + 1, ⟨Nat.le_refl _, by omega, _, h, List.mem_pair.2 hroot⟩, ?_⟩
      rintro j ⟨hjl, hj, hn⟩
      have := part_of_names h hm hf hj hjl hn
      omega
    · rcases Nat.lt_or_ge m i with hmi | him
      · obtain ⟨j, ⟨hjl, hj, hn⟩, hone⟩ := ihf hmi (by omega)
        refine ⟨j, ⟨by omega, by omega, hn⟩, ?_⟩
        rintro k ⟨hkl, hk, hkn⟩
        have := part_of_names h hm hf hk hkl hkn
        exact hone k ⟨by omega, by omega, hkn⟩
      · obtain ⟨j, ⟨hjl, hj, hn⟩, hone⟩ := ihm hi (by omega)
        refine ⟨j, ⟨by omega, by omega, hn⟩, ?_⟩
        rintro k ⟨hkl, hk, hkn⟩
        have := part_of_names h hm hf hk hkl hkn
        exact hone k ⟨by omega, hk, hkn⟩

/-- The entries from some place on are those of one tree, each node of which stands right behind its
fail side, and that right behind its match side. -/
structure PostOrdered (entries : List Entry) (start : Nat) : Prop where
  onFail : ∀ i want m f, start ≤ i → entries[i]? = some (.node want m f) → f + 1 = i
  onMatch : ∀ i want m f, start ≤ i → entries[i]? = some (.node want m f) →
    start ≤ m ∧ IsLeast {j | Within entries f j} (m + 1)
  sides : ∀ i, start ≤ i → i + 1 < entries.length → ∃! j, start ≤ j ∧ Names entries j i

theorem Fills.postOrdered (h : Fills entries first last b) (hlast : last + 1 = entries.length) :
    PostOrdered entries first := by
  have hle : ∀ {i : Nat} {e : Entry}, entries[i]? = some e → i ≤ last := by
    intro i e he
    have := (List.getElem?_eq_some_iff.1 he).1
    omega
  refine ⟨fun i want m f hi he => ?_, fun i want m f hi he => ?_, fun i hi hl => ?_⟩
  · obtain ⟨start, c, _, hc⟩ := h.exists_fills hi (hle he)
    exact (hc.of_node he).1
  · obtain ⟨start, c, hs, hc⟩ := h.exists_fills hi (hle he)
    obtain ⟨_, ⟨_, hm⟩, _, hf⟩ := hc.of_node he
    refine ⟨Nat.le_trans hs hm.le, hf.within_iff.2 ⟨Nat.le_refl _, hf.le⟩, fun j hj => ?_⟩
    exact (hf.within_iff.1 hj).1
  · obtain ⟨j, ⟨_, hj⟩, hone⟩ := h.existsUnique_names hi (by omega)
    refine ⟨j, hj, fun k hk => hone k ⟨?_, hk⟩⟩
    obtain ⟨_, he, _⟩ := hk.2
    exact hle he

/-- A tree that cannot be stored is found out by the check of its own arena. -/
theorem check_ofTree_iff {t : Tree} : (ofTree t).check = .ok () ↔ t.Storable := by
  constructor
  · intro hc
    exact storable_of_toTree (toTree_eq_ok_iff.2 ⟨hc, t.root, rebuild_ofTree t, rfl⟩)
  · exact check_ofTree

end Arena

structure LaidBehind (entries : Array Entry) (b : Branch) (result : Array Entry × Nat) : Prop where
  kept : entries.toList <+: result.1.toList
  size : result.1.size = entries.size + (b.nodeCount + b.leafCount)
  root : result.2 + 1 = result.1.size
  order : Arena.PostOrdered result.1.toList entries.size
  tree : Unfolds result.1.toList result.2 b

theorem laidBehind_lay (entries : Array Entry) (b : Branch) :
    LaidBehind entries b (lay entries b) := by
  obtain ⟨hlaid, hroot⟩ := lay_eq entries b
  have hsize := size_lay entries b
  have hpos := b.weight_pos
  have hlast : (lay entries b).2 + 1 = (lay entries b).1.size := by omega
  have hbehind : (lay entries b).1.toList =
      entries.toList ++ (laid entries.toList.length b ++ []) := by simp [hlaid]
  have hfills : Arena.Fills (lay entries b).1.toList entries.size (lay entries b).2 b :=
    Arena.fills_laid hbehind (hlast.trans hsize)
  refine ⟨⟨_, hlaid.symm⟩, ?_, hlast, ?_, hfills.unfolds⟩
  · rw [hsize, nodeCount_add_leafCount]
  · exact hfills.postOrdered (by rw [hlast, Array.length_toList])

example : lay #[.leaf ⟨"old"⟩]
      (.node (.singleton ⟨"paid"⟩) (.leaf ⟨"approve"⟩) (.leaf ⟨"refuse"⟩)) =
    (#[.leaf ⟨"old"⟩, .leaf ⟨"approve"⟩, .leaf ⟨"refuse"⟩, .node (.singleton ⟨"paid"⟩) 1 2], 3) :=
  rfl

end Binary

open Binary in
/-- Trees are laid in post-order, and those that can be stored pass the check. -/
theorem Tree.laid_canonically :
    (∀ (entries : Array Entry) (b : Branch), LaidBehind entries b (lay entries b)) ∧
      ∀ t : Tree, (Arena.ofTree t).check = .ok () ↔ t.Storable :=
  ⟨laidBehind_lay, fun _ => Arena.check_ofTree_iff⟩

end Verdict
