import Verdict.Proofs.Placing
import Verdict.Proofs.PostOrder

set_option autoImplicit false

namespace Verdict

namespace Binary

namespace Arena

structure Rebuilt (a : Arena) (t : Tree) : Prop where
  root : Unfolds a.entries a.root t.root
  conditions : t.conditions = a.conditions
  outcomes : t.outcomes = a.outcomes
  nodes : t.root.nodeCount = a.nodes
  leaves : t.root.leafCount = a.leaves

structure Refused (a : Arena) (fault : ArenaFault) : Prop where
  noRoot : fault ≠ .noRoot
  taken : ∀ i, fault = .taken i → ∃ j k, j ≠ k ∧ Names a.entries j i ∧ Names a.entries k i
  unreachable : ∀ i, fault = .unreachable i →
    i + 1 < a.entries.length ∧ ∀ j, ¬ Names a.entries j i

/-- A place is asked for, as the match side or the fail side of the entry that is placed next. -/
inductive Asked (entries : List Entry) : Slots → Nat → Prop where
  | onMatch {before after : List Entry} {want : Conditions} {i j : Nat} {slots : Slots}
      (h : entries = before ++ .node want i j :: after)
      (hp : placeAll #[] before = .ok slots) : Asked entries slots i
  | onFail {before after : List Entry} {want : Conditions} {i j : Nat} {slots middle : Slots}
      {m : Branch} (h : entries = before ++ .node want i j :: after)
      (hp : placeAll #[] before = .ok slots) (hm : take slots i = .ok (m, middle)) :
      Asked entries middle j

theorem Asked.lt_size {entries : List Entry} {slots : Slots} {i : Nat} (h : Ordered entries)
    (ha : Asked entries slots i) : i < slots.size := by
  cases ha with
  | onMatch he hp =>
    subst he
    rw [(stocked_placeAll h.left hp).size]
    exact h.last.1 i (by simp [Entry.sides])
  | onFail he hp hm =>
    subst he
    obtain ⟨_, rfl⟩ := take_eq_ok_iff.1 hm
    rw [Array.size_setIfInBounds, (stocked_placeAll h.left hp).size]
    exact h.last.1 i (by simp [Entry.sides])

theorem exists_rebuild_iff {es : List Entry} (h : Ordered es) (hne : es ≠ []) :
    (∃ root, rebuild es = .ok root) ↔ ∀ i, i + 1 < es.length → ∃! j, Names es j i := by
  rw [existsUnique_names_iff h, ← exists_placeAll_iff h]
  simp only [rebuild_eq_ok_iff]
  constructor
  · rintro ⟨root, slots, hp, hr⟩
    obtain ⟨before, b, rfl, hsize, _, hbefore⟩ := (stocked_placeAll h hp).exists_last h hne
    obtain ⟨hempty, _⟩ := rootOf_push_eq_ok_iff.1 hr
    exact ⟨⟨_, hp⟩, fun i hi => (hbefore i (by omega)).1 (hempty i (by omega))⟩
  · rintro ⟨⟨slots, hp⟩, hall⟩
    obtain ⟨before, b, rfl, hsize, _, hbefore⟩ := (stocked_placeAll h hp).exists_last h hne
    exact ⟨b, _, hp, rootOf_push_eq_ok_iff.2
      ⟨fun i hi => (hbefore i hi).2 (hall i (by omega)), rfl⟩⟩

theorem unfolds_rebuild {es : List Entry} {root : Branch} (h : Ordered es) (hne : es ≠ [])
    (hr : rebuild es = .ok root) :
    Unfolds es (es.length - 1) root ∧ root.nodeCount = es.countP Entry.isNode ∧
      root.leafCount = es.countP fun e => !e.isNode := by
  obtain ⟨slots, hp, hroot⟩ := rebuild_eq_ok_iff.1 hr
  have hstocked := stocked_placeAll h hp
  obtain ⟨before, b, rfl, _, hunfolds, _⟩ := hstocked.exists_last h hne
  obtain ⟨hempty, rfl⟩ := rootOf_push_eq_ok_iff.1 hroot
  exact ⟨hunfolds, (total_of_emptied hempty _ _).symm.trans hstocked.nodes,
    (total_of_emptied hempty _ _).symm.trans hstocked.leaves⟩

/-- A side that was named before is named by two nodes. -/
theorem exists_names_ne {before after : List Entry} {e : Entry} {i : Nat} (hi : i ∈ e.sides)
    (hb : i ∈ named before) :
    ∃ j k, j ≠ k ∧ Names (before ++ e :: after) j i ∧ Names (before ++ e :: after) k i := by
  obtain ⟨j, d, hj, hd⟩ := mem_named.1 hb
  have hlt := (List.getElem?_eq_some_iff.1 hj).1
  refine ⟨j, before.length, by omega, ⟨d, ?_, hd⟩, ⟨e, by simp, hi⟩⟩
  rw [List.getElem?_append_left hlt, hj]

theorem rebuild_eq_error {es : List Entry} {fault : ArenaFault} (h : Ordered es) (hne : es ≠ [])
    (hr : rebuild es = .error fault) :
    (∃ i, fault = .taken i ∧ ∃ j k, j ≠ k ∧ Names es j i ∧ Names es k i) ∨
      ∃ i, fault = .unreachable i ∧ i + 1 < es.length ∧ ∀ j, ¬ Names es j i := by
  rw [rebuild] at hr
  split at hr
  · next hp =>
    obtain rfl := Except.error.inj hr
    obtain ⟨before, e, after, next, rfl, hb, he⟩ := placeAll_eq_error hp
    have hlast := h.last
    obtain ⟨i, hi, hnamed, hfault⟩ :=
      (stocked_placeAll h.left hb).place_eq_error hlast.1 hlast.2 he
    exact Or.inl ⟨i, hfault, exists_names_ne hi hnamed⟩
  · next slots hp =>
    obtain ⟨before, b, rfl, hsize, _, hbefore⟩ := (stocked_placeAll h hp).exists_last h hne
    obtain ⟨i, hi, hsome, hfault⟩ := rootOf_push_eq_error hr
    refine Or.inr ⟨i, hfault, by omega, fun j hj => hsome ((hbefore i hi).2 ?_)⟩
    exact mem_named.2 ⟨j, hj⟩

def ofRebuild : ArenaFault → Bool
  | .taken _ => true
  | .noRoot => true
  | .unreachable _ => true
  | _ => false

theorem ofRebuild_checkEntry {index : Nat} {e : Entry} {fault : ArenaFault}
    (h : checkEntry index e = .error fault) : ofRebuild fault = false := by
  cases e with
  | leaf outcome =>
    rw [checkEntry] at h
    split at h <;> cases h
    rfl
  | node want m f =>
    simp only [checkEntry] at h
    repeat' split at h
    all_goals cases h
    all_goals rfl

theorem ofRebuild_checkFrom {index : Nat} {es : List Entry} {fault : ArenaFault}
    (h : checkFrom index es = .error fault) : ofRebuild fault = false := by
  induction es generalizing index with
  | nil => cases h
  | cons e es ih =>
    rw [checkFrom] at h
    split at h
    · next he =>
      obtain rfl := Except.error.inj h
      exact ofRebuild_checkEntry he
    · exact ih h

theorem ofRebuild_check {a : Arena} {fault : ArenaFault} (h : a.check = .error fault) :
    ofRebuild fault = false := by
  simp only [check] at h
  repeat' split at h
  all_goals first
    | exact ofRebuild_checkFrom h
    | (cases h; rfl)

theorem ordered_of_check {a : Arena} (h : a.check = .ok ()) : Ordered a.entries :=
  (checkFrom_zero_eq_ok_iff.1 (check_eq_ok_iff.1 h).2.2.2.2.2).2

theorem ne_nil_of_check {a : Arena} (h : a.check = .ok ()) : a.entries ≠ [] := by
  have hroot := (check_eq_ok_iff.1 h).2.2.2.2.1
  exact List.length_pos_iff.1 (by omega)

theorem refused_of_toTree {a : Arena} {fault : ArenaFault} (h : a.toTree = .error fault) :
    a.Refused fault := by
  rw [toTree] at h
  split at h
  · next hc =>
    obtain rfl := Except.error.inj h
    have hcheck := ofRebuild_check hc
    refine ⟨?_, ?_, ?_⟩
    · rintro rfl
      cases hcheck
    · rintro i rfl
      cases hcheck
    · rintro i rfl
      cases hcheck
  · next hc =>
    split at h
    · next hr =>
      obtain rfl := Except.error.inj h
      rcases rebuild_eq_error (ordered_of_check hc) (ne_nil_of_check hc) hr with
        ⟨i, rfl, htwo⟩ | ⟨i, rfl, hnone⟩
      · refine ⟨by simp, fun k hk => ?_, by simp⟩
        cases hk
        exact htwo
      · refine ⟨by simp, by simp, fun k hk => ?_⟩
        cases hk
        exact hnone
    · cases h

theorem countP_leaf (es : List Entry) :
    es.countP (fun e => !e.isNode) = es.length - es.countP Entry.isNode := by
  have h := List.length_eq_countP_add_countP Entry.isNode (l := es)
  simp only [Bool.not_eq_true, Bool.decide_eq_false] at h
  omega

theorem exists_toTree_iff {a : Arena} : (∃ t, a.toTree = .ok t) ↔ a.IsTree := by
  simp only [toTree_eq_ok_iff]
  constructor
  · rintro ⟨t, hc, root, hr, rfl⟩
    have hne := ne_nil_of_check hc
    obtain ⟨hn, hl, hcs, hos, hroot, he⟩ := check_eq_ok_iff.1 hc
    obtain ⟨hproper, hordered⟩ := checkFrom_zero_eq_ok_iff.1 he
    exact ⟨hn, by rw [countP_leaf, hl, hn], hcs, hos, ⟨hne, by omega⟩, hproper, hordered,
      (exists_rebuild_iff hordered hne).1 ⟨root, hr⟩⟩
  · rintro ⟨hn, hl, hcs, hos, ⟨hne, hroot⟩, hproper, hordered, hsides⟩
    obtain ⟨root, hr⟩ := (exists_rebuild_iff hordered hne).2 hsides
    have hpos := List.length_pos_iff.2 hne
    refine ⟨_, check_eq_ok_iff.2 ⟨hn, ?_, hcs, hos, by omega, ?_⟩, root, hr, rfl⟩
    · rw [hl, countP_leaf, hn]
    · exact checkFrom_zero_eq_ok_iff.2 ⟨hproper, hordered⟩

theorem rebuilt_of_toTree {a : Arena} {t : Tree} (h : a.toTree = .ok t) : a.Rebuilt t := by
  have htree := exists_toTree_iff.1 ⟨t, h⟩
  obtain ⟨_, root, hr, rfl⟩ := toTree_eq_ok_iff.1 h
  obtain ⟨hunfolds, hnodes, hleaves⟩ := unfolds_rebuild htree.ordered htree.root.1 hr
  exact ⟨htree.root.2 ▸ hunfolds, rfl, rfl, hnodes.trans htree.nodes.symm,
    hleaves.trans htree.leaves.symm⟩

end Arena

end Binary

open Binary in
theorem Tree.ofBytes_eq_error_iff {bytes : List UInt8} {p : Payload}
    (hp : openPayload bytes = .ok p) {fault : Fault} :
    Tree.ofBytes bytes = .error fault ↔
      ∃ why, p.arena.toTree = .error why ∧ fault = .arena why := by
  rw [Tree.ofBytes, hp]
  cases h : p.arena.toTree <;> simp [h, eq_comm]

open Binary in
theorem Tree.read_exactly_trees :
    (∀ a : Arena, ((∃ t, a.toTree = .ok t) ↔ a.IsTree) ∧ (∀ t, a.toTree = .ok t → a.Rebuilt t) ∧
      (∀ fault, a.toTree = .error fault → a.Refused fault) ∧
      ∀ slots i, a.check = .ok () → Arena.Asked a.entries slots i → i < slots.size) ∧
    (∀ bytes p, openPayload bytes = .ok p → ∀ fault, Tree.ofBytes bytes = .error fault ↔
      ∃ why, p.arena.toTree = .error why ∧ fault = .arena why) ∧
    ∀ bytes t, Tree.ofBytes bytes = .ok t → t.Storable ∧
      ∀ want m f, .node want m f ∈ t.root.preorder → want.members.Nodup := by
  refine ⟨fun a => ⟨Arena.exists_toTree_iff, fun t => Arena.rebuilt_of_toTree,
    fun fault => Arena.refused_of_toTree,
    fun slots i hc ha => ha.lt_size (Arena.ordered_of_check hc)⟩, ?_, ?_⟩
  · intro bytes p hp fault
    exact Tree.ofBytes_eq_error_iff hp
  · intro bytes t ht
    exact ⟨Tree.storable_of_ofBytes ht, fun want _ _ _ => want.nodup⟩

def Binary.Arena.shared : Binary.Arena :=
  ⟨[.leaf ⟨"X"⟩, .leaf ⟨"Y"⟩, .node (.singleton ⟨"A"⟩) 0 1, .node (.singleton ⟨"B"⟩) 0 2],
    3, [], [], 2, 2, 0⟩

theorem Tree.read_exactly_trees_shared :
    Binary.Arena.shared.toTree = .error (.taken 0) ∧
      Binary.Arena.shared.Refused (.taken 0) ∧ ¬ Binary.Arena.shared.IsTree ∧
      (Binary.Arena.ofTree (Spec.orders.tree true)).IsTree := by
  have hfault : Binary.Arena.shared.toTree = .error (.taken 0) := by decide +kernel
  have hok : (Binary.Arena.ofTree (Spec.orders.tree true)).toTree =
      .ok (Spec.orders.tree true) := by decide +kernel
  obtain ⟨hiff, _, hrefused, _⟩ := Tree.read_exactly_trees.1 Binary.Arena.shared
  refine ⟨hfault, hrefused _ hfault, fun htree => ?_,
    (Tree.read_exactly_trees.1 _).1.1 ⟨_, hok⟩⟩
  obtain ⟨t, ht⟩ := hiff.2 htree
  rw [hfault] at ht
  cases ht

end Verdict
