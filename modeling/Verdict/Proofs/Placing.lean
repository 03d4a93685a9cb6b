import Mathlib.Algebra.GroupWithZero.Nat
import Mathlib.Data.List.Induction
import Verdict.Proofs.Unfolding

set_option autoImplicit false

namespace Verdict

namespace Binary

namespace Arena

theorem take_eq_ok_iff {slots slots' : Slots} {i : Nat} {b : Branch} :
    take slots i = .ok (b, slots') ↔
      slots[i]? = some (some b) ∧ slots' = slots.setIfInBounds i none := by
  unfold take
  split
  · next c hc =>
    rw [hc, Except.ok.injEq, Prod.mk.injEq, Option.some.injEq, Option.some.injEq]
    exact and_congr_right fun _ => eq_comm
  · next hno =>
    constructor
    · intro h
      cases h
    · rintro ⟨hb, _⟩
      exact absurd hb (hno b)

theorem take_eq_error {slots : Slots} {i : Nat} {fault : ArenaFault}
    (h : take slots i = .error fault) : fault = .taken i ∧ ∀ b, slots[i]? ≠ some (some b) := by
  unfold take at h
  split at h
  · cases h
  · next hno => exact ⟨(Except.error.inj h).symm, hno⟩

theorem getElem?_setIfInBounds_none {slots : Slots} {i : Nat} (hi : i < slots.size) (k : Nat) :
    (slots.setIfInBounds i none)[k]? = if k = i then some none else slots[k]? := by
  rw [Array.getElem?_setIfInBounds]
  by_cases hk : k = i
  · rw [hk, if_pos rfl, if_pos hi, if_pos rfl]
  · rw [if_neg (Ne.symm hk), if_neg hk]

theorem take_take_eq_ok_iff {slots last : Slots} {i j : Nat} {m f : Branch} (hi : i < slots.size) :
    (∃ middle, take slots i = .ok (m, middle) ∧ take middle j = .ok (f, last)) ↔
      i ≠ j ∧ slots[i]? = some (some m) ∧ slots[j]? = some (some f) ∧
        last = (slots.setIfInBounds i none).setIfInBounds j none := by
  simp only [take_eq_ok_iff]
  constructor
  · rintro ⟨_, ⟨hm, rfl⟩, hf, hlast⟩
    rw [getElem?_setIfInBounds_none hi] at hf
    split at hf
    · cases hf
    · next hne => exact ⟨Ne.symm hne, hm, hf, hlast⟩
  · rintro ⟨hne, hm, hf, hlast⟩
    refine ⟨_, ⟨hm, rfl⟩, ?_, hlast⟩
    rw [getElem?_setIfInBounds_none hi, if_neg (Ne.symm hne), hf]

theorem size_take {slots slots' : Slots} {i : Nat} {b : Branch}
    (h : take slots i = .ok (b, slots')) : slots'.size = slots.size := by
  obtain ⟨_, rfl⟩ := take_eq_ok_iff.1 h
  exact Array.size_setIfInBounds

theorem getElem?_take_take {slots middle last : Slots} {i j : Nat} {m f : Branch}
    (hi : i < slots.size) (hj : j < slots.size) (hm : take slots i = .ok (m, middle))
    (hf : take middle j = .ok (f, last)) (k : Nat) :
    last[k]? = if k ∈ [i, j] then some none else slots[k]? := by
  have hjm : j < middle.size := size_take hm ▸ hj
  obtain ⟨_, rfl⟩ := take_eq_ok_iff.1 hf
  obtain ⟨_, rfl⟩ := take_eq_ok_iff.1 hm
  rw [getElem?_setIfInBounds_none hjm, getElem?_setIfInBounds_none hi]
  by_cases hki : k = i <;> simp [hki]

def present (slots : Slots) : List Branch := slots.toList.filterMap id

theorem perm_filterMap_set {l : List (Option Branch)} {i : Nat} {b : Branch}
    (h : l[i]? = some (some b)) :
    (l.filterMap id).Perm (b :: (l.set i none).filterMap id) := by
  induction l generalizing i with
  | nil => simp at h
  | cons x l ih =>
    cases i with
    | zero =>
      obtain rfl : x = some b := by simpa using h
      simp
    | succ i =>
      have hp := ih (by simpa using h)
      cases x with
      | none => simpa using hp
      | some c => simpa using (hp.cons c).trans (List.Perm.swap b c _)

theorem perm_present_take {slots slots' : Slots} {i : Nat} {b : Branch}
    (h : take slots i = .ok (b, slots')) : (present slots).Perm (b :: present slots') := by
  obtain ⟨hb, rfl⟩ := take_eq_ok_iff.1 h
  rw [present, present, Array.toList_setIfInBounds]
  exact perm_filterMap_set (by simpa using hb)

theorem present_push (slots : Slots) (b : Branch) :
    present (slots.push (some b)) = present slots ++ [b] := by
  simp [present]

def total (measure : Branch → Nat) (slots : Slots) : Nat := ((present slots).map measure).sum

theorem total_take {slots slots' : Slots} {i : Nat} {b : Branch}
    (h : take slots i = .ok (b, slots')) (measure : Branch → Nat) :
    total measure slots = measure b + total measure slots' :=
  ((perm_present_take h).map measure).sum_nat

theorem total_push (measure : Branch → Nat) (slots : Slots) (b : Branch) :
    total measure (slots.push (some b)) = total measure slots + measure b := by
  simp [total, present_push]

structure Stocked (es : List Entry) (slots : Slots) : Prop where
  size : slots.size = es.length
  empty : ∀ i, slots[i]? = some none ↔ i ∈ named es
  unfolds : ∀ i b, slots[i]? = some (some b) → Unfolds es i b
  nodes : total Branch.nodeCount slots = es.countP Entry.isNode
  leaves : total Branch.leafCount slots = es.countP fun e => !e.isNode

theorem Stocked.nil : Stocked [] #[] :=
  ⟨rfl, by simp [named], by simp, rfl, rfl⟩

namespace Stocked

variable {es : List Entry} {slots slots' : Slots} {e : Entry}

theorem exists_tree (h : Stocked es slots) {i : Nat} (hi : i < es.length) (hn : i ∉ named es) :
    ∃ b, slots[i]? = some (some b) := by
  have hlt : i < slots.size := h.size ▸ hi
  cases hb : slots[i] with
  | none => exact absurd ((h.empty i).1 (by rw [Array.getElem?_eq_getElem hlt, hb])) hn
  | some b => exact ⟨b, by rw [Array.getElem?_eq_getElem hlt, hb]⟩

theorem push_leaf (h : Stocked es slots) (outcome : Outcome) :
    Stocked (es ++ [.leaf outcome]) (slots.push (some (.leaf outcome))) := by
  have hsize := h.size
  refine ⟨by simp [hsize], fun i => ?_, fun i b hb => ?_, ?_, ?_⟩
  · rw [named_append_singleton, Entry.sides, List.append_nil, ← h.empty i, Array.getElem?_push]
    split
    · next hi => simp [hi]
    · rfl
  · rw [Array.getElem?_push] at hb
    split at hb
    · next hi =>
      obtain rfl := Option.some.inj (Option.some.inj hb)
      exact .leaf (by simp [hi, hsize])
    · exact (h.unfolds i b hb).append _
  · simp [total_push, h.nodes, Entry.isNode, Branch.nodeCount, Branch.descendants_eq_preorder,
      Branch.preorder, Branch.isLeaf]
  · simp [total_push, h.leaves, Entry.isNode, Branch.leafCount, Branch.descendants_eq_preorder,
      Branch.preorder, Branch.isLeaf]

theorem push_node (h : Stocked es slots) {want : Conditions} {i j : Nat} {m f : Branch}
    {middle last : Slots} (hi : i < es.length) (hj : j < es.length)
    (hm : take slots i = .ok (m, middle)) (hf : take middle j = .ok (f, last)) :
    Stocked (es ++ [.node want i j]) (last.push (some (.node want m f))) := by
  have hsize := h.size
  have hislots : i < slots.size := hsize ▸ hi
  have hjslots : j < slots.size := hsize ▸ hj
  have hlast : last.size = slots.size := (size_take hf).trans (size_take hm)
  have hget := getElem?_take_take hislots hjslots hm hf
  obtain ⟨_, hmi, hfj, _⟩ := (take_take_eq_ok_iff hislots).1 ⟨middle, hm, hf⟩
  refine ⟨by simp [hlast, hsize], fun k => ?_, fun k b hb => ?_, ?_, ?_⟩
  · rw [named_append_singleton, Entry.sides, List.mem_append, ← h.empty k, Array.getElem?_push,
      hget, hlast]
    by_cases hk : k = slots.size
    · have hnone : k ∉ [i, j] := fun hmem => by
        rcases List.mem_pair.1 hmem with rfl | rfl <;> omega
      simp [hk, hk ▸ hnone]
    · rw [if_neg hk]
      by_cases hmem : k ∈ [i, j]
      · simp [hmem]
      · rw [if_neg hmem, or_iff_left hmem]
  · rw [Array.getElem?_push, hget, hlast] at hb
    split at hb
    · next hk =>
      obtain rfl := Option.some.inj (Option.some.inj hb)
      exact .node (by simp [hk, hsize]) ((h.unfolds i m hmi).append _)
        ((h.unfolds j f hfj).append _)
    · split at hb
      · cases hb
      · exact (h.unfolds k b hb).append _
  · have hnodes : total Branch.nodeCount slots =
        m.nodeCount + (f.nodeCount + total Branch.nodeCount last) := by
      rw [total_take hm, total_take hf]
    simp only [total_push, Branch.nodeCount_node, List.countP_append, ← h.nodes, hnodes]
    simp [Entry.isNode]
    omega
  · have hleaves : total Branch.leafCount slots =
        m.leafCount + (f.leafCount + total Branch.leafCount last) := by
      rw [total_take hm, total_take hf]
    simp only [total_push, Branch.leafCount_node, List.countP_append, ← h.leaves, hleaves]
    simp [Entry.isNode]
    omega

theorem place (h : Stocked es slots) (hs : ∀ s ∈ e.sides, s < es.length)
    (hp : Arena.place slots e = .ok slots') : Stocked (es ++ [e]) slots' := by
  cases e with
  | leaf outcome =>
    rw [Arena.place] at hp
    obtain rfl := Except.ok.inj hp
    exact h.push_leaf outcome
  | node want i j =>
    obtain ⟨m, middle, f, last, hm, hf, rfl⟩ := place_node_eq_ok_iff.1 hp
    exact h.push_node (hs i (by simp [Entry.sides])) (hs j (by simp [Entry.sides])) hm hf

theorem not_named_of_tree (h : Stocked es slots) {i : Nat} {b : Branch}
    (hb : slots[i]? = some (some b)) : i ∉ named es := by
  intro hi
  rw [(h.empty i).2 hi] at hb
  cases hb

theorem exists_place_iff (h : Stocked es slots) (hs : ∀ s ∈ e.sides, s < es.length)
    (hd : e.sides.Nodup) :
    (∃ slots', Arena.place slots e = .ok slots') ↔ ∀ s ∈ e.sides, s ∉ named es := by
  cases e with
  | leaf outcome =>
    exact ⟨fun _ s hs => absurd hs List.not_mem_nil, fun _ => ⟨_, rfl⟩⟩
  | node want i j =>
    have hi : i < es.length := hs i (by simp [Entry.sides])
    have hj : j < es.length := hs j (by simp [Entry.sides])
    have hislots : i < slots.size := h.size ▸ hi
    constructor
    · rintro ⟨slots', hp⟩ s hmem
      obtain ⟨m, middle, f, last, hm, hf, _⟩ := place_node_eq_ok_iff.1 hp
      obtain ⟨_, hmi, hfj, _⟩ := (take_take_eq_ok_iff hislots).1 ⟨middle, hm, hf⟩
      rcases List.mem_pair.1 hmem with rfl | rfl
      · exact h.not_named_of_tree hmi
      · exact h.not_named_of_tree hfj
    · intro hnone
      have hne : i ≠ j := by simpa [Entry.sides] using hd
      obtain ⟨m, hm⟩ := h.exists_tree hi (hnone i (by simp [Entry.sides]))
      obtain ⟨f, hf⟩ := h.exists_tree hj (hnone j (by simp [Entry.sides]))
      obtain ⟨middle, hm, hf⟩ := (take_take_eq_ok_iff hislots).2 ⟨hne, hm, hf, rfl⟩
      exact ⟨_, place_node_eq_ok_iff.2 ⟨m, middle, f, _, hm, hf, rfl⟩⟩

theorem place_eq_error (h : Stocked es slots) (hs : ∀ s ∈ e.sides, s < es.length)
    (hd : e.sides.Nodup) {fault : ArenaFault} (hp : Arena.place slots e = .error fault) :
    ∃ s ∈ e.sides, s ∈ named es ∧ fault = .taken s := by
  have hnamed : ∀ s ∈ e.sides, (∀ b, slots[s]? ≠ some (some b)) → s ∈ named es := by
    intro s hmem hno
    by_contra hn
    obtain ⟨b, hb⟩ := h.exists_tree (hs s hmem) hn
    exact hno b hb
  cases e with
  | leaf outcome => cases hp
  | node want i j =>
    have hi : i ∈ (Entry.node want i j).sides := by simp [Entry.sides]
    have hj : j ∈ (Entry.node want i j).sides := by simp [Entry.sides]
    have hne : i ≠ j := by simpa [Entry.sides] using hd
    rw [Arena.place] at hp
    split at hp
    · next hm =>
      obtain ⟨hfault, hno⟩ := take_eq_error hm
      exact ⟨i, hi, hnamed i hi hno, (Except.error.inj hp).symm.trans hfault⟩
    · next m middle hm =>
      split at hp
      · next hf =>
        obtain ⟨hfault, hno⟩ := take_eq_error hf
        refine ⟨j, hj, hnamed j hj fun b hb => ?_, (Except.error.inj hp).symm.trans hfault⟩
        obtain ⟨_, rfl⟩ := take_eq_ok_iff.1 hm
        rw [getElem?_setIfInBounds_none (h.size ▸ hs i hi), if_neg (Ne.symm hne)] at hno
        exact hno b hb
      · cases hp

end Stocked

theorem placeAll_append_singleton_eq_ok_iff {slots slots' : Slots} {es : List Entry} {e : Entry} :
    placeAll slots (es ++ [e]) = .ok slots' ↔
      ∃ next, placeAll slots es = .ok next ∧ place next e = .ok slots' := by
  induction es generalizing slots with
  | nil =>
    rw [List.nil_append, placeAll_cons_eq_ok_iff]
    simp only [placeAll, Except.ok.injEq, exists_eq_left', exists_eq_right]
  | cons first es ih =>
    simp only [List.cons_append, placeAll_cons_eq_ok_iff, ih]
    constructor
    · rintro ⟨next, hf, last, hl, he⟩
      exact ⟨last, ⟨next, hf, hl⟩, he⟩
    · rintro ⟨last, ⟨next, hf, hl⟩, he⟩
      exact ⟨next, hf, last, hl, he⟩

theorem placeAll_eq_error {slots : Slots} {es : List Entry} {fault : ArenaFault}
    (h : placeAll slots es = .error fault) :
    ∃ before e after next, es = before ++ e :: after ∧ placeAll slots before = .ok next ∧
      place next e = .error fault := by
  induction es generalizing slots with
  | nil => cases h
  | cons first es ih =>
    rw [placeAll] at h
    split at h
    · next hf =>
      obtain rfl := Except.error.inj h
      exact ⟨[], first, es, slots, rfl, rfl, hf⟩
    · next next hf =>
      obtain ⟨before, e, after, last, rfl, hl, he⟩ := ih h
      exact ⟨first :: before, e, after, last, rfl, placeAll_cons_eq_ok_iff.2 ⟨next, hf, hl⟩, he⟩

theorem stocked_placeAll {es : List Entry} (h : Ordered es) {slots : Slots}
    (hp : placeAll #[] es = .ok slots) : Stocked es slots := by
  -- From the end, since the places after some entries are those of these entries alone.
  induction es using List.reverseRecOn generalizing slots with
  | nil =>
    obtain rfl := Except.ok.inj hp
    exact .nil
  | append_singleton es e ih =>
    obtain ⟨next, hn, he⟩ := placeAll_append_singleton_eq_ok_iff.1 hp
    exact (ih h.left hn).place h.last.1 he

theorem exists_placeAll_iff {es : List Entry} (h : Ordered es) :
    (∃ slots, placeAll #[] es = .ok slots) ↔ (named es).Nodup := by
  induction es using List.reverseRecOn with
  | nil => simp [placeAll, named]
  | append_singleton es e ih =>
    have hlast := h.last
    rw [named_append_singleton, List.nodup_append', ← ih h.left]
    simp only [placeAll_append_singleton_eq_ok_iff]
    constructor
    · rintro ⟨slots', next, hn, he⟩
      have hnone := ((stocked_placeAll h.left hn).exists_place_iff hlast.1 hlast.2).1 ⟨slots', he⟩
      exact ⟨⟨next, hn⟩, hlast.2, fun s hs hse => hnone s hse hs⟩
    · rintro ⟨⟨next, hn⟩, _, hdisjoint⟩
      obtain ⟨slots', he⟩ := ((stocked_placeAll h.left hn).exists_place_iff hlast.1 hlast.2).2
        fun s hse hs => hdisjoint hs hse
      exact ⟨slots', next, hn, he⟩

theorem Stocked.exists_last {es : List Entry} {slots : Slots} (h : Stocked es slots)
    (hord : Ordered es) (hne : es ≠ []) :
    ∃ (before : Slots) (b : Branch), slots = before.push (some b) ∧ before.size + 1 = es.length ∧
      Unfolds es (es.length - 1) b ∧
      ∀ i, i < before.size → (before[i]? = some none ↔ i ∈ named es) := by
  have hpos : 0 < slots.size := h.size ▸ List.length_pos_iff.2 hne
  obtain ⟨before, last, rfl⟩ := Array.exists_push_of_size_pos hpos
  have hsize : before.size + 1 = es.length := by simpa using h.size
  have hlast : before.size ∉ named es := by
    intro hn
    obtain ⟨j, hj⟩ := mem_named.1 hn
    have := hord.lt_of_names hj
    omega
  obtain ⟨b, hb⟩ := h.exists_tree (by omega) hlast
  obtain rfl : last = some b := by simpa using hb
  refine ⟨before, b, rfl, hsize, ?_, fun i hi => ?_⟩
  · rw [← hsize, Nat.add_sub_cancel]
    exact h.unfolds _ b hb
  · rw [← h.empty i, Array.getElem?_push, if_neg (Nat.ne_of_lt hi)]

def Emptied (slots : Slots) : Prop := ∀ i, i < slots.size → slots[i]? = some none

theorem findIdx?_isSome_eq_none_iff {slots : Slots} :
    slots.findIdx? Option.isSome = none ↔ Emptied slots := by
  rw [Array.findIdx?_eq_none_iff]
  constructor
  · intro h i hi
    have hnone : slots[i] = none := by simpa using h slots[i] (Array.getElem_mem hi)
    rw [Array.getElem?_eq_getElem hi, hnone]
  · intro h x hx
    obtain ⟨i, hi, rfl⟩ := Array.mem_iff_getElem.1 hx
    have hnone : slots[i] = none := by simpa [hi] using h i hi
    rw [hnone]
    rfl

theorem rootOf_push_eq_ok_iff {before : Slots} {b root : Branch} :
    rootOf (before.push (some b)) = .ok root ↔ Emptied before ∧ root = b := by
  rw [← findIdx?_isSome_eq_none_iff, rootOf, Array.back?_push]
  simp only [Array.pop_push]
  cases before.findIdx? Option.isSome <;> simp [eq_comm]

theorem rootOf_push_eq_error {before : Slots} {b : Branch} {fault : ArenaFault}
    (h : rootOf (before.push (some b)) = .error fault) :
    ∃ i, i < before.size ∧ before[i]? ≠ some none ∧ fault = .unreachable i := by
  rw [rootOf, Array.back?_push] at h
  simp only [Array.pop_push] at h
  split at h
  · next i hi =>
    obtain ⟨hlt, hsome, _⟩ := Array.findIdx?_eq_some_iff_getElem.1 hi
    refine ⟨i, hlt, fun hnone => ?_, (Except.error.inj h).symm⟩
    rw [Array.getElem?_eq_getElem hlt, Option.some.injEq] at hnone
    rw [hnone] at hsome
    cases hsome
  · cases h

theorem total_of_emptied {before : Slots} (h : Emptied before) (measure : Branch → Nat)
    (b : Branch) : total measure (before.push (some b)) = measure b := by
  have hpresent : present before = [] := by
    rw [present, List.filterMap_eq_nil_iff]
    intro x hx
    obtain ⟨i, hi, rfl⟩ := List.mem_iff_getElem.1 hx
    have hlt : i < before.size := by simpa using hi
    have hnone := h i hlt
    rw [Array.getElem?_eq_getElem hlt, Option.some.injEq] at hnone
    simpa using hnone
  rw [total_push, total, hpresent]
  simp

end Arena

end Binary

end Verdict
