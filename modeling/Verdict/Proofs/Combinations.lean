import Mathlib.Algebra.Ring.Nat
import Mathlib.Data.List.Nodup
import Verdict.Proofs.Members

set_option autoImplicit false

namespace Verdict.Conditions

theorem length_selections (cs : List Condition) : (selections cs).length = 2 ^ cs.length := by
  induction cs with
  | nil => rfl
  | cons c cs ih => simp [selections, ih, Nat.pow_succ]; omega

theorem map_members_combinations (s : Conditions) :
    s.combinations.map members = selections s.members := by
  rw [combinations, List.map_pmap, List.pmap_eq_map, List.map_id']

theorem length_combinations (s : Conditions) : s.combinations.length = 2 ^ s.size := by
  rw [← List.length_map members, map_members_combinations, length_selections, size]

theorem mem_combinations {s t : Conditions} :
    t ∈ s.combinations ↔ t.members ∈ selections s.members := by
  rw [combinations, List.mem_pmap]
  constructor
  · rintro ⟨l, hl, rfl⟩
    exact hl
  · intro h
    exact ⟨t.members, h, rfl⟩

theorem nodup_selections {cs : List Condition} (h : cs.Nodup) : (selections cs).Nodup := by
  induction cs with
  | nil => simp [selections]
  | cons c cs ih =>
    obtain ⟨hc, hcs⟩ := List.nodup_cons.1 h
    refine (((ih hcs).map fun _ _ he => (List.cons.inj he).2)).append (ih hcs) ?_
    -- Only the selections of the first half hold the head.
    intro l hl hl'
    obtain ⟨m, _, rfl⟩ := List.mem_map.1 hl
    exact hc ((sublist_of_mem_selections hl').subset List.mem_cons_self)

theorem nodup_combinations (s : Conditions) : s.combinations.Nodup :=
  List.Nodup.of_map members (s.map_members_combinations ▸ nodup_selections s.nodup)

theorem filter_mem_selections (p : Condition → Bool) (cs : List Condition) :
    cs.filter p ∈ selections cs := by
  induction cs with
  | nil => simp [selections]
  | cons c cs ih => by_cases h : p c = true <;> simp [selections, h, ih]

theorem filter_mem_of_sublist {l cs : List Condition} (h : l.Sublist cs) (hcs : cs.Nodup) :
    cs.filter (· ∈ l) = l := by
  induction h with
  | slnil => rfl
  | @cons l cs c h ih =>
    obtain ⟨hc, hcs⟩ := List.nodup_cons.1 hcs
    have hl : c ∉ l := fun hm => hc (h.subset hm)
    simp [hl, ih hcs]
  | @cons_cons l cs c h ih =>
    obtain ⟨hc, hcs⟩ := List.nodup_cons.1 hcs
    have hsame : ∀ d ∈ cs, decide (d ∈ c :: l) = decide (d ∈ l) := by
      intro d hd
      have hne : d ≠ c := fun he => hc (he ▸ hd)
      simp [hne]
    rw [List.filter_cons_of_pos (by simp), List.filter_congr hsame, ih hcs]

theorem sublist_of_place {s t : Conditions} {k : Nat} (h : s.combinations[k]? = some t) :
    t.members.Sublist s.members :=
  sublist_of_mem_selections (mem_combinations.1 (List.mem_of_getElem? h))

theorem exists_combination (s query : Conditions) :
    ∃ (k : Nat) (u : Conditions), s.combinations[k]? = some u ∧ ∀ c ∈ s, c ∈ u ↔ c ∈ query := by
  have hmem : (⟨s.members.filter (· ∈ query), s.nodup.filter _⟩ : Conditions) ∈ s.combinations :=
    mem_combinations.2 (filter_mem_selections _ _)
  obtain ⟨k, hk⟩ := List.mem_iff_getElem?.1 hmem
  refine ⟨k, _, hk, fun c hc => ?_⟩
  rw [mem_iff, List.mem_filter, decide_eq_true_iff]
  exact and_iff_right hc

theorem combination_unique {s u v : Conditions} {i j : Nat} (hi : s.combinations[i]? = some u)
    (hj : s.combinations[j]? = some v) (h : ∀ c ∈ s, c ∈ u ↔ c ∈ v) : i = j := by
  have hsame : u = v := by
    apply ext
    rw [← filter_mem_of_sublist (sublist_of_place hi) s.nodup,
      ← filter_mem_of_sublist (sublist_of_place hj) s.nodup]
    exact List.filter_congr fun c hc => decide_eq_decide.2 (h c hc)
  obtain ⟨hlt, _⟩ := List.getElem?_eq_some_iff.1 hi
  exact (List.getElem?_inj hlt s.nodup_combinations).1 (hi.trans (hsame ▸ hj.symm))

theorem getElem?_combinations_iff {s t : Conditions} {k : Nat} :
    s.combinations[k]? = some t ↔ (selections s.members)[k]? = some t.members := by
  rw [← map_members_combinations, List.getElem?_map, Option.map_eq_some_iff]
  constructor
  · intro h
    exact ⟨t, h, rfl⟩
  · rintro ⟨u, hu, hmembers⟩
    rw [hu, ext hmembers]

/-- The members that the binary digits of a number leave in a list. The lowest digit stands for the
last member, and a one leaves its member out. -/
def pick (number : Nat) : List Condition → List Condition
  | [] => []
  | c :: cs => if number.testBit cs.length then pick number cs else c :: pick number cs

theorem pick_congr {m n : Nat} {cs : List Condition}
    (h : ∀ i < cs.length, m.testBit i = n.testBit i) : pick m cs = pick n cs := by
  induction cs with
  | nil => rfl
  | cons c cs ih =>
    rw [List.length_cons] at h
    rw [pick, pick, h cs.length (by omega), ih fun i hi => h i (by omega)]

/-- The selections with the head stand at the places without a one in the digit of the head. -/
theorem getElem?_selections {cs : List Condition} {k : Nat} (hk : k < 2 ^ cs.length) :
    (selections cs)[k]? = some (pick k cs) := by
  induction cs generalizing k with
  | nil =>
    obtain rfl : k = 0 := by simpa using hk
    rfl
  | cons c cs ih =>
    have hhalf : ((selections cs).map (c :: ·)).length = 2 ^ cs.length := by
      rw [List.length_map, length_selections]
    rw [selections, pick]
    by_cases hlow : k < 2 ^ cs.length
    · rw [List.getElem?_append_left (by rw [hhalf]; exact hlow), List.getElem?_map, ih hlow,
        Nat.testBit_lt_two_pow hlow]
      rfl
    · obtain ⟨r, rfl⟩ := Nat.exists_eq_add_of_le (Nat.not_lt.1 hlow)
      have hr : r < 2 ^ cs.length := by
        rw [List.length_cons, Nat.pow_succ] at hk
        omega
      have hbit : (2 ^ cs.length + r).testBit cs.length = true := by
        rw [Nat.testBit_two_pow_add_eq, Nat.testBit_lt_two_pow hr, Bool.not_false]
      rw [List.getElem?_append_right (by rw [hhalf]; exact Nat.le_add_right _ _), hhalf,
        Nat.add_sub_cancel_left, ih hr, hbit, if_pos rfl]
      exact congrArg some (pick_congr fun i hi => (Nat.testBit_two_pow_add_gt hi r).symm)

theorem pick_subset (k : Nat) (cs : List Condition) : pick k cs ⊆ cs := by
  induction cs with
  | nil => exact List.Subset.refl _
  | cons c cs ih =>
    rw [pick]
    split
    · exact List.subset_cons_of_subset c ih
    · exact List.cons_subset_cons c ih

theorem mem_pick_iff {cs : List Condition} (hcs : cs.Nodup) {k j : Nat} {c : Condition}
    (hc : cs[j]? = some c) : c ∈ pick k cs ↔ k.testBit (cs.length - 1 - j) = false := by
  induction cs generalizing j with
  | nil => cases hc
  | cons d cs ih =>
    obtain ⟨hd, hcs⟩ := List.nodup_cons.1 hcs
    rw [pick, List.length_cons]
    cases j with
    | zero =>
      obtain rfl : d = c := by simpa using hc
      have hout : d ∉ pick k cs := fun h => hd (pick_subset k cs h)
      cases hbit : k.testBit cs.length <;> simp [hbit, hout]
    | succ j =>
      rw [List.getElem?_cons_succ] at hc
      have hne : c ≠ d := fun he => hd (he ▸ List.mem_of_getElem? hc)
      have hplace : cs.length + 1 - 1 - (j + 1) = cs.length - 1 - j := by omega
      rw [hplace, ← ih hcs hc]
      cases k.testBit cs.length <;> simp [hne]

theorem head?_selections (cs : List Condition) : (selections cs).head? = some cs := by
  induction cs with
  | nil => rfl
  | cons c cs ih => rw [selections, List.head?_append, List.head?_map, ih]; rfl

theorem getLast?_selections (cs : List Condition) : (selections cs).getLast? = some [] := by
  induction cs with
  | nil => rfl
  | cons c cs ih => rw [selections, List.getLast?_append, ih]; rfl

theorem existsUnique_place {s t : Conditions} (h : s.includes t = true) :
    ∃! k : Nat, ∃ u : Conditions, s.combinations[k]? = some u ∧ u.equiv t = true := by
  have hsub := includes_iff.1 h
  obtain ⟨k, u, hk, hu⟩ := exists_combination s t
  refine ⟨k, ⟨u, hk, equiv_iff.2 fun c => ?_⟩, ?_⟩
  · constructor
    · intro hc
      exact (hu c ((sublist_of_place hk).subset hc)).1 hc
    · intro hc
      exact (hu c (hsub c hc)).2 hc
  · rintro i ⟨v, hi, hv⟩
    refine combination_unique hi hk fun c hc => ?_
    rw [equiv_iff.1 hv c, hu c hc]

/-- The enumeration step by step: what was chosen so far is extended by the next member, then not,
and is listed behind all that is listed already once no member is left. -/
def gather (chosen : List Condition) (listed : List (List Condition)) :
    List Condition → List (List Condition)
  | [] => listed ++ [chosen]
  | c :: cs => gather chosen (gather (chosen ++ [c]) listed cs) cs

theorem gather_eq (chosen : List Condition) (listed : List (List Condition))
    (cs : List Condition) :
    gather chosen listed cs = listed ++ (selections cs).map (chosen ++ ·) := by
  -- The inner step leaves more listed and has more chosen, so both are general in the induction.
  induction cs generalizing chosen listed with
  | nil => simp [gather, selections]
  | cons c cs ih => simp [gather, selections, ih]

/-- A set whose subsets are enumerated in full. There are as many as binary numbers with a digit for
each member. At each place the members keep their order, and the number of the place tells which
there are: the digit of a member, with the highest one for the first member, is zero. Every subset
has one place; the whole set has the first and the empty set the last. Going through the members
step by step gives the same list. -/
structure Enumerated (s : Conditions) : Prop where
  length : s.combinations.length = 2 ^ s.size
  places : ∀ k, k < 2 ^ s.size → ∃ t : Conditions, s.combinations[k]? = some t ∧
    t.members.Sublist s.members ∧
    ∀ j c, s.members[j]? = some c → (c ∈ t ↔ k.testBit (s.size - 1 - j) = false)
  once : ∀ t, s.includes t = true →
    ∃! k : Nat, ∃ u : Conditions, s.combinations[k]? = some u ∧ u.equiv t = true
  first : s.combinations.head? = some s
  last : s.combinations.getLast? = some empty
  gathered : s.combinations.map members = gather [] [] s.members

theorem power_set_enumerated (s : Conditions) : s.Enumerated where
  length := s.length_combinations
  places k hk := by
    obtain ⟨t, ht⟩ : ∃ t, s.combinations[k]? = some t :=
      ⟨_, List.getElem?_eq_getElem (by rwa [length_combinations])⟩
    have hpick : t.members = pick k s.members :=
      Option.some.inj ((getElem?_combinations_iff.1 ht).symm.trans (getElem?_selections hk))
    refine ⟨t, ht, sublist_of_place ht, fun j c hc => ?_⟩
    rw [mem_iff, hpick]
    exact mem_pick_iff s.nodup hc
  once _ h := existsUnique_place h
  first := by
    rw [List.head?_eq_getElem?, getElem?_combinations_iff, ← List.head?_eq_getElem?]
    exact head?_selections s.members
  last := by
    have hlength : s.combinations.length = (selections s.members).length := by
      rw [length_combinations, length_selections, size]
    rw [List.getLast?_eq_getElem?, getElem?_combinations_iff, hlength, ← List.getLast?_eq_getElem?]
    exact getLast?_selections s.members
  gathered := by
    rw [map_members_combinations, gather_eq]
    simp

example : (ofList [⟨"paid"⟩, ⟨"new"⟩]).combinations.map members =
    [[⟨"paid"⟩, ⟨"new"⟩], [⟨"paid"⟩], [⟨"new"⟩], []] := by decide

end Verdict.Conditions
