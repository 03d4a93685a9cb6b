import Mathlib.Data.List.Induction
import Mathlib.Data.List.Nodup
import Mathlib.Data.List.Perm.Subperm
import Verdict.Rule

set_option autoImplicit false

namespace Verdict

/-- Induction on what is left of a list without any copy of its head, as repeats are erased. -/
theorem firsts_induction {α : Type} [DecidableEq α] {motive : List α → Prop} (nil : motive [])
    (cons : ∀ a l, motive (l.filter fun x => !x == a) → motive (a :: l)) (l : List α) :
    motive l := by
  induction hn : l.length using Nat.strongRecOn generalizing l with
  | ind n ih =>
    cases l with
    | nil => exact nil
    | cons a l =>
      have hlen : (l.filter fun x => !x == a).length < n := by
        have := List.length_filter_le (fun x => !x == a) l
        simp only [List.length_cons] at hn
        omega
      exact cons a l (ih _ hlen _ rfl)

theorem eraseDups_of_nodup {α : Type} [DecidableEq α] {l : List α} (h : l.Nodup) :
    l.eraseDups = l := by
  induction l with
  | nil => rfl
  | cons a l ih =>
    obtain ⟨ha, hl⟩ := List.nodup_cons.1 h
    have hfilter : (l.filter fun x => !x == a) = l := by
      refine List.filter_eq_self.2 fun x hx => ?_
      have hne : x ≠ a := fun he => ha (he ▸ hx)
      simpa using hne
    rw [List.eraseDups_cons, hfilter, ih hl]

theorem nodup_eraseDups {α : Type} [DecidableEq α] (l : List α) : l.eraseDups.Nodup := by
  induction l using firsts_induction with
  | nil => exact List.nodup_nil
  | cons a l ih =>
    rw [List.eraseDups_cons]
    exact List.nodup_cons.2 ⟨by simp, ih⟩

theorem pairwise_eraseDups {α : Type} [DecidableEq α] (l : List α) :
    l.eraseDups.Pairwise fun x y => l.idxOf x < l.idxOf y := by
  induction l using List.reverseRecOn with
  | nil => exact List.Pairwise.nil
  | append_singleton l a ih =>
    have hold : l.eraseDups.Pairwise fun x y => (l ++ [a]).idxOf x < (l ++ [a]).idxOf y := by
      refine ih.imp_of_mem fun hx hy h => ?_
      rwa [List.idxOf_append_of_mem (List.mem_eraseDups.1 hx),
        List.idxOf_append_of_mem (List.mem_eraseDups.1 hy)]
    rw [List.eraseDups_append]
    by_cases ha : a ∈ l
    · simpa [List.removeAll, ha] using hold
    · have hnew : ([a].removeAll l).eraseDups = [a] := by
        simp [List.removeAll, List.eraseDups_cons, ha]
      rw [hnew]
      refine List.pairwise_append.2 ⟨hold, List.pairwise_singleton _ _, fun x hx y hy => ?_⟩
      obtain rfl := List.mem_singleton.1 hy
      have hx := List.mem_eraseDups.1 hx
      rw [List.idxOf_append_of_mem hx, List.idxOf_append_of_notMem ha]
      exact Nat.lt_of_lt_of_le (List.idxOf_lt_length_of_mem hx) (Nat.le_add_right _ _)

theorem eraseDups_filter {α : Type} [DecidableEq α] (p : α → Bool) (l : List α) :
    (l.filter p).eraseDups = l.eraseDups.filter p := by
  induction l using firsts_induction with
  | nil => rfl
  | cons a l ih =>
    by_cases hp : p a = true
    · rw [List.filter_cons_of_pos hp, List.eraseDups_cons, List.eraseDups_cons,
        List.filter_cons_of_pos hp, ← ih, List.filter_comm]
    · have hfilter : ((l.filter fun x => !x == a).filter p) = l.filter p := by
        rw [List.filter_filter]
        refine List.filter_congr fun x _ => ?_
        by_cases hx : x = a
        · simp [hx, hp]
        · simp [hx]
      rw [List.filter_cons_of_neg hp, List.eraseDups_cons, List.filter_cons_of_neg hp, ← ih,
        hfilter]

section

variable {α : Type} [DecidableEq α] {a b x y : List α}

theorem eraseDups_append_congr (h : a.eraseDups = b.eraseDups) (h' : x.eraseDups = y.eraseDups) :
    (a ++ x).eraseDups = (b ++ y).eraseDups := by
  have hmem : ∀ c, a.elem c = b.elem c := by
    intro c
    rw [Bool.eq_iff_iff, List.elem_iff, List.elem_iff, ← List.mem_eraseDups, h, List.mem_eraseDups]
  simp only [List.eraseDups_append, List.removeAll, eraseDups_filter, h, h', hmem]

theorem eraseDups_flatMap_congr {β : Type} {f g : β → List α} {l : List β}
    (h : ∀ r ∈ l, (f r).eraseDups = (g r).eraseDups) :
    (l.flatMap f).eraseDups = (l.flatMap g).eraseDups := by
  induction l with
  | nil => rfl
  | cons r l ih =>
    rw [List.flatMap_cons, List.flatMap_cons]
    exact eraseDups_append_congr (h r List.mem_cons_self)
      (ih fun s hs => h s (List.mem_cons_of_mem r hs))

theorem removeAll_append (h : a ⊆ b) (x : List α) : (a ++ x).removeAll b = x.removeAll b := by
  have ha : a.filter (fun c => !b.elem c) = [] := by
    refine List.filter_eq_nil_iff.2 fun c hc => ?_
    simpa using h hc
  rw [List.removeAll, List.filter_append, ha, List.nil_append, List.removeAll]

theorem eraseDups_append_of_subset (h : a ⊆ b) (x : List α) :
    (b ++ (a ++ x)).eraseDups = (b ++ x).eraseDups := by
  rw [List.eraseDups_append, removeAll_append h, ← List.eraseDups_append]

end

namespace Conditions

theorem members_extend (s : Conditions) (cs : List Condition) :
    (s.extend cs).members = s.members ++ (cs.removeAll s.members).eraseDups := by
  induction cs generalizing s with
  | nil => simp [extend, List.removeAll]
  | cons c cs ih =>
    rw [extend, List.foldl_cons, ← extend, ih, members_insert]
    by_cases hc : c ∈ s
    · rw [if_pos hc]
      simp [List.removeAll, mem_iff.1 hc]
    · rw [if_neg hc, List.append_assoc]
      simp [List.removeAll, mem_iff.not.1 hc, List.eraseDups_cons, List.filter_filter,
        Bool.and_comm, beq_eq_decide]

theorem members_ofList (cs : List Condition) : (ofList cs).members = cs.eraseDups := by
  rw [ofList, members_extend]
  simp [empty, List.removeAll]

theorem eq_ofList_iff {s : Conditions} {cs : List Condition} :
    s = ofList cs ↔ s.members = cs.eraseDups := by
  rw [← members_ofList]
  exact ⟨fun h => h ▸ rfl, Conditions.ext⟩

theorem ofList_members (s : Conditions) : ofList s.members = s :=
  (eq_ofList_iff.2 (eraseDups_of_nodup s.nodup).symm).symm

theorem isEmpty_iff {s : Conditions} : s.isEmpty = true ↔ s = empty := by
  rw [isEmpty, List.isEmpty_iff]
  exact ⟨fun h => Conditions.ext h, fun h => h ▸ rfl⟩

/-- Neither side repeats a member, so equal sizes turn one inclusion around. -/
theorem equiv_iff {s t : Conditions} : s.equiv t = true ↔ ∀ c, c ∈ s ↔ c ∈ t := by
  have hunfold : s.equiv t = true ↔ s.size = t.size ∧ s.includes t = true := by simp [equiv]
  rw [hunfold, includes_iff]
  constructor
  · rintro ⟨hsize, hincl⟩ c
    have hperm : t.members.Perm s.members :=
      (List.subperm_of_subset t.nodup hincl).perm_of_length_le (Nat.le_of_eq hsize)
    exact (hperm.mem_iff (a := c)).symm
  · intro h
    have hperm : s.members.Perm t.members := (List.perm_ext_iff_of_nodup s.nodup t.nodup).2 h
    exact ⟨hperm.length_eq, fun c => (h c).2⟩

theorem equiv_equivalence : Equivalence fun s t : Conditions => s.equiv t = true where
  refl _ := equiv_iff.2 fun _ => Iff.rfl
  symm h := equiv_iff.2 fun c => (equiv_iff.1 h c).symm
  trans h h' := equiv_iff.2 fun c => (equiv_iff.1 h c).trans (equiv_iff.1 h' c)

theorem position?_eq_some_iff {s : Conditions} {c : Condition} {i : Nat} :
    s.position? c = some i ↔ s.members[i]? = some c := by
  rw [position?, List.idxOf?_eq_some_iff, List.getElem?_eq_some_iff]
  constructor
  · rintro ⟨hi, hc, _⟩
    exact ⟨hi, hc⟩
  · rintro ⟨hi, hc⟩
    refine ⟨hi, hc, fun j hj he => ?_⟩
    have hsame := s.nodup.getElem_inj_iff.1 (he.trans hc.symm)
    omega

theorem position?_eq_none_iff {s : Conditions} {c : Condition} : s.position? c = none ↔ c ∉ s :=
  List.idxOf?_eq_none_iff

theorem ofList_concat (cs : List Condition) (c : Condition) :
    ofList (cs ++ [c]) = (ofList cs).insert c := by
  simp [ofList, extend]

theorem position?_insert {s : Conditions} {c : Condition} (h : c ∉ s) :
    (s.insert c).position? = Function.update s.position? c (some s.size) := by
  funext d
  have happend : (s.insert c).position? d =
      (s.position? d).or (if c = d then some s.size else none) := by
    rw [position?, members_insert, if_neg h, List.idxOf?, List.findIdx?_append]
    by_cases hd : c = d <;> simp [position?, List.idxOf?, size, hd]
  by_cases hd : c = d
  · subst hd
    simp [happend, position?_eq_none_iff.2 h]
  · simp [happend, hd, Function.update_of_ne (Ne.symm hd)]

end Conditions

end Verdict
