import Mathlib.Data.List.Flatten
import Mathlib.Data.List.Nodup
import Verdict.Proofs.Storable

set_option autoImplicit false

namespace Verdict

namespace Binary

def Entry.sides : Entry → List Nat
  | .leaf _ => []
  | .node _ m f => [m, f]

/-- The tree that unfolds from a place. -/
inductive Unfolds (entries : List Entry) : Nat → Branch → Prop where
  | leaf {i : Nat} {outcome : Outcome} (h : entries[i]? = some (.leaf outcome)) :
      Unfolds entries i (.leaf outcome)
  | node {i m f : Nat} {want : Conditions} {onMatch onFail : Branch}
      (h : entries[i]? = some (.node want m f)) (hm : Unfolds entries m onMatch)
      (hf : Unfolds entries f onFail) : Unfolds entries i (.node want onMatch onFail)

theorem Unfolds.append {entries : List Entry} {i : Nat} {b : Branch} (h : Unfolds entries i b)
    (more : List Entry) : Unfolds (entries ++ more) i b := by
  have hold : ∀ {j : Nat} {e : Entry}, entries[j]? = some e → (entries ++ more)[j]? = some e := by
    intro j e he
    rw [List.getElem?_append_left (List.getElem?_eq_some_iff.1 he).1, he]
  induction h with
  | leaf h => exact .leaf (hold h)
  | node h _ _ hm hf => exact .node (hold h) hm hf

namespace Arena

def named (entries : List Entry) : List Nat := entries.flatMap Entry.sides

def Names (entries : List Entry) (j i : Nat) : Prop := ∃ e, entries[j]? = some e ∧ i ∈ e.sides

def Ordered (entries : List Entry) : Prop :=
  ∀ (i : Nat) (e : Entry), entries[i]? = some e → (∀ s ∈ e.sides, s < i) ∧ e.sides.Nodup

structure IsTree (a : Arena) : Prop where
  nodes : a.nodes = a.entries.countP Entry.isNode
  leaves : a.leaves = a.entries.countP fun e => !e.isNode
  conditions : a.domains = a.conditions.length
  outcomes : a.domains = a.outcomes.length
  root : a.entries ≠ [] ∧ a.root = a.entries.length - 1
  proper : ∀ e ∈ a.entries, e.Proper
  ordered : Ordered a.entries
  sides : ∀ i, i + 1 < a.entries.length → ∃! j, Names a.entries j i

theorem checkEntry_eq_ok_iff {index : Nat} {e : Entry} :
    checkEntry index e = .ok () ↔ e.Proper ∧ (∀ s ∈ e.sides, s < index) ∧ e.sides.Nodup := by
  cases e with
  | leaf outcome =>
    by_cases h : outcome.name = "" <;> simp [checkEntry, Entry.Proper, Entry.sides, h]
  | node want m f =>
    have hw : want.isEmpty = true ↔ want.members = [] := List.isEmpty_iff
    simp only [checkEntry, Entry.Proper, Entry.sides, List.forall_mem_cons, beq_iff_eq,
      List.nodup_cons, List.mem_singleton]
    by_cases h1 : want.members = []
    · simp [hw, h1]
    · by_cases h2 : index ≤ m
      · simp [hw, h1, h2]
      · by_cases h3 : index ≤ f
        · simp [hw, h1, h2, h3]
        · by_cases h4 : m = f
          · simp [hw, h1, h3, h4]
          · simp [hw, h1, h2, h3, h4]
            omega

theorem checkFrom_eq_ok_iff {index : Nat} {es : List Entry} :
    checkFrom index es = .ok () ↔
      ∀ i e, es[i]? = some e → checkEntry (index + i) e = .ok () := by
  induction es generalizing index with
  | nil => simp [checkFrom]
  | cons first es ih =>
    rw [checkFrom_cons_eq_ok_iff, ih]
    constructor
    · rintro ⟨hfirst, hrest⟩ (_ | i) e he
      · obtain rfl : first = e := by simpa using he
        exact hfirst
      · have h := hrest i e (by simpa using he)
        rwa [Nat.add_assoc, Nat.add_comm 1 i] at h
    · intro h
      refine ⟨h 0 first rfl, fun i e he => ?_⟩
      have h := h (i + 1) e (by simpa using he)
      rwa [Nat.add_assoc, Nat.add_comm 1 i]

theorem checkFrom_zero_eq_ok_iff {es : List Entry} :
    checkFrom 0 es = .ok () ↔ (∀ e ∈ es, e.Proper) ∧ Ordered es := by
  simp only [checkFrom_eq_ok_iff, checkEntry_eq_ok_iff, Nat.zero_add]
  constructor
  · intro h
    refine ⟨fun e he => ?_, fun i e he => (h i e he).2⟩
    obtain ⟨i, hi⟩ := List.mem_iff_getElem?.1 he
    exact (h i e hi).1
  · rintro ⟨hproper, hordered⟩ i e he
    exact ⟨hproper e (List.mem_of_getElem? he), hordered i e he⟩

theorem Ordered.left {es more : List Entry} (h : Ordered (es ++ more)) : Ordered es := by
  intro i e he
  refine h i e ?_
  rw [List.getElem?_append_left (List.getElem?_eq_some_iff.1 he).1, he]

theorem Ordered.last {es : List Entry} {e : Entry} {more : List Entry}
    (h : Ordered (es ++ e :: more)) : (∀ s ∈ e.sides, s < es.length) ∧ e.sides.Nodup :=
  h es.length e (by simp)

theorem mem_named {es : List Entry} {i : Nat} : i ∈ named es ↔ ∃ j, Names es j i := by
  rw [named, List.mem_flatMap]
  constructor
  · rintro ⟨e, he, hi⟩
    obtain ⟨j, hj⟩ := List.mem_iff_getElem?.1 he
    exact ⟨j, e, hj, hi⟩
  · rintro ⟨j, e, hj, hi⟩
    exact ⟨e, List.mem_of_getElem? hj, hi⟩

theorem named_append_singleton (es : List Entry) (e : Entry) :
    named (es ++ [e]) = named es ++ e.sides := by
  simp [named]

theorem nodup_named_iff {es : List Entry} (h : Ordered es) :
    (named es).Nodup ↔ ∀ i j k, Names es j i → Names es k i → j = k := by
  rw [named, List.nodup_flatMap]
  constructor
  · rintro ⟨_, hpair⟩ i j k ⟨d, hj, hd⟩ ⟨e, hk, he⟩
    obtain ⟨hjl, rfl⟩ := List.getElem?_eq_some_iff.1 hj
    obtain ⟨hkl, rfl⟩ := List.getElem?_eq_some_iff.1 hk
    rw [List.pairwise_iff_getElem] at hpair
    rcases Nat.lt_trichotomy j k with hlt | heq | hgt
    · exact absurd he (hpair j k hjl hkl hlt hd)
    · exact heq
    · exact absurd hd (hpair k j hkl hjl hgt he)
  · intro hone
    refine ⟨fun e he => ?_, List.pairwise_iff_getElem.2 fun j k hj hk hlt => ?_⟩
    · obtain ⟨i, hi⟩ := List.mem_iff_getElem?.1 he
      exact (h i e hi).2
    · intro i hd he
      have heq := hone i j k ⟨es[j], List.getElem?_eq_getElem hj, hd⟩
        ⟨es[k], List.getElem?_eq_getElem hk, he⟩
      omega

theorem Ordered.lt_of_names {es : List Entry} (h : Ordered es) {i j : Nat} (hn : Names es j i) :
    i + 1 < es.length := by
  obtain ⟨e, he, hi⟩ := hn
  have hlt := (h j e he).1 i hi
  have hj := (List.getElem?_eq_some_iff.1 he).1
  omega

theorem existsUnique_names_iff {es : List Entry} (h : Ordered es) :
    (∀ i, i + 1 < es.length → ∃! j, Names es j i) ↔
      (named es).Nodup ∧ ∀ i, i + 1 < es.length → i ∈ named es := by
  constructor
  · intro hone
    refine ⟨(nodup_named_iff h).2 fun i j k hj hk => ?_, fun i hi => ?_⟩
    · exact (hone i (h.lt_of_names hj)).unique hj hk
    · exact mem_named.2 (hone i hi).exists
  · rintro ⟨hnodup, hall⟩ i hi
    obtain ⟨j, hj⟩ := mem_named.1 (hall i hi)
    exact ⟨j, hj, fun k hk => (nodup_named_iff h).1 hnodup i k j hk hj⟩

end Arena

end Binary

end Verdict
