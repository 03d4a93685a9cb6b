import Mathlib.Algebra.GroupWithZero.Nat
import Mathlib.Data.List.Nodup
import Mathlib.Data.List.Pairwise
import Verdict.Branch
import Verdict.Proofs.Walks

/-! The ways from the root of a tree to its leaves. There is one for each leaf, and a query takes the
way whose trials all went as the query answers them. So a way on which no condition is asked for
twice is taken by a query that holds what was matched on it and nothing else that it asks for, and
the trail of a query explains its answer: nothing counts but the tests that it names.
-/

set_option autoImplicit false

namespace Verdict

def Trial.Apart (t u : Trial) : Prop := ∀ c ∈ t.want, c ∉ u.want

instance : Std.Symm Trial.Apart := ⟨fun _ _ h c hu ht => h c ht hu⟩

namespace Trail

def after (t : Trial) (w : Trail) : Trail := ⟨t :: w.trials, w.outcome⟩

theorem after_inj {t : Trial} {v w : Trail} : v.after t = w.after t ↔ v = w := by
  cases v; cases w
  simp [after]

def matched (w : Trail) : List Condition :=
  (w.trials.filter Trial.held).flatMap fun t => t.want.members

theorem matched_after_held (want : Conditions) (w : Trail) :
    (w.after ⟨want, true⟩).matched = want.members ++ w.matched := rfl

theorem matched_after_failed (want : Conditions) (w : Trail) :
    (w.after ⟨want, false⟩).matched = w.matched := rfl

theorem mem_matched {w : Trail} {c : Condition} :
    c ∈ w.matched ↔ ∃ t ∈ w.trials, t.held = true ∧ c ∈ t.want := by
  simp only [matched, List.mem_flatMap, List.mem_filter, and_assoc, Conditions.mem_iff]

/-- How many conditions are asked for on the way, each as often as it is asked for. -/
def tested (w : Trail) : Nat := (w.trials.map fun t => t.want.size).sum

theorem tested_after (t : Trial) (w : Trail) : (w.after t).tested = t.want.size + w.tested := by
  rw [tested, after, List.map_cons, List.sum_cons, tested]

def Unrepeated (w : Trail) : Prop := w.trials.Pairwise Trial.Apart

theorem unrepeated_after {t : Trial} {w : Trail} :
    (w.after t).Unrepeated ↔ (∀ u ∈ w.trials, t.Apart u) ∧ w.Unrepeated :=
  List.pairwise_cons

def Fits (w : Trail) (query : Conditions) : Prop :=
  ∀ t ∈ w.trials, query.includes t.want = t.held

/-- A test that failed has a condition that no test asked for which was passed. -/
theorem Unrepeated.fits {w : Trail} (h : w.Unrepeated)
    (hne : ∀ t ∈ w.trials, t.want.members ≠ []) {query : Conditions}
    (hq : ∀ t ∈ w.trials, ∀ c ∈ t.want, c ∈ query ↔ c ∈ w.matched) : w.Fits query := by
  intro t ht
  cases hheld : t.held with
  | true =>
    rw [Conditions.includes_iff]
    intro c hc
    exact (hq t ht c hc).2 (mem_matched.2 ⟨t, ht, hheld, hc⟩)
  | false =>
    rw [Bool.eq_false_iff, Ne, Conditions.includes_iff]
    intro hall
    obtain ⟨c, hc⟩ := List.exists_mem_of_ne_nil _ (hne t ht)
    obtain ⟨u, hu, huheld, hcu⟩ := mem_matched.1 ((hq t ht c hc).1 (hall c hc))
    have htu : t ≠ u := by
      rintro rfl
      rw [hheld] at huheld
      cases huheld
    exact List.Pairwise.forall h ht hu htu c hc hcu

end Trail

namespace Branch

def ways : Branch → List Trail
  | leaf outcome => [⟨[], outcome⟩]
  | node want m f =>
    m.ways.map (Trail.after ⟨want, true⟩) ++ f.ways.map (Trail.after ⟨want, false⟩)

theorem mem_ways_node {want : Conditions} {m f : Branch} {w : Trail} :
    w ∈ (node want m f).ways ↔
      (∃ v ∈ m.ways, v.after ⟨want, true⟩ = w) ∨ ∃ v ∈ f.ways, v.after ⟨want, false⟩ = w := by
  rw [ways, List.mem_append, List.mem_map, List.mem_map]

theorem nodup_ways (b : Branch) : b.ways.Nodup := by
  induction b with
  | leaf outcome => exact List.nodup_singleton _
  | node want m f hm hf =>
    have hinj (t : Trial) : Function.Injective (Trail.after t) := fun _ _ => Trail.after_inj.1
    refine List.nodup_append.2 ⟨hm.map (hinj _), hf.map (hinj _), ?_⟩
    -- The first trial tells the two sides apart.
    rintro v hv w hw rfl
    obtain ⟨v', _, rfl⟩ := List.mem_map.1 hv
    obtain ⟨w', _, he⟩ := List.mem_map.1 hw
    cases he

theorem trail_node (want : Conditions) (m f : Branch) (query : Conditions) :
    (node want m f).trail query =
      if query.includes want then (m.trail query).after ⟨want, true⟩
      else (f.trail query).after ⟨want, false⟩ := by
  by_cases h : query.includes want = true <;> simp [trail, Trail.after, h]

theorem trail_mem_ways (b : Branch) (query : Conditions) : b.trail query ∈ b.ways := by
  induction b with
  | leaf outcome => exact List.mem_singleton.2 rfl
  | node want m f hm hf =>
    rw [trail_node, mem_ways_node]
    by_cases h : query.includes want = true
    · exact Or.inl ⟨_, hm, (if_pos h).symm⟩
    · exact Or.inr ⟨_, hf, (if_neg h).symm⟩

/-- A way is the one that a query takes as soon as the query answers its trials as they went. -/
theorem trail_eq_of_fits {b : Branch} {w : Trail} (hw : w ∈ b.ways) {query : Conditions}
    (h : w.Fits query) : b.trail query = w := by
  induction b generalizing w with
  | leaf outcome => exact (List.mem_singleton.1 hw).symm
  | node want m f hm hf =>
    rw [trail_node]
    rcases mem_ways_node.1 hw with ⟨v, hv, rfl⟩ | ⟨v, hv, rfl⟩
    · obtain ⟨hhead, htail⟩ := List.forall_mem_cons.1 h
      rw [if_pos hhead, hm hv htail]
    · obtain ⟨hhead, htail⟩ := List.forall_mem_cons.1 h
      rw [if_neg (Bool.eq_false_iff.1 hhead), hf hv htail]

theorem follow_eq_leaf_iff {b : Branch} {sides : List Bool} {outcome : Outcome} :
    b.follow sides = some (leaf outcome) ↔
      ∃ w ∈ b.ways, w.trials.map Trial.held = sides ∧ w.outcome = outcome := by
  induction b generalizing sides with
  | leaf o => cases sides <;> simp [follow, ways]
  | node want m f hm hf =>
    cases sides with
    | nil => simp [follow, ways, Trail.after, or_and_right, exists_or]
    | cons side sides =>
      cases side <;> simp [follow, ways, Trail.after, or_and_right, exists_or, hm, hf]

theorem fits_trail (b : Branch) (query : Conditions) : (b.trail query).Fits query := by
  induction b with
  | leaf outcome =>
    intro t ht
    cases ht
  | node want m f hm hf =>
    rw [trail_node]
    by_cases h : query.includes want = true
    · rw [if_pos h]
      exact List.forall_mem_cons.2 ⟨h, hm⟩
    · rw [if_neg h]
      exact List.forall_mem_cons.2 ⟨Bool.eq_false_iff.2 h, hf⟩

theorem length_trials_le_height {b : Branch} {w : Trail} (hw : w ∈ b.ways) :
    w.trials.length ≤ b.height := by
  have hfollow := follow_eq_leaf_iff.2 ⟨w, hw, rfl, rfl⟩
  have hlength := length_le_height hfollow
  rwa [List.length_map] at hlength

theorem exists_follow_take {b : Branch} {w : Trail} (hw : w ∈ b.ways) {i : Nat} {t : Trial}
    (ht : w.trials[i]? = some t) :
    ∃ m f, b.follow ((w.trials.map Trial.held).take i) = some (node t.want m f) := by
  induction b generalizing w i with
  | leaf outcome =>
    obtain rfl := List.mem_singleton.1 hw
    cases ht
  | node want m f hm hf =>
    cases i with
    | zero =>
      refine ⟨m, f, ?_⟩
      rcases mem_ways_node.1 hw with ⟨v, _, rfl⟩ | ⟨v, _, rfl⟩ <;> cases ht <;> rfl
    | succ i =>
      rcases mem_ways_node.1 hw with ⟨v, hv, rfl⟩ | ⟨v, hv, rfl⟩
      · exact hm hv ht
      · exact hf hv ht

/-- A trail that accounts for the answer to a query. It gives that answer and says of each test
whether the query holds all that is wanted. The sides it names lead from the root to each of its
tests in turn and on to a leaf, in no more steps than the tree is deep. And it is enough: any
query that answers its tests in the same way has the same trail, and so the same answer. -/
structure Explains (b : Branch) (query : Conditions) (w : Trail) : Prop where
  outcome : w.outcome = b.search query
  held : ∀ t ∈ w.trials, t.held = true ↔ ∀ c ∈ t.want, c ∈ query
  met : ∀ i t, w.trials[i]? = some t →
    ∃ m f, b.follow ((w.trials.map Trial.held).take i) = some (node t.want m f)
  ends : b.follow (w.trials.map Trial.held) = some (leaf w.outcome)
  length_le : w.trials.length ≤ b.depth
  enough : ∀ other : Conditions,
    (∀ t ∈ w.trials, t.held = true ↔ ∀ c ∈ t.want, c ∈ other) →
      b.trail other = w ∧ b.search other = w.outcome

theorem trail_explains (b : Branch) (query : Conditions) : b.Explains query (b.trail query) where
  outcome := outcome_trail b query
  held t ht := by
    rw [← fits_trail b query t ht, Conditions.includes_iff]
  met _ _ ht := exists_follow_take (trail_mem_ways b query) ht
  ends := follow_eq_leaf_iff.2 ⟨_, trail_mem_ways b query, rfl, rfl⟩
  length_le := by
    rw [depth_eq_height]
    exact length_trials_le_height (trail_mem_ways b query)
  enough other h := by
    have hfits : (b.trail query).Fits other := fun t ht => by
      rw [Bool.eq_iff_iff, Conditions.includes_iff]
      exact (h t ht).symm
    have htrail : b.trail other = b.trail query :=
      trail_eq_of_fits (trail_mem_ways b query) hfits
    exact ⟨htrail, by rw [← outcome_trail, htrail]⟩

end Branch

end Verdict
