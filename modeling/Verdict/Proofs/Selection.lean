import Mathlib.Logic.Function.Basic
import Verdict.Proofs.Choice
import Verdict.Proofs.Naming

/-! What is counted before a split, which condition is chosen, and how the rules are dealt out. Every
condition is counted in a slot of its own, so one pass over the rules gives the number of rules that
want it, in the order in which conditions are met. The choice falls on the first condition of the
order of preference that is wanted, else on the first one that is wanted most. Each rule then goes to
one side, and less is wanted on either side than before.
-/

set_option autoImplicit false

namespace Verdict

/-- The conditions met so far, each with how often it was met, and the slot of each. -/
structure Tally where
  counts : List (Condition × Nat)
  slot : Condition → Option Nat

namespace Tally

def meet (t : Tally) (c : Condition) : Tally :=
  match t.slot c with
  | some i => ⟨t.counts.modify i fun p => (p.1, p.2 + 1), t.slot⟩
  | none => ⟨t.counts ++ [(c, 1)], Function.update t.slot c (some t.counts.length)⟩

def ofRules (rules : List Rule) : Tally := (wanted rules).foldl meet ⟨[], fun _ => none⟩

def after (met : List Condition) : Tally :=
  ⟨(Conditions.ofList met).members.map fun c => (c, met.count c), (Conditions.ofList met).position?⟩

end Tally

theorem modify_slot {s : Conditions} {c : Condition} {i : Nat} (h : s.position? c = some i)
    (n : Condition → Nat) :
    (s.members.map fun d => (d, n d)).modify i (fun p => (p.1, p.2 + 1)) =
      s.members.map fun d => (d, n d + if c = d then 1 else 0) := by
  refine List.ext_getElem? fun j => ?_
  rw [List.getElem?_modify, List.getElem?_map, List.getElem?_map]
  cases hj : s.members[j]? with
  | none => rfl
  | some d =>
    have hij : i = j ↔ c = d := by
      constructor
      · rintro rfl
        exact Option.some.inj ((Conditions.position?_eq_some_iff.1 h).symm.trans hj)
      · rintro rfl
        exact Option.some.inj (h.symm.trans (Conditions.position?_eq_some_iff.2 hj))
    by_cases hd : c = d <;> simp [hij, hd]

namespace Tally

theorem meet_after (met : List Condition) (c : Condition) :
    (after met).meet c = after (met ++ [c]) := by
  have hcount : ∀ d, (met ++ [c]).count d = met.count d + if c = d then 1 else 0 := by
    intro d
    simp [List.count_append, List.count_singleton]
  -- A condition has a slot exactly if it has been met.
  cases hs : (Conditions.ofList met).position? c with
  | some i =>
    have hc : c ∈ Conditions.ofList met :=
      List.mem_of_getElem? (Conditions.position?_eq_some_iff.1 hs)
    have hsame : (Conditions.ofList met).insert c = Conditions.ofList met :=
      Conditions.ext (by rw [Conditions.members_insert, if_pos hc])
    simp only [meet, after, hs, Conditions.ofList_concat, hsame, hcount, modify_slot hs]
  | none =>
    have hc := Conditions.position?_eq_none_iff.1 hs
    have hnew : met.count c = 0 := List.count_eq_zero.2 fun h => hc (Conditions.mem_ofList.2 h)
    have hold : (Conditions.ofList met).members.map (fun d => (d, (met ++ [c]).count d)) =
        (Conditions.ofList met).members.map fun d => (d, met.count d) := by
      refine List.map_congr_left fun d hd => ?_
      have hne : c ≠ d := fun he => hc (he ▸ hd)
      simp [hcount, hne]
    simp only [meet, after, hs, Conditions.ofList_concat, Conditions.position?_insert hc,
      Conditions.members_insert, if_neg hc, List.map_append, hold]
    simp [hnew, Conditions.size]

theorem foldl_meet (met cs : List Condition) : cs.foldl meet (after met) = after (met ++ cs) := by
  induction cs generalizing met with
  | nil => rw [List.foldl_nil, List.append_nil]
  | cons c cs ih => rw [List.foldl_cons, meet_after, ih, List.append_assoc, List.singleton_append]

theorem ofRules_eq (rules : List Rule) : ofRules rules = after (wanted rules) :=
  foldl_meet [] (wanted rules)

theorem counts_ofRules (rules : List Rule) : (ofRules rules).counts = occurrences rules := by
  rw [ofRules_eq, after, Conditions.members_ofList]
  rfl

end Tally

structure Counted (rules : List Rule) (counts : List (Condition × Nat)) : Prop where
  listed : ∀ c, c ∈ counts.map Prod.fst ↔ ∃ r ∈ rules, c ∈ r.want
  once : (counts.map Prod.fst).Nodup
  order : (counts.map Prod.fst).Pairwise fun c d =>
    (wanted rules).idxOf c < (wanted rules).idxOf d
  number : ∀ c n, (c, n) ∈ counts → n = demand rules c

theorem counted_occurrences (rules : List Rule) : Counted rules (occurrences rules) := by
  have hfirsts : (occurrences rules).map Prod.fst = (wanted rules).eraseDups := by
    rw [occurrences_eq, List.map_map]
    exact List.map_id' _
  refine ⟨fun c => ?_, ?_, ?_, fun c n h => ?_⟩
  · rw [hfirsts, List.mem_eraseDups, mem_wanted]
  · rw [hfirsts]
    exact nodup_eraseDups (wanted rules)
  · rw [hfirsts]
    exact pairwise_eraseDups (wanted rules)
  · rw [occurrences_eq] at h
    obtain ⟨d, _, hd⟩ := List.mem_map.1 h
    cases hd
    rfl

theorem preferred?_eq_some_iff {priority : Conditions} {rules : List Rule} {c : Condition}
    {k : Nat} :
    preferred? priority rules = some (c, k) ↔
      c ∈ wanted rules ∧ priority.position? c = some k ∧
        ∀ d ∈ wanted rules, ∀ j, priority.position? d = some j → k ≤ j := by
  simp only [preferred?, List.find?_eq_some_iff_getElem, List.getElem_zipIdx, Nat.zero_add,
    List.length_zipIdx, List.contains_eq_mem, decide_eq_true_eq, Bool.not_eq_true',
    decide_eq_false_iff_not, Conditions.position?_eq_some_iff]
  constructor
  · rintro ⟨hc, i, hi, hci, hbefore⟩
    obtain ⟨rfl, rfl⟩ := Prod.mk.inj hci
    refine ⟨hc, List.getElem?_eq_getElem hi, fun d hd j hj => Nat.le_of_not_lt fun hlt => ?_⟩
    obtain ⟨_, rfl⟩ := List.getElem?_eq_some_iff.1 hj
    exact hbefore j hlt hd
  · rintro ⟨hc, hk, hfirst⟩
    obtain ⟨hlt, rfl⟩ := List.getElem?_eq_some_iff.1 hk
    refine ⟨hc, k, hlt, rfl, fun j hj hd => ?_⟩
    have := hfirst _ hd j (List.getElem?_eq_getElem (Nat.lt_trans hj hlt))
    omega

theorem preferred?_eq_none_iff {priority : Conditions} {rules : List Rule} :
    preferred? priority rules = none ↔ ∀ d ∈ wanted rules, d ∉ priority := by
  rw [← Option.map_eq_none_iff, preferred?_map, List.find?_eq_none]
  simp only [decide_eq_true_eq]
  exact ⟨fun h d hd hp => h d hp hd, fun h d hp hd => h d hd hp⟩

inductive Chosen (priority : Conditions) (rules : List Rule) : Pivot → Prop where
  | preferred {c : Condition} {k : Nat} (hw : c ∈ wanted rules)
      (hk : priority.position? c = some k)
      (first : ∀ d ∈ wanted rules, ∀ j, priority.position? d = some j → k ≤ j) :
      Chosen priority rules ⟨c, .rank k⟩
  | frequent {c : Condition} (hw : c ∈ wanted rules) (unlisted : ∀ d ∈ wanted rules, d ∉ priority)
      (most : ∀ d ∈ wanted rules, demand rules d ≤ demand rules c)
      (first : ∀ d ∈ wanted rules, demand rules d = demand rules c →
        (wanted rules).idxOf c ≤ (wanted rules).idxOf d) :
      Chosen priority rules ⟨c, .count (demand rules c)⟩

theorem argmax_demand_iff {rules : List Rule} {c : Condition} :
    (wanted rules).argmax (demand rules) = some c ↔
      c ∈ wanted rules ∧ (∀ d ∈ wanted rules, demand rules d ≤ demand rules c) ∧
        ∀ d ∈ wanted rules, demand rules d = demand rules c →
          (wanted rules).idxOf c ≤ (wanted rules).idxOf d := by
  rw [List.argmax_eq_some_iff]
  refine and_congr_right fun _ => and_congr_right fun hmost => ?_
  constructor
  · intro h d hd he
    exact h d hd (Nat.le_of_eq he.symm)
  · intro h d hd hle
    exact h d hd (Nat.le_antisymm (hmost d hd) hle)

theorem pivot?_eq_some_iff {priority : Conditions} {rules : List Rule} {p : Pivot} :
    pivot? priority rules = some p ↔ Chosen priority rules p := by
  have hcounts := mostFrequent?_occurrences rules
  constructor
  · intro h
    unfold pivot? at h
    split at h
    · next c k hp =>
      obtain rfl := Option.some.inj h
      obtain ⟨hw, hk, hfirst⟩ := preferred?_eq_some_iff.1 hp
      exact .preferred hw hk hfirst
    · next hp =>
      rw [hcounts, Option.map_map] at h
      obtain ⟨c, hc, rfl⟩ := Option.map_eq_some_iff.1 h
      obtain ⟨hw, hmost, hfirst⟩ := argmax_demand_iff.1 hc
      exact .frequent hw (preferred?_eq_none_iff.1 hp) hmost hfirst
  · intro h
    cases h with
    | preferred hw hk hfirst => simp [pivot?, preferred?_eq_some_iff.2 ⟨hw, hk, hfirst⟩]
    | frequent hw hunlisted hmost hfirst =>
      simp [pivot?, preferred?_eq_none_iff.2 hunlisted, hcounts,
        argmax_demand_iff.2 ⟨hw, hmost, hfirst⟩]

/-- Rules dealt out in order to the two sides of a split; those that want the condition are rid of
it. -/
inductive Dealt (c : Condition) : List Rule → List Rule → List Rule → Prop where
  | nil : Dealt c [] [] []
  | onMatch {r : Rule} {rules m f : List Rule} (h : c ∈ r.want) (hd : Dealt c rules m f) :
      Dealt c (r :: rules) (r.strike c :: m) f
  | onFail {r : Rule} {rules m f : List Rule} (h : c ∉ r.want) (hd : Dealt c rules m f) :
      Dealt c (r :: rules) m (r :: f)

theorem dealt_split (c : Condition) (rules : List Rule) :
    Dealt c rules (matching c rules) (failing c rules) := by
  induction rules with
  | nil => exact .nil
  | cons r rules ih =>
    rw [matching_cons, failing_cons]
    by_cases h : r.wants c = true
    · rw [if_pos h, if_pos h]
      exact .onMatch (Rule.wants_iff.1 h) ih
    · rw [if_neg h, if_neg h]
      exact .onFail (mt Rule.wants_iff.2 h) ih

structure Parted (c : Condition) (rules : List Rule) : Prop where
  dealt : Dealt c rules (matching c rules) (failing c rules)
  matched : matching c rules ≠ []
  onMatch : load (matching c rules) < load rules
  onFail : load (failing c rules) < load rules

theorem parted {c : Condition} {rules : List Rule} (h : c ∈ wanted rules) : Parted c rules :=
  ⟨dealt_split c rules, matching_ne_nil h, load_matching_lt h, load_failing_lt h⟩

theorem wanted_eq_nil_iff {rules : List Rule} :
    wanted rules = [] ↔ ∀ r ∈ rules, r.want.members = [] :=
  List.flatMap_eq_nil_iff

theorem pivot_exact (priority : Conditions) (rules : List Rule) :
    (Tally.ofRules rules).counts = occurrences rules ∧ Counted rules (occurrences rules) ∧
      (pivot? priority rules = none ↔ ∀ r ∈ rules, r.want.members = []) ∧
      ∀ p, (pivot? priority rules = some p ↔ Chosen priority rules p) ∧
        (pivot? priority rules = some p → Parted p.condition rules) := by
  refine ⟨Tally.counts_ofRules rules, counted_occurrences rules, ?_, fun p => ⟨?_, fun hp => ?_⟩⟩
  · rw [pivot?_eq_none_iff, wanted_eq_nil_iff]
  · exact pivot?_eq_some_iff
  · exact parted (mem_wanted_of_pivot? hp)

/-- Orders are first asked whether they are verified, since that is preferred. Without a preference
the question would be whether they are paid, which all four expanded rules want. -/
theorem pivot_exact_orders :
    pivot? Domain.orders.priority Domain.orders.expand = some ⟨⟨"verified"⟩, .rank 0⟩ ∧
      pivot? .empty Domain.orders.expand = some ⟨⟨"paid"⟩, .count 4⟩ ∧
      Chosen .empty Domain.orders.expand ⟨⟨"paid"⟩, .count 4⟩ ∧
      Parted ⟨"verified"⟩ Domain.orders.expand ∧ Parted ⟨"paid"⟩ Domain.orders.expand := by
  have hverified : pivot? Domain.orders.priority Domain.orders.expand =
      some ⟨⟨"verified"⟩, .rank 0⟩ := by decide +kernel
  have hpaid : pivot? .empty Domain.orders.expand = some ⟨⟨"paid"⟩, .count 4⟩ := by
    decide +kernel
  obtain ⟨_, _, _, hpreferred⟩ := pivot_exact Domain.orders.priority Domain.orders.expand
  obtain ⟨_, _, _, hfrequent⟩ := pivot_exact .empty Domain.orders.expand
  exact ⟨hverified, hpaid, (hfrequent _).1.1 hpaid, (hpreferred _).2 hverified,
    (hfrequent _).2 hpaid⟩

end Verdict
