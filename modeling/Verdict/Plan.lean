import Verdict.Rule

/-! The plan of a domain: in which order its rules are split, before any tree is made of it. A
condition of the order of preference is split on first, the earliest one that still occurs; without
one, the condition wanted by most rules, and of several such the one seen first.
-/

set_option autoImplicit false

namespace Verdict

def wanted (rules : List Rule) : List Condition := rules.flatMap fun r => r.want.members

def occurrences (rules : List Rule) : List (Condition × Nat) :=
  let conditions := wanted rules
  conditions.eraseDups.map fun c => (c, conditions.count c)

inductive Ground where
  | rank (position : Nat)
  | count (rules : Nat)
deriving DecidableEq, Repr

structure Pivot where
  condition : Condition
  ground : Ground
deriving DecidableEq, Repr

def preferred? (priority : Conditions) (rules : List Rule) : Option (Condition × Nat) :=
  let conditions := wanted rules
  priority.members.zipIdx.find? fun p => conditions.contains p.1

def mostFrequent? : List (Condition × Nat) → Option (Condition × Nat)
  | [] => none
  | p :: ps => some (ps.foldl (fun best next => if best.2 < next.2 then next else best) p)

theorem foldl_mem (ps : List (Condition × Nat)) (p : Condition × Nat) :
    ps.foldl (fun best next => if best.2 < next.2 then next else best) p ∈ p :: ps := by
  induction ps generalizing p with
  | nil => simp
  | cons q ps ih =>
    rw [List.foldl_cons]
    have h := ih (if p.2 < q.2 then q else p)
    split at h <;> grind

theorem mostFrequent?_mem {ps : List (Condition × Nat)} {p : Condition × Nat}
    (h : mostFrequent? ps = some p) : p ∈ ps := by
  cases ps with
  | nil => simp [mostFrequent?] at h
  | cons q ps =>
    simp only [mostFrequent?, Option.some.injEq] at h
    exact h ▸ foldl_mem ps q

def pivot? (priority : Conditions) (rules : List Rule) : Option Pivot :=
  match preferred? priority rules with
  | some (c, position) => some ⟨c, .rank position⟩
  | none => (mostFrequent? (occurrences rules)).map fun p => ⟨p.1, .count p.2⟩

theorem mem_wanted_of_pivot? {priority : Conditions} {rules : List Rule} {p : Pivot}
    (h : pivot? priority rules = some p) : p.condition ∈ wanted rules := by
  unfold pivot? at h
  split at h
  · next c position found =>
    obtain rfl := Option.some.inj h
    simpa using List.find?_some found
  · obtain ⟨q, hq, rfl⟩ := Option.map_eq_some_iff.1 h
    obtain ⟨c, hc, rfl⟩ := List.mem_map.1 (mostFrequent?_mem hq)
    exact List.mem_eraseDups.1 hc

namespace Rule

def wants (c : Condition) (r : Rule) : Bool := r.want.contains c

def strike (c : Condition) (r : Rule) : Rule := ⟨r.result, r.want.erase c, r.anyOf⟩

end Rule

def matching (c : Condition) (rules : List Rule) : List Rule :=
  (rules.filter (·.wants c)).map (·.strike c)

def failing (c : Condition) (rules : List Rule) : List Rule := rules.filter (!·.wants c)

theorem matching_cons (c : Condition) (r : Rule) (rules : List Rule) :
    matching c (r :: rules) =
      if r.wants c then r.strike c :: matching c rules else matching c rules := by
  by_cases h : r.wants c = true <;> simp [matching, h]

theorem failing_cons (c : Condition) (r : Rule) (rules : List Rule) :
    failing c (r :: rules) = if r.wants c then failing c rules else r :: failing c rules := by
  by_cases h : r.wants c = true <;> simp [failing, h]

def load (rules : List Rule) : Nat := (wanted rules).length

theorem load_cons (r : Rule) (rules : List Rule) :
    load (r :: rules) = r.want.size + load rules := by
  simp [load, wanted, Conditions.size]

theorem size_strike {c : Condition} {r : Rule} (h : r.wants c = true) :
    (r.strike c).want.size + 1 = r.want.size :=
  Conditions.size_erase (Conditions.contains_iff.1 h)

theorem load_split (c : Condition) (rules : List Rule) :
    load (matching c rules) + load (failing c rules) + rules.countP (·.wants c) = load rules := by
  induction rules with
  | nil => rfl
  | cons r rules ih =>
    rw [matching_cons, failing_cons, load_cons, List.countP_cons]
    by_cases hr : r.wants c = true
    · have hsize := size_strike hr
      rw [if_pos hr, if_pos hr, if_pos hr, load_cons]
      omega
    · rw [if_neg hr, if_neg hr, if_neg hr, load_cons]
      omega

theorem countP_wants_pos {c : Condition} {rules : List Rule} (h : c ∈ wanted rules) :
    0 < rules.countP (·.wants c) := by
  obtain ⟨r, hr, hc⟩ := List.mem_flatMap.1 h
  exact List.countP_pos_iff.2 ⟨r, hr, Conditions.contains_iff.2 hc⟩

theorem load_matching_lt {c : Condition} {rules : List Rule} (h : c ∈ wanted rules) :
    load (matching c rules) < load rules := by
  have hsplit := load_split c rules
  have hpos := countP_wants_pos h
  omega

theorem load_failing_lt {c : Condition} {rules : List Rule} (h : c ∈ wanted rules) :
    load (failing c rules) < load rules := by
  have hsplit := load_split c rules
  have hpos := countP_wants_pos h
  omega

inductive Plan where
  | settled (rules : List Rule)
  | split (pivot : Pivot) (onMatch onFail : Plan)
deriving DecidableEq, Repr

namespace Plan

def ofRules (priority : Conditions) (rules : List Rule) : Plan :=
  match h : pivot? priority rules with
  | none => settled rules
  | some p =>
    have := mem_wanted_of_pivot? h
    split p (ofRules priority (matching p.condition rules))
      (ofRules priority (failing p.condition rules))
termination_by load rules
decreasing_by
  · exact load_matching_lt this
  · exact load_failing_lt this

theorem ofRules_none {priority : Conditions} {rules : List Rule}
    (h : pivot? priority rules = none) : ofRules priority rules = settled rules := by
  rw [ofRules]; split
  · rfl
  · next hs => simp [h] at hs

theorem ofRules_some {priority : Conditions} {rules : List Rule} {p : Pivot}
    (h : pivot? priority rules = some p) :
    ofRules priority rules = split p (ofRules priority (matching p.condition rules))
      (ofRules priority (failing p.condition rules)) := by
  rw [ofRules]; split
  · next hs => simp [h] at hs
  · next q hs => obtain rfl := Option.some.inj (h.symm.trans hs); rfl

end Plan

def Domain.plan (d : Domain) : Plan := Plan.ofRules d.priority d.expand

/-- How rules that want nothing more are answered: none of them defers to what comes after the
domain, a common result is the answer, and results that differ contradict each other. -/
inductive Settlement where
  | deferred
  | agreed (outcome : Outcome)
  | contradicted (outcomes : List Outcome)
deriving DecidableEq, Repr

def settlement : List Rule → Settlement
  | [] => .deferred
  | r :: rules =>
    if rules.all (·.result == r.result) then .agreed r.result
    else .contradicted ((r :: rules).map Rule.result)

end Verdict
