import Mathlib.Algebra.GroupWithZero.Nat
import Verdict.Proofs.Alternatives

set_option autoImplicit false

namespace Verdict

namespace Rule

theorem exists_expand_iff {r : Rule} {query : Conditions} :
    (∃ e ∈ r.expand, query.includes e.want = true) ↔
      query.includes r.want = true ∧ (r.anyOf.isEmpty = false → ∃ c ∈ r.anyOf, c ∈ query) := by
  cases hany : r.anyOf.isEmpty with
  | true =>
    rw [expand_of_plain (Conditions.isEmpty_iff.1 hany)]
    simp
  | false =>
    rw [expand_of_alternatives hany]
    constructor
    · rintro ⟨e, he, hincl⟩
      obtain ⟨c, hc, rfl⟩ := List.mem_map.1 he
      obtain ⟨hwant, hquery⟩ := (Conditions.includes_insert _ _ _).1 hincl
      exact ⟨hwant, fun _ => ⟨c, hc, hquery⟩⟩
    · rintro ⟨hwant, halternative⟩
      obtain ⟨c, hc, hquery⟩ := halternative rfl
      exact ⟨_, List.mem_map_of_mem hc, (Conditions.includes_insert _ _ _).2 ⟨hwant, hquery⟩⟩

/-- The rules that a rule expands to stand for it: a query satisfies one of them exactly when it
satisfies the rule. All have its result and no alternatives; there is one for each alternative of
the rule, in their order, or only the rule itself. -/
structure Expanded (r : Rule) : Prop where
  satisfied : ∀ query : Conditions, (∃ e ∈ r.expand, query.includes e.want = true) ↔
    query.includes r.want = true ∧ (r.anyOf.isEmpty = false → ∃ c ∈ r.anyOf, c ∈ query)
  result : ∀ e ∈ r.expand, e.result = r.result
  plain : ∀ e ∈ r.expand, e.anyOf = .empty
  unchanged : r.anyOf.isEmpty = true → r.expand = [r]
  length : r.anyOf.isEmpty = false → r.expand.length = r.anyOf.size
  alternative : ∀ (i : Nat) (c : Condition), r.anyOf.members[i]? = some c →
    r.expand[i]? = some (Rule.mk r.result (r.want.insert c) .empty)

theorem expanded (r : Rule) : r.Expanded where
  satisfied _ := exists_expand_iff
  result _ he := result_of_mem_expand he
  plain _ he := anyOf_of_mem_expand he
  unchanged h := expand_of_plain (Conditions.isEmpty_iff.1 h)
  length h := by rw [expand_of_alternatives h, List.length_map, Conditions.size]
  alternative i c hc := by
    have hany : r.anyOf.isEmpty = false := by
      rw [Conditions.isEmpty, List.isEmpty_eq_false_iff_exists_mem]
      exact ⟨c, List.mem_of_getElem? hc⟩
    rw [expand_of_alternatives hany, List.getElem?_map, hc]
    rfl

end Rule

namespace Domain

def startOf (d : Domain) (place : Nat) : Nat :=
  ((d.rules.take place).map fun r => r.expand.length).sum

theorem length_expand (d : Domain) : d.expand.length = d.startOf d.rules.length := by
  rw [expand, startOf, List.take_length, List.length_flatMap]

theorem getElem?_expand {d : Domain} {i j : Nat} {r e : Rule} (hr : d.rules[i]? = some r)
    (he : r.expand[j]? = some e) : d.expand[d.startOf i + j]? = some e := by
  obtain ⟨hi, hget⟩ := List.getElem?_eq_some_iff.1 hr
  have hrules : d.rules = d.rules.take i ++ r :: d.rules.drop (i + 1) := by
    rw [← hget, List.getElem_cons_drop, List.take_append_drop]
  have hexpand : d.expand = (d.rules.take i).flatMap Rule.expand ++
      (r.expand ++ (d.rules.drop (i + 1)).flatMap Rule.expand) := by
    rw [expand]
    conv_lhs => rw [hrules]
    rw [List.flatMap_append, List.flatMap_cons]
  have hstart : ((d.rules.take i).flatMap Rule.expand).length = d.startOf i := List.length_flatMap
  obtain ⟨hj, _⟩ := List.getElem?_eq_some_iff.1 he
  rw [hexpand, List.getElem?_append_right (by omega), hstart, Nat.add_sub_cancel_left,
    List.getElem?_append_left hj, he]

/-- The rules of a domain written out stand for the domain: those of one rule stand together, behind
those of the rules before it, and there are no others. Nothing is left to write out, and the domain
lists the same conditions and outcomes. -/
structure Expanded (d : Domain) : Prop where
  again : d.writtenOut.expand = d.expand
  order : ∀ (i : Nat) (r : Rule), d.rules[i]? = some r →
    ∀ (j : Nat) (e : Rule), r.expand[j]? = some e → d.expand[d.startOf i + j]? = some e
  length : d.expand.length = d.startOf d.rules.length
  conditions : d.writtenOut.conditions = d.conditions
  outcomes : d.writtenOut.outcomes = d.outcomes

theorem expanded (d : Domain) : d.Expanded where
  again := d.expand_writtenOut
  order _ _ hr _ _ he := getElem?_expand hr he
  length := d.length_expand
  conditions := d.conditions_writtenOut
  outcomes := d.outcomes_writtenOut

theorem expansion_faithful (d : Domain) : d.Expanded ∧ ∀ r : Rule, r.Expanded :=
  ⟨d.expanded, Rule.expanded⟩

end Domain

end Verdict
