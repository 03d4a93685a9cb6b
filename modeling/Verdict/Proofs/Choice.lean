import Mathlib.Data.List.MinMax
import Verdict.Plan
import Verdict.Proofs.Members

/-! The condition that rules are split on, said without a count over their names. It is the first
condition of the order of preference that some rule wants; if there is none, it is the one that most
rules want, and of several such the first one met. There is such a condition as long as a rule wants
anything. Many facts about a plan do not depend on this choice, and hold of every plan that splits
its rules on conditions which they want.
-/

set_option autoImplicit false

namespace Verdict

theorem mem_wanted {c : Condition} {rules : List Rule} :
    c ∈ wanted rules ↔ ∃ r ∈ rules, c ∈ r.want := by
  simp [wanted, Conditions.mem_iff]

def demand (rules : List Rule) (c : Condition) : Nat := rules.countP (·.wants c)

def question? (priority : Conditions) (rules : List Rule) : Option Condition :=
  (priority.members.find? (· ∈ wanted rules)).or ((wanted rules).argmax (demand rules))

theorem question?_eq_none_iff (priority : Conditions) {rules : List Rule} :
    question? priority rules = none ↔ wanted rules = [] := by
  rw [question?, Option.or_eq_none_iff, List.argmax_eq_none]
  constructor
  · exact And.right
  · intro h
    exact ⟨by simp [h], h⟩

theorem count_want (c : Condition) (r : Rule) :
    r.want.members.count c = if r.wants c then 1 else 0 := by
  rw [r.want.nodup.count]
  simp only [Rule.wants, Conditions.contains_iff, Conditions.mem_iff]

theorem count_wanted (c : Condition) (rules : List Rule) :
    (wanted rules).count c = demand rules c := by
  induction rules with
  | nil => rfl
  | cons r rules ih =>
    have hw : wanted (r :: rules) = r.want.members ++ wanted rules := rfl
    rw [hw, List.count_append, ih, count_want, demand, demand, List.countP_cons]
    omega

section

variable {α : Type} (f : α → Nat)

/-- The greater of two, the first one if they are equal, as the maximum of a list takes it. -/
theorem argAux_some (a b : α) :
    List.argAux (fun x y => f y < f x) (some a) b = some (if f a < f b then b else a) := by
  simp only [List.argAux]
  split <;> rfl

theorem foldl_best (a : α) (l : List α) :
    some ((l.map fun c => (c, f c)).foldl
      (fun best next => if best.2 < next.2 then next else best) (a, f a)) =
      (l.foldl (List.argAux fun x y => f y < f x) (some a)).map fun c => (c, f c) := by
  induction l generalizing a with
  | nil => rfl
  | cons b l ih =>
    rw [List.map_cons, List.foldl_cons, List.foldl_cons, argAux_some, ← ih]
    by_cases h : f a < f b
    · simp only [if_pos h]
    · simp only [if_neg h]

theorem foldl_argAux_filter [DecidableEq α] {a b : α} (l : List α) (h : f a ≤ f b) :
    (l.filter fun x => !x == a).foldl (List.argAux fun x y => f y < f x) (some b) =
      l.foldl (List.argAux fun x y => f y < f x) (some b) := by
  induction l generalizing b with
  | nil => rfl
  | cons c l ih =>
    by_cases hc : c = a
    · subst hc
      have hn : ¬ f b < f c := by omega
      rw [List.filter_cons_of_neg (by simp), List.foldl_cons, argAux_some, if_neg hn]
      exact ih h
    · rw [List.filter_cons_of_pos (by simpa using hc), List.foldl_cons, List.foldl_cons,
        argAux_some]
      by_cases hlt : f b < f c
      · rw [if_pos hlt]
        exact ih (by omega)
      · rw [if_neg hlt]
        exact ih h

theorem argmax_eraseDups [DecidableEq α] (l : List α) : l.eraseDups.argmax f = l.argmax f := by
  induction l using firsts_induction with
  | nil => rfl
  | cons a l ih =>
    have hfilter : (a :: l.filter fun x => !x == a).argmax f = (a :: l).argmax f :=
      foldl_argAux_filter f l (Nat.le_refl (f a))
    rw [List.eraseDups_cons, List.argmax_cons, ih, ← List.argmax_cons]
    exact hfilter

end

theorem mostFrequent?_map {f : Condition → Nat} (l : List Condition) :
    mostFrequent? (l.map fun c => (c, f c)) = (l.argmax f).map fun c => (c, f c) := by
  cases l with
  | nil => rfl
  | cons a l => exact foldl_best f a l

theorem occurrences_eq (rules : List Rule) :
    occurrences rules = (wanted rules).eraseDups.map fun c => (c, demand rules c) := by
  simp only [occurrences, count_wanted]

theorem mostFrequent?_occurrences (rules : List Rule) :
    mostFrequent? (occurrences rules) =
      ((wanted rules).argmax (demand rules)).map fun c => (c, demand rules c) := by
  rw [occurrences_eq, mostFrequent?_map, argmax_eraseDups]

theorem find?_zipIdx {α : Type} (p : α → Bool) (l : List α) (k : Nat) :
    ((l.zipIdx k).find? fun x => p x.1).map Prod.fst = l.find? p := by
  induction l generalizing k with
  | nil => rfl
  | cons a l ih => cases h : p a <;> simp [h, ih]

theorem preferred?_map (priority : Conditions) (rules : List Rule) :
    (preferred? priority rules).map Prod.fst = priority.members.find? (· ∈ wanted rules) := by
  simp only [preferred?, List.contains_eq_mem]
  exact find?_zipIdx (fun c => decide (c ∈ wanted rules)) priority.members 0

theorem question?_eq (priority : Conditions) (rules : List Rule) :
    question? priority rules = (pivot? priority rules).map Pivot.condition := by
  unfold question? pivot?
  rw [← preferred?_map, mostFrequent?_occurrences]
  cases preferred? priority rules with
  | some p => cases (wanted rules).argmax (demand rules) <;> rfl
  | none => cases (wanted rules).argmax (demand rules) <;> rfl

theorem pivot?_eq_none_iff {priority : Conditions} {rules : List Rule} :
    pivot? priority rules = none ↔ wanted rules = [] := by
  rw [← question?_eq_none_iff priority, question?_eq, Option.map_eq_none_iff]

theorem Rule.wants_iff {r : Rule} {c : Condition} : r.wants c = true ↔ c ∈ r.want :=
  Conditions.contains_iff

theorem Rule.mem_strike {r : Rule} {c d : Condition} :
    d ∈ (r.strike c).want ↔ d ≠ c ∧ d ∈ r.want :=
  Conditions.mem_erase

theorem mem_matching {c : Condition} {rules : List Rule} {s : Rule} :
    s ∈ matching c rules ↔ ∃ r ∈ rules, c ∈ r.want ∧ r.strike c = s := by
  simp only [matching, List.mem_map, List.mem_filter, Rule.wants_iff, and_assoc]

theorem matching_ne_nil {c : Condition} {rules : List Rule} (h : c ∈ wanted rules) :
    matching c rules ≠ [] := by
  obtain ⟨r, hr, hc⟩ := mem_wanted.1 h
  exact List.ne_nil_of_mem (mem_matching.2 ⟨r, hr, hc, rfl⟩)

theorem mem_failing {c : Condition} {rules : List Rule} {s : Rule} :
    s ∈ failing c rules ↔ s ∈ rules ∧ c ∉ s.want := by
  simp [failing, ← Rule.wants_iff]

theorem mem_wanted_matching {rules : List Rule} {c d : Condition} :
    d ∈ wanted (matching c rules) ↔ d ≠ c ∧ ∃ r ∈ rules, c ∈ r.want ∧ d ∈ r.want := by
  rw [mem_wanted]
  constructor
  · rintro ⟨s, hs, hd⟩
    obtain ⟨r, hr, hc, rfl⟩ := mem_matching.1 hs
    obtain ⟨hne, hd⟩ := Rule.mem_strike.1 hd
    exact ⟨hne, r, hr, hc, hd⟩
  · rintro ⟨hne, r, hr, hc, hd⟩
    exact ⟨r.strike c, mem_matching.2 ⟨r, hr, hc, rfl⟩, Rule.mem_strike.2 ⟨hne, hd⟩⟩

theorem mem_wanted_of_matching {rules : List Rule} {c d : Condition}
    (h : d ∈ wanted (matching c rules)) : d ∈ wanted rules := by
  obtain ⟨_, r, hr, _, hd⟩ := mem_wanted_matching.1 h
  exact mem_wanted.2 ⟨r, hr, hd⟩

theorem mem_wanted_of_failing {rules : List Rule} {c d : Condition}
    (h : d ∈ wanted (failing c rules)) : d ∈ wanted rules := by
  obtain ⟨r, hr, hd⟩ := mem_wanted.1 h
  exact mem_wanted.2 ⟨r, (mem_failing.1 hr).1, hd⟩

theorem not_mem_wanted_matching (c : Condition) (rules : List Rule) :
    c ∉ wanted (matching c rules) := fun h => (mem_wanted_matching.1 h).1 rfl

theorem not_mem_wanted_failing (c : Condition) (rules : List Rule) :
    c ∉ wanted (failing c rules) := by
  intro h
  obtain ⟨r, hr, hc⟩ := mem_wanted.1 h
  exact (mem_failing.1 hr).2 hc

/-- A plan for some rules that may choose its conditions as it likes, as long as a rule wants them.
-/
inductive Plan.Splits : Plan → List Rule → Prop where
  | settled {rules : List Rule} (h : wanted rules = []) : Splits (.settled rules) rules
  | split {rules : List Rule} {p : Pivot} {m f : Plan} (h : p.condition ∈ wanted rules)
      (hm : Splits m (matching p.condition rules)) (hf : Splits f (failing p.condition rules)) :
      Splits (.split p m f) rules

theorem Plan.splits_ofRules (priority : Conditions) (rules : List Rule) :
    (ofRules priority rules).Splits rules := by
  fun_induction ofRules priority rules with
  | case1 rules h => exact .settled (pivot?_eq_none_iff.1 h)
  | case2 rules p h hw hm hf => exact .split hw hm hf

end Verdict
