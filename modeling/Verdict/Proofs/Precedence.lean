import Verdict.Proofs.Choice
import Verdict.Proofs.Compaction

/-! Which rule of a domain wins. In whatever order the conditions are asked for, the rules that are
left in the end are those that want exactly the conditions which were asked for and held. So a rule
that wins is as specific as a rule can be whose conditions all hold, and where no rule has all its
conditions the domain leaves the query to what comes after it.
-/

set_option autoImplicit false

namespace Verdict

instance : HasSubset Conditions := ⟨fun s t => ∀ c, c ∈ s → c ∈ t⟩

instance : HasSSubset Conditions := ⟨fun s t => s ⊆ t ∧ ¬ t ⊆ s⟩

def Rule.Alike (r s : Rule) : Prop := ∀ c, c ∈ r.want ↔ c ∈ s.want

def Plan.held (query : Conditions) : Plan → List Condition
  | .settled _ => []
  | .split p m f => if p.condition ∈ query then p.condition :: m.held query else f.held query

/-- What is known of the rules that are left after some conditions have been found to hold. Their
results are those of the rules that want these conditions and no others; a rule whose conditions all
hold wants no more than these if it wants all of these, and a rule that wants all that holds wants
exactly these. -/
structure Remnant (rules : List Rule) (query : Conditions) (held : List Condition)
    (left : List Rule) : Prop where
  held_query : ∀ c ∈ held, c ∈ query
  held_wanted : ∀ c ∈ held, c ∈ wanted rules
  results : ∀ outcome, (∃ s ∈ left, s.result = outcome) ↔
    ∃ r ∈ rules, (∀ c, c ∈ r.want ↔ c ∈ held) ∧ r.result = outcome
  greatest : ∀ r ∈ rules, r.want ⊆ query → (∀ c ∈ held, c ∈ r.want) → ∀ c ∈ r.want, c ∈ held
  exact : ∀ r ∈ rules, (∀ c, c ∈ r.want ↔ c ∈ query ∧ c ∈ wanted rules) →
    ∀ c, c ∈ r.want ↔ c ∈ held

namespace Remnant

variable {rules left : List Rule} {query : Conditions} {held : List Condition} {c : Condition}

theorem settled (query : Conditions) (h : wanted rules = []) : Remnant rules query [] rules := by
  have hempty : ∀ r ∈ rules, ∀ c, c ∉ r.want := by
    intro r hr c hc
    have hw : c ∈ wanted rules := mem_wanted.2 ⟨r, hr, hc⟩
    rw [h] at hw
    cases hw
  refine ⟨?_, ?_, ?_, ?_, ?_⟩
  · intro c hc
    cases hc
  · intro c hc
    cases hc
  · intro outcome
    constructor
    · rintro ⟨r, hr, ho⟩
      exact ⟨r, hr, fun c => ⟨fun hc => absurd hc (hempty r hr c), fun hc => by cases hc⟩, ho⟩
    · rintro ⟨r, hr, _, ho⟩
      exact ⟨r, hr, ho⟩
  · intro r hr _ _ c hc
    exact absurd hc (hempty r hr c)
  · intro r hr _ c
    exact ⟨fun hc => absurd hc (hempty r hr c), fun hc => by cases hc⟩

theorem strike_iff {r : Rule} (hc : c ∈ r.want) (hn : c ∉ held) :
    (∀ d, d ∈ (r.strike c).want ↔ d ∈ held) ↔ ∀ d, d ∈ r.want ↔ d ∈ c :: held := by
  constructor
  · intro h d
    by_cases hd : d = c
    · subst hd
      simp [hc]
    · rw [List.mem_cons, ← h d, Rule.mem_strike]
      simp [hd]
  · intro h d
    rw [Rule.mem_strike, h d, List.mem_cons]
    by_cases hd : d = c
    · subst hd
      simp [hn]
    · simp [hd]

theorem holds (hq : c ∈ query) (hw : c ∈ wanted rules)
    (h : Remnant (matching c rules) query held left) : Remnant rules query (c :: held) left := by
  have hn : c ∉ held := fun hc => (mem_wanted_matching.1 (h.held_wanted c hc)).1 rfl
  refine ⟨?_, ?_, ?_, ?_, ?_⟩
  · intro d hd
    rcases List.mem_cons.1 hd with rfl | hd
    · exact hq
    · exact h.held_query d hd
  · intro d hd
    rcases List.mem_cons.1 hd with rfl | hd
    · exact hw
    · exact mem_wanted_of_matching (h.held_wanted d hd)
  · intro outcome
    rw [h.results outcome]
    constructor
    · rintro ⟨s, hs, hsame, ho⟩
      obtain ⟨r, hr, hc, rfl⟩ := mem_matching.1 hs
      exact ⟨r, hr, (strike_iff hc hn).1 hsame, ho⟩
    · rintro ⟨r, hr, hsame, ho⟩
      have hc : c ∈ r.want := (hsame c).2 List.mem_cons_self
      exact ⟨r.strike c, mem_matching.2 ⟨r, hr, hc, rfl⟩, (strike_iff hc hn).2 hsame, ho⟩
  · intro r hr hsub hall d hd
    by_cases hdc : d = c
    · rw [hdc]
      exact List.mem_cons_self
    · have hc : c ∈ r.want := hall c List.mem_cons_self
      refine List.mem_cons_of_mem c (h.greatest (r.strike c)
        (mem_matching.2 ⟨r, hr, hc, rfl⟩) ?_ ?_ d (Rule.mem_strike.2 ⟨hdc, hd⟩))
      · intro x hx
        exact hsub x (Rule.mem_strike.1 hx).2
      · intro x hx
        have hxc : x ≠ c := fun he => hn (he ▸ hx)
        exact Rule.mem_strike.2 ⟨hxc, hall x (List.mem_cons_of_mem c hx)⟩
  · intro r hr hsame
    have hc : c ∈ r.want := (hsame c).2 ⟨hq, hw⟩
    refine (strike_iff hc hn).1 (h.exact (r.strike c) (mem_matching.2 ⟨r, hr, hc, rfl⟩) ?_)
    intro d
    rw [Rule.mem_strike, hsame d, mem_wanted_matching]
    constructor
    · rintro ⟨hne, hdq, hdw⟩
      exact ⟨hdq, hne, r, hr, hc, (hsame d).2 ⟨hdq, hdw⟩⟩
    · rintro ⟨hdq, hne, s, hs, _, hds⟩
      exact ⟨hne, hdq, mem_wanted.2 ⟨s, hs, hds⟩⟩

theorem lacks (hq : c ∉ query) (h : Remnant (failing c rules) query held left) :
    Remnant rules query held left := by
  have hn : c ∉ held := fun hc => hq (h.held_query c hc)
  refine ⟨h.held_query, fun d hd => mem_wanted_of_failing (h.held_wanted d hd), ?_, ?_, ?_⟩
  · intro outcome
    rw [h.results outcome]
    constructor
    · rintro ⟨r, hr, hsame, ho⟩
      exact ⟨r, (mem_failing.1 hr).1, hsame, ho⟩
    · rintro ⟨r, hr, hsame, ho⟩
      have hc : c ∉ r.want := fun hc => hn ((hsame c).1 hc)
      exact ⟨r, mem_failing.2 ⟨hr, hc⟩, hsame, ho⟩
  · intro r hr hsub
    exact h.greatest r (mem_failing.2 ⟨hr, fun hc => hq (hsub c hc)⟩) hsub
  · intro r hr hsame
    have hrf : r ∈ failing c rules := mem_failing.2 ⟨hr, fun hc => hq ((hsame c).1 hc).1⟩
    refine h.exact r hrf ?_
    intro d
    constructor
    · intro hd
      exact ⟨((hsame d).1 hd).1, mem_wanted.2 ⟨r, hrf, hd⟩⟩
    · rintro ⟨hdq, hdw⟩
      exact (hsame d).2 ⟨hdq, mem_wanted_of_failing hdw⟩

end Remnant

theorem Plan.Splits.remnant {p : Plan} {rules : List Rule} (h : p.Splits rules)
    (query : Conditions) : Remnant rules query (p.held query) (p.reached query) := by
  induction h with
  | settled hw => exact Remnant.settled query hw
  | @split rules p m f hw _ _ hm hf =>
    unfold held reached
    by_cases hc : p.condition ∈ query
    · rw [if_pos hc, if_pos hc]
      exact hm.holds hc hw
    · rw [if_neg hc, if_neg hc]
      exact hf.lacks hc

/-- A rule decides an answer: its conditions all hold, no rule whose conditions all hold wants more,
and the answer is its result unless a rule that wants the same conditions has another result. -/
structure Decides (rules : List Rule) (query : Conditions) (e : Rule) (answer : Outcome) :
    Prop where
  listed : e ∈ rules
  satisfied : e.want ⊆ query
  mostSpecific : ∀ r ∈ rules, r.want ⊆ query → ¬ e.want ⊂ r.want
  agreed : (∀ r ∈ rules, r.Alike e → r.result = e.result) → answer = e.result
  contradicted : (∃ r ∈ rules, r.Alike e ∧ r.result ≠ e.result) → answer = Outcome.default

structure Precedence (rules : List Rule) (query : Conditions) (answer later : Outcome) : Prop where
  cases : answer = later ∨ ∃ e, Decides rules query e answer
  exact : (∃ e ∈ rules, ∀ c, c ∈ e.want ↔ c ∈ query ∧ c ∈ wanted rules) →
    ∃ e, Decides rules query e answer
  unsatisfied : (∀ r ∈ rules, ¬ r.want ⊆ query) → answer = later

namespace Remnant

variable {rules left : List Rule} {query : Conditions} {held : List Condition}

theorem decides (h : Remnant rules query held left) {e : Rule} (he : e ∈ rules)
    (hsame : ∀ c, c ∈ e.want ↔ c ∈ held) {answer : Outcome} (hv : verdict? left = some answer) :
    Decides rules query e answer := by
  have halike : ∀ r : Rule, r.Alike e ↔ ∀ c, c ∈ r.want ↔ c ∈ held := fun r =>
    forall_congr' fun c => by rw [hsame c]
  obtain ⟨s, hs, hse⟩ := (h.results e.result).2 ⟨e, he, hsame, rfl⟩
  refine ⟨he, ?_, ?_, ?_, ?_⟩
  · intro c hc
    exact h.held_query c ((hsame c).1 hc)
  · rintro r hr hsub ⟨hle, hnot⟩
    apply hnot
    intro c hc
    exact (hsame c).2 (h.greatest r hr hsub (fun d hd => hle d ((hsame d).2 hd)) c hc)
  · intro hagree
    have hall : ∀ t ∈ left, t.result = s.result := by
      intro t ht
      obtain ⟨r, hr, hrsame, hrt⟩ := (h.results t.result).1 ⟨t, ht, rfl⟩
      rw [← hrt, hagree r hr ((halike r).2 hrsame), hse]
    rw [verdict?_of_agree hs hall, hse] at hv
    exact (Option.some.inj hv).symm
  · rintro ⟨r, hr, hra, hne⟩
    obtain ⟨t, ht, htr⟩ := (h.results r.result).2 ⟨r, hr, (halike r).1 hra, rfl⟩
    have hdiffer : t.result ≠ s.result := by
      rw [htr, hse]
      exact hne
    rw [verdict?_of_differ ht hs hdiffer] at hv
    exact (Option.some.inj hv).symm

theorem precedence (h : Remnant rules query held left) (later : Outcome) :
    Precedence rules query ((verdict? left).getD later) later := by
  cases hv : verdict? left with
  | none =>
    have hleft : left = [] := verdict?_eq_none_iff.1 hv
    refine ⟨Or.inl rfl, ?_, fun _ => rfl⟩
    rintro ⟨e, he, hexact⟩
    obtain ⟨s, hs, _⟩ := (h.results e.result).2 ⟨e, he, h.exact e he hexact, rfl⟩
    rw [hleft] at hs
    cases hs
  | some answer =>
    have hleft : left ≠ [] := fun hnil => by
      rw [verdict?_eq_none_iff.2 hnil] at hv
      cases hv
    obtain ⟨s, hs⟩ := List.exists_mem_of_ne_nil left hleft
    obtain ⟨e, he, hsame, _⟩ := (h.results s.result).1 ⟨s, hs, rfl⟩
    have hd : Decides rules query e answer := h.decides he hsame hv
    refine ⟨Or.inr ⟨e, hd⟩, fun _ => ⟨e, hd⟩, ?_⟩
    intro hnone
    exact absurd hd.satisfied (hnone e he)

end Remnant

theorem Plan.Splits.precedence {p : Plan} {rules : List Rule} (h : p.Splits rules) (compact : Bool)
    (fallback : Branch) (query : Conditions) :
    Precedence rules query ((p.graft compact fallback).branch.search query)
      (fallback.search query) := by
  rw [Plan.search_graft]
  exact (h.remnant query).precedence (fallback.search query)

/-- The last part says that the order in which conditions are asked for does not matter: every other
plan for the rules of the domain obeys the same precedence. -/
theorem Spec.most_specific_wins (compact : Bool) (d : Domain) (rest : List Domain)
    (h : (Spec.mk (d :: rest)).Named) :
    ∃ t u, Spec.compile compact ⟨d :: rest⟩ = .ok t ∧ Spec.compile compact ⟨rest⟩ = .ok u ∧
      ∀ query, Precedence d.expand query (t.search query) (u.search query) ∧
        ∀ p : Plan, p.Splits d.expand →
          Precedence d.expand query ((p.graft compact u.root).branch.search query)
            (u.search query) := by
  refine ⟨Spec.tree compact ⟨d :: rest⟩, Spec.tree compact ⟨rest⟩,
    Spec.compile_of_named h compact, Spec.compile_of_named h.tail compact, ?_⟩
  intro query
  have hall : ∀ p : Plan, p.Splits d.expand →
      Precedence d.expand query
        ((p.graft compact (Spec.root compact ⟨rest⟩)).branch.search query)
        ((Spec.root compact ⟨rest⟩).search query) :=
    fun p hp => hp.precedence compact _ query
  exact ⟨hall d.plan (Plan.splits_ofRules d.priority d.expand), hall⟩

theorem Spec.most_specific_wins_orders :
    Spec.orders.Named ∧ ∃ t u, Spec.orders.compile true = .ok t ∧
      Spec.compile true ⟨[Domain.oldOrders]⟩ = .ok u ∧
      ∀ query, Precedence Domain.orders.expand query (t.search query) (u.search query) ∧
        ∀ p : Plan, p.Splits Domain.orders.expand →
          Precedence Domain.orders.expand query ((p.graft true u.root).branch.search query)
            (u.search query) :=
  ⟨by decide, Spec.most_specific_wins true Domain.orders [Domain.oldOrders] (by decide)⟩

end Verdict
