import Verdict.Proofs.Chaining
import Verdict.Proofs.Likeness

/-! What the order inside sets of conditions can change. Equal sets may list their members in
different orders, and the choice of the condition to split on reads that order: it goes by the order
of preference, and a tie goes to the condition met first. So two specifications that are equal may
answer a query differently. They do not where the orders agree as far as the choice reads them, and
not where the same conditions are found to hold in the end whatever was asked for first.
-/

set_option autoImplicit false

namespace Verdict

/-- A list and the start of it may change places, as nothing is met for the first time in the second
of the two that would not be met in the same place before. -/
theorem eraseDups_swap {a b : List Condition} (h : a <+: b) (x : List Condition) :
    (a ++ (b ++ x)).eraseDups = (b ++ (a ++ x)).eraseDups := by
  obtain ⟨t, rfl⟩ := h
  have hself : a ⊆ a := fun _ hc => hc
  have hpart : a ⊆ a ++ t := fun _ hc => List.mem_append_left t hc
  calc (a ++ (a ++ t ++ x)).eraseDups
      = (a ++ (a ++ (t ++ x))).eraseDups := by rw [List.append_assoc]
    _ = (a ++ (t ++ x)).eraseDups := eraseDups_append_of_subset hself _
    _ = (a ++ t ++ x).eraseDups := by rw [List.append_assoc]
    _ = (a ++ t ++ (a ++ x)).eraseDups := (eraseDups_append_of_subset hpart x).symm

def Conditions.unlisted (s priority : Conditions) : List Condition :=
  s.members.filter fun c => decide (c ∉ priority)

theorem Conditions.unlisted_erase (s priority : Conditions) (c : Condition) :
    (s.erase c).unlisted priority = (s.unlisted priority).filter (· != c) := by
  have herase : (s.erase c).members = s.members.filter (· != c) := s.nodup.erase_eq_filter c
  rw [unlisted, unlisted, herase, List.filter_comm]

theorem Conditions.unlisted_insert (s priority : Conditions) (c : Condition) :
    (s.insert c).unlisted priority =
      if c ∈ s ∨ c ∈ priority then s.unlisted priority else s.unlisted priority ++ [c] := by
  rw [unlisted, members_insert]
  by_cases hs : c ∈ s
  · rw [if_pos hs, if_pos (Or.inl hs), unlisted]
  · by_cases hp : c ∈ priority
    · simp [hs, hp, unlisted]
    · simp [hs, hp, unlisted]

/-- Of the unlisted conditions, one of the rules wants the first ones that the other wants. -/
def Rule.Nested (priority : Conditions) (r s : Rule) : Prop :=
  r.want.unlisted priority <+: s.want.unlisted priority ∨
    s.want.unlisted priority <+: r.want.unlisted priority

theorem Rule.Nested.strike {priority : Conditions} {r s : Rule} (h : r.Nested priority s)
    (c : Condition) : (r.strike c).Nested priority (s.strike c) := by
  simp only [Nested, Rule.strike, Conditions.unlisted_erase]
  exact h.imp (fun h => h.filter _) fun h => h.filter _

/-- The same rules in another order, with wants in another order, such that unlisted conditions are
first met in the same order on both sides, and still are when rules are left out or conditions are
struck on both sides alike. -/
inductive Rearranged (priority : Conditions) : List Rule → List Rule → Prop where
  | nil : Rearranged priority [] []
  | cons {r s : Rule} {rules rules' : List Rule} (htwin : r.Twin s)
      (hsame : r.want.unlisted priority = s.want.unlisted priority)
      (h : Rearranged priority rules rules') : Rearranged priority (r :: rules) (s :: rules')
  | swap {r s : Rule} (rules : List Rule) (h : r.Nested priority s) :
      Rearranged priority (r :: s :: rules) (s :: r :: rules)
  | trans {rules rules' rules'' : List Rule} (h : Rearranged priority rules rules')
      (h' : Rearranged priority rules' rules'') : Rearranged priority rules rules''

namespace Rearranged

variable {priority : Conditions} {rules rules' more more' : List Rule}

theorem refl (rules : List Rule) : Rearranged priority rules rules := by
  induction rules with
  | nil => exact .nil
  | cons r rules ih => exact .cons (.refl r) rfl ih

theorem prepend (rules : List Rule) (h : Rearranged priority more more') :
    Rearranged priority (rules ++ more) (rules ++ more') := by
  induction rules with
  | nil => exact h
  | cons r rules ih => exact .cons (.refl r) rfl ih

theorem append (h : Rearranged priority rules rules') (hmore : Rearranged priority more more') :
    Rearranged priority (rules ++ more) (rules' ++ more') := by
  induction h generalizing more more' with
  | nil => exact hmore
  | cons htwin hsame _ ih => exact .cons htwin hsame (ih hmore)
  | swap rules h =>
    exact .trans (.swap _ h) (.cons (.refl _) rfl (.cons (.refl _) rfl (prepend rules hmore)))
  | trans _ _ ih ih' => exact .trans (ih hmore) (ih' (refl _))

theorem paired (h : Rearranged priority rules rules') : Paired rules rules' := by
  induction h with
  | nil => exact .of_perm .nil
  | @cons r s rules rules' htwin _ _ ih =>
    have hone : Paired [r] [s] := .singleton htwin
    exact hone.append ih
  | @swap r s rules _ => exact .of_perm (.swap s r rules)
  | trans _ _ ih ih' => exact ih.trans ih'

theorem demand_eq (h : Rearranged priority rules rules') (c : Condition) :
    demand rules c = demand rules' c := by
  induction h with
  | nil => rfl
  | cons htwin _ _ ih =>
    simp only [demand, List.countP_cons, htwin.wants_eq c] at ih ⊢
    rw [ih]
  | swap rules _ =>
    simp only [demand, List.countP_cons]
    omega
  | trans _ _ ih ih' => exact ih.trans ih'

theorem firsts_eq (h : Rearranged priority rules rules') :
    ((wanted rules).filter fun c => decide (c ∉ priority)).eraseDups =
      ((wanted rules').filter fun c => decide (c ∉ priority)).eraseDups := by
  have hcons : ∀ (r : Rule) (rules : List Rule),
      ((wanted (r :: rules)).filter fun c => decide (c ∉ priority)) =
        r.want.unlisted priority ++ (wanted rules).filter fun c => decide (c ∉ priority) :=
    fun r rules => List.filter_append _ _
  induction h with
  | nil => rfl
  | cons _ hsame _ ih =>
    rw [hcons, hcons, hsame]
    exact eraseDups_append_congr rfl ih
  | swap rules h =>
    simp only [hcons]
    rcases h with h | h
    · exact eraseDups_swap h _
    · exact (eraseDups_swap h _).symm
  | trans _ _ ih ih' => exact ih.trans ih'

theorem matching (h : Rearranged priority rules rules') (c : Condition) :
    Rearranged priority (matching c rules) (matching c rules') := by
  induction h with
  | nil => exact .nil
  | cons htwin hsame _ ih =>
    rw [matching_cons, matching_cons, htwin.wants_eq c]
    split
    · refine .cons (htwin.strike c) ?_ ih
      rw [Rule.strike, Rule.strike, Conditions.unlisted_erase, Conditions.unlisted_erase, hsame]
    · exact ih
  | @swap r s rules h =>
    simp only [matching_cons]
    split
    · split
      · exact .swap _ (h.strike c)
      · exact refl _
    · exact refl _
  | trans _ _ ih ih' => exact .trans ih ih'

theorem failing (h : Rearranged priority rules rules') (c : Condition) :
    Rearranged priority (failing c rules) (failing c rules') := by
  induction h with
  | nil => exact .nil
  | cons htwin hsame _ ih =>
    rw [failing_cons, failing_cons, htwin.wants_eq c]
    split
    · exact ih
    · exact .cons htwin hsame ih
  | @swap r s rules h =>
    simp only [failing_cons]
    split
    · exact refl _
    · split
      · exact refl _
      · exact .swap _ h
  | trans _ _ ih ih' => exact .trans ih ih'

theorem question?_eq (h : Rearranged priority rules rules') {priority' names : Conditions}
    (hrank : priority.members.filter (fun c => decide (c ∈ names)) =
      priority'.members.filter fun c => decide (c ∈ names))
    (hnames : ∀ c ∈ wanted rules, c ∈ names) :
    question? priority rules = question? priority' rules' := by
  have hmem : ∀ c, c ∈ wanted rules ↔ c ∈ wanted rules' := fun c => h.paired.mem_wanted
  have hfind (order : Conditions) : order.members.find? (fun c => decide (c ∈ wanted rules)) =
      (order.members.filter fun c => decide (c ∈ names)).find?
        fun c => decide (c ∈ wanted rules) := by
    rw [List.find?_filter]
    congr 1
    funext c
    simpa using hnames c
  have hlisted : priority.members.find? (fun c => decide (c ∈ wanted rules)) =
      priority'.members.find? fun c => decide (c ∈ wanted rules') := by
    rw [hfind priority, hrank, ← hfind priority']
    simp only [hmem]
  rw [question?, question?, ← hlisted]
  cases hf : priority.members.find? (fun c => decide (c ∈ wanted rules)) with
  | some c => rfl
  | none =>
    -- Nothing that is wanted any more is listed, so what counts is the order of the unlisted.
    have hunlisted : ∀ c ∈ wanted rules, c ∉ priority := fun c hw hp => by
      simpa [hw] using List.find?_eq_none.1 hf c hp
    have hself : ((wanted rules).filter fun c => decide (c ∉ priority)) = wanted rules :=
      List.filter_eq_self.2 fun c hc => decide_eq_true (hunlisted c hc)
    have hself' : ((wanted rules').filter fun c => decide (c ∉ priority)) = wanted rules' :=
      List.filter_eq_self.2 fun c hc => decide_eq_true (hunlisted c ((hmem c).2 hc))
    have hfirsts := h.firsts_eq
    rw [hself, hself'] at hfirsts
    rw [Option.none_or, Option.none_or, ← argmax_eraseDups, hfirsts, argmax_eraseDups,
      funext h.demand_eq]

theorem held_eq (h : Rearranged priority rules rules') {priority' names : Conditions}
    (hrank : priority.members.filter (fun c => decide (c ∈ names)) =
      priority'.members.filter fun c => decide (c ∈ names))
    (hnames : ∀ c ∈ wanted rules, c ∈ names) (query : Conditions) :
    (Plan.ofRules priority rules).held query = (Plan.ofRules priority' rules').held query := by
  have hquestion := h.question?_eq hrank hnames
  fun_induction Plan.ofRules priority rules generalizing rules' with
  | case1 rules hp =>
    rw [Verdict.question?_eq, Verdict.question?_eq, hp] at hquestion
    rw [Plan.ofRules_none (Option.map_eq_none_iff.1 hquestion.symm)]
    rfl
  | case2 rules p hp _ hm hf =>
    rw [Verdict.question?_eq, Verdict.question?_eq, hp] at hquestion
    obtain ⟨p', hp', hsame⟩ := Option.map_eq_some_iff.1 hquestion.symm
    have hm' : ∀ c ∈ wanted (Verdict.matching p.condition rules), c ∈ names := fun c hc =>
      hnames c (mem_wanted_of_matching hc)
    have hf' : ∀ c ∈ wanted (Verdict.failing p.condition rules), c ∈ names := fun c hc =>
      hnames c (mem_wanted_of_failing hc)
    have hmatch := hm (h.matching p.condition) hm' ((h.matching p.condition).question?_eq hrank hm')
    have hfail := hf (h.failing p.condition) hf' ((h.failing p.condition).question?_eq hrank hf')
    rw [Plan.ofRules_some hp', Plan.held, Plan.held, hsame, hmatch, hfail]

end Rearranged

section

variable {priority : Conditions} {g : Condition → Rule}

theorem rearranged_map_congr {g' : Condition → Rule} {cs : List Condition}
    (h : ∀ c, (g c).Twin (g' c) ∧
      (g c).want.unlisted priority = (g' c).want.unlisted priority) :
    Rearranged priority (cs.map g) (cs.map g') := by
  induction cs with
  | nil => exact .nil
  | cons c cs ih => exact .cons (h c).1 (h c).2 ih

/-- A condition can be moved to the front of a list if it is listed or passes listed ones only, as
far as the rules made of a listed condition want no more than all the others do. -/
theorem rearranged_front
    (hg : ∀ c ∈ priority, ∀ d, (g c).want.unlisted priority <+: (g d).want.unlisted priority)
    {c : Condition} (before after : List Condition)
    (h : c ∈ priority ∨ ∀ d ∈ before, d ∈ priority) :
    Rearranged priority ((before ++ c :: after).map g) ((c :: (before ++ after)).map g) := by
  induction before with
  | nil => exact .refl _
  | cons d before ih =>
    have hnested : (g d).Nested priority (g c) := by
      rcases h with hc | hall
      · exact Or.inr (hg c hc d)
      · exact Or.inl (hg d (hall d List.mem_cons_self) c)
    have hrest := ih (h.imp_right fun hall x hx => hall x (List.mem_cons_of_mem d hx))
    exact .trans (.cons (.refl _) rfl hrest) (.swap _ hnested)

theorem rearranged_map
    (hg : ∀ c ∈ priority, ∀ d, (g c).want.unlisted priority <+: (g d).want.unlisted priority)
    {cs cs' : List Condition} (hperm : cs.Perm cs') (hnodup : cs.Nodup)
    (hsame : (cs.filter fun c => decide (c ∉ priority)) =
      cs'.filter fun c => decide (c ∉ priority)) :
    Rearranged priority (cs.map g) (cs'.map g) := by
  induction cs' generalizing cs with
  | nil =>
    rw [hperm.eq_nil]
    exact .nil
  | cons c cs' ih =>
    obtain ⟨before, after, rfl⟩ := List.append_of_mem (hperm.mem_iff.2 List.mem_cons_self)
    have hmiddle : (before ++ c :: after).Perm (c :: (before ++ after)) := List.perm_middle
    have hrest : (before ++ after).Perm cs' := (hmiddle.symm.trans hperm).cons_inv
    obtain ⟨hnew, hnodup'⟩ := List.nodup_cons.1 (hmiddle.nodup_iff.1 hnodup)
    have hdone : (c ∈ priority ∨ ∀ d ∈ before, d ∈ priority) ∧
        ((before ++ after).filter fun c => decide (c ∉ priority)) =
          cs'.filter fun c => decide (c ∉ priority) := by
      by_cases hc : c ∈ priority
      · have hskip (l : List Condition) : ((c :: l).filter fun c => decide (c ∉ priority)) =
            l.filter fun c => decide (c ∉ priority) := List.filter_cons_of_neg (by simpa using hc)
        rw [List.filter_append, hskip, hskip, ← List.filter_append] at hsame
        exact ⟨Or.inl hc, hsame⟩
      · have hkeep (l : List Condition) : ((c :: l).filter fun c => decide (c ∉ priority)) =
            c :: l.filter fun c => decide (c ∉ priority) :=
          List.filter_cons_of_pos (by simpa using hc)
        rw [List.filter_append, hkeep, hkeep] at hsame
        rw [List.filter_append]
        cases hb : before.filter fun c => decide (c ∉ priority) with
        | nil =>
          rw [hb] at hsame
          refine ⟨Or.inr fun d hd => ?_, (List.cons.inj hsame).2⟩
          simpa using List.filter_eq_nil_iff.1 hb d hd
        | cons d rest =>
          -- The first of the unlisted would be met twice.
          rw [hb] at hsame
          have hd : d ∈ before := (List.mem_filter.1 (hb ▸ List.mem_cons_self)).1
          obtain rfl : d = c := (List.cons.inj hsame).1
          exact absurd (List.mem_append_left after hd) hnew
    exact .trans (rearranged_front hg before after hdone.1)
      (.cons (.refl _) rfl (ih hrest hnodup' hdone.2))

end

theorem Rule.rearranged_expand {priority : Conditions} {r s : Rule} (h : r.equiv s = true)
    (hwant : r.want.unlisted priority = s.want.unlisted priority)
    (hany : r.anyOf.unlisted priority = s.anyOf.unlisted priority) :
    Rearranged priority r.expand s.expand := by
  obtain ⟨hresult, halike, hmem⟩ := equiv_iff.1 h
  have hperm : r.anyOf.members.Perm s.anyOf.members :=
    (List.perm_ext_iff_of_nodup r.anyOf.nodup s.anyOf.nodup).2 hmem
  unfold expand
  by_cases hempty : r.anyOf.isEmpty = true
  · have hempty' : s.anyOf.isEmpty = true := by
      rw [Conditions.isEmpty, List.isEmpty_iff] at hempty ⊢
      rw [hempty] at hperm
      exact hperm.nil_eq.symm
    rw [if_pos hempty, if_pos hempty']
    exact .cons ⟨hresult, halike⟩ hwant .nil
  · have hempty' : ¬ s.anyOf.isEmpty = true := by
      rw [Conditions.isEmpty, List.isEmpty_iff] at hempty ⊢
      intro hnil
      rw [hnil] at hperm
      exact hempty hperm.eq_nil
    rw [if_neg hempty, if_neg hempty']
    -- First the wants are put in their new order, then the alternatives.
    have hwants : Rearranged priority
        (r.anyOf.members.map fun c => ⟨r.result, r.want.insert c, .empty⟩)
        (r.anyOf.members.map fun c => ⟨s.result, s.want.insert c, .empty⟩) := by
      refine rearranged_map_congr fun c => ⟨⟨hresult, fun d => ?_⟩, ?_⟩
      · rw [Conditions.mem_insert, Conditions.mem_insert, halike d]
      · simp only [Conditions.unlisted_insert, halike c, hwant]
    refine hwants.trans (rearranged_map (fun c hc d => ?_) hperm r.anyOf.nodup hany)
    simp only [Conditions.unlisted_insert, hc, or_true, if_true]
    split
    · exact List.prefix_rfl
    · exact List.prefix_append _ _

theorem rearranged_flatMap {priority : Conditions} {rules rules' : List Rule}
    (h : List.Forall₂ (fun r s : Rule => r.equiv s = true) rules rules')
    (hsame : List.Forall₂ (fun r s : Rule =>
      r.want.unlisted priority = s.want.unlisted priority ∧
        r.anyOf.unlisted priority = s.anyOf.unlisted priority) rules rules') :
    Rearranged priority (rules.flatMap Rule.expand) (rules'.flatMap Rule.expand) := by
  induction h with
  | nil => exact .nil
  | cons hr _ ih =>
    obtain ⟨⟨hwant, hany⟩, hsame⟩ := List.forall₂_cons.1 hsame
    rw [List.flatMap_cons, List.flatMap_cons]
    exact (Rule.rearranged_expand hr hwant hany).append (ih hsame)

/-- The two domains have sets in the same order as far as the choice of conditions reads it: listed
conditions stand in the same order in the orders of preference, and unlisted ones in all other
sets. -/
structure Domain.SameOrder (d e : Domain) : Prop where
  listed : d.priority.members.filter (fun c => decide (c ∈ d.conditions)) =
    e.priority.members.filter fun c => decide (c ∈ d.conditions)
  unlisted : List.Forall₂ (fun r s : Rule =>
    r.want.unlisted d.priority = s.want.unlisted d.priority ∧
      r.anyOf.unlisted d.priority = s.anyOf.unlisted d.priority) d.rules e.rules

theorem Domain.SameOrder.held_eq {d e : Domain} (h : d.SameOrder e) (heq : d.equiv e = true)
    (query : Conditions) : d.plan.held query = e.plan.held query := by
  have hrules : Rearranged d.priority d.expand e.expand :=
    rearranged_flatMap (equiv_iff.1 heq).1 h.unlisted
  exact hrules.held_eq h.listed (fun c hc => mem_wanted_expand.1 hc) query

/-- No difference in order shows when the query is asked of these domains: the order is the same
wherever it is read, or the same conditions are found to hold, or no rule has all that it wants, or
some rule wants all that holds. -/
inductive Domain.Steady (query : Conditions) (d e : Domain) : Prop where
  | ordered (h : d.SameOrder e)
  | held (h : ∀ c, c ∈ d.plan.held query ↔ c ∈ e.plan.held query)
  | unsatisfied (h : ∀ r ∈ d.expand, ¬ r.want ⊆ query)
  | exact (h : ∃ r ∈ d.expand, ∀ c, c ∈ r.want ↔ c ∈ query ∧ c ∈ d.conditions)

theorem Domain.remnant (d : Domain) (query : Conditions) :
    Remnant d.expand query (d.plan.held query) (d.plan.reached query) :=
  (Plan.splits_ofRules d.priority d.expand).remnant query

theorem Domain.Steady.verdict?_eq {d e : Domain} {query : Conditions} (h : Steady query d e)
    (heq : d.equiv e = true) : d.plan.verdict? query = e.plan.verdict? query := by
  have hpair := Domain.paired_expand heq
  have hremnant := d.remnant query
  have hremnant' := e.remnant query
  cases h with
  | ordered h =>
    exact hremnant.verdict?_eq hremnant' hpair fun c => by rw [h.held_eq heq query]
  | held h => exact hremnant.verdict?_eq hremnant' hpair h
  | unsatisfied h =>
    have h' : ∀ s ∈ e.expand, ¬ s.want ⊆ query := by
      intro s hs hsub
      obtain ⟨r, hr, ht⟩ := hpair.right s hs
      exact h r hr fun c hc => hsub c ((ht.alike c).2 hc)
    unfold plan
    rw [← judgeRules_eq_verdict?, ← judgeRules_eq_verdict?, judgeRules_eq_none h,
      judgeRules_eq_none h']
  | exact h =>
    obtain ⟨r, hr, hexact⟩ := h
    obtain ⟨s, hs, ht⟩ := hpair.left r hr
    have hheld := hremnant.exact r hr fun c => by rw [hexact c, mem_wanted_expand]
    have hheld' := hremnant'.exact s hs fun c => by
      rw [← ht.alike c, hexact c, ← hpair.mem_wanted, mem_wanted_expand]
    exact hremnant.verdict?_eq hremnant' hpair fun c => by rw [← hheld c, ← hheld' c, ht.alike c]

theorem Spec.equal_but_for_order (compact : Bool) (s t : Spec) (hs : s.Named) (ht : t.Named)
    (heq : s.equiv t = true) :
    ∃ u v, s.compile compact = .ok u ∧ t.compile compact = .ok v ∧
      ∀ query, List.Forall₂ (Domain.Steady query) s.domains t.domains →
        u.search query = v.search query := by
  refine ⟨s.tree compact, t.tree compact, Spec.compile_of_named hs compact,
    Spec.compile_of_named ht compact, fun query hsteady => ?_⟩
  have hdomains := Spec.equiv_iff.1 heq
  show (s.root compact).search query = (t.root compact).search query
  rw [Spec.search_root, Spec.search_root]
  generalize s.domains = domains at hdomains hsteady ⊢
  generalize t.domains = domains' at hdomains hsteady ⊢
  induction hsteady with
  | nil => rfl
  | cons h _ ih =>
    obtain ⟨hequal, hdomains⟩ := List.forall₂_cons.1 hdomains
    rw [List.foldr_cons, List.foldr_cons, h.verdict?_eq hequal, ih hdomains]

def Spec.shuffledOrders : Spec :=
  ⟨[⟨[⟨⟨"approve"⟩, .ofList [⟨"verified"⟩, ⟨"paid"⟩], .empty⟩,
      ⟨⟨"review"⟩, .ofList [⟨"paid"⟩], .ofList [⟨"flagged"⟩, ⟨"new"⟩]⟩,
      ⟨⟨"refuse"⟩, .ofList [⟨"flagged"⟩, ⟨"paid"⟩], .empty⟩], .ofList [⟨"verified"⟩]⟩,
    ⟨[⟨⟨"reject"⟩, .ofList [⟨"notified"⟩, ⟨"expired"⟩], .empty⟩], .empty⟩]⟩

/-- An order of preference lists what moved in the first domain, and the single rule of the second
one wants all that can be asked for there. -/
theorem Spec.steady_shuffledOrders (query : Conditions) :
    List.Forall₂ (Domain.Steady query) Spec.orders.domains Spec.shuffledOrders.domains := by
  refine .cons (.ordered ⟨by decide, ?_⟩) (.cons ?_ .nil)
  · exact .cons (by decide) (.cons (by decide) (.cons (by decide) .nil))
  · by_cases h : ∀ c ∈ Domain.oldOrders.conditions, c ∈ query
    · refine .exact ⟨⟨⟨"reject"⟩, .ofList [⟨"expired"⟩, ⟨"notified"⟩], .empty⟩, by decide, ?_⟩
      exact fun c => ⟨fun hc => ⟨h c hc, hc⟩, fun hc => hc.2⟩
    · refine .unsatisfied fun r hr hsub => h ?_
      obtain rfl : r = ⟨⟨"reject"⟩, .ofList [⟨"expired"⟩, ⟨"notified"⟩], .empty⟩ :=
        List.mem_singleton.1 hr
      exact hsub

theorem Spec.equal_but_for_order_orders :
    Spec.orders.Named ∧ Spec.shuffledOrders.Named ∧
      Spec.orders.equiv Spec.shuffledOrders = true ∧ Spec.orders ≠ Spec.shuffledOrders ∧
      ∃ u v, Spec.orders.compile true = .ok u ∧ Spec.shuffledOrders.compile true = .ok v ∧
        ∀ query, u.search query = v.search query := by
  obtain ⟨u, v, hu, hv, hsame⟩ := Spec.equal_but_for_order true Spec.orders Spec.shuffledOrders
    (by decide) (by decide) (by decide)
  exact ⟨by decide, by decide, by decide, by decide, u, v, hu, hv,
    fun query => hsame query (Spec.steady_shuffledOrders query)⟩

structure Spec.Differ (s t : Spec) (query : Conditions) : Prop where
  left_named : s.Named
  right_named : t.Named
  equal : s.equiv t = true
  differ : ∀ compact, ∃ u v, s.compile compact = .ok u ∧ t.compile compact = .ok v ∧
    u.search query ≠ v.search query

theorem Spec.differ_of_judge {s t : Spec} {query : Conditions} (hs : s.Named) (ht : t.Named)
    (heq : s.equiv t = true) (h : judge query s.domains ≠ judge query t.domains) :
    s.Differ t query := by
  refine ⟨hs, ht, heq, fun compact => ⟨s.tree compact, t.tree compact,
    Spec.compile_of_named hs compact, Spec.compile_of_named ht compact, ?_⟩⟩
  show (s.root compact).search query ≠ (t.root compact).search query
  rwa [Spec.search_root_eq_judge, Spec.search_root_eq_judge]

def Domain.ofNames (priority : List String) (rules : List (String × List String × List String)) :
    Domain :=
  ⟨rules.map fun r => ⟨⟨r.1⟩, .ofList (r.2.1.map .mk), .ofList (r.2.2.map .mk)⟩,
    .ofList (priority.map .mk)⟩

/-- The order shows in each of the three kinds of sets: in what a rule wants, in its alternatives
and in the order of preference. -/
theorem Spec.order_observable :
    Spec.Differ ⟨[.ofNames [] [("X", ["A", "B"], []), ("Y", ["C"], [])]]⟩
        ⟨[.ofNames [] [("X", ["B", "A"], []), ("Y", ["C"], [])]]⟩ (.ofList [⟨"A"⟩, ⟨"C"⟩]) ∧
      Spec.Differ
        ⟨[.ofNames [] [("X", [], ["A", "C"]), ("Y", ["A", "B"], []), ("Z", ["C", "D"], [])]]⟩
        ⟨[.ofNames [] [("X", [], ["C", "A"]), ("Y", ["A", "B"], []), ("Z", ["C", "D"], [])]]⟩
        (.ofList [⟨"A"⟩, ⟨"C"⟩, ⟨"D"⟩]) ∧
      Spec.Differ ⟨[.ofNames ["A", "C"] [("X", ["A", "B"], []), ("Y", ["C"], [])]]⟩
        ⟨[.ofNames ["C", "A"] [("X", ["A", "B"], []), ("Y", ["C"], [])]]⟩
        (.ofList [⟨"A"⟩, ⟨"C"⟩]) := by
  refine ⟨?_, ?_, ?_⟩ <;>
    exact Spec.differ_of_judge (by decide) (by decide) (by decide) (by decide +kernel)

end Verdict
