import Verdict.Proofs.Footprint
import Verdict.Proofs.Ways

/-! What is asked on a way through a compiled tree. Below a test its conditions are not asked for
again: where the test is passed they are struck from the rules, and where it fails the rules that
want them are gone. Compaction changes nothing about that, as it only leaves tests out or puts one
into the next. So no test of a domain is a repeated one, every leaf is reached by some query, and no
way asks for more conditions than the domains name.
-/

set_option autoImplicit false

namespace Verdict

theorem Branch.Every.of_way {b : Branch} {test : Conditions → Prop} {answer : Outcome → Prop}
    (h : b.Every test answer) {w : Trail} (hw : w ∈ b.ways) : ∀ t ∈ w.trials, test t.want := by
  induction b generalizing w with
  | leaf outcome =>
    rw [List.mem_singleton.1 hw]
    exact List.forall_mem_nil _
  | node want m f hm hf =>
    obtain ⟨htest, hmatch, hfail⟩ := h
    rcases mem_ways_node.1 hw with ⟨v, hv, rfl⟩ | ⟨v, hv, rfl⟩
    · exact List.forall_mem_cons.2 ⟨htest, hm hmatch hv⟩
    · exact List.forall_mem_cons.2 ⟨htest, hf hfail hv⟩

/-- The ways of a split on a condition, made from those of its sides. With compaction the split may
be left out, or the first test of the match side may ask for its condition as well. -/
inductive SplitWay (c : Condition) (m f : Branch) : Trail → Prop where
  | passed {v : Trail} (h : v ∈ m.ways) : SplitWay c m f (v.after ⟨.singleton c, true⟩)
  | failed {v : Trail} (h : v ∈ f.ways) : SplitWay c m f (v.after ⟨.singleton c, false⟩)
  | leftOut {v : Trail} (h : v ∈ f.ways) : SplitWay c m f v
  | takenOver {want : Conditions} {held : Bool} {v : Trail} (h : v.after ⟨want, held⟩ ∈ m.ways) :
      SplitWay c m f (v.after ⟨want.insert c, held⟩)

namespace Graft

variable {c : Condition} {m f : Graft} {w : Trail}

theorem way_node (hw : w ∈ (node c m f).branch.ways) : SplitWay c m.branch f.branch w := by
  rcases Branch.mem_ways_node.1 hw with ⟨v, hv, rfl⟩ | ⟨v, hv, rfl⟩
  · exact .passed hv
  · exact .failed hv

theorem way_join (hw : w ∈ (join c m f).branch.ways) : SplitWay c m.branch f.branch w := by
  rcases join_cases c m f with ⟨_, hj⟩ | ⟨_, want, inner, fail, hb, _, hj⟩ | ⟨_, _, hj⟩
  · rw [hj] at hw
    exact .leftOut hw
  · rw [hj] at hw
    rw [hb]
    rcases Branch.mem_ways_node.1 hw with ⟨v, hv, rfl⟩ | ⟨v, hv, rfl⟩
    · exact .takenOver (Branch.mem_ways_node.2 (Or.inl ⟨v, hv, rfl⟩))
    · exact .takenOver (Branch.mem_ways_node.2 (Or.inr ⟨v, hv, rfl⟩))
  · rw [hj] at hw
    exact way_node hw

end Graft

theorem Plan.way_settled {compact : Bool} {fallback : Branch} {rules : List Rule} {w : Trail}
    (hw : w ∈ ((settled rules).graft compact fallback).branch.ways) :
    w ∈ fallback.ways ∨ w.trials = [] := by
  rw [graft, branch_settlement] at hw
  cases hv : Verdict.verdict? rules with
  | none =>
    rw [hv] at hw
    exact Or.inl hw
  | some outcome =>
    rw [hv] at hw
    exact Or.inr (List.mem_singleton.1 hw ▸ rfl)

theorem Plan.way_settled_leaf {compact : Bool} {fallback : Outcome} {rules : List Rule} {w : Trail}
    (hw : w ∈ ((settled rules).graft compact (.leaf fallback)).branch.ways) : w.trials = [] := by
  rcases way_settled hw with hw | hw
  · exact List.mem_singleton.1 hw ▸ rfl
  · exact hw

theorem Plan.way_split {compact : Bool} {fallback : Branch} {p : Pivot} {m f : Plan} {w : Trail}
    (hw : w ∈ ((split p m f).graft compact fallback).branch.ways) :
    SplitWay p.condition (m.graft compact fallback).branch (f.graft compact fallback).branch w := by
  cases compact with
  | true => exact Graft.way_join hw
  | false => exact Graft.way_node hw

def longestWant (rules : List Rule) : Nat := (rules.map fun r => r.want.size).foldr max 0

theorem size_le_longestWant {rules : List Rule} {e : Rule} (he : e ∈ rules) :
    e.want.size ≤ longestWant rules := by
  induction rules with
  | nil => cases he
  | cons r rules ih =>
    rw [longestWant, List.map_cons, List.foldr_cons, ← longestWant]
    rcases List.mem_cons.1 he with rfl | he
    · exact Nat.le_max_left _ _
    · exact (ih he).trans (Nat.le_max_right _ _)

namespace Plan.Splits

variable {p : Plan} {rules : List Rule} {compact : Bool}

section

variable {fallback : Outcome} {w : Trail}

theorem of_way (h : p.Splits rules) (hw : w ∈ (p.graft compact (.leaf fallback)).branch.ways) :
    ∀ t ∈ w.trials, t.want.members ≠ [] ∧ ∀ c ∈ t.want, c ∈ wanted rules := by
  have hevery : (p.graft compact (.leaf fallback)).branch.Every
      (fun want => want.members ≠ [] ∧ ∀ c ∈ want, c ∈ wanted rules) fun _ => True := by
    refine h.every compact ?_ ?_ trivial (fun _ _ => trivial) trivial
    · intro c hc
      refine ⟨List.cons_ne_nil c [], fun d hd => ?_⟩
      obtain rfl := List.mem_singleton.1 hd
      exact hc
    · rintro c hc want ⟨_, hwant⟩
      have hmem : c ∈ (want.insert c).members := Conditions.mem_insert.2 (Or.inr rfl)
      refine ⟨List.ne_nil_of_mem hmem, fun d hd => ?_⟩
      rcases Conditions.mem_insert.1 hd with hd | rfl
      · exact hwant d hd
      · exact hc
  exact hevery.of_way hw

theorem apart_of_way (h : p.Splits rules)
    (hw : w ∈ (p.graft compact (.leaf fallback)).branch.ways) {c : Condition}
    (hc : c ∉ wanted rules) {t : Trial} (ht : t ∈ w.trials) : c ∉ t.want :=
  fun hct => hc ((h.of_way hw t ht).2 c hct)

theorem unrepeated (h : p.Splits rules)
    (hw : w ∈ (p.graft compact (.leaf fallback)).branch.ways) : w.Unrepeated := by
  induction h generalizing w with
  | settled _ =>
    rw [Trail.Unrepeated, way_settled_leaf hw]
    exact List.Pairwise.nil
  | @split rules p m f hp hms hfs hm hf =>
    cases way_split hw with
    | @passed v hv =>
      refine Trail.unrepeated_after.2 ⟨fun u hu c hc => ?_, hm hv⟩
      obtain rfl := List.mem_singleton.1 hc
      exact hms.apart_of_way hv (not_mem_wanted_matching _ _) hu
    | @failed v hv =>
      refine Trail.unrepeated_after.2 ⟨fun u hu c hc => ?_, hf hv⟩
      obtain rfl := List.mem_singleton.1 hc
      exact hfs.apart_of_way hv (not_mem_wanted_failing _ _) hu
    | leftOut hv => exact hf hv
    | @takenOver want held v hv =>
      -- The test that takes the condition over is apart from the later ones by itself.
      obtain ⟨hapart, hrest⟩ := Trail.unrepeated_after.1 (hm hv)
      refine Trail.unrepeated_after.2 ⟨fun u hu c hc => ?_, hrest⟩
      rcases Conditions.mem_insert.1 hc with hc | rfl
      · exact hapart u hu c hc
      · exact hms.apart_of_way hv (not_mem_wanted_matching _ _) (List.mem_cons_of_mem _ hu)

/-- A query that holds what was matched on a way, and nothing else that a rule wants, takes this
way. -/
theorem trail_eq_of_matched (h : p.Splits rules)
    (hw : w ∈ (p.graft compact (.leaf fallback)).branch.ways) {query : Conditions}
    (hq : ∀ c ∈ wanted rules, c ∈ query ↔ c ∈ w.matched) :
    (p.graft compact (.leaf fallback)).branch.trail query = w := by
  have hwanted := h.of_way hw
  refine Branch.trail_eq_of_fits hw ((h.unrepeated hw).fits (fun t ht => (hwanted t ht).1) ?_)
  intro t ht c hc
  exact hq c ((hwanted t ht).2 c hc)

theorem trail_ofList_matched (h : p.Splits rules)
    (hw : w ∈ (p.graft compact (.leaf fallback)).branch.ways) :
    (p.graft compact (.leaf fallback)).branch.trail (.ofList w.matched) = w :=
  h.trail_eq_of_matched hw fun _ _ => Conditions.mem_ofList

theorem length_matched_le (h : p.Splits rules)
    (hw : w ∈ (p.graft compact (.leaf fallback)).branch.ways) {bound : Nat}
    (hbound : ∀ e ∈ rules, e.want.size ≤ bound) : w.matched.length ≤ bound := by
  induction h generalizing w bound with
  | settled _ =>
    rw [Trail.matched, way_settled_leaf hw]
    exact Nat.zero_le _
  | @split rules p m f hp _ _ hm hf =>
    have hfail : ∀ v ∈ (f.graft compact (.leaf fallback)).branch.ways,
        v.matched.length ≤ bound :=
      fun v hv => hf hv fun e he => hbound e (mem_failing.1 he).1
    have hmatch : ∀ v ∈ (m.graft compact (.leaf fallback)).branch.ways,
        v.matched.length + 1 ≤ bound := by
      obtain ⟨r, hr, hc⟩ := mem_wanted.1 hp
      have hpos : 1 ≤ bound := (List.length_pos_of_mem hc).trans_le (hbound r hr)
      have hstruck : ∀ e ∈ matching p.condition rules, e.want.size ≤ bound - 1 := by
        intro e he
        obtain ⟨r, hr, hc, rfl⟩ := mem_matching.1 he
        have hsize := size_strike (Rule.wants_iff.2 hc)
        have hle := hbound r hr
        omega
      intro v hv
      have hle := hm hv hstruck
      omega
    cases way_split hw with
    | @passed v hv =>
      have hle := hmatch v hv
      rw [Trail.matched_after_held, List.length_append, Conditions.singleton,
        List.length_singleton]
      omega
    | @failed v hv => exact hfail v hv
    | leftOut hv => exact hfail w hv
    | @takenOver want held v hv =>
      have hle := hmatch _ hv
      cases held with
      | true =>
        have hinsert := want.size_insert_le p.condition
        rw [Trail.matched_after_held, List.length_append] at hle ⊢
        rw [Conditions.size, Conditions.size] at hinsert
        omega
      | false =>
        rw [Trail.matched_after_failed] at hle ⊢
        omega

end

theorem tested_le (h : p.Splits rules) {fallback : Branch} {bound : Nat}
    (hbound : ∀ v ∈ fallback.ways, v.tested ≤ bound) {names : Conditions}
    (hnames : ∀ c ∈ wanted rules, c ∈ names) {w : Trail}
    (hw : w ∈ (p.graft compact fallback).branch.ways) : w.tested ≤ names.size + bound := by
  induction h generalizing w names with
  | settled _ =>
    rcases way_settled hw with hw | hw
    · exact (hbound w hw).trans (Nat.le_add_left _ _)
    · rw [Trail.tested, hw]
      exact Nat.zero_le _
  | @split rules p m f hp _ _ hm hf =>
    have hsize := Conditions.size_erase (hnames _ hp)
    -- On neither side a rule still wants the condition.
    have hmatch : ∀ c ∈ wanted (matching p.condition rules), c ∈ names.erase p.condition :=
      fun c hc => Conditions.mem_erase.2
        ⟨(mem_wanted_matching.1 hc).1, hnames c (mem_wanted_of_matching hc)⟩
    have hfail : ∀ c ∈ wanted (failing p.condition rules), c ∈ names.erase p.condition :=
      fun c hc => Conditions.mem_erase.2
        ⟨fun he => not_mem_wanted_failing _ _ (he ▸ hc), hnames c (mem_wanted_of_failing hc)⟩
    have hone : (Conditions.singleton p.condition).size = 1 := rfl
    cases way_split hw with
    | @passed v hv =>
      have hle := hm hmatch hv
      rw [Trail.tested_after, hone]
      omega
    | @failed v hv =>
      have hle := hf hfail hv
      rw [Trail.tested_after, hone]
      omega
    | leftOut hv =>
      have hle := hf hfail hv
      omega
    | @takenOver want held v hv =>
      have hle := hm hmatch hv
      have hinsert := want.size_insert_le p.condition
      simp only [Trail.tested_after] at hle ⊢
      omega

end Plan.Splits

/-- A tree that asks for nothing twice on its way to a leaf, matches no more conditions on it than
some rule wants, and leads a query to each of its leaves. -/
structure Branch.Direct (b : Branch) (rules : List Rule) : Prop where
  unrepeated : ∀ w ∈ b.ways, w.Unrepeated
  matched : ∀ w ∈ b.ways, w.matched.length ≤ longestWant rules
  taken : ∀ w ∈ b.ways, ∀ query : Conditions, (∀ c, c ∈ query ↔ c ∈ w.matched) →
    b.trail query = w
  reached : ∀ sides outcome, b.follow sides = some (.leaf outcome) →
    ∃ query, (b.trail query).trials.map Trial.held = sides ∧ b.search query = outcome

theorem Plan.Splits.direct {p : Plan} {rules : List Rule} (h : p.Splits rules) (compact : Bool)
    (fallback : Outcome) : (p.graft compact (.leaf fallback)).branch.Direct rules := by
  refine ⟨fun w hw => h.unrepeated hw, fun w hw => h.length_matched_le hw fun e he =>
    size_le_longestWant he, fun w hw query hq => h.trail_eq_of_matched hw fun c _ => hq c, ?_⟩
  intro sides outcome hleaf
  obtain ⟨w, hw, hsides, houtcome⟩ := Branch.follow_eq_leaf_iff.1 hleaf
  have htaken := h.trail_ofList_matched hw
  refine ⟨.ofList w.matched, ?_, ?_⟩
  · rw [htaken, hsides]
  · rw [← Branch.outcome_trail, htaken, houtcome]

theorem Spec.tested_le (compact : Bool) (s : Spec) :
    ∀ w ∈ (s.root compact).ways, w.tested ≤ (s.domains.map fun d => d.conditions.size).sum := by
  unfold root
  induction s.domains with
  | nil =>
    intro w hw
    rw [List.mem_singleton.1 hw]
    exact Nat.zero_le _
  | cons d rest ih =>
    intro w hw
    rw [List.map_cons, List.sum_cons]
    exact (Plan.splits_ofRules d.priority d.expand).tested_le ih
      (fun _ => Domain.mem_wanted_expand.1) hw

/-- The later domains may ask again for what an earlier one asked for, so only a domain that stands
alone has no test in vain. -/
theorem Spec.asked_once (s : Spec) (h : s.Named) (compact : Bool) :
    ∃ t, s.compile compact = .ok t ∧
      (∀ w ∈ t.root.ways, w.tested ≤ (s.domains.map fun d => d.conditions.size).sum) ∧
      ∀ d, s.domains = [d] → t.root.Direct d.expand := by
  refine ⟨s.tree compact, Spec.compile_of_named h compact, s.tested_le compact, ?_⟩
  intro d hd
  have hroot : (s.tree compact).root = d.grow compact (.leaf Outcome.default) := by
    rw [tree, root, hd]
    rfl
  rw [hroot]
  exact (Plan.splits_ofRules d.priority d.expand).direct compact Outcome.default

theorem Spec.asked_once_orders :
    (Spec.mk [Domain.orders]).Named ∧ longestWant Domain.orders.expand = 2 ∧
      ∃ t, Spec.compile true ⟨[Domain.orders]⟩ = .ok t ∧ t.root.Direct Domain.orders.expand ∧
        ∀ w ∈ t.root.ways, w.tested ≤ 4 := by
  obtain ⟨t, ht, htested, hdirect⟩ := Spec.asked_once ⟨[Domain.orders]⟩ (by decide) true
  exact ⟨by decide, by decide, t, ht, hdirect Domain.orders rfl, htested⟩

end Verdict
