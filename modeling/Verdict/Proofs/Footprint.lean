import Verdict.Proofs.Choice
import Verdict.Proofs.Compaction

/-! What a tree looks at and what it can answer. Every test of a compiled tree is made of conditions
that its rules name, and every answer but the default one is the result of a rule; expanding,
splitting, joining and falling back bring in nothing else. So two queries that hold the same of the
named conditions take the same way, whatever else they hold.
-/

set_option autoImplicit false

namespace Verdict

namespace Branch

def Every (test : Conditions → Prop) (answer : Outcome → Prop) : Branch → Prop
  | leaf outcome => answer outcome
  | node want m f => test want ∧ m.Every test answer ∧ f.Every test answer

variable {test test' : Conditions → Prop} {answer answer' : Outcome → Prop}

theorem every_iff_preorder {b : Branch} :
    b.Every test answer ↔ (∀ want m f, node want m f ∈ b.preorder → test want) ∧
      ∀ outcome, leaf outcome ∈ b.preorder → answer outcome := by
  induction b with
  | leaf outcome => simp [Every, preorder]
  | node want m f hm hf =>
    simp only [Every, hm, hf, preorder, List.mem_cons, List.mem_append, node.injEq, reduceCtorEq,
      false_or]
    constructor
    · rintro ⟨hw, ⟨hmt, hma⟩, hft, hfa⟩
      refine ⟨?_, fun o ho => ho.elim (hma o) (hfa o)⟩
      rintro want' m' f' (⟨rfl, _, _⟩ | h | h)
      · exact hw
      · exact hmt want' m' f' h
      · exact hft want' m' f' h
    · rintro ⟨ht, ha⟩
      exact ⟨ht want m f (.inl ⟨rfl, rfl, rfl⟩),
        ⟨fun w m' f' h => ht w m' f' (.inr (.inl h)), fun o h => ha o (.inl h)⟩,
        fun w m' f' h => ht w m' f' (.inr (.inr h)), fun o h => ha o (.inr h)⟩

theorem Every.imp {b : Branch} (h : b.Every test answer) (ht : ∀ want, test want → test' want)
    (ha : ∀ outcome, answer outcome → answer' outcome) : b.Every test' answer' := by
  induction b with
  | leaf outcome => exact ha outcome h
  | node want m f hm hf => exact ⟨ht want h.1, hm h.2.1, hf h.2.2⟩

theorem includes_congr {q₁ q₂ want : Conditions} (h : ∀ c ∈ want, c ∈ q₁ ↔ c ∈ q₂) :
    q₁.includes want = q₂.includes want := by
  rw [Bool.eq_iff_iff, Conditions.includes_iff, Conditions.includes_iff]
  exact forall₂_congr h

theorem Every.trail_eq {b : Branch} {q₁ q₂ : Conditions}
    (h : b.Every (fun want => ∀ c ∈ want, c ∈ q₁ ↔ c ∈ q₂) answer) : b.trail q₁ = b.trail q₂ := by
  induction b with
  | leaf outcome => rfl
  | node want m f hm hf =>
    obtain ⟨hw, hmatch, hfail⟩ := h
    simp only [trail, includes_congr hw, hm hmatch, hf hfail]

end Branch

namespace Graft

variable {test : Conditions → Prop} {answer : Outcome → Prop} {c : Condition} {m f : Graft}

theorem every_node (hc : test (.singleton c)) (hm : m.branch.Every test answer)
    (hf : f.branch.Every test answer) : (node c m f).branch.Every test answer :=
  ⟨hc, hm, hf⟩

theorem every_join (hc : test (.singleton c)) (hinsert : ∀ want, test want → test (want.insert c))
    (hm : m.branch.Every test answer) (hf : f.branch.Every test answer) :
    (join c m f).branch.Every test answer := by
  rcases join_cases c m f with ⟨_, hj⟩ | ⟨_, want, inner, fail, hb, _, hj⟩ | ⟨_, _, hj⟩
  · rw [hj]
    exact hf
  · rw [hb] at hm
    rw [hj]
    exact ⟨hinsert want hm.1, hm.2⟩
  · rw [hj]
    exact every_node hc hm hf

end Graft

theorem verdict?_mem {rules : List Rule} {outcome : Outcome} (h : verdict? rules = some outcome) :
    outcome = Outcome.default ∨ ∃ r ∈ rules, r.result = outcome := by
  cases rules with
  | nil => cases h
  | cons r rest =>
    rw [verdict?_cons, Option.some.injEq] at h
    split at h
    · exact Or.inr ⟨r, List.mem_cons_self, h⟩
    · exact Or.inl h.symm

/-- Tests are put together from wanted conditions, and answers are results, the default outcome or
those of the fallback. -/
theorem Plan.Splits.every {p : Plan} {rules : List Rule} (h : p.Splits rules) (compact : Bool)
    {fallback : Branch} {test : Conditions → Prop} {answer : Outcome → Prop}
    (hsingle : ∀ c ∈ wanted rules, test (.singleton c))
    (hinsert : ∀ c ∈ wanted rules, ∀ want, test want → test (want.insert c))
    (hdefault : answer Outcome.default) (hresult : ∀ r ∈ rules, answer r.result)
    (hfallback : fallback.Every test answer) :
    (p.graft compact fallback).branch.Every test answer := by
  induction h with
  | @settled rules _ =>
    rw [graft, branch_settlement]
    cases hv : Verdict.verdict? rules with
    | none => exact hfallback
    | some outcome =>
      rcases verdict?_mem hv with rfl | ⟨r, hr, rfl⟩
      · exact hdefault
      · exact hresult r hr
  | @split rules p m f hp _ _ hm hf =>
    have hmatch := hm (fun c hc => hsingle c (mem_wanted_of_matching hc))
      (fun c hc => hinsert c (mem_wanted_of_matching hc)) fun s hs => by
        obtain ⟨r, hr, _, rfl⟩ := mem_matching.1 hs
        exact hresult r hr
    have hfail := hf (fun c hc => hsingle c (mem_wanted_of_failing hc))
      (fun c hc => hinsert c (mem_wanted_of_failing hc)) fun s hs =>
        hresult s (mem_failing.1 hs).1
    cases compact with
    | true => exact Graft.every_join (hsingle _ hp) (hinsert _ hp) hmatch hfail
    | false => exact Graft.every_node (hsingle _ hp) hmatch hfail

theorem Rule.mem_expand {r e : Rule} :
    e ∈ r.expand ↔ (r.anyOf = .empty ∧ e = r) ∨
      ∃ c ∈ r.anyOf, e = ⟨r.result, r.want.insert c, .empty⟩ := by
  unfold expand
  by_cases h : r.anyOf.isEmpty = true
  · have he : r.anyOf = .empty := Conditions.isEmpty_iff.1 h
    rw [if_pos h, List.mem_singleton, he]
    simp [Conditions.empty, Conditions.mem_iff]
  · have he : r.anyOf ≠ .empty := fun he => h (Conditions.isEmpty_iff.2 he)
    rw [if_neg h, List.mem_map]
    simp [he, Conditions.mem_iff, eq_comm]

theorem Rule.result_of_mem_expand {r e : Rule} (he : e ∈ r.expand) : e.result = r.result := by
  rcases mem_expand.1 he with ⟨_, rfl⟩ | ⟨c, _, rfl⟩ <;> rfl

theorem Rule.exists_want_expand {r : Rule} {c : Condition} :
    (∃ e ∈ r.expand, c ∈ e.want) ↔ c ∈ r.want ∨ c ∈ r.anyOf := by
  constructor
  · rintro ⟨e, he, hc⟩
    rcases mem_expand.1 he with ⟨_, rfl⟩ | ⟨a, ha, rfl⟩
    · exact Or.inl hc
    · rcases Conditions.mem_insert.1 hc with hc | rfl
      · exact Or.inl hc
      · exact Or.inr ha
  · intro hc
    by_cases hempty : r.anyOf = .empty
    · refine ⟨r, mem_expand.2 (Or.inl ⟨hempty, rfl⟩), hc.resolve_right fun hany => ?_⟩
      rw [hempty] at hany
      cases hany
    · rcases hc with hc | hc
      · obtain ⟨a, ha⟩ := List.exists_mem_of_ne_nil r.anyOf.members
          fun hnil => hempty (Conditions.ext hnil)
        exact ⟨_, mem_expand.2 (Or.inr ⟨a, ha, rfl⟩), Conditions.mem_insert.2 (Or.inl hc)⟩
      · exact ⟨_, mem_expand.2 (Or.inr ⟨c, hc, rfl⟩), Conditions.mem_insert.2 (Or.inr rfl)⟩

namespace Domain

theorem mem_conditions {d : Domain} {c : Condition} :
    c ∈ d.conditions ↔ ∃ r ∈ d.rules, c ∈ r.want ∨ c ∈ r.anyOf := by
  rw [conditions, Conditions.mem_ofList]
  simp only [List.mem_flatMap, List.mem_append, Conditions.mem_iff]

theorem mem_wanted_expand {d : Domain} {c : Condition} :
    c ∈ wanted d.expand ↔ c ∈ d.conditions := by
  rw [mem_wanted, mem_conditions]
  constructor
  · rintro ⟨e, he, hc⟩
    obtain ⟨r, hr, her⟩ := List.mem_flatMap.1 he
    exact ⟨r, hr, Rule.exists_want_expand.1 ⟨e, her, hc⟩⟩
  · rintro ⟨r, hr, hc⟩
    obtain ⟨e, her, hce⟩ := Rule.exists_want_expand.2 hc
    exact ⟨e, List.mem_flatMap.2 ⟨r, hr, her⟩, hce⟩

theorem result_mem_outcomes {d : Domain} {e : Rule} (he : e ∈ d.expand) :
    e.result ∈ d.outcomes := by
  obtain ⟨r, hr, her⟩ := List.mem_flatMap.1 he
  rw [Rule.result_of_mem_expand her]
  exact List.mem_eraseDups.2 (List.mem_map_of_mem hr)

end Domain

/-- The conditions that some domain names. -/
def Spec.Names (s : Spec) (c : Condition) : Prop := ∃ d ∈ s.domains, c ∈ d.conditions

/-- The default outcome and the results of all domains. -/
def Spec.Gives (s : Spec) (outcome : Outcome) : Prop :=
  outcome = Outcome.default ∨ ∃ d ∈ s.domains, outcome ∈ d.outcomes

theorem Spec.every_root (compact : Bool) (s : Spec) :
    (s.root compact).Every (fun want => ∀ c ∈ want, s.Names c) s.Gives := by
  obtain ⟨domains⟩ := s
  unfold root
  induction domains with
  | nil => exact Or.inl rfl
  | cons d rest ih =>
    rw [List.foldr_cons]
    have hnamed : ∀ c ∈ wanted d.expand, (Spec.mk (d :: rest)).Names c := fun c hc =>
      ⟨d, List.mem_cons_self, Domain.mem_wanted_expand.1 hc⟩
    refine (Plan.splits_ofRules d.priority d.expand).every compact ?_ ?_ (Or.inl rfl) ?_ ?_
    · intro c hc x hx
      obtain rfl := List.mem_singleton.1 hx
      exact hnamed x hc
    · intro c hc want hwant x hx
      rcases Conditions.mem_insert.1 hx with hx | rfl
      · exact hwant x hx
      · exact hnamed x hc
    · intro e he
      exact Or.inr ⟨d, List.mem_cons_self, Domain.result_mem_outcomes he⟩
    · refine ih.imp ?_ ?_
      · intro want hwant c hc
        obtain ⟨e, he, hce⟩ := hwant c hc
        exact ⟨e, List.mem_cons_of_mem d he, hce⟩
      · rintro outcome (rfl | ⟨e, he, ho⟩)
        · exact Or.inl rfl
        · exact Or.inr ⟨e, List.mem_cons_of_mem d he, ho⟩

theorem Tree.mem_allConditions {t : Tree} {c : Condition} :
    c ∈ t.allConditions ↔ ∃ s ∈ t.conditions, c ∈ s := by
  rw [allConditions, Conditions.mem_ofList, List.mem_flatMap]
  rfl

/-- A tree that depends on its listed conditions alone. It tests nothing else, answers by the
default outcome or by one of its listed outcomes, and takes two queries that hold the same of the
listed conditions the same way. -/
structure Tree.Confined (t : Tree) : Prop where
  agree : ∀ q₁ q₂ : Conditions, (∀ c ∈ t.allConditions, c ∈ q₁ ↔ c ∈ q₂) →
    t.search q₁ = t.search q₂ ∧ t.trail q₁ = t.trail q₂
  tested : ∀ want m f, .node want m f ∈ t.root.descendants → ∀ c ∈ want, c ∈ t.allConditions
  answers : ∀ outcome, .leaf outcome ∈ t.root.descendants →
    outcome = Outcome.default ∨ ∃ outcomes ∈ t.outcomes, outcome ∈ outcomes

theorem Spec.names_iff {s : Spec} {compact : Bool} {c : Condition} :
    s.Names c ↔ c ∈ (s.tree compact).allConditions := by
  rw [Tree.mem_allConditions]
  constructor
  · rintro ⟨d, hd, hc⟩
    exact ⟨d.conditions, List.mem_map_of_mem hd, hc⟩
  · rintro ⟨listed, hlisted, hc⟩
    obtain ⟨d, hd, rfl⟩ := List.mem_map.1 hlisted
    exact ⟨d, hd, hc⟩

theorem Spec.confined_tree (compact : Bool) (s : Spec) : (s.tree compact).Confined := by
  have hroot := s.every_root compact
  obtain ⟨htests, hanswers⟩ := Branch.every_iff_preorder.1 hroot
  refine ⟨?_, ?_, ?_⟩
  · intro q₁ q₂ hq
    have htrail : (s.root compact).trail q₁ = (s.root compact).trail q₂ :=
      (hroot.imp (fun want h c hc => hq c (names_iff.1 (h c hc))) fun _ h => h).trail_eq
    refine ⟨?_, htrail⟩
    calc (s.root compact).search q₁
        = ((s.root compact).trail q₁).outcome := (Branch.outcome_trail _ _).symm
      _ = ((s.root compact).trail q₂).outcome := by rw [htrail]
      _ = (s.root compact).search q₂ := Branch.outcome_trail _ _
  · intro want m f hb c hc
    rw [Branch.descendants_eq_preorder] at hb
    exact names_iff.1 (htests want m f hb c hc)
  · intro outcome hb
    rw [Branch.descendants_eq_preorder] at hb
    refine (hanswers outcome hb).imp_right ?_
    rintro ⟨d, hd, ho⟩
    exact ⟨d.outcomes, List.mem_map_of_mem hd, ho⟩

theorem Spec.compile_confined (s : Spec) (h : s.Named) (compact : Bool) :
    ∃ t, s.compile compact = .ok t ∧ t.Confined :=
  ⟨s.tree compact, Spec.compile_of_named h compact, Spec.confined_tree compact s⟩

theorem Spec.compile_confined_orders :
    Spec.orders.Named ∧ ∃ t, Spec.orders.compile true = .ok t ∧ t.Confined ∧
      t.trail (.ofList [⟨"paid"⟩, ⟨"flagged"⟩]) =
        t.trail (.ofList [⟨"urgent"⟩, ⟨"flagged"⟩, ⟨"paid"⟩]) := by
  obtain ⟨t, ht, hconfined⟩ := Spec.compile_confined Spec.orders (by decide) true
  obtain rfl : t = Spec.orders.tree true := (Spec.compile_eq_ok_iff.1 ht).2
  have hsame : ∀ c ∈ (Spec.orders.tree true).allConditions.members,
      c ∈ Conditions.ofList [⟨"paid"⟩, ⟨"flagged"⟩] ↔
        c ∈ Conditions.ofList [⟨"urgent"⟩, ⟨"flagged"⟩, ⟨"paid"⟩] := by decide
  exact ⟨by decide, _, ht, hconfined, (hconfined.agree _ _ hsame).2⟩

end Verdict
