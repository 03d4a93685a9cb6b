import Mathlib.Data.List.Count
import Mathlib.Logic.Embedding.Basic
import Mathlib.Logic.Equiv.Basic
import Verdict.Proofs.Members
import Verdict.Proofs.Naming

/-! Names count only as names. When conditions and outcomes are renamed, none of them to the name of
another and the default outcome to itself, everything that is done on the way from the rules to the
tree is done in the same way, and the tree that comes out is the old one with the new names in it.
-/

set_option autoImplicit false

namespace Verdict

/-- New names for conditions and outcomes. A proper name stays one, and the default outcome stays
what it is. -/
structure Renaming where
  condition : Condition ↪ Condition
  outcome : Outcome ↪ Outcome
  condition_named : ∀ c, c.name ≠ "" → (condition c).name ≠ ""
  outcome_named : ∀ o, o.name ≠ "" → (outcome o).name ≠ ""
  outcome_default : outcome Outcome.default = Outcome.default

theorem eraseDups_map {α β : Type} [DecidableEq α] [DecidableEq β] (f : α ↪ β) (l : List α) :
    (l.map f).eraseDups = l.eraseDups.map f := by
  induction l using firsts_induction with
  | nil => rfl
  | cons a l ih =>
    have hfilter : ((l.map f).filter fun y => !y == f a) = (l.filter fun x => !x == a).map f := by
      rw [List.filter_map]
      congr 1
      refine List.filter_congr fun x _ => ?_
      rw [Function.comp_apply, f.injective.beq_eq]
    rw [List.map_cons, List.eraseDups_cons, List.eraseDups_cons, hfilter, ih, List.map_cons]

def Conditions.rename (ρ : Renaming) (s : Conditions) : Conditions :=
  ⟨s.members.map ρ.condition, s.nodup.map ρ.condition.injective⟩

def Rule.rename (ρ : Renaming) (r : Rule) : Rule :=
  ⟨ρ.outcome r.result, r.want.rename ρ, r.anyOf.rename ρ⟩

def Domain.rename (ρ : Renaming) (d : Domain) : Domain :=
  ⟨d.rules.map (Rule.rename ρ), d.priority.rename ρ⟩

def Spec.rename (ρ : Renaming) (s : Spec) : Spec := ⟨s.domains.map (Domain.rename ρ)⟩

def Branch.rename (ρ : Renaming) : Branch → Branch
  | leaf outcome => leaf (ρ.outcome outcome)
  | node want m f => node (want.rename ρ) (m.rename ρ) (f.rename ρ)

def Tree.rename (ρ : Renaming) (t : Tree) : Tree :=
  ⟨t.root.rename ρ, t.conditions.map (Conditions.rename ρ),
    t.outcomes.map fun outcomes => outcomes.map ρ.outcome⟩

variable (ρ : Renaming)

namespace Conditions

theorem members_rename (s : Conditions) : (s.rename ρ).members = s.members.map ρ.condition := rfl

variable {ρ} in
@[simp] theorem mem_rename {s : Conditions} {c : Condition} : ρ.condition c ∈ s.rename ρ ↔ c ∈ s :=
  List.mem_map_of_injective ρ.condition.injective

@[simp] theorem contains_rename (s : Conditions) (c : Condition) :
    (s.rename ρ).contains (ρ.condition c) = s.contains c := by
  rw [Bool.eq_iff_iff, contains_iff, contains_iff, mem_rename]

@[simp] theorem isEmpty_rename (s : Conditions) : (s.rename ρ).isEmpty = s.isEmpty :=
  List.isEmpty_map

theorem rename_insert (s : Conditions) (c : Condition) :
    (s.insert c).rename ρ = (s.rename ρ).insert (ρ.condition c) := by
  apply Conditions.ext
  rw [members_rename, members_insert, members_insert, members_rename]
  by_cases hc : c ∈ s
  · rw [if_pos hc, if_pos (mem_rename.2 hc)]
  · rw [if_neg hc, if_neg (mem_rename.not.2 hc), List.map_append, List.map_singleton]

theorem rename_erase (s : Conditions) (c : Condition) :
    (s.erase c).rename ρ = (s.rename ρ).erase (ρ.condition c) :=
  Conditions.ext (List.map_erase ρ.condition.injective s.members)

theorem rename_ofList (cs : List Condition) :
    (ofList cs).rename ρ = ofList (cs.map ρ.condition) := by
  apply Conditions.ext
  rw [members_rename, members_ofList, members_ofList, eraseDups_map]

@[simp] theorem includes_rename (query s : Conditions) :
    (query.rename ρ).includes (s.rename ρ) = query.includes s := by
  simp only [includes, rename, List.all_map]
  congr 1
  funext c
  exact contains_rename ρ query c

end Conditions

theorem Rule.expand_rename (r : Rule) :
    (r.rename ρ).expand = r.expand.map (Rule.rename ρ) := by
  unfold expand
  rw [rename, Conditions.isEmpty_rename]
  split
  · rfl
  · simp only [Conditions.rename, List.map_map]
    refine List.map_congr_left fun c _ => ?_
    exact congrArg (Rule.mk _ · _) (Conditions.rename_insert ρ r.want c).symm

theorem Domain.expand_rename (d : Domain) :
    (d.rename ρ).expand = d.expand.map (Rule.rename ρ) := by
  simp only [expand, rename, List.flatMap_map, List.map_flatMap, Rule.expand_rename]

theorem wanted_rename (rules : List Rule) :
    wanted (rules.map (Rule.rename ρ)) = (wanted rules).map ρ.condition := by
  simp only [wanted, List.flatMap_map, List.map_flatMap, Rule.rename, Conditions.rename]

theorem occurrences_rename (rules : List Rule) :
    occurrences (rules.map (Rule.rename ρ)) =
      (occurrences rules).map (Prod.map ρ.condition id) := by
  simp only [occurrences, wanted_rename, eraseDups_map, List.map_map]
  refine List.map_congr_left fun c _ => ?_
  exact congrArg (Prod.mk _)
    (List.count_map_of_injective (wanted rules) ρ.condition ρ.condition.injective c)

theorem preferred?_rename (priority : Conditions) (rules : List Rule) :
    preferred? (priority.rename ρ) (rules.map (Rule.rename ρ)) =
      (preferred? priority rules).map (Prod.map ρ.condition id) := by
  simp only [preferred?, wanted_rename, Conditions.rename, List.zipIdx_map, List.find?_map]
  congr 2
  funext p
  simp only [Function.comp_apply, Prod.map_fst, List.contains_eq_mem,
    List.mem_map_of_injective ρ.condition.injective]

theorem mostFrequent?_rename (ps : List (Condition × Nat)) :
    mostFrequent? (ps.map (Prod.map ρ.condition id)) =
      (mostFrequent? ps).map (Prod.map ρ.condition id) := by
  cases ps with
  | nil => rfl
  | cons p ps =>
    simp only [List.map_cons, mostFrequent?, Option.map_some, List.foldl_map, Option.some.injEq]
    -- The greater of two counts is found without a look at the names.
    refine List.foldl_hom (Prod.map ρ.condition id) fun best next => ?_
    simp only [Prod.map_snd, id_eq]
    split <;> rfl

def Pivot.rename (p : Pivot) : Pivot := ⟨ρ.condition p.condition, p.ground⟩

theorem pivot?_rename (priority : Conditions) (rules : List Rule) :
    pivot? (priority.rename ρ) (rules.map (Rule.rename ρ)) =
      (pivot? priority rules).map (Pivot.rename ρ) := by
  simp only [pivot?, preferred?_rename, occurrences_rename, mostFrequent?_rename]
  cases preferred? priority rules with
  | some p => rfl
  | none => cases mostFrequent? (occurrences rules) <;> rfl

theorem Rule.wants_rename (r : Rule) (c : Condition) :
    (r.rename ρ).wants (ρ.condition c) = r.wants c :=
  Conditions.contains_rename ρ r.want c

theorem Rule.strike_rename (r : Rule) (c : Condition) :
    (r.rename ρ).strike (ρ.condition c) = (r.strike c).rename ρ :=
  congrArg (Rule.mk _ · _) (Conditions.rename_erase ρ r.want c).symm

theorem matching_rename (c : Condition) (rules : List Rule) :
    matching (ρ.condition c) (rules.map (Rule.rename ρ)) =
      (matching c rules).map (Rule.rename ρ) := by
  simp only [matching, List.filter_map, List.map_map, Function.comp_def, Rule.wants_rename,
    Rule.strike_rename]

theorem failing_rename (c : Condition) (rules : List Rule) :
    failing (ρ.condition c) (rules.map (Rule.rename ρ)) =
      (failing c rules).map (Rule.rename ρ) := by
  simp only [failing, List.filter_map, Function.comp_def, Rule.wants_rename]

def Plan.rename : Plan → Plan
  | settled rules => settled (rules.map (Rule.rename ρ))
  | split p m f => split (p.rename ρ) m.rename f.rename

theorem Plan.ofRules_rename (priority : Conditions) (rules : List Rule) :
    ofRules (priority.rename ρ) (rules.map (Rule.rename ρ)) =
      (ofRules priority rules).rename ρ := by
  fun_induction ofRules priority rules with
  | case1 rules h =>
    have hnone := pivot?_rename ρ priority rules
    rw [h] at hnone
    exact ofRules_none hnone
  | case2 rules p h _ hm hf =>
    have hsome := pivot?_rename ρ priority rules
    rw [h] at hsome
    rw [ofRules_some hsome, rename, ← hm, ← hf, ← matching_rename, ← failing_rename]
    rfl

def Settlement.rename : Settlement → Settlement
  | deferred => deferred
  | agreed outcome => agreed (ρ.outcome outcome)
  | contradicted outcomes => contradicted (outcomes.map ρ.outcome)

theorem settlement_rename (rules : List Rule) :
    settlement (rules.map (Rule.rename ρ)) = (settlement rules).rename ρ := by
  cases rules with
  | nil => rfl
  | cons r rest =>
    have hall : ((rest.map (Rule.rename ρ)).all (·.result == (r.rename ρ).result)) =
        rest.all (·.result == r.result) := by
      rw [List.all_map]
      congr 1
      funext s
      exact ρ.outcome.injective.beq_eq
    rw [List.map_cons, settlement, settlement, hall]
    split
    · rfl
    · simp only [Settlement.rename, List.map_cons, List.map_map]
      rfl

def Clue.rename : Clue → Clue
  | fallback => fallback
  | leaf outcome => leaf (ρ.outcome outcome)
  | unknown => unknown

theorem Clue.same_rename (a b : Clue) : (a.rename ρ).same (b.rename ρ) = a.same b := by
  cases a <;> cases b <;>
    simp [Clue.rename, Clue.same, bne, beq_eq_decide, ρ.outcome.injective.eq_iff]

theorem Clue.ofFallback_rename (fallback : Branch) :
    ofFallback (fallback.rename ρ) = (ofFallback fallback).rename ρ := by
  cases fallback <;> rfl

namespace Graft

def rename (g : Graft) : Graft := ⟨g.branch.rename ρ, g.clue.rename ρ, g.failClue.rename ρ⟩

theorem node_rename (c : Condition) (m f : Graft) :
    node (ρ.condition c) (m.rename ρ) (f.rename ρ) = (node c m f).rename ρ := rfl

theorem join_rename (c : Condition) (m f : Graft) :
    join (ρ.condition c) (m.rename ρ) (f.rename ρ) = (join c m f).rename ρ := by
  obtain ⟨b, clue, failClue⟩ := m
  unfold join
  simp only [Graft.rename, Clue.same_rename]
  by_cases hs : clue.same f.clue = true
  · rw [if_pos hs, if_pos hs]
  · rw [if_neg hs, if_neg hs]
    cases b with
    | leaf outcome => rfl
    | node want inner fail =>
      simp only [Branch.rename]
      by_cases hf : failClue.same f.clue = true
      · rw [if_pos hf, if_pos hf, Branch.rename, Conditions.rename_insert]
        rfl
      · rw [if_neg hf, if_neg hf]
        rfl

end Graft

theorem Settlement.graft_rename (fallback : Branch) (s : Settlement) :
    (s.rename ρ).graft (fallback.rename ρ) = (s.graft fallback).rename ρ := by
  cases s with
  | deferred => exact congrArg (Graft.mk _ · _) (Clue.ofFallback_rename ρ fallback)
  | agreed outcome => rfl
  | contradicted outcomes =>
    rw [rename, graft, graft, Graft.rename, Graft.leaf]
    simp only [Branch.rename, Clue.rename, ρ.outcome_default]

theorem Plan.graft_rename (compact : Bool) (fallback : Branch) (p : Plan) :
    (p.rename ρ).graft compact (fallback.rename ρ) = (p.graft compact fallback).rename ρ := by
  induction p with
  | settled rules =>
    rw [rename, graft, settlement_rename]
    exact Settlement.graft_rename ρ fallback _
  | split p m f hm hf =>
    rw [rename, graft, hm, hf]
    cases compact with
    | true => exact Graft.join_rename ρ p.condition _ _
    | false => exact Graft.node_rename ρ p.condition _ _

theorem Domain.grow_rename (compact : Bool) (d : Domain) (fallback : Branch) :
    (d.rename ρ).grow compact (fallback.rename ρ) = (d.grow compact fallback).rename ρ := by
  have hplan : (d.rename ρ).plan = d.plan.rename ρ := by
    rw [plan, Domain.expand_rename]
    exact Plan.ofRules_rename ρ d.priority d.expand
  rw [grow, hplan, Plan.graft_rename]
  rfl

theorem Spec.root_rename (compact : Bool) (s : Spec) :
    (s.rename ρ).root compact = (s.root compact).rename ρ := by
  obtain ⟨domains⟩ := s
  unfold root rename
  induction domains with
  | nil => exact congrArg Branch.leaf ρ.outcome_default.symm
  | cons d rest ih => rw [List.map_cons, List.foldr_cons, List.foldr_cons, ih, Domain.grow_rename]

theorem Domain.conditions_rename (d : Domain) :
    (d.rename ρ).conditions = d.conditions.rename ρ := by
  rw [conditions, conditions, Conditions.rename_ofList]
  simp only [rename, List.flatMap_map, List.map_flatMap, List.map_append]
  rfl

theorem Domain.outcomes_rename (d : Domain) :
    (d.rename ρ).outcomes = d.outcomes.map ρ.outcome := by
  rw [outcomes, outcomes, ← eraseDups_map]
  simp only [rename, List.map_map]
  rfl

theorem Spec.tree_rename (compact : Bool) (s : Spec) :
    (s.rename ρ).tree compact = (s.tree compact).rename ρ := by
  simp only [tree, Tree.rename, Spec.root_rename, Tree.mk.injEq, true_and]
  simp only [Spec.rename, List.map_map]
  exact ⟨List.map_congr_left fun d _ => Domain.conditions_rename ρ d,
    List.map_congr_left fun d _ => Domain.outcomes_rename ρ d⟩

theorem Branch.search_rename (b : Branch) (query : Conditions) :
    (b.rename ρ).search (query.rename ρ) = ρ.outcome (b.search query) := by
  induction b with
  | leaf outcome => rfl
  | node want m f hm hf =>
    rw [rename, search, search, Conditions.includes_rename, hm, hf]
    exact (apply_ite ρ.outcome _ _ _).symm

variable {ρ}

theorem Conditions.Named.rename {s : Conditions} (h : s.Named) : (s.rename ρ).Named := by
  intro c hc
  obtain ⟨d, hd, rfl⟩ := List.mem_map.1 hc
  exact ρ.condition_named d (h d hd)

theorem Spec.Named.rename {s : Spec} (h : s.Named) : (s.rename ρ).Named := by
  intro d hd
  obtain ⟨d, hmem, rfl⟩ := List.mem_map.1 hd
  refine ⟨?_, (h d hmem).priority.rename⟩
  intro r hr
  obtain ⟨r, hrule, rfl⟩ := List.mem_map.1 hr
  have hn := (h d hmem).rules r hrule
  exact ⟨ρ.outcome_named _ hn.result, hn.want.rename, hn.anyOf.rename⟩

theorem Spec.compile_renamed (ρ : Renaming) (s : Spec) (h : s.Named) (compact : Bool) :
    ∃ t, s.compile compact = .ok t ∧ (s.rename ρ).compile compact = .ok (t.rename ρ) ∧
      ∀ query, (t.rename ρ).search (query.rename ρ) = ρ.outcome (t.search query) := by
  refine ⟨s.tree compact, Spec.compile_of_named h compact, ?_,
    Branch.search_rename ρ (s.root compact)⟩
  rw [Spec.compile_of_named h.rename, Spec.tree_rename]

def Renaming.orders : Renaming where
  condition := ⟨fun c => ⟨"order." ++ c.name⟩, fun a b h => by
    have hname : "order." ++ a.name = "order." ++ b.name := congrArg Condition.name h
    exact congrArg Condition.mk ((String.append_right_inj "order.").1 hname)⟩
  outcome := (Equiv.swap ⟨"approve"⟩ ⟨"refuse"⟩).toEmbedding
  condition_named c _ := by
    show "order." ++ c.name ≠ ""
    simp
  outcome_named o ho := by
    rw [Equiv.coe_toEmbedding, Equiv.swap_apply_def]
    split
    · decide
    · split
      · decide
      · exact ho
  outcome_default := by decide

theorem Spec.compile_renamed_orders :
    Spec.orders.Named ∧ ∃ t, Spec.orders.compile true = .ok t ∧
      (Spec.orders.rename Renaming.orders).compile true = .ok (t.rename Renaming.orders) ∧
      ∀ query, (t.rename Renaming.orders).search (query.rename Renaming.orders) =
        Renaming.orders.outcome (t.search query) :=
  ⟨by decide, Spec.compile_renamed Renaming.orders Spec.orders (by decide) true⟩

end Verdict
