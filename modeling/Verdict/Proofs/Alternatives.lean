import Verdict.Proofs.Footprint

set_option autoImplicit false

namespace Verdict

def Domain.writtenOut (d : Domain) : Domain := ⟨d.expand, d.priority⟩

def Spec.writtenOut (s : Spec) : Spec := ⟨s.domains.map Domain.writtenOut⟩

namespace Rule

theorem anyOf_of_mem_expand {r e : Rule} (he : e ∈ r.expand) : e.anyOf = .empty := by
  rcases mem_expand.1 he with ⟨hempty, rfl⟩ | ⟨c, _, rfl⟩
  · exact hempty
  · rfl

theorem expand_of_plain {r : Rule} (h : r.anyOf = .empty) : r.expand = [r] :=
  if_pos (Conditions.isEmpty_iff.2 h)

theorem expand_of_alternatives {r : Rule} (h : r.anyOf.isEmpty = false) :
    r.expand = r.anyOf.members.map fun c => ⟨r.result, r.want.insert c, .empty⟩ :=
  if_neg (by simp [h])

theorem expand_cases (r : Rule) :
    (r.anyOf = .empty ∧ r.expand = [r]) ∨
      ∃ c cs, r.anyOf.members = c :: cs ∧
        r.expand = (c :: cs).map fun x => ⟨r.result, r.want.insert x, .empty⟩ := by
  cases hm : r.anyOf.members with
  | nil =>
    have hempty : r.anyOf = .empty := Conditions.ext hm
    exact Or.inl ⟨hempty, expand_of_plain hempty⟩
  | cons c cs =>
    have hany : r.anyOf.isEmpty = false := by rw [Conditions.isEmpty, hm, List.isEmpty_cons]
    exact Or.inr ⟨c, cs, rfl, by rw [expand_of_alternatives hany, hm]⟩

def mentions (r : Rule) : List Condition := r.want.members ++ r.anyOf.members

end Rule

theorem Conditions.eraseDups_insert (s : Conditions) (c : Condition) :
    (s.insert c).members.eraseDups = (s.members ++ [c]).eraseDups := by
  rw [members_insert]
  by_cases hc : c ∈ s
  · have hsub : [c] ⊆ s.members := List.cons_subset.2 ⟨hc, List.nil_subset _⟩
    have hdrop := eraseDups_append_of_subset hsub []
    rw [if_pos hc]
    simpa using hdrop.symm
  · rw [if_neg hc]

theorem eraseDups_flatMap_append {α : Type} [DecidableEq α] (w : List α) (c : α) (cs : List α) :
    ((c :: cs).flatMap fun x => w ++ [x]).eraseDups = (w ++ c :: cs).eraseDups := by
  induction cs generalizing c with
  | nil => simp
  | cons d cs ih =>
    have hsub : w ⊆ w ++ [c] := List.subset_append_left w [c]
    calc ((c :: d :: cs).flatMap fun x => w ++ [x]).eraseDups
        = ((w ++ [c]) ++ (d :: cs).flatMap fun x => w ++ [x]).eraseDups := by
          rw [List.flatMap_cons]
      _ = ((w ++ [c]) ++ (w ++ d :: cs)).eraseDups := eraseDups_append_congr rfl (ih d)
      _ = ((w ++ [c]) ++ d :: cs).eraseDups := eraseDups_append_of_subset hsub _
      _ = (w ++ c :: d :: cs).eraseDups := by rw [List.append_assoc, List.singleton_append]

theorem Rule.mentions_expand (r : Rule) :
    (r.expand.flatMap Rule.mentions).eraseDups = r.mentions.eraseDups := by
  rcases r.expand_cases with ⟨_, he⟩ | ⟨c, cs, hany, he⟩
  · rw [he, List.flatMap_singleton]
  · have hone : ∀ x ∈ c :: cs,
        (Rule.mentions ⟨r.result, r.want.insert x, .empty⟩).eraseDups =
          (r.want.members ++ [x]).eraseDups := by
      intro x _
      rw [mentions, Conditions.empty, List.append_nil, Conditions.eraseDups_insert]
    rw [he, List.flatMap_map, eraseDups_flatMap_congr hone, eraseDups_flatMap_append, mentions,
      hany]

theorem Rule.results_expand (r : Rule) : (r.expand.map Rule.result).eraseDups = [r.result] := by
  rcases r.expand_cases with ⟨_, he⟩ | ⟨c, cs, _, he⟩
  · rw [he, List.map_singleton, List.eraseDups_cons, List.filter_nil, List.eraseDups_nil]
  · have hresults : r.expand.map Rule.result = r.result :: cs.map fun _ => r.result := by
      rw [he, List.map_map]
      rfl
    have hrest : ((cs.map fun _ => r.result).filter fun o => !o == r.result) = [] := by simp
    rw [hresults, List.eraseDups_cons, hrest, List.eraseDups_nil]

theorem Conditions.hasEmptyName_insert (s : Conditions) (c : Condition) :
    (s.insert c).hasEmptyName = (s.hasEmptyName || c.name.isEmpty) := by
  rw [hasEmptyName, hasEmptyName, members_insert]
  by_cases hc : c ∈ s
  · have hmem : c.name.isEmpty = true → s.members.any (·.name.isEmpty) = true := fun h =>
      List.any_eq_true.2 ⟨c, hc, h⟩
    rw [if_pos hc]
    cases hn : c.name.isEmpty with
    | false => simp
    | true => simp [hmem hn]
  · rw [if_neg hc, List.any_append, List.any_cons, List.any_nil, Bool.or_false]

theorem findSome?_ite {α β : Type} (p : α → Bool) (b : β) (l : List α) :
    (l.findSome? fun x => if p x then some b else none) = if l.any p then some b else none := by
  induction l with
  | nil => rfl
  | cons a l ih => cases hp : p a <;> simp [hp, ih]

theorem Rule.emptyName?_expand (r : Rule) : r.expand.findSome? Rule.emptyName? = r.emptyName? := by
  rcases r.expand_cases with ⟨_, he⟩ | ⟨c, cs, hany, he⟩
  · rw [he]
    cases h : r.emptyName? <;> simp [h]
  · rw [he, List.findSome?_map]
    by_cases ho : r.result.name.isEmpty = true
    · simp [emptyName?, ho]
    · have hempty : Conditions.empty.hasEmptyName = false := rfl
      have hone : Rule.emptyName? ∘ (fun x => (⟨r.result, r.want.insert x, .empty⟩ : Rule)) =
          fun x => if r.want.hasEmptyName || x.name.isEmpty then some .condition else none := by
        funext x
        rw [Function.comp_apply, emptyName?, if_neg ho, Conditions.hasEmptyName_insert, hempty,
          Bool.or_false]
      have hnames : r.anyOf.hasEmptyName = (c :: cs).any (·.name.isEmpty) := by
        rw [Conditions.hasEmptyName, hany]
      have hsome : ((c :: cs).any fun x => r.want.hasEmptyName || x.name.isEmpty) =
          (r.want.hasEmptyName || r.anyOf.hasEmptyName) := by
        rw [hnames]
        cases r.want.hasEmptyName <;> simp
      rw [hone, findSome?_ite, hsome, emptyName?, if_neg ho]

namespace Domain

theorem expand_writtenOut (d : Domain) : d.writtenOut.expand = d.expand := by
  have hplain : ∀ e ∈ d.expand, e.expand = [e] := by
    intro e he
    obtain ⟨r, _, her⟩ := List.mem_flatMap.1 he
    exact Rule.expand_of_plain (Rule.anyOf_of_mem_expand her)
  calc d.writtenOut.expand
      = d.expand.flatMap fun e => [e] := List.flatMap_congr hplain
    _ = d.expand := List.flatMap_singleton' _

theorem grow_writtenOut (compact : Bool) (d : Domain) :
    d.writtenOut.grow compact = d.grow compact := by
  funext fallback
  rw [grow, grow, plan, plan, expand_writtenOut]
  rfl

theorem conditions_writtenOut (d : Domain) : d.writtenOut.conditions = d.conditions := by
  have hfirst : (d.expand.flatMap Rule.mentions).eraseDups =
      (d.rules.flatMap Rule.mentions).eraseDups := by
    rw [expand, List.flatMap_assoc]
    exact eraseDups_flatMap_congr fun r _ => r.mentions_expand
  exact Conditions.eq_ofList_iff.2 ((Conditions.members_ofList _).trans hfirst)

theorem outcomes_writtenOut (d : Domain) : d.writtenOut.outcomes = d.outcomes := by
  have hone : ∀ r ∈ d.rules, (r.expand.map Rule.result).eraseDups = [r.result].eraseDups := by
    intro r _
    rw [r.results_expand, List.eraseDups_cons, List.filter_nil, List.eraseDups_nil]
  calc d.writtenOut.outcomes
      = (d.rules.flatMap fun r => r.expand.map Rule.result).eraseDups := by
        rw [outcomes, writtenOut, expand, List.map_flatMap]
    _ = (d.rules.flatMap fun r => [r.result]).eraseDups := eraseDups_flatMap_congr hone
    _ = d.outcomes := by rw [outcomes, List.map_eq_flatMap]

theorem emptyName?_writtenOut (d : Domain) : d.writtenOut.emptyName? = d.emptyName? := by
  have hrules : d.expand.findSome? Rule.emptyName? = d.rules.findSome? Rule.emptyName? := by
    rw [expand]
    induction d.rules with
    | nil => rfl
    | cons r rules ih =>
      rw [List.flatMap_cons, List.findSome?_append, ih, r.emptyName?_expand, List.findSome?_cons]
      cases r.emptyName? <;> rfl
  rw [emptyName?, emptyName?, writtenOut, hrules]

end Domain

namespace Spec

theorem fault?_writtenOut (s : Spec) : s.writtenOut.fault? = s.fault? := by
  simp only [fault?, writtenOut, List.zipIdx_map, List.findSome?_map, Function.comp_def,
    Prod.map_fst, Prod.map_snd, id_eq, Domain.emptyName?_writtenOut]

theorem root_writtenOut (compact : Bool) (s : Spec) :
    s.writtenOut.root compact = s.root compact := by
  simp only [root, writtenOut, List.foldr_map, Domain.grow_writtenOut]

theorem tree_writtenOut (compact : Bool) (s : Spec) :
    s.writtenOut.tree compact = s.tree compact := by
  rw [tree, tree, root_writtenOut]
  simp only [writtenOut, List.map_map, Function.comp_def, Domain.conditions_writtenOut,
    Domain.outcomes_writtenOut]

theorem plain_writtenOut (s : Spec) :
    ∀ d ∈ s.writtenOut.domains, ∀ e ∈ d.rules, e.anyOf = .empty := by
  intro d hd e he
  obtain ⟨d', _, rfl⟩ := List.mem_map.1 hd
  obtain ⟨r, _, her⟩ := List.mem_flatMap.1 he
  exact Rule.anyOf_of_mem_expand her

theorem alternatives_shorthand (s : Spec) (compact : Bool) :
    (∀ d ∈ s.writtenOut.domains, ∀ e ∈ d.rules, e.anyOf = .empty) ∧
      s.writtenOut.compile compact = s.compile compact :=
  ⟨s.plain_writtenOut, by rw [compile, compile, fault?_writtenOut, tree_writtenOut]⟩

end Spec

end Verdict
