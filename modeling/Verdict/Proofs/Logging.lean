import Verdict.Proofs.Naming
import Verdict.Tree

set_option autoImplicit false

namespace Verdict

def Event.split? : Event → Option Condition
  | .pivot p => some p.condition
  | _ => none

def Event.Inner (e : Event) : Prop := e.message ≠ "compiling domain" ∧ e.message ≠ "domain compiled"

theorem Event.inner_pivot (p : Pivot) : (Event.pivot p).Inner := by
  obtain ⟨c, ground⟩ := p
  cases ground <;> exact ⟨by simp [message], by simp [message]⟩

theorem Event.inner_contradiction (outcomes : List Outcome) :
    (Event.contradiction outcomes).Inner :=
  ⟨by simp [message], by simp [message]⟩

theorem Plan.inner_of_mem_events {p : Plan} {e : Event} (he : e ∈ p.events) : e.Inner := by
  induction p with
  | settled rules =>
    rw [events] at he
    cases hs : settlement rules with
    | contradicted outcomes =>
      rw [hs] at he
      exact List.mem_singleton.1 he ▸ Event.inner_contradiction outcomes
    | deferred => simp [hs, Settlement.events] at he
    | agreed outcome => simp [hs, Settlement.events] at he
  | split pivot m f hm hf =>
    rcases List.mem_cons.1 he with rfl | he
    · exact Event.inner_pivot pivot
    · exact (List.mem_append.1 he).elim hm hf

/-- Without compaction each split becomes a node, and its match side stands before its fail side in
the tree as in the events. -/
theorem Plan.wants_graft (p : Plan) (outcome : Outcome) :
    (p.graft false (.leaf outcome)).branch.preorder.filterMap Branch.want? =
      (p.events.filterMap Event.split?).map Conditions.singleton := by
  induction p with
  | settled rules =>
    rw [graft, events]
    cases settlement rules <;> rfl
  | split pivot m f hm hf =>
    have hnode : ((split pivot m f).graft false (.leaf outcome)).branch =
        .node (.singleton pivot.condition) (m.graft false (.leaf outcome)).branch
          (f.graft false (.leaf outcome)).branch := rfl
    have hevents : (split pivot m f).events = .pivot pivot :: (m.events ++ f.events) := rfl
    simp only [hnode, hevents, Branch.preorder, List.filterMap_cons, Branch.want?, Event.split?,
      List.filterMap_append, List.map_cons, List.map_append, hm, hf]

structure Domain.Told (d : Domain) (inner : List Event) : Prop where
  inside : ∀ e ∈ inner, e.Inner
  splits : ∃ alone, Spec.compile false ⟨[d]⟩ = .ok alone ∧
    (inner.filterMap Event.split?).map Conditions.singleton =
      alone.root.descendants.filterMap Branch.want?

theorem Domain.Named.told {d : Domain} (h : d.Named) : d.Told d.plan.events where
  inside _ he := Plan.inner_of_mem_events he
  splits := by
    refine ⟨_, Spec.compile_of_named (List.forall_mem_singleton.2 h) false, ?_⟩
    rw [Branch.descendants_eq_preorder]
    exact (d.plan.wants_graft Outcome.default).symm

theorem Domain.Told.splits_eq {d : Domain} {inner inner' : List Event} (h : d.Told inner)
    (h' : d.Told inner') : inner.filterMap Event.split? = inner'.filterMap Event.split? := by
  obtain ⟨t, ht, hsplits⟩ := h.splits
  obtain ⟨u, hu, hsplits'⟩ := h'.splits
  obtain rfl : t = u := Except.ok.inj (ht.symm.trans hu)
  have hinj : ∀ c c', Conditions.singleton c = Conditions.singleton c' → c = c' := fun c c' hc =>
    List.singleton_inj.1 (congrArg Conditions.members hc)
  exact (List.map_inj_right hinj).1 (hsplits.trans hsplits'.symm)

def Domain.block (compact : Bool) (position : Nat) (d : Domain) (later : List Domain) :
    List Event :=
  .domainOpened position d.rules.length d.expand.length ::
    (d.plan.events ++ [.domainClosed position ((Spec.mk (d :: later)).root compact).nodeCount])

/-- The blocks in the order of the domains, which is not the one in which they are noted. -/
def blocks (compact : Bool) (position : Nat) : List Domain → List (List Event)
  | [] => []
  | d :: later => d.block compact position later :: blocks compact (position + 1) later

theorem length_blocks (compact : Bool) (position : Nat) (ds : List Domain) :
    (blocks compact position ds).length = ds.length := by
  induction ds generalizing position with
  | nil => rfl
  | cons d later ih => rw [blocks, List.length_cons, List.length_cons, ih]

theorem getElem?_blocks {compact : Bool} {position : Nat} {ds : List Domain} {i : Nat} {d : Domain}
    (h : ds[i]? = some d) :
    (blocks compact position ds)[i]? =
      some (d.block compact (position + i) (ds.drop (i + 1))) := by
  induction ds generalizing position i with
  | nil => cases h
  | cons e later ih =>
    cases i with
    | zero =>
      obtain rfl := Option.some.inj h
      rfl
    | succ i =>
      rw [blocks, List.getElem?_cons_succ, ih h, List.drop_succ_cons, Nat.add_right_comm,
        Nat.add_assoc]

theorem logFrom_eq_blocks (compact : Bool) (position : Nat) (ds : List Domain) :
    (logFrom compact position ds).1 = (blocks compact position ds).reverse.flatten := by
  induction ds generalizing position with
  | nil => rfl
  | cons d later ih =>
    have hroot : (logFrom compact position (d :: later)).2 =
        (d.plan.graft compact (logFrom compact (position + 1) later).2).branch := rfl
    have hblock : (logFrom compact position (d :: later)).1 =
        (logFrom compact (position + 1) later).1 ++ d.block compact position later := by
      rw [Domain.block, ← logFrom_root compact position (d :: later), hroot]
      rfl
    rw [hblock, ih, blocks, List.reverse_cons, List.flatten_append, List.flatten_singleton]

theorem Spec.log_eq_nil {s : Spec} {compact : Bool} {e : NamingError}
    (h : s.compile compact = .error e) : s.log compact = [] := by
  rw [compile] at h
  rw [log]
  cases hf : s.fault? with
  | some fault => rfl
  | none =>
    rw [hf] at h
    cases h

theorem Spec.Named.log_eq {s : Spec} (h : s.Named) (compact : Bool) :
    s.log compact = (blocks compact 0 s.domains).reverse.flatten := by
  rw [log, Spec.fault?_eq_none_iff.2 h]
  exact logFrom_eq_blocks compact 0 s.domains

/-- What is noted of a specification tells of the tree that is built of it. The block of a domain
opens with the number of its rules and of those they expand to, and closes with the size of the tree
of the domain and all later ones; in between it shows how the domain alone is split. -/
theorem Spec.log_matches_tree (s : Spec) (compact : Bool) :
    (∀ e, s.compile compact = .error e → s.log compact = []) ∧
    (∀ t, s.compile compact = .ok t → ∃ blocks : List (List Event),
      s.log compact = blocks.reverse.flatten ∧ blocks.length = s.domains.length ∧
      ∀ (i : Nat) (d : Domain), s.domains[i]? = some d → ∃ inner u, d.Told inner ∧
        Spec.compile compact ⟨s.domains.drop i⟩ = .ok u ∧
        blocks[i]? = some (.domainOpened i d.rules.length d.expand.length ::
          (inner ++ [.domainClosed i u.root.nodeCount]))) ∧
    (∀ (d : Domain) (inner inner' : List Event), d.Told inner → d.Told inner' →
      inner.filterMap Event.split? = inner'.filterMap Event.split?) ∧
    (∀ i rules expanded, (Event.domainOpened i rules expanded).message = "compiling domain") ∧
    ∀ i nodes, (Event.domainClosed i nodes).message = "domain compiled" := by
  refine ⟨fun e => Spec.log_eq_nil, fun t ht => ?_, fun d _ _ => Domain.Told.splits_eq,
    fun _ _ _ => rfl, fun _ _ => rfl⟩
  have hnamed := (Spec.compile_eq_ok_iff.1 ht).1
  refine ⟨_, hnamed.log_eq compact, length_blocks compact 0 s.domains, fun i d hd => ?_⟩
  have hdrop : s.domains.drop i = d :: s.domains.drop (i + 1) := by
    obtain ⟨hlt, rfl⟩ := List.getElem?_eq_some_iff.1 hd
    exact List.drop_eq_getElem_cons hlt
  have hlater : (Spec.mk (s.domains.drop i)).Named := fun e he =>
    hnamed e (List.mem_of_mem_drop he)
  refine ⟨d.plan.events, _, (hnamed d (List.mem_of_getElem? hd)).told,
    Spec.compile_of_named hlater compact, ?_⟩
  rw [getElem?_blocks hd, Nat.zero_add, hdrop]
  rfl

theorem Spec.log_matches_tree_orders :
    (∃ inner inner' u u', Domain.orders.Told inner ∧ Domain.oldOrders.Told inner' ∧
      Spec.compile true ⟨[Domain.orders, Domain.oldOrders]⟩ = .ok u ∧
      Spec.compile true ⟨[Domain.oldOrders]⟩ = .ok u' ∧
      Spec.orders.log true =
        .domainOpened 1 1 1 :: (inner' ++ [.domainClosed 1 u'.root.nodeCount]) ++
          .domainOpened 0 3 4 :: (inner ++ [.domainClosed 0 u.root.nodeCount])) ∧
    Spec.log true ⟨[⟨[⟨⟨""⟩, .empty, .empty⟩], .empty⟩]⟩ = [] := by
  constructor
  · have hcompile : Spec.orders.compile true = .ok (Spec.orders.tree true) :=
      Spec.compile_of_named (by decide) true
    obtain ⟨blocks, hlog, hlength, hblocks⟩ :=
      (Spec.log_matches_tree Spec.orders true).2.1 _ hcompile
    obtain ⟨inner, u, htold, hu, hfirst⟩ := hblocks 0 Domain.orders rfl
    obtain ⟨inner', u', htold', hu', hsecond⟩ := hblocks 1 Domain.oldOrders rfl
    refine ⟨inner, inner', u, u', htold, htold', hu, hu', ?_⟩
    match blocks, hlength with
    | [_, _], _ =>
      obtain rfl := Option.some.inj hfirst
      obtain rfl := Option.some.inj hsecond
      rw [hlog]
      simp only [List.reverse_cons, List.reverse_nil, List.nil_append, List.singleton_append,
        List.flatten_cons, List.flatten_nil, List.append_nil]
      rfl
  · exact (Spec.log_matches_tree _ true).1 ⟨0, .outcome⟩ rfl

end Verdict
