import Verdict.Binary.Blob
import Verdict.Proofs.Footprint
import Verdict.Proofs.Naming
import Verdict.Proofs.PostOrder

set_option autoImplicit false

namespace Verdict

theorem Branch.storable_iff_every {b : Branch} :
    b.Storable ↔ b.Every (fun want => want.members ≠ []) (fun outcome => outcome.name ≠ "") := by
  induction b with
  | leaf outcome => rfl
  | node want m f hm hf => rw [Storable, Every, hm, hf]

theorem Domain.storable_grow {d : Domain} (h : d.Named) (compact : Bool) {fallback : Branch}
    (hfallback : fallback.Storable) : (d.grow compact fallback).Storable := by
  rw [Branch.storable_iff_every] at hfallback ⊢
  refine (Plan.splits_ofRules d.priority d.expand).every compact ?_ ?_ ?_ ?_ hfallback
  · intro c _
    exact List.cons_ne_nil c []
  · intro c _ want _
    have hc : c ∈ (want.insert c).members := Conditions.mem_insert.2 (Or.inr rfl)
    exact List.ne_nil_of_mem hc
  · exact (by decide : Outcome.default.name ≠ "")
  · intro e he
    exact (h.expand he).result

theorem Spec.storable_root {s : Spec} (h : s.Named) (compact : Bool) :
    (s.root compact).Storable := by
  obtain ⟨domains⟩ := s
  unfold root
  induction domains with
  | nil => exact (by decide : Outcome.default.name ≠ "")
  | cons d rest ih =>
    rw [List.foldr_cons]
    exact Domain.storable_grow (h d List.mem_cons_self) compact (ih h.tail)

theorem Spec.storable_of_compile {s : Spec} {compact : Bool} {t : Tree}
    (h : s.compile compact = .ok t) : t.Storable := by
  obtain ⟨hn, rfl⟩ := Spec.compile_eq_ok_iff.1 h
  exact ⟨Spec.storable_root hn compact, by simp [tree]⟩

namespace Binary

def Entry.Proper : Entry → Prop
  | .leaf outcome => outcome.name ≠ ""
  | .node want _ _ => want.members ≠ []

namespace Arena

theorem proper_of_checkEntry {index : Nat} {e : Entry} (h : checkEntry index e = .ok ()) :
    e.Proper := by
  cases e with
  | leaf outcome =>
    intro hn
    rw [checkEntry, if_pos (by simp [hn])] at h
    cases h
  | node want m f =>
    intro hn
    rw [checkEntry, if_pos (by simp [Conditions.isEmpty, hn])] at h
    cases h

theorem proper_of_checkFrom {index : Nat} {es : List Entry} (h : checkFrom index es = .ok ()) :
    ∀ e ∈ es, e.Proper := by
  induction es generalizing index with
  | nil =>
    intro e he
    cases he
  | cons first es ih =>
    obtain ⟨hfirst, hrest⟩ := checkFrom_cons_eq_ok_iff.1 h
    intro e he
    rcases List.mem_cons.1 he with rfl | he
    · exact proper_of_checkEntry hfirst
    · exact ih hrest e he

def Sound (slots : Slots) : Prop := ∀ b, some b ∈ slots → b.Storable

theorem sound_push {slots : Slots} (h : Sound slots) {b : Branch} (hb : b.Storable) :
    Sound (slots.push (some b)) := by
  intro c hc
  rcases Array.mem_push.1 hc with hc | hc
  · exact h c hc
  · obtain rfl := Option.some.inj hc
    exact hb

theorem sound_take {slots slots' : Slots} {index : Nat} {b : Branch} (h : Sound slots)
    (ht : take slots index = .ok (b, slots')) : b.Storable ∧ Sound slots' := by
  unfold take at ht
  split at ht
  · next c hc =>
    obtain ⟨rfl, rfl⟩ := Prod.mk.inj (Except.ok.inj ht)
    refine ⟨h c (Array.mem_of_getElem? hc), ?_⟩
    intro x hx
    rcases Array.mem_or_eq_of_mem_setIfInBounds hx with hx | hx
    · exact h x hx
    · cases hx
  · cases ht

theorem sound_place {slots slots' : Slots} {e : Entry} (h : Sound slots) (he : e.Proper)
    (hp : place slots e = .ok slots') : Sound slots' := by
  cases e with
  | leaf outcome =>
    rw [place] at hp
    obtain rfl := Except.ok.inj hp
    exact sound_push h he
  | node want i j =>
    obtain ⟨m, middle, f, last, hm, hf, rfl⟩ := place_node_eq_ok_iff.1 hp
    obtain ⟨hms, hmiddle⟩ := sound_take h hm
    obtain ⟨hfs, hlast⟩ := sound_take hmiddle hf
    exact sound_push hlast ⟨he, hms, hfs⟩

theorem sound_placeAll {slots slots' : Slots} {es : List Entry} (h : Sound slots)
    (hes : ∀ e ∈ es, e.Proper) (hp : placeAll slots es = .ok slots') : Sound slots' := by
  induction es generalizing slots with
  | nil =>
    obtain rfl := Except.ok.inj hp
    exact h
  | cons e es ih =>
    obtain ⟨next, he, hnext⟩ := placeAll_cons_eq_ok_iff.1 hp
    have hsound : Sound next := sound_place h (hes e List.mem_cons_self) he
    exact ih hsound (fun x hx => hes x (List.mem_cons_of_mem e hx)) hnext

theorem storable_rootOf {slots : Slots} {root : Branch} (h : Sound slots)
    (hr : rootOf slots = .ok root) : root.Storable := by
  unfold rootOf at hr
  split at hr
  · next b hb =>
    split at hr
    · cases hr
    · obtain rfl := Except.ok.inj hr
      exact h b (Array.mem_of_back? hb)
  · cases hr

theorem storable_rebuild {es : List Entry} {root : Branch} (h : ∀ e ∈ es, e.Proper)
    (hr : rebuild es = .ok root) : root.Storable := by
  obtain ⟨slots, hp, hroot⟩ := rebuild_eq_ok_iff.1 hr
  have hempty : Sound #[] := fun b hb => by simp at hb
  exact storable_rootOf (sound_placeAll hempty h hp) hroot

theorem storable_of_toTree {a : Arena} {t : Tree} (h : a.toTree = .ok t) : t.Storable := by
  obtain ⟨hc, root, hr, rfl⟩ := toTree_eq_ok_iff.1 h
  obtain ⟨_, _, hconditions, houtcomes, _, hentries⟩ := check_eq_ok_iff.1 hc
  exact ⟨storable_rebuild (proper_of_checkFrom hentries) hr, hconditions.symm.trans houtcomes⟩

end Arena

end Binary

theorem Tree.storable_of_ofBytes {bytes : List UInt8} {t : Tree} (h : Tree.ofBytes bytes = .ok t) :
    t.Storable := by
  obtain ⟨p, _, ht⟩ := Tree.ofBytes_eq_ok_iff.1 h
  exact Binary.Arena.storable_of_toTree ht

/-- The trees that there are: compiled ones, and those read from bytes. -/
inductive Tree.Obtained : Tree → Prop where
  | compiled {s : Spec} {compact : Bool} {t : Tree} (h : s.compile compact = .ok t) : Obtained t
  | read {bytes : List UInt8} {t : Tree} (h : Tree.ofBytes bytes = .ok t) : Obtained t

theorem Tree.Obtained.storable {t : Tree} (h : t.Obtained) : t.Storable := by
  cases h with
  | compiled h => exact Spec.storable_of_compile h
  | read h => exact Tree.storable_of_ofBytes h

end Verdict
