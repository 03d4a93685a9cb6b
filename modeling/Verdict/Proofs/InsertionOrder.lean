import Mathlib.Data.Finset.Card
import Verdict.Proofs.Combinations
import Verdict.Proofs.JsonPresentation
import Verdict.Proofs.Wire

/-! Sets of conditions under any history. However a set was made and changed, it lists its members
in the order in which each of them came in last: a condition that is there already keeps its place,
and one that was taken out comes back at the end. A ledger follows the same history without any
list, and only notes when each condition that is present came in.
-/

set_option autoImplicit false

namespace Verdict

/-- How many insertions there were, and for each condition that is present the one that brought it
in. -/
structure Ledger where
  clock : Nat
  since : Condition → Option Nat

namespace Ledger

def blank : Ledger := ⟨0, fun _ => none⟩

def Present (l : Ledger) (c : Condition) : Prop := ∃ n, l.since c = some n

def Before (l : Ledger) (c d : Condition) : Prop :=
  ∃ m n, l.since c = some m ∧ l.since d = some n ∧ m < n

def enter (l : Ledger) (c : Condition) : Ledger :=
  ⟨l.clock + 1, fun d => if d = c ∧ l.since c = none then some l.clock else l.since d⟩

def enterAll (l : Ledger) (cs : List Condition) : Ledger := cs.foldl enter l

def leave (l : Ledger) (c : Condition) : Ledger :=
  ⟨l.clock, fun d => if d = c then none else l.since d⟩

def keep (l : Ledger) (chosen : Conditions) : Ledger :=
  ⟨l.clock, fun d => if d ∈ chosen then l.since d else none⟩

section

variable {l : Ledger} {c d : Condition}

theorem not_present_iff : ¬ l.Present c ↔ l.since c = none := by
  cases h : l.since c <;> simp [Present, h]

theorem since_enter_of_present (h : l.Present c) : (l.enter c).since = l.since := by
  obtain ⟨n, hn⟩ := h
  funext d
  simp [enter, hn]

theorem since_enter_self (h : ¬ l.Present c) : (l.enter c).since c = some l.clock := by
  simp [enter, not_present_iff.1 h]

theorem since_enter_of_ne (h : d ≠ c) : (l.enter c).since d = l.since d := by
  simp [enter, h]

end

end Ledger

namespace Conditions

/-- The sets that some sequence of constructions and operations leads to, each with its ledger. A
construction starts anew. -/
inductive History : Conditions → Ledger → Prop where
  | new : History empty .blank
  /-- From an array, a vector or an iterator. -/
  | list (cs : List Condition) : History (ofList cs) (Ledger.blank.enterAll cs)
  | single (c : Condition) : History (singleton c) (Ledger.blank.enter c)
  | json {text : String} {names : List String} {s : Conditions}
      (hnames : Json.whole (Json.list Json.string) text = .ok names) (hs : ofJson text = .ok s) :
      History s (Ledger.blank.enterAll (names.map Condition.mk))
  | stored {bytes rest rest' : List UInt8} {names : List String} {s : Conditions}
      (hnames : Binary.readMany Binary.readText bytes = .ok (names, rest))
      (hs : Binary.readConditions bytes = .ok (s, rest')) :
      History s (Ledger.blank.enterAll (names.map Condition.mk))
  | extend {s : Conditions} {l : Ledger} (h : History s l) (cs : List Condition) :
      History (s.extend cs) (l.enterAll cs)
  | insert {s : Conditions} {l : Ledger} (h : History s l) (c : Condition) :
      History (s.insertNew c).1 (l.enter c)
  | erase {s : Conditions} {l : Ledger} (h : History s l) (c : Condition) :
      History (s.eraseOld c).1 (l.leave c)
  | combination {s t : Conditions} {l : Ledger} (h : History s l) (ht : t ∈ s.combinations) :
      History t (l.keep t)

structure Listed (s : Conditions) (l : Ledger) : Prop where
  mem : ∀ c, c ∈ s ↔ l.Present c
  order : s.members.Pairwise l.Before
  past : ∀ c n, l.since c = some n → n < l.clock

theorem listed_empty : empty.Listed .blank where
  mem c := by simp [empty, mem_iff, Ledger.Present, Ledger.blank]
  order := List.Pairwise.nil
  past c n h := by cases h

theorem Listed.insert_present {s : Conditions} {l : Ledger} (h : s.Listed l) {c : Condition}
    (hc : c ∈ s) : (s.insert c).Listed (l.enter c) := by
  have hsame : s.insert c = s := Conditions.ext (by rw [members_insert, if_pos hc])
  have hsince := Ledger.since_enter_of_present ((h.mem c).1 hc)
  rw [hsame]
  refine ⟨?_, ?_, ?_⟩
  · simpa only [Ledger.Present, hsince] using h.mem
  · exact h.order.imp fun hb => by simpa only [Ledger.Before, hsince] using hb
  · intro d n hn
    rw [hsince] at hn
    exact Nat.lt_succ_of_lt (h.past d n hn)

theorem Listed.insert_new {s : Conditions} {l : Ledger} (h : s.Listed l) {c : Condition}
    (hc : c ∉ s) : (s.insert c).Listed (l.enter c) := by
  have hnew := Ledger.since_enter_self (mt (h.mem c).2 hc)
  have hold : ∀ d, d ≠ c → (l.enter c).since d = l.since d := fun d => Ledger.since_enter_of_ne
  have hne : ∀ d ∈ s.members, d ≠ c := fun d hd he => hc (he ▸ hd)
  refine ⟨fun d => ?_, ?_, ?_⟩
  · rw [mem_insert, h.mem]
    by_cases hd : d = c
    · simp [Ledger.Present, hd, hnew]
    · simp [Ledger.Present, hd, hold d hd]
  · rw [members_insert, if_neg hc]
    -- The old ones keep their dates, and these all lie before the clock, the date of the new one.
    refine List.pairwise_append.2 ⟨?_, List.pairwise_singleton _ _, ?_⟩
    · refine h.order.imp_of_mem fun {a b} ha hb hab => ?_
      simpa only [Ledger.Before, hold a (hne a ha), hold b (hne b hb)] using hab
    · intro a ha d hd
      obtain rfl := List.mem_singleton.1 hd
      obtain ⟨n, hn⟩ := (h.mem a).1 ha
      exact ⟨n, l.clock, by rw [hold a (hne a ha), hn], hnew, h.past a n hn⟩
  · intro d n hn
    have hclock : (l.enter c).clock = l.clock + 1 := rfl
    by_cases hd : d = c
    · rw [hd, hnew, Option.some.injEq] at hn
      omega
    · rw [hold d hd] at hn
      have := h.past d n hn
      omega

theorem Listed.insert {s : Conditions} {l : Ledger} (h : s.Listed l) (c : Condition) :
    (s.insert c).Listed (l.enter c) := by
  by_cases hc : c ∈ s
  · exact h.insert_present hc
  · exact h.insert_new hc

theorem Listed.extend {s : Conditions} {l : Ledger} (h : s.Listed l) (cs : List Condition) :
    (s.extend cs).Listed (l.enterAll cs) := by
  induction cs generalizing s l with
  | nil => exact h
  | cons c cs ih => exact ih (h.insert c)

theorem Listed.restrict {s t : Conditions} {l k : Ledger} (h : s.Listed l)
    (ht : t.members.Sublist s.members) (hclock : k.clock = l.clock)
    (hstay : ∀ c ∈ t, k.since c = l.since c) (hgone : ∀ c, c ∉ t → k.since c = none) :
    t.Listed k := by
  refine ⟨fun c => ?_, ?_, ?_⟩
  · constructor
    · intro hc
      obtain ⟨n, hn⟩ := (h.mem c).1 (ht.subset hc)
      exact ⟨n, by rw [hstay c hc, hn]⟩
    · rintro ⟨n, hn⟩
      by_contra hc
      rw [hgone c hc] at hn
      cases hn
  · refine (h.order.sublist ht).imp_of_mem fun {a b} ha hb hab => ?_
    simpa only [Ledger.Before, hstay a ha, hstay b hb] using hab
  · intro c n hn
    by_cases hc : c ∈ t
    · rw [hstay c hc] at hn
      exact hclock ▸ h.past c n hn
    · rw [hgone c hc] at hn
      cases hn

theorem Listed.erase {s : Conditions} {l : Ledger} (h : s.Listed l) (c : Condition) :
    (s.erase c).Listed (l.leave c) := by
  refine h.restrict List.erase_sublist rfl ?_ ?_
  · intro d hd
    simp [Ledger.leave, (mem_erase.1 hd).1]
  · intro d hd
    by_cases hc : d = c
    · simp [Ledger.leave, hc]
    · have hgone : ¬ l.Present d := fun hp => hd (mem_erase.2 ⟨hc, (h.mem d).2 hp⟩)
      simp [Ledger.leave, hc, Ledger.not_present_iff.1 hgone]

theorem Listed.combination {s t : Conditions} {l : Ledger} (h : s.Listed l)
    (ht : t ∈ s.combinations) : t.Listed (l.keep t) := by
  refine h.restrict (sublist_of_mem_selections (mem_combinations.1 ht)) rfl ?_ ?_
  · intro c hc
    simp [Ledger.keep, hc]
  · intro c hc
    simp [Ledger.keep, hc]

theorem ofJson_eq_ok_iff {text : String} {s : Conditions} :
    ofJson text = .ok s ↔ ∃ names, Json.whole (Json.list Json.string) text = .ok names ∧
      s = ofList (names.map Condition.mk) := by
  unfold ofJson Json.conditions
  rw [Json.whole_map]
  cases Json.whole (Json.list Json.string) text with
  | error fault => simp [Except.map]
  | ok names => simp [Except.map, eq_comm]

theorem readConditions_eq_ok_iff {bytes rest : List UInt8} {s : Conditions} :
    Binary.readConditions bytes = .ok (s, rest) ↔
      ∃ names, Binary.readMany Binary.readText bytes = .ok (names, rest) ∧
        s = ofList (names.map Condition.mk) := by
  unfold Binary.readConditions
  cases Binary.readMany Binary.readText bytes with
  | error fault => simp [Except.map]
  | ok r => simp [Except.map, Prod.ext_iff]; grind

theorem History.listed {s : Conditions} {l : Ledger} (h : History s l) : s.Listed l := by
  have hlist : ∀ cs, (ofList cs).Listed (Ledger.blank.enterAll cs) := listed_empty.extend
  induction h with
  | new => exact listed_empty
  | list cs => exact hlist cs
  | single c => exact listed_empty.insert c
  | json hnames hs =>
    obtain ⟨names, hn, rfl⟩ := ofJson_eq_ok_iff.1 hs
    obtain rfl := Except.ok.inj (hn.symm.trans hnames)
    exact hlist _
  | stored hnames hs =>
    obtain ⟨names, hn, rfl⟩ := readConditions_eq_ok_iff.1 hs
    obtain ⟨rfl, _⟩ := Prod.ext_iff.1 (Except.ok.inj (hn.symm.trans hnames))
    exact hlist _
  | extend _ cs ih => exact ih.extend cs
  | insert _ c ih => exact ih.insert c
  | erase _ c ih => exact ih.erase c
  | combination _ ht ih => exact ih.combination ht

theorem Listed.nodup {s : Conditions} {l : Ledger} (h : s.Listed l) : s.members.Nodup :=
  h.order.imp fun {a b} hab he => by
    obtain ⟨m, n, hm, hn, hlt⟩ := hab
    rw [he, hn, Option.some.injEq] at hm
    omega

/-- A set that is what its ledger says: it lists what is present, nothing twice, in the order of
coming in; all that can be asked of it agrees with that; and what an insertion or a removal returns
is whether the members change. -/
structure Chronicled (s : Conditions) (l : Ledger) : Prop where
  nodup : s.members.Nodup
  members : ∀ c, c ∈ s.members ↔ l.Present c
  order : s.members.Pairwise l.Before
  contains : ∀ c, s.contains c = true ↔ l.Present c
  includes : ∀ t : Conditions, s.includes t = true ↔ ∀ c ∈ t.members, l.Present c
  position : ∀ c i, s.position? c = some i ↔ s.members[i]? = some c
  absent : ∀ c, s.position? c = none ↔ ¬ l.Present c
  size : ∀ present : Finset Condition, (∀ c, c ∈ present ↔ l.Present c) → s.size = present.card
  inserted : ∀ c, (s.insertNew c).2 = true ↔ ∃ d, ¬ (d ∈ (s.insertNew c).1 ↔ d ∈ s)
  erased : ∀ c, (s.eraseOld c).2 = true ↔ ∃ d, ¬ (d ∈ (s.eraseOld c).1 ↔ d ∈ s)

theorem Listed.chronicled {s : Conditions} {l : Ledger} (h : s.Listed l) : s.Chronicled l where
  nodup := h.nodup
  members := h.mem
  order := h.order
  contains c := contains_iff.trans (h.mem c)
  includes t := by
    rw [includes_iff]
    exact forall₂_congr fun c _ => h.mem c
  position _ _ := position?_eq_some_iff
  absent c := by rw [position?_eq_none_iff, h.mem]
  size present hpresent := by
    have hset : s.members.toFinset = present := by
      ext c
      rw [List.mem_toFinset, hpresent]
      exact h.mem c
    rw [← hset, List.toFinset_card_of_nodup h.nodup, Conditions.size]
  inserted c := by
    have hnew : (s.insertNew c).2 = true ↔ c ∉ s := by simp [insertNew, contains]
    rw [hnew]
    constructor
    · intro hc
      exact ⟨c, fun hsame => hc (hsame.1 (mem_insert.2 (Or.inr rfl)))⟩
    · rintro ⟨d, hd⟩ hc
      exact hd ⟨fun hm => (mem_insert.1 hm).elim id fun he => he ▸ hc,
        fun hm => mem_insert.2 (Or.inl hm)⟩
  erased c := by
    rw [eraseOld, contains_iff]
    constructor
    · intro hc
      exact ⟨c, fun hsame => (mem_erase.1 (hsame.2 hc)).1 rfl⟩
    · rintro ⟨d, hd⟩
      by_contra hc
      exact hd ⟨fun hm => (mem_erase.1 hm).2, fun hm => mem_erase.2 ⟨fun he => hc (he ▸ hm), hm⟩⟩

theorem ofJson_written (names : List String) :
    ofJson (String.ofList (Json.writeList (names.map Json.writeString))) =
      .ok (ofList (names.map Condition.mk)) :=
  ofJson_eq_ok_iff.2 ⟨names, (Json.written_list Json.written_string names).whole, rfl⟩

theorem readConditions_written {names : List String}
    (h : (Binary.writeMany Binary.writeText names).length < 2 ^ 64) (rest : List UInt8) :
    Binary.readConditions (Binary.writeMany Binary.writeText names ++ rest) =
      .ok (ofList (names.map Condition.mk), rest) :=
  readConditions_eq_ok_iff.2 ⟨names, Binary.reads_writeMany Binary.writeText_pos
    (fun _ _ hname => Binary.reads_writeText hname) h rest, rfl⟩

/-- Whatever its history, a set is listed in the order of coming in, and counts as equal to another
one when the same conditions are present in both. No list of names is too odd to be read. -/
theorem insertion_ordered {s t : Conditions} {l k : Ledger} (hs : History s l)
    (ht : History t k) :
    s.Chronicled l ∧ (s.equiv t = true ↔ ∀ c, l.Present c ↔ k.Present c) ∧
      (Equivalence fun a b : Conditions => a.equiv b = true) ∧
      (∀ names : List String,
        ∃ u, ofJson (String.ofList (Json.writeList (names.map Json.writeString))) = .ok u ∧
          History u (Ledger.blank.enterAll (names.map Condition.mk))) ∧
      ∀ (names : List String) (rest : List UInt8),
        (Binary.writeMany Binary.writeText names).length < 2 ^ 64 →
        ∃ u, Binary.readConditions (Binary.writeMany Binary.writeText names ++ rest) =
            .ok (u, rest) ∧ History u (Ledger.blank.enterAll (names.map Condition.mk)) := by
  have hequiv : s.equiv t = true ↔ ∀ c, l.Present c ↔ k.Present c := by
    rw [equiv_iff]
    exact forall_congr' fun c => iff_congr (hs.listed.mem c) (ht.listed.mem c)
  refine ⟨hs.listed.chronicled, hequiv, equiv_equivalence, fun names => ?_, fun names rest h => ?_⟩
  · exact ⟨_, ofJson_written names, .list _⟩
  · exact ⟨_, readConditions_written h rest, .list _⟩

/-- Read as paid, flagged and paid again, then paid taken out and put back: what was flagged is the
older one now. -/
theorem insertion_ordered_paid :
    ∃ s t l k, History s l ∧ History t k ∧
      s.members = [⟨"flagged"⟩, ⟨"paid"⟩] ∧ l.Before ⟨"flagged"⟩ ⟨"paid"⟩ ∧
      t.members = [⟨"paid"⟩, ⟨"flagged"⟩] ∧ k.Before ⟨"paid"⟩ ⟨"flagged"⟩ ∧
      s.equiv t = true := by
  have htext : "[\"paid\",\"flagged\",\"paid\"]" =
      String.ofList (Json.writeList (["paid", "flagged", "paid"].map Json.writeString)) := rfl
  have hnames := (Json.written_list Json.written_string ["paid", "flagged", "paid"]).whole
  have hread := ofJson_written ["paid", "flagged", "paid"]
  rw [← htext] at hnames hread
  have hs := ((History.json hnames hread).erase ⟨"paid"⟩).insert ⟨"paid"⟩
  have ht := (History.list [⟨"paid"⟩, ⟨"new"⟩, ⟨"flagged"⟩]).combination
    (t := ⟨[⟨"paid"⟩, ⟨"flagged"⟩], by decide⟩) (by decide)
  have horder := (insertion_ordered hs ht).1.order
  have horder' := (insertion_ordered ht hs).1.order
  refine ⟨_, _, _, _, hs, ht, by decide, ?_, rfl, ?_, by decide⟩
  · exact List.rel_of_pairwise_cons (l := [⟨"paid"⟩]) horder List.mem_cons_self
  · exact List.rel_of_pairwise_cons horder' List.mem_cons_self

end Conditions

end Verdict
