import Verdict.Proofs.JsonReading
import Verdict.Proofs.Members
import Verdict.Source

set_option autoImplicit false

namespace Verdict.Json

variable {α σ : Type}

/-- A field as an object may have it: its key, the texts of its value, and whether it may be
left out. -/
structure Slot where
  key : String
  Text : List Char → Prop
  optional : Prop

/-- The members, in whatever order, give these fields: each at most once and with a text of its
value, and all that may not be left out. Any other key may stand before any well-formed
value. -/
structure Gives (slots : List Slot) (ms : List (String × List Char)) : Prop where
  once : ∀ slot ∈ slots, (ms.map Prod.fst).count slot.key ≤ 1
  value : ∀ slot ∈ slots, ∀ v, (slot.key, v) ∈ ms → slot.Text v
  given : ∀ slot ∈ slots, slot.optional ∨ slot.key ∈ ms.map Prod.fst
  other : ∀ m ∈ ms, (∀ slot ∈ slots, slot.key ≠ m.1) → Value m.2

section

variable {slots : List Slot} {slot : Slot} {ms ms' : List (String × List Char)} {key : String}
  {v : List Char}

theorem gives_nil : Gives [] [] where
  once := nofun
  value := nofun
  given := nofun
  other := nofun

theorem Gives.field (h : Gives slots ms) (hv : slot.Text v)
    (hms : slot.key ∉ ms.map Prod.fst) (hslots : ∀ slot' ∈ slots, slot'.key ≠ slot.key) :
    Gives (slot :: slots) ((slot.key, v) :: ms) where
  once := by
    have hcount := List.count_eq_zero.2 hms
    simp only [List.forall_mem_cons, List.map_cons, List.count_cons_self, hcount]
    refine ⟨Nat.le_refl 1, fun slot' hslot' => ?_⟩
    rw [List.count_cons_of_ne (hslots slot' hslot').symm]
    exact h.once slot' hslot'
  value := by
    refine List.forall_mem_cons.2 ⟨fun w hw => ?_, fun slot' hslot' w hw => ?_⟩
    · rcases List.mem_cons.1 hw with he | hw
      · cases he
        exact hv
      · exact absurd (List.mem_map_of_mem (f := Prod.fst) hw) hms
    · rcases List.mem_cons.1 hw with he | hw
      · exact absurd (Prod.mk.inj he).1 (hslots slot' hslot')
      · exact h.value slot' hslot' w hw
  given := List.forall_mem_cons.2 ⟨.inr List.mem_cons_self, fun slot' hslot' =>
    (h.given slot' hslot').imp_right (List.mem_cons_of_mem _)⟩
  other := fun m hm hne => by
    obtain ⟨hkey, hne⟩ := List.forall_mem_cons.1 hne
    rcases List.mem_cons.1 hm with rfl | hm
    · exact absurd rfl hkey
    · exact h.other m hm hne

theorem Gives.leave (h : Gives slots ms) (hslot : slot.optional)
    (hms : slot.key ∉ ms.map Prod.fst) : Gives (slot :: slots) ms where
  once := by
    have hcount := List.count_eq_zero.2 hms
    exact List.forall_mem_cons.2 ⟨by omega, h.once⟩
  value := List.forall_mem_cons.2
    ⟨fun v hv => absurd (List.mem_map_of_mem (f := Prod.fst) hv) hms, h.value⟩
  given := List.forall_mem_cons.2 ⟨.inl hslot, h.given⟩
  other := fun m hm hne => h.other m hm (List.forall_mem_cons.1 hne).2

theorem Gives.member (h : Gives slots ms) (hkey : ∀ slot ∈ slots, slot.key ≠ key) (hv : Value v) :
    Gives slots ((key, v) :: ms) where
  once := fun slot hslot => by
    rw [List.map_cons, List.count_cons_of_ne (hkey slot hslot).symm]
    exact h.once slot hslot
  value := fun slot hslot w hw => by
    rcases List.mem_cons.1 hw with he | hw
    · exact absurd (congrArg Prod.fst he) (hkey slot hslot)
    · exact h.value slot hslot w hw
  given := fun slot hslot => (h.given slot hslot).imp_right (List.mem_cons_of_mem _)
  other := fun m hm hne => by
    rcases List.mem_cons.1 hm with rfl | hm
    · exact hv
    · exact h.other m hm hne

theorem Gives.perm (h : Gives slots ms) (hperm : ms.Perm ms') : Gives slots ms' where
  once := fun slot hslot => (hperm.map Prod.fst).count_eq slot.key ▸ h.once slot hslot
  value := fun slot hslot v hv => h.value slot hslot v (hperm.mem_iff.2 hv)
  given := fun slot hslot => (h.given slot hslot).imp_right (hperm.map Prod.fst).mem_iff.1
  other := fun m hm => h.other m (hperm.mem_iff.2 hm)

end

structure Keeps (fields : List (Field σ)) (slots : List Slot) (state : List String → σ) : Prop where
  known : ∀ slot ∈ slots, ∀ seen, slot.key ∉ seen → ∀ v, slot.Text v →
    Moves fields slot.key v (state seen) (state (slot.key :: seen))
  other : ∀ key, (∀ slot ∈ slots, slot.key ≠ key) →
    fields.find? (·.name == key) = none ∧ ∀ seen, state (key :: seen) = state seen

section

variable {fields : List (Field σ)} {slots : List Slot} {state : List String → σ}

theorem Keeps.gathers (h : Keeps fields slots state) {ms : List (String × List Char)}
    {seen : List String} (honce : ∀ slot ∈ slots, (ms.map Prod.fst ++ seen).count slot.key ≤ 1)
    (hvalue : ∀ slot ∈ slots, ∀ v, (slot.key, v) ∈ ms → slot.Text v)
    (hother : ∀ m ∈ ms, (∀ slot ∈ slots, slot.key ≠ m.1) → Value m.2) :
    Gathers fields (state seen) ms (state ((ms.map Prod.fst).reverse ++ seen)) := by
  -- A key passes from the members to what was seen, so that the two together hold it once at most.
  induction ms generalizing seen with
  | nil => exact .done _
  | cons m ms ih =>
    obtain ⟨key, v⟩ := m
    have hmore : Gathers fields (state (key :: seen)) ms
        (state ((ms.map Prod.fst).reverse ++ key :: seen)) := by
      refine ih (fun slot hslot => ?_) (fun slot hslot v hv => ?_) fun m hm => ?_
      · have hcount := honce slot hslot
        simp only [List.map_cons, List.cons_append, List.count_append, List.count_cons] at hcount ⊢
        omega
      · exact hvalue slot hslot v (List.mem_cons_of_mem _ hv)
      · exact hother m (List.mem_cons_of_mem _ hm)
    rw [List.map_cons, List.reverse_cons, List.append_assoc]
    refine .member ?_ hmore
    by_cases hknown : ∃ slot ∈ slots, slot.key = key
    · obtain ⟨slot, hslot, rfl⟩ := hknown
      refine h.known slot hslot seen ?_ v (hvalue slot hslot v List.mem_cons_self)
      intro hseen
      have hpos := List.count_pos_iff.2 hseen
      have hcount := honce slot hslot
      simp only [List.map_cons, List.cons_append, List.count_append, List.count_cons_self] at hcount
      omega
    · have hnone : ∀ slot ∈ slots, slot.key ≠ key := fun slot hslot he => hknown ⟨slot, hslot, he⟩
      obtain ⟨hfind, hstate⟩ := h.other key hnone
      rw [hstate]
      exact moves_other hfind (hother (key, v) List.mem_cons_self hnone) _

def ObjectText (t : List Char) (slots : List Slot) : Prop :=
  ∃ ms, Enclosed '\x7b' '\x7d' (Member Spelling) t ms ∧ Gives slots ms

theorem ObjectText.written {t : List Char} {expected : Expected}
    {finish : Shape → σ → Except Fault α} {x : α} (h : ObjectText t slots)
    (hkeeps : Keeps fields slots state)
    (hfinish : ∀ seen, (∀ slot ∈ slots, slot.optional ∨ slot.key ∈ seen) →
      finish .object (state seen) = .ok x) :
    Written (record expected fields (state []) finish) t x := by
  obtain ⟨ms, hms, honce, hvalue, hgiven, hother⟩ := h
  refine hms.written_record (hkeeps.gathers (by simpa using honce) hvalue hother) ?_
  refine hfinish _ fun slot hslot => ?_
  simpa using hgiven slot hslot

end

def StringText (t : List Char) (s : String) : Prop :=
  ∃ body, Spelling body s ∧ t = '"' :: (body ++ ['"'])

/-- The members of the set in their order; a name that stands in the list may be repeated further
behind. -/
def NamesText (t : List Char) (s : Conditions) : Prop :=
  ∃ names, Enclosed '[' ']' StringText t names ∧ (names.map Condition.mk).eraseDups = s.members

def ruleSlots (r : Rule) : List Slot :=
  [⟨"result", (StringText · r.result.name), False⟩,
    ⟨"want", (NamesText · r.want), r.want.isEmpty = true⟩,
    ⟨"or", (NamesText · r.anyOf), r.anyOf.isEmpty = true⟩]

def RuleText (t : List Char) (r : Rule) : Prop := ObjectText t (ruleSlots r)

def domainSlots (d : Domain) : List Slot :=
  [⟨"options", (Enclosed '[' ']' RuleText · d.rules), d.rules = []⟩,
    ⟨"priority", (NamesText · d.priority), d.priority.isEmpty = true⟩]

def DomainText (t : List Char) (d : Domain) : Prop := ObjectText t (domainSlots d)

def specSlots (s : Spec) : List Slot :=
  [⟨"domains", (Enclosed '[' ']' DomainText · s.domains), s.domains = []⟩]

def SpecText (t : List Char) (s : Spec) : Prop := ObjectText t (specSlots s)

theorem StringText.written {t : List Char} {s : String} (h : StringText t s) :
    Written string t s := by
  obtain ⟨body, hbody, rfl⟩ := h
  exact hbody.written

theorem NamesText.written {t : List Char} {s : Conditions} (h : NamesText t s) :
    Written conditions t s := by
  obtain ⟨names, hnames, hs⟩ := h
  have hlist := hnames.written_list fun _ _ => StringText.written
  rw [Conditions.eq_ofList_iff.2 hs.symm]
  exact hlist.map fun names => Conditions.ofList (names.map Condition.mk)

def kept {β : Type} (seen : List String) (key : String) (x : β) : Option β :=
  if key ∈ seen then some x else none

theorem kept_of_not_mem {β : Type} {seen : List String} {key : String} (h : key ∉ seen) (x : β) :
    kept seen key x = none := if_neg h

@[simp] theorem kept_cons {β : Type} (seen : List String) (key key' : String) (x : β) :
    kept (key' :: seen) key x = if key = key' then some x else kept seen key x := by
  by_cases h : key = key' <;> simp [kept, h]

theorem kept_getD {β : Type} {seen : List String} {key : String} {x d : β}
    (h : x = d ∨ key ∈ seen) : (kept seen key x).getD d = x := by
  unfold kept
  split
  · rfl
  · next hmem => exact (h.resolve_right hmem).symm

theorem keeps_rule (r : Rule) : Keeps ruleFields (ruleSlots r) fun seen =>
    ⟨kept seen "result" r.result, kept seen "want" r.want, kept seen "or" r.anyOf⟩ where
  known := by
    intro slot hslot seen hseen v hv
    simp only [ruleSlots, List.mem_cons, List.not_mem_nil, or_false] at hslot
    rcases hslot with rfl | rfl | rfl
    · have h := (StringText.written hv).map fun name =>
        (⟨some ⟨name⟩, kept seen "want" r.want, kept seen "or" r.anyOf⟩ : RuleParts)
      refine moves_field rfl (by simp [kept_of_not_mem hseen]) ?_
      simpa using h
    · have h := (NamesText.written hv).map fun cs =>
        (⟨kept seen "result" r.result, some cs, kept seen "or" r.anyOf⟩ : RuleParts)
      refine moves_field rfl (by simp [kept_of_not_mem hseen]) ?_
      simpa using h
    · have h := (NamesText.written hv).map fun cs =>
        (⟨kept seen "result" r.result, kept seen "want" r.want, some cs⟩ : RuleParts)
      refine moves_field rfl (by simp [kept_of_not_mem hseen]) ?_
      simpa using h
  other := by
    intro key hkey
    simp only [ruleSlots, List.forall_mem_cons] at hkey
    obtain ⟨hresult, hwant, hor, -⟩ := hkey
    simp [ruleFields, hresult, hwant, hor]

theorem RuleText.written {t : List Char} {r : Rule} (h : RuleText t r) : Written rule t r := by
  refine ObjectText.written h (keeps_rule r) fun seen hseen => ?_
  simp only [ruleSlots, List.forall_mem_cons, false_or, Conditions.isEmpty_iff] at hseen
  obtain ⟨hresult, hwant, hor, -⟩ := hseen
  have hkept : kept seen "result" r.result = some r.result := if_pos hresult
  simp only [finishRule, hkept, kept_getD hwant, kept_getD hor]

theorem keeps_domain (d : Domain) : Keeps domainFields (domainSlots d) fun seen =>
    ⟨kept seen "options" d.rules, kept seen "priority" d.priority⟩ where
  known := by
    intro slot hslot seen hseen v hv
    simp only [domainSlots, List.mem_cons, List.not_mem_nil, or_false] at hslot
    rcases hslot with rfl | rfl
    · have hlist := Enclosed.written_list hv fun _ _ => RuleText.written
      have h := hlist.map fun rs => (⟨some rs, kept seen "priority" d.priority⟩ : DomainParts)
      refine moves_field rfl (by simp [kept_of_not_mem hseen]) ?_
      simpa using h
    · have h := (NamesText.written hv).map fun cs =>
        (⟨kept seen "options" d.rules, some cs⟩ : DomainParts)
      refine moves_field rfl (by simp [kept_of_not_mem hseen]) ?_
      simpa using h
  other := by
    intro key hkey
    simp only [domainSlots, List.forall_mem_cons] at hkey
    obtain ⟨hoptions, hpriority, -⟩ := hkey
    simp [domainFields, hoptions, hpriority]

theorem DomainText.written {t : List Char} {d : Domain} (h : DomainText t d) :
    Written domain t d := by
  refine ObjectText.written h (keeps_domain d) fun seen hseen => ?_
  simp only [domainSlots, List.forall_mem_cons, Conditions.isEmpty_iff] at hseen
  obtain ⟨hoptions, hpriority, -⟩ := hseen
  simp only [kept_getD hoptions, kept_getD hpriority]

theorem keeps_spec (s : Spec) :
    Keeps specFields (specSlots s) fun seen => kept seen "domains" s.domains where
  known := by
    intro slot hslot seen hseen v hv
    obtain rfl := List.mem_singleton.1 hslot
    have hlist := Enclosed.written_list hv fun _ _ => DomainText.written
    refine moves_field rfl (by simp [kept_of_not_mem hseen]) ?_
    simpa using hlist.map some
  other := by
    intro key hkey
    have hdomains := hkey _ List.mem_cons_self
    simp [specFields, hdomains]

theorem SpecText.written {t : List Char} {s : Spec} (h : SpecText t s) : Written spec t s := by
  refine ObjectText.written h (keeps_spec s) fun seen hseen => ?_
  have hdomains := hseen _ List.mem_cons_self
  simp only [kept_getD hdomains]

theorem stringText_writeString (s : String) : StringText (writeString s) s :=
  ⟨s.toList.flatMap writeChar, spelled_flatMap s.toList, rfl⟩

theorem namesText_writeNames (s : Conditions) : NamesText (writeNames s) s := by
  have hlist := enclosed_writeList stringText_writeString (s.members.map Condition.name)
  have hback : (s.members.map Condition.name).map Condition.mk = s.members := by
    rw [List.map_map]
    exact List.map_id s.members
  refine ⟨s.members.map Condition.name, ?_, ?_⟩
  · rwa [List.map_map] at hlist
  · rw [hback, eraseDups_of_nodup s.nodup]

theorem gives_unlessEmpty (key : String) (s : Conditions) :
    Gives [⟨key, (NamesText · s), s.isEmpty = true⟩] (writeUnlessEmpty key s) := by
  unfold writeUnlessEmpty
  split
  · next h => exact gives_nil.leave h (by simp)
  · exact gives_nil.field (namesText_writeNames s) (by simp) (by simp)

theorem keys_unlessEmpty {key key' : String} (h : key' ≠ key) (s : Conditions) :
    key' ∉ (writeUnlessEmpty key s).map Prod.fst := by
  unfold writeUnlessEmpty
  split <;> simp [h]

theorem ruleText_writeRule (r : Rule) : RuleText (writeRule r) r := by
  have hor : ∀ key, key ≠ "or" → key ∉ (writeUnlessEmpty "or" r.anyOf).map Prod.fst :=
    fun _ h => keys_unlessEmpty h r.anyOf
  have hgives := gives_unlessEmpty "or" r.anyOf
  refine ⟨_, enclosed_writeObject _, .field (.field hgives (namesText_writeNames r.want) ?_ ?_)
    (stringText_writeString r.result.name) ?_ ?_⟩
  · exact hor "want" (by decide)
  · simp
  · simpa using hor "result" (by decide)
  · simp

theorem domainText_writeDomain (d : Domain) : DomainText (writeDomain d) d := by
  refine ⟨_, enclosed_writeObject _, .field (gives_unlessEmpty "priority" d.priority)
    (enclosed_writeList ruleText_writeRule d.rules) ?_ ?_⟩
  · exact keys_unlessEmpty (by simp) d.priority
  · simp

theorem specText_writeSpec (s : Spec) : SpecText (writeSpec s) s :=
  ⟨_, enclosed_writeObject _,
    gives_nil.field (enclosed_writeList domainText_writeDomain s.domains) (by simp) (by simp)⟩

end Verdict.Json

namespace Verdict

def Spec.Presented (s : Spec) (text : String) : Prop :=
  ∃ b t b', Json.Blanks b ∧ Json.Blanks b' ∧ text.toList = b ++ (t ++ b') ∧ Json.SpecText t s

theorem Spec.presented_toJson (s : Spec) : s.Presented s.toJson :=
  ⟨[], Json.writeSpec s, [], Json.blanks_nil, Json.blanks_nil, by simp [toJson],
    Json.specText_writeSpec s⟩

theorem Spec.Presented.ofJson {s : Spec} {text : String} (h : s.Presented text) :
    Spec.ofJson text = .ok s := by
  obtain ⟨b, t, b', hb, hb', htext, ht⟩ := h
  exact ht.written.whole_blanks hb hb' htext

theorem Spec.presentation_insensitive (s : Spec) :
    s.Presented s.toJson ∧ ∀ text, s.Presented text → Spec.ofJson text = .ok s :=
  ⟨s.presented_toJson, fun _ h => h.ofJson⟩

def Rule.ship : Rule := ⟨⟨"ship"⟩, .ofList [⟨"paid"⟩], .empty⟩

namespace Json

def shipMembers : List (String × List Char) :=
  [("want", writeList (["paid", "paid"].map writeString)), ("result", writeString "ship"),
    ("id", "-7".toList)]

def shippingMembers : List (String × List Char) :=
  [("priority", writeList []), ("options", writeList [writeObject shipMembers])]

def shippingText : List Char :=
  writeObject [("note", writeList [writeObject [("deep", writeList [])]]),
    ("domains", writeList [writeObject shippingMembers])]

theorem gives_shipMembers : Gives (ruleSlots .ship) shipMembers := by
  have hseven : Digits ['7'] := ⟨by simp, List.forall_mem_singleton.2 rfl⟩
  have hid : Value "-7".toList :=
    @Value.number ['-'] ['7'] [] [] (by simp) (.digits (by decide) hseven) .none .none
  have hwant : NamesText (writeList (["paid", "paid"].map writeString)) Rule.ship.want :=
    ⟨_, enclosed_writeList stringText_writeString _, by decide⟩
  refine .perm (.member (.field (.field (.leave gives_nil ?_ ?_) hwant ?_ ?_)
    (stringText_writeString "ship") ?_ ?_) ?_ hid) (List.reverse_perm _).symm
  all_goals simp [ruleSlots, Rule.ship, Conditions.isEmpty, Conditions.empty]

theorem specText_shippingText : SpecText shippingText ⟨[⟨[.ship], .empty⟩]⟩ := by
  have hrule : RuleText (writeObject shipMembers) .ship :=
    ⟨_, enclosed_writeObject _, gives_shipMembers⟩
  have hpriority : NamesText (writeList []) .empty :=
    ⟨[], enclosed_writeList stringText_writeString [], rfl⟩
  have hdomain : Gives (domainSlots ⟨[.ship], .empty⟩) shippingMembers := by
    refine .perm (.field (.field gives_nil hpriority ?_ ?_)
      (enclosed_writeItems (.cons hrule .nil)) ?_ ?_) (.swap _ _ _)
    all_goals simp
  have hnote : Value (writeList [writeObject [("deep", writeList [])]]) :=
    value_writeList (by simpa using value_writeObject (by simpa using value_writeList (by simp)))
  refine ⟨_, enclosed_writeObject _, .member (.field gives_nil
    (enclosed_writeItems (.cons ⟨_, enclosed_writeObject _, hdomain⟩ .nil)) ?_ ?_) ?_ hnote⟩
  all_goals simp [specSlots]

end Json

theorem Spec.presentation_insensitive_shipping :
    Spec.ofJson (" \x7b\"note\":[\x7b\"deep\":[]\x7d],\"domains\":[\x7b\"priority\":[]," ++
      "\"options\":[\x7b\"want\":[\"paid\",\"paid\"],\"result\":\"ship\",\"id\":-7\x7d]" ++
      "\x7d]\x7d\n") =
      .ok ⟨[⟨[.ship], .empty⟩]⟩ := by
  obtain ⟨-, hread⟩ := Spec.presentation_insensitive ⟨[⟨[.ship], .empty⟩]⟩
  have hspace : Json.Blanks [' '] := by simp [Json.Blanks, Json.isBlank]
  have hline : Json.Blanks ['\n'] := by simp [Json.Blanks, Json.isBlank]
  exact hread _ ⟨[' '], Json.shippingText, ['\n'], hspace, hline, by decide +kernel,
    Json.specText_shippingText⟩

end Verdict

namespace Verdict.Json

variable {α : Type}

theorem written_string (s : String) : Written string (writeString s) s :=
  (stringText_writeString s).written

theorem written_list {item : Reader α} {write : α → List Char}
    (h : ∀ x, Written item (write x) x) (xs : List α) :
    Written (list item) (writeList (xs.map write)) xs :=
  (enclosed_writeList h xs).written_list fun _ _ ht => ht

theorem whole_map {β : Type} (read : Reader α) (f : α → β) (text : String) :
    whole (fun s => (read s).map (·.map f)) text = (whole read text).map f := by
  cases hread : read text.toList with
  | error fault => simp only [whole, hread, Except.map]
  | ok step =>
    simp only [whole, hread, Except.map, Step.map]
    cases trim step.rest with
    | mk r h => cases r <;> rfl

end Verdict.Json

namespace Verdict

/-- Nothing is assumed of the names, not even that they are not empty: a complaint about them comes
back as well. -/
theorem Spec.json_exact (s : Spec) :
    Spec.ofJson s.toJson = .ok s ∧
      (Source.json s.toJson).load = (s.compile true).mapError LoadError.naming := by
  have hread : Spec.ofJson s.toJson = .ok s := s.presented_toJson.ofJson
  have hload : (Source.json s.toJson).load = Material.load (.spec s true) := by
    rw [Source.load, Source.read, Source.ofJson, hread]
    rfl
  refine ⟨hread, ?_⟩
  rw [hload, Material.load]
  cases s.compile true <;> rfl

end Verdict
