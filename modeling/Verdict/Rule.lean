/-! Conditions and outcomes, sets of conditions, and rules made of them. A set remembers the order of
insertion; membership is what counts for every decision, and the order is kept so that what is
written follows what was read. A rule gives its result when all the wanted conditions hold and, if it
names alternatives, at least one of those holds too. Rules that are weighed against each other make
up a domain; a specification lists domains in the order in which they are consulted.
-/

set_option autoImplicit false

namespace Verdict

structure Condition where
  name : String
deriving DecidableEq, Repr, Inhabited

structure Outcome where
  name : String
deriving DecidableEq, Repr

instance : ToString Condition := ⟨Condition.name⟩

instance : ToString Outcome := ⟨Outcome.name⟩

instance : Ord Condition := ⟨fun a b => compare a.name b.name⟩

instance : Ord Outcome := ⟨fun a b => compare a.name b.name⟩

/-- The answer where no rule applies and where rules contradict each other. -/
def Outcome.default : Outcome := ⟨"DEFAULT"⟩

instance : Inhabited Outcome := ⟨Outcome.default⟩

def Outcome.isDefault (o : Outcome) : Bool := o == Outcome.default

theorem Outcome.isDefault_iff (o : Outcome) : o.isDefault = true ↔ o = Outcome.default := by
  simp [isDefault]

structure Conditions where
  members : List Condition
  nodup : members.Nodup
deriving DecidableEq, Repr

namespace Conditions

def empty : Conditions := ⟨[], List.nodup_nil⟩

instance : Inhabited Conditions := ⟨empty⟩

instance : Membership Condition Conditions := ⟨fun s c => c ∈ s.members⟩

instance (c : Condition) (s : Conditions) : Decidable (c ∈ s) :=
  inferInstanceAs (Decidable (c ∈ s.members))

theorem mem_iff {c : Condition} {s : Conditions} : c ∈ s ↔ c ∈ s.members := Iff.rfl

theorem ext {s t : Conditions} (h : s.members = t.members) : s = t := by
  cases s; cases t; simp_all

def size (s : Conditions) : Nat := s.members.length

def isEmpty (s : Conditions) : Bool := s.members.isEmpty

def contains (s : Conditions) (c : Condition) : Bool := decide (c ∈ s)

theorem contains_iff {s : Conditions} {c : Condition} : s.contains c = true ↔ c ∈ s := by
  simp [contains]

def includes (s t : Conditions) : Bool := t.members.all s.contains

theorem includes_iff {s t : Conditions} :
    s.includes t = true ↔ ∀ c, c ∈ t → c ∈ s := by
  simp [includes, contains_iff, mem_iff]

def position? (s : Conditions) (c : Condition) : Option Nat := s.members.idxOf? c

/-- A condition that is already there keeps its place. -/
def insert (s : Conditions) (c : Condition) : Conditions :=
  if h : c ∈ s.members then s
  else ⟨s.members ++ [c], List.nodup_append.2 ⟨s.nodup, by simp, by simp; grind⟩⟩

theorem members_insert (s : Conditions) (c : Condition) :
    (s.insert c).members = if c ∈ s then s.members else s.members ++ [c] := by
  simp only [insert, mem_iff]; split <;> rfl

theorem mem_insert {s : Conditions} {c d : Condition} : d ∈ s.insert c ↔ d ∈ s ∨ d = c := by
  simp only [mem_iff, members_insert]; grind

theorem size_insert_le (s : Conditions) (c : Condition) : (s.insert c).size ≤ s.size + 1 := by
  rw [size, members_insert, size]
  split <;> simp

def insertNew (s : Conditions) (c : Condition) : Conditions × Bool :=
  (s.insert c, !s.contains c)

def erase (s : Conditions) (c : Condition) : Conditions := ⟨s.members.erase c, s.nodup.erase c⟩

theorem mem_erase {s : Conditions} {c d : Condition} : d ∈ s.erase c ↔ d ≠ c ∧ d ∈ s :=
  s.nodup.mem_erase_iff

theorem size_erase {s : Conditions} {c : Condition} (h : c ∈ s) :
    (s.erase c).size + 1 = s.size := by
  have hlen := List.length_erase_of_mem h
  have hpos := List.length_pos_of_mem h
  simp only [size, erase]
  omega

def eraseOld (s : Conditions) (c : Condition) : Conditions × Bool :=
  (s.erase c, s.contains c)

def extend (s : Conditions) (cs : List Condition) : Conditions := cs.foldl insert s

theorem mem_extend {s : Conditions} {cs : List Condition} {d : Condition} :
    d ∈ s.extend cs ↔ d ∈ s ∨ d ∈ cs := by
  induction cs generalizing s with
  | nil => simp [extend]
  | cons c cs ih => rw [extend, List.foldl_cons, ← extend, ih, mem_insert]; grind

def ofList (cs : List Condition) : Conditions := empty.extend cs

theorem mem_ofList {cs : List Condition} {d : Condition} : d ∈ ofList cs ↔ d ∈ cs := by
  rw [ofList, mem_extend]
  simp [empty, mem_iff]

def singleton (c : Condition) : Conditions := ⟨[c], by simp⟩

/-- Same members, in any order. Neither side repeats a member, so one inclusion and equal sizes are
enough. -/
def equiv (s t : Conditions) : Bool := s.size == t.size && s.includes t

def text (s : Conditions) : String := ", ".intercalate (s.members.map Condition.name)

instance : ToString Conditions := ⟨text⟩

/-- All selections from a list, those with its head before those without it. -/
def selections : List Condition → List (List Condition)
  | [] => [[]]
  | c :: cs => (selections cs).map (c :: ·) ++ selections cs

theorem sublist_of_mem_selections {cs l : List Condition} (h : l ∈ selections cs) :
    l.Sublist cs := by
  induction cs generalizing l with
  | nil => simp_all [selections]
  | cons c cs ih =>
    rcases List.mem_append.1 h with h | h
    · obtain ⟨m, hm, rfl⟩ := List.mem_map.1 h
      exact (ih hm).cons_cons c
    · exact (ih h).cons c

/-- Every subset once, from the whole set down to the empty one. -/
def combinations (s : Conditions) : List Conditions :=
  (selections s.members).pmap Conditions.mk fun _ h => (sublist_of_mem_selections h).nodup s.nodup

end Conditions

structure Rule where
  result : Outcome
  want : Conditions
  anyOf : Conditions
deriving DecidableEq, Repr, Inhabited

namespace Rule

/-- One rule without alternatives for each alternative, or the rule itself if it names none. -/
def expand (r : Rule) : List Rule :=
  if r.anyOf.isEmpty then [r]
  else r.anyOf.members.map fun c => ⟨r.result, r.want.insert c, Conditions.empty⟩

def equiv (r s : Rule) : Bool :=
  r.result == s.result && r.want.equiv s.want && r.anyOf.equiv s.anyOf

end Rule

structure Domain where
  rules : List Rule
  priority : Conditions
deriving DecidableEq, Repr, Inhabited

namespace Domain

def expand (d : Domain) : List Rule := d.rules.flatMap Rule.expand

/-- What the rules name, in order of appearance; the wanted conditions of a rule come before its
alternatives. -/
def conditions (d : Domain) : Conditions :=
  Conditions.ofList (d.rules.flatMap fun r => r.want.members ++ r.anyOf.members)

def outcomes (d : Domain) : List Outcome := (d.rules.map Rule.result).eraseDups

def equiv (d e : Domain) : Bool :=
  d.rules.isEqv e.rules Rule.equiv && d.priority.equiv e.priority

end Domain

structure Spec where
  domains : List Domain
deriving DecidableEq, Repr, Inhabited

def Spec.equiv (s t : Spec) : Bool := s.domains.isEqv t.domains Domain.equiv

end Verdict
