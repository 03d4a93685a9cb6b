import Verdict.Binary.Fault
import Verdict.Branch.Walk
import Verdict.Tree

/-! Trees as lists of entries. Both sides of a node stand before the node, which names them by their
places, and the root stands last. A list of entries is read as a tree only if it is one: every entry
but the last is a side of exactly one node.
-/

set_option autoImplicit false

namespace Verdict.Binary

inductive Entry where
  | leaf (outcome : Outcome)
  | node (want : Conditions) (onMatch onFail : Nat)
deriving DecidableEq, Repr

def Entry.isNode : Entry → Bool
  | leaf _ => false
  | node _ _ _ => true

def lay (entries : Array Entry) : Branch → Array Entry × Nat
  | .leaf outcome => (entries.push (.leaf outcome), entries.size)
  | .node want m f =>
    let (entries, onMatch) := lay entries m
    let (entries, onFail) := lay entries f
    (entries.push (.node want onMatch onFail), entries.size)

structure Arena where
  entries : List Entry
  root : Nat
  conditions : List Conditions
  outcomes : List (List Outcome)
  nodes : Nat
  leaves : Nat
  domains : Nat
deriving DecidableEq, Repr

namespace Arena

def ofTree (t : Tree) : Arena :=
  let (entries, root) := lay #[] t.root
  ⟨entries.toList, root, t.conditions, t.outcomes, t.root.nodeCount, t.root.leafCount,
    t.conditions.length⟩

def checkEntry (index : Nat) : Entry → Except ArenaFault Unit
  | .leaf outcome => if outcome.name.isEmpty then .error (.emptyOutcome index) else .ok ()
  | .node want m f =>
    if want.isEmpty then .error (.emptyWant index)
    else if index ≤ m then .error (.notBefore index m)
    else if index ≤ f then .error (.notBefore index f)
    else if m == f then .error (.sameSides index m)
    else .ok ()

def checkFrom (index : Nat) : List Entry → Except ArenaFault Unit
  | [] => .ok ()
  | e :: es =>
    match checkEntry index e with
    | .error fault => .error fault
    | .ok _ => checkFrom (index + 1) es

theorem checkFrom_cons_eq_ok_iff {index : Nat} {e : Entry} {es : List Entry} :
    checkFrom index (e :: es) = .ok () ↔
      checkEntry index e = .ok () ∧ checkFrom (index + 1) es = .ok () := by
  rw [checkFrom]
  cases checkEntry index e <;> simp

def check (a : Arena) : Except ArenaFault Unit :=
  let size := a.entries.length
  let nodes := a.entries.countP Entry.isNode
  if a.nodes != nodes then .error (.nodeCount a.nodes nodes)
  else if a.leaves != size - nodes then .error (.leafCount a.leaves (size - nodes))
  else if a.domains != a.conditions.length || a.domains != a.outcomes.length then
    .error (.domainCount a.domains a.conditions.length a.outcomes.length)
  else if size == 0 || a.root != size - 1 then .error (.root a.root size)
  else checkFrom 0 a.entries

theorem check_eq_ok_iff {a : Arena} :
    a.check = .ok () ↔
      a.nodes = a.entries.countP Entry.isNode ∧ a.leaves = a.entries.length - a.nodes ∧
      a.domains = a.conditions.length ∧ a.domains = a.outcomes.length ∧
      a.root + 1 = a.entries.length ∧ checkFrom 0 a.entries = .ok () := by
  have hroot : (a.entries.length == 0 || a.root != a.entries.length - 1) = false ↔
      a.root + 1 = a.entries.length := by
    simp only [Bool.or_eq_false_iff, beq_eq_false_iff_ne, bne_eq_false_iff_eq]
    omega
  unfold check
  grind

abbrev Slots : Type := Array (Option Branch)

/-- A branch that is taken as a side is no longer there to be taken. -/
def take (slots : Slots) (index : Nat) : Except ArenaFault (Branch × Slots) :=
  match slots[index]? with
  | some (some b) => .ok (b, slots.setIfInBounds index none)
  | _ => .error (.taken index)

def place (slots : Slots) : Entry → Except ArenaFault Slots
  | .leaf outcome => .ok (slots.push (some (.leaf outcome)))
  | .node want m f =>
    match take slots m with
    | .error fault => .error fault
    | .ok (onMatch, slots) =>
      match take slots f with
      | .error fault => .error fault
      | .ok (onFail, slots) => .ok (slots.push (some (.node want onMatch onFail)))

theorem place_node_eq_ok_iff {slots slots' : Slots} {want : Conditions} {i j : Nat} :
    place slots (.node want i j) = .ok slots' ↔
      ∃ m middle f last, take slots i = .ok (m, middle) ∧ take middle j = .ok (f, last) ∧
        slots' = last.push (some (.node want m f)) := by
  rw [place]
  constructor
  · intro h
    split at h
    · cases h
    · next m middle hm =>
      split at h
      · cases h
      · next f last hf => exact ⟨m, middle, f, last, hm, hf, (Except.ok.inj h).symm⟩
  · rintro ⟨m, middle, f, last, hm, hf, rfl⟩
    simp only [hm, hf]

def placeAll (slots : Slots) : List Entry → Except ArenaFault Slots
  | [] => .ok slots
  | e :: es =>
    match place slots e with
    | .error fault => .error fault
    | .ok slots => placeAll slots es

theorem placeAll_cons_eq_ok_iff {slots slots' : Slots} {e : Entry} {es : List Entry} :
    placeAll slots (e :: es) = .ok slots' ↔
      ∃ next, place slots e = .ok next ∧ placeAll next es = .ok slots' := by
  rw [placeAll]
  cases place slots e <;> simp

def rootOf (slots : Slots) : Except ArenaFault Branch :=
  match slots.back? with
  | some (some root) =>
    match slots.pop.findIdx? Option.isSome with
    | some index => .error (.unreachable index)
    | none => .ok root
  | _ => .error .noRoot

def rebuild (entries : List Entry) : Except ArenaFault Branch :=
  match placeAll #[] entries with
  | .error fault => .error fault
  | .ok slots => rootOf slots

theorem rebuild_eq_ok_iff {entries : List Entry} {root : Branch} :
    rebuild entries = .ok root ↔
      ∃ slots, placeAll #[] entries = .ok slots ∧ rootOf slots = .ok root := by
  rw [rebuild]
  cases placeAll #[] entries <;> simp

def toTree (a : Arena) : Except ArenaFault Tree :=
  match a.check with
  | .error fault => .error fault
  | .ok _ =>
    match rebuild a.entries with
    | .error fault => .error fault
    | .ok root => .ok ⟨root, a.conditions, a.outcomes⟩

theorem toTree_eq_ok_iff {a : Arena} {t : Tree} :
    a.toTree = .ok t ↔
      a.check = .ok () ∧ ∃ root, rebuild a.entries = .ok root ∧
        t = ⟨root, a.conditions, a.outcomes⟩ := by
  rw [toTree]
  cases a.check with
  | error fault => simp
  | ok _ => cases rebuild a.entries <;> simp [eq_comm]

end Arena

end Verdict.Binary
