import Verdict.Branch
import Verdict.Branch.Walk
import Verdict.Plan

/-! Trees grown from a plan on top of a fallback, the tree that answers where the plan defers. With
compaction a test whose two sides are the same is left out, and two tests one under the other whose
fail sides are the same become one test that wants both. Sameness is never found by walking the
trees: each part carries what is known about it and about its fail side. What is noted meanwhile are
the splits of each domain, and the places where its rules contradict each other.
-/

set_option autoImplicit false

namespace Verdict

/-- What is known of a branch without a look at it. -/
inductive Clue where
  | fallback
  | leaf (outcome : Outcome)
  | unknown
deriving DecidableEq, Repr

namespace Clue

def same (a b : Clue) : Bool := a != unknown && a == b

/-- A fallback that is a leaf is known as that leaf. -/
def ofFallback : Branch → Clue
  | .leaf outcome => leaf outcome
  | .node _ _ _ => fallback

end Clue

structure Graft where
  branch : Branch
  clue : Clue
  failClue : Clue
deriving DecidableEq, Repr

namespace Graft

def leaf (outcome : Outcome) : Graft := ⟨.leaf outcome, .leaf outcome, .unknown⟩

def ofFallback (fallback : Branch) : Graft := ⟨fallback, Clue.ofFallback fallback, .unknown⟩

def node (c : Condition) (onMatch onFail : Graft) : Graft :=
  ⟨.node (Conditions.singleton c) onMatch.branch onFail.branch, .unknown, onFail.clue⟩

/-- A node on the condition, if it is needed. Where the match side is a test that fails to the same
branch as this one would, that test takes the condition as well. -/
def join (c : Condition) (onMatch onFail : Graft) : Graft :=
  if onMatch.clue.same onFail.clue then onFail
  else match onMatch.branch with
    | .node want innerMatch innerFail =>
      if onMatch.failClue.same onFail.clue then
        ⟨.node (want.insert c) innerMatch innerFail, .unknown, onMatch.failClue⟩
      else node c onMatch onFail
    | .leaf _ => node c onMatch onFail

end Graft

def Settlement.graft (fallback : Branch) : Settlement → Graft
  | .deferred => Graft.ofFallback fallback
  | .agreed outcome => Graft.leaf outcome
  | .contradicted _ => Graft.leaf Outcome.default

def Plan.graft (compact : Bool) (fallback : Branch) : Plan → Graft
  | .settled rules => (settlement rules).graft fallback
  | .split pivot onMatch onFail =>
    (if compact then Graft.join else Graft.node) pivot.condition
      (onMatch.graft compact fallback) (onFail.graft compact fallback)

def Domain.grow (compact : Bool) (d : Domain) (fallback : Branch) : Branch :=
  (d.plan.graft compact fallback).branch

inductive EmptyName where
  | outcome
  | condition
deriving DecidableEq, Repr

structure NamingError where
  domain : Nat
  name : EmptyName
deriving DecidableEq, Repr

def NamingError.message (e : NamingError) : String :=
  match e.name with
  | .outcome => "empty outcome name in domain " ++ toString e.domain
  | .condition => "empty condition name in domain " ++ toString e.domain

def Conditions.hasEmptyName (s : Conditions) : Bool := s.members.any (·.name.isEmpty)

def Rule.emptyName? (r : Rule) : Option EmptyName :=
  if r.result.name.isEmpty then some .outcome
  else if r.want.hasEmptyName || r.anyOf.hasEmptyName then some .condition
  else none

/-- The first fault of a domain; its order of preference is looked at last. -/
def Domain.emptyName? (d : Domain) : Option EmptyName :=
  match d.rules.findSome? Rule.emptyName? with
  | some fault => some fault
  | none => if d.priority.hasEmptyName then some .condition else none

def Spec.fault? (s : Spec) : Option NamingError :=
  s.domains.zipIdx.findSome? fun p => p.1.emptyName?.map (NamingError.mk p.2)

structure Tree where
  root : Branch
  conditions : List Conditions
  outcomes : List (List Outcome)
deriving DecidableEq, Repr

namespace Spec

def root (compact : Bool) (s : Spec) : Branch :=
  s.domains.foldr (Domain.grow compact) (.leaf Outcome.default)

def tree (compact : Bool) (s : Spec) : Tree :=
  ⟨s.root compact, s.domains.map Domain.conditions, s.domains.map Domain.outcomes⟩

def compile (compact : Bool) (s : Spec) : Except NamingError Tree :=
  match s.fault? with
  | some fault => .error fault
  | none => .ok (s.tree compact)

end Spec

namespace Tree

def search (t : Tree) (query : Conditions) : Outcome := t.root.search query

def trail (t : Tree) (query : Conditions) : Trail := t.root.trail query

def equiv (t u : Tree) : Bool :=
  t.root.equiv u.root && t.conditions.isEqv u.conditions Conditions.equiv &&
    t.outcomes == u.outcomes

def allConditions (t : Tree) : Conditions :=
  Conditions.ofList (t.conditions.flatMap Conditions.members)

structure Counts where
  domains : Nat
  nodes : Nat
  leaves : Nat
  depth : Nat
deriving DecidableEq, Repr

def counts (t : Tree) : Counts :=
  ⟨t.conditions.length, t.root.nodeCount, t.root.leafCount, t.root.depth⟩

def text (t : Tree) : String :=
  let n := t.counts
  s!"Tree({n.domains} domains, {n.nodes} nodes, {n.leaves} leaves, depth {n.depth})"

end Tree

inductive Event where
  | domainOpened (domain rules expanded : Nat)
  | pivot (p : Pivot)
  | contradiction (outcomes : List Outcome)
  | domainClosed (domain nodes : Nat)
deriving DecidableEq, Repr

namespace Event

inductive Level where
  | debug
  | trace
deriving DecidableEq, Repr

def level : Event → Level
  | pivot _ => .trace
  | _ => .debug

def message : Event → String
  | domainOpened _ _ _ => "compiling domain"
  | pivot ⟨_, .rank _⟩ => "pivot from priority"
  | pivot ⟨_, .count _⟩ => "pivot by occurrence"
  | contradiction _ => "ambiguous options resolved to DEFAULT"
  | domainClosed _ _ => "domain compiled"

end Event

def Settlement.events : Settlement → List Event
  | .contradicted outcomes => [.contradiction outcomes]
  | _ => []

def Plan.events : Plan → List Event
  | .settled rules => (settlement rules).events
  | .split p onMatch onFail => .pivot p :: (onMatch.events ++ onFail.events)

def logFrom (compact : Bool) (position : Nat) : List Domain → List Event × Branch
  | [] => ([], .leaf Outcome.default)
  | d :: ds =>
    let (later, fallback) := logFrom compact (position + 1) ds
    let plan := d.plan
    let root := (plan.graft compact fallback).branch
    (later ++ .domainOpened position d.rules.length d.expand.length ::
      (plan.events ++ [.domainClosed position root.nodeCount]), root)

theorem logFrom_root (compact : Bool) (position : Nat) (ds : List Domain) :
    (logFrom compact position ds).2 = (Spec.mk ds).root compact := by
  induction ds generalizing position with
  | nil => rfl
  | cons d ds ih => simp [logFrom, ih, Spec.root, Domain.grow]

def Spec.log (compact : Bool) (s : Spec) : List Event :=
  match s.fault? with
  | some _ => []
  | none => (logFrom compact 0 s.domains).1

end Verdict
