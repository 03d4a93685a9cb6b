import Verdict.Rule

/-! Decision trees. A node asks whether a query holds all the conditions it wants and goes on to one
of two sides; a leaf answers. Labels list a tree in pre-order, the match side before the fail side,
and are enough to rebuild it.
-/

set_option autoImplicit false

namespace Verdict

inductive Branch where
  | leaf (outcome : Outcome)
  | node (want : Conditions) (onMatch onFail : Branch)
deriving DecidableEq, Repr

namespace Branch

instance : Inhabited Branch := ⟨leaf Outcome.default⟩

def isLeaf : Branch → Bool
  | leaf _ => true
  | node _ _ _ => false

def want? : Branch → Option Conditions
  | leaf _ => none
  | node want _ _ => some want

def outcome? : Branch → Option Outcome
  | leaf outcome => some outcome
  | node _ _ _ => none

def equiv : Branch → Branch → Bool
  | leaf a, leaf b => a == b
  | node w m f, node w' m' f' => w.equiv w' && m.equiv m' && f.equiv f'
  | _, _ => false

def search : Branch → Conditions → Outcome
  | leaf outcome, _ => outcome
  | node want m f, query => if query.includes want then m.search query else f.search query

/-- The branch at the end of a walk from the root: `true` takes a match side, `false` a fail side.
-/
def follow : Branch → List Bool → Option Branch
  | b, [] => some b
  | node _ m f, side :: sides => if side then m.follow sides else f.follow sides
  | leaf _, _ :: _ => none

inductive Label where
  | outcome (o : Outcome)
  | want (w : Conditions)
deriving DecidableEq, Repr

def label : Branch → Label
  | leaf o => .outcome o
  | node w _ _ => .want w

def labels : Branch → List Label
  | leaf o => [.outcome o]
  | node w m f => .want w :: (m.labels ++ f.labels)

/-- Puts a label in front of the trees that follow it; a wanted set takes the first two as its
sides. -/
def attach : Label → List Branch → Option (List Branch)
  | .outcome o, bs => some (leaf o :: bs)
  | .want w, m :: f :: bs => some (node w m f :: bs)
  | .want _, _ => none

def forest : List Label → Option (List Branch)
  | [] => some []
  | l :: ls => (forest ls).bind (attach l)

theorem forest_labels (b : Branch) (ls : List Label) :
    forest (b.labels ++ ls) = (forest ls).map (b :: ·) := by
  induction b generalizing ls with
  | leaf o => cases h : forest ls <;> simp [labels, forest, attach, h]
  | node w m f hm hf => cases h : forest ls <;> simp [labels, forest, attach, hm, hf, h]

def ofLabels? (ls : List Label) : Option Branch :=
  match forest ls with
  | some [b] => some b
  | _ => none

theorem ofLabels?_labels (b : Branch) : ofLabels? b.labels = some b := by
  have h := forest_labels b []
  simp [forest] at h
  simp [ofLabels?, h]

end Branch

structure Trial where
  want : Conditions
  held : Bool
deriving DecidableEq, Repr

structure Trail where
  trials : List Trial
  outcome : Outcome
deriving DecidableEq, Repr

namespace Branch

def trail : Branch → Conditions → Trail
  | leaf outcome, _ => ⟨[], outcome⟩
  | node want m f, query =>
    let held := query.includes want
    let below := if held then m.trail query else f.trail query
    ⟨⟨want, held⟩ :: below.trials, below.outcome⟩

theorem outcome_trail (b : Branch) (query : Conditions) :
    (b.trail query).outcome = b.search query := by
  induction b with
  | leaf o => rfl
  | node want m f hm hf => by_cases h : query.includes want <;> simp [trail, search, h, hm, hf]

end Branch

def Trial.text (t : Trial) : String :=
  "\x7b" ++ t.want.text ++ "\x7d " ++ if t.held then "match" else "fail"

def Trail.text (t : Trail) : String :=
  "outcome: " ++ t.outcome.name ++
    ", path: [" ++ " -> ".intercalate (t.trials.map Trial.text) ++ "]"

end Verdict
