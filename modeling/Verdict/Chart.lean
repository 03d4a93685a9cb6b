import Verdict.Branch.Walk
import Verdict.Tree

set_option autoImplicit false

namespace Verdict

structure Edge where
  parent : Nat
  child : Nat
  onMatch : Bool
  branch : Branch
deriving DecidableEq, Repr

namespace Branch

/-- The edges of a tree whose root has the given number, and the number after the last one used. -/
def edges (number : Nat) : Branch → List Edge × Nat
  | leaf _ => ([], number + 1)
  | node _ m f =>
    let (ofMatch, middle) := m.edges (number + 1)
    let (ofFail, last) := f.edges middle
    (⟨number, number + 1, true, m⟩ :: (ofMatch ++ ⟨number, middle, false, f⟩ :: ofFail), last)

theorem edges_number (b : Branch) (number : Nat) : (b.edges number).2 = number + b.weight := by
  induction b generalizing number with
  | leaf o => rfl
  | node w m f hm hf => simp [edges, weight, hm, hf]; omega

def shape : Branch → String
  | leaf outcome => "([\"" ++ outcome.name ++ "\"])"
  | node want _ _ => "[\"" ++ " & ".intercalate (want.members.map Condition.name) ++ "\"]"

end Branch

def Edge.line (e : Edge) : String :=
  let label := if e.onMatch then "Match" else "Fail"
  s!"    n{e.parent} -->|{label}| n{e.child}{e.branch.shape}\n"

def Tree.chart (t : Tree) : String :=
  let lines := (t.root.edges 0).1.map Edge.line
  "```mermaid\ngraph TD\n    n0" ++ t.root.shape ++ "\n" ++ String.join lines ++ "```\n"

end Verdict
