import Verdict.Tree

set_option autoImplicit false

namespace Verdict

namespace TruthTable

structure Row where
  present : List Bool
  given : List Bool
deriving DecidableEq, Repr

def rows (t : Tree) (conditions : Conditions) (outcomes : List Outcome) : List Row :=
  conditions.combinations.map fun query =>
    let result := t.search query
    ⟨conditions.members.map query.contains, outcomes.map (· == result)⟩

def mark (sign : String) (shown : Bool) : String := " " ++ (if shown then sign else " ") ++ " |"

def Row.line (r : Row) : String :=
  "|" ++ String.join (r.present.map (mark "&#10004;")) ++ " |" ++
    String.join (r.given.map (mark "&#10007;")) ++ "\n"

def header (conditions : Conditions) (outcomes : List Outcome) : String :=
  "|" ++ String.join (conditions.members.map fun c => " " ++ c.name ++ " |") ++ "   |" ++
    String.join (outcomes.map fun o => " " ++ o.name ++ " |") ++ "\n"

def rule (columns : Nat) : String := "|" ++ String.join (List.replicate columns ":-:|") ++ "\n"

def table (t : Tree) (conditions : Conditions) (outcomes : List Outcome) : String :=
  header conditions outcomes ++ rule (conditions.size + 1 + outcomes.length) ++
    String.join ((rows t conditions outcomes).map Row.line)

def title (t : Tree) (position : Nat) : String :=
  if 1 < t.conditions.length then s!"**Domain {position + 1}**\n\n" else ""

end TruthTable

def Tree.truthTable (t : Tree) : String :=
  "\n".intercalate ((t.conditions.zip t.outcomes).zipIdx.map fun (domain, position) =>
    TruthTable.title t position ++ TruthTable.table t domain.1 domain.2)

end Verdict
