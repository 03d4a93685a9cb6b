import Verdict.Rule

/-! Specifications written down step by step: a domain grows rule by rule, a draft domain by domain,
and the draft also says whether its tree is to be compacted.
-/

set_option autoImplicit false

namespace Verdict

namespace Domain

def empty : Domain := ⟨[], Conditions.empty⟩

def addRule (d : Domain) (result : Outcome) (want : List Condition) : Domain :=
  ⟨d.rules ++ [⟨result, Conditions.ofList want, Conditions.empty⟩], d.priority⟩

def addRuleAny (d : Domain) (result : Outcome) (want anyOf : List Condition) : Domain :=
  ⟨d.rules ++ [⟨result, Conditions.ofList want, Conditions.ofList anyOf⟩], d.priority⟩

def prefer (d : Domain) (order : List Condition) : Domain := ⟨d.rules, Conditions.ofList order⟩

end Domain

structure Draft where
  spec : Spec
  compact : Bool
deriving DecidableEq, Repr

namespace Draft

def empty : Draft := ⟨⟨[]⟩, true⟩

def addDomain (d : Draft) (domain : Domain) : Draft := ⟨⟨d.spec.domains ++ [domain]⟩, d.compact⟩

def setCompact (d : Draft) (compact : Bool) : Draft := ⟨d.spec, compact⟩

end Draft

end Verdict
