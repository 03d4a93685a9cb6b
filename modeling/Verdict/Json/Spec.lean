import Verdict.Json.Record
import Verdict.Rule

/-! Specifications as JSON. A specification has `domains`, a domain `options` and a `priority`, an
option a `result`, the conditions it wants and, under `or`, its alternatives. Lists may be left out,
and repeats in a list of conditions are dropped; a result has to be given.
-/

set_option autoImplicit false

namespace Verdict.Json

def hexDigit (n : Nat) : Char := if n < 10 then Char.ofNat (48 + n) else Char.ofNat (87 + n)

def writeChar (c : Char) : List Char :=
  if c == '"' then ['\\', '"']
  else if c == '\\' then ['\\', '\\']
  else if c == '\x08' then ['\\', 'b']
  else if c == '\x0c' then ['\\', 'f']
  else if c == '\n' then ['\\', 'n']
  else if c == '\r' then ['\\', 'r']
  else if c == '\t' then ['\\', 't']
  else if c < ' ' then ['\\', 'u', '0', '0', hexDigit (c.toNat / 16), hexDigit (c.toNat % 16)]
  else [c]

def writeString (s : String) : List Char := '"' :: (s.toList.flatMap writeChar ++ ['"'])

def writeItems : List (List Char) → List Char
  | [] => []
  | [t] => t
  | t :: ts => t ++ ',' :: writeItems ts

def writeList (ts : List (List Char)) : List Char := '[' :: (writeItems ts ++ [']'])

def writeMember (key : String) (t : List Char) : List Char := writeString key ++ ':' :: t

def writeObject (members : List (String × List Char)) : List Char :=
  '\x7b' :: (writeItems (members.map fun m => writeMember m.1 m.2) ++ ['\x7d'])

def writeNames (s : Conditions) : List Char := writeList (s.members.map fun c => writeString c.name)

def writeUnlessEmpty (key : String) (s : Conditions) : List (String × List Char) :=
  if s.isEmpty then [] else [(key, writeNames s)]

def writeRule (r : Rule) : List Char :=
  writeObject ([("result", writeString r.result.name), ("want", writeNames r.want)] ++
    writeUnlessEmpty "or" r.anyOf)

def writeDomain (d : Domain) : List Char :=
  writeObject
    (("options", writeList (d.rules.map writeRule)) :: writeUnlessEmpty "priority" d.priority)

def writeSpec (s : Spec) : List Char :=
  writeObject [("domains", writeList (s.domains.map writeDomain))]

def conditions : Reader Conditions := fun s =>
  (list string s).map (·.map fun names => Conditions.ofList (names.map Condition.mk))

structure RuleParts where
  result : Option Outcome
  want : Option Conditions
  anyOf : Option Conditions

def ruleFields : List (Field RuleParts) :=
  [⟨"result", (·.result.isSome), fun p s => (string s).map (·.map fun name =>
      ⟨some ⟨name⟩, p.want, p.anyOf⟩)⟩,
    ⟨"want", (·.want.isSome), fun p s => (conditions s).map (·.map fun cs =>
      ⟨p.result, some cs, p.anyOf⟩)⟩,
    ⟨"or", (·.anyOf.isSome), fun p s => (conditions s).map (·.map fun cs =>
      ⟨p.result, p.want, some cs⟩)⟩]

def finishRule (shape : Shape) (p : RuleParts) : Except Fault Rule :=
  match p.result with
  | some result => .ok ⟨result, p.want.getD Conditions.empty, p.anyOf.getD Conditions.empty⟩
  | none => .error (match shape with
    | .object => .missingField "result"
    | .list => .tooShort 0 .rule 3)

def rule : Reader Rule := record .rule ruleFields ⟨none, none, none⟩ finishRule

structure DomainParts where
  rules : Option (List Rule)
  priority : Option Conditions

def domainFields : List (Field DomainParts) :=
  [⟨"options", (·.rules.isSome), fun p s => (list rule s).map (·.map fun rs =>
      ⟨some rs, p.priority⟩)⟩,
    ⟨"priority", (·.priority.isSome), fun p s => (conditions s).map (·.map fun cs =>
      ⟨p.rules, some cs⟩)⟩]

def domain : Reader Domain := record .domain domainFields ⟨none, none⟩ fun _ p =>
  .ok ⟨p.rules.getD [], p.priority.getD Conditions.empty⟩

def specFields : List (Field (Option (List Domain))) :=
  [⟨"domains", (·.isSome), fun _ s => (list domain s).map (·.map some)⟩]

def spec : Reader Spec := record .spec specFields none fun _ ds => .ok ⟨ds.getD []⟩

end Verdict.Json

namespace Verdict

def Spec.toJson (s : Spec) : String := String.ofList (Json.writeSpec s)

def Spec.ofJson (text : String) : Except Json.Fault Spec := Json.whole Json.spec text

def Conditions.toJson (s : Conditions) : String := String.ofList (Json.writeNames s)

def Conditions.ofJson (text : String) : Except Json.Fault Conditions :=
  Json.whole Json.conditions text

end Verdict
