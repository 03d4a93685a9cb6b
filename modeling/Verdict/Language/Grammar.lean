import Verdict.Language.Token
import Verdict.Rule
import Verdict.Text.Reading

/-! The grammar of the rule language, over tokens alone. What is refused is refused at the first
token that cannot stand where it stands; in the text that is where the token starts, or the end if
there is none. Only a second group of alternatives is noticed behind the option that has it.
-/

set_option autoImplicit false

namespace Verdict.Language

inductive Reason where
  | leftover
  | noOutcome
  | noColonInOption
  | noTerm
  | noGroupEnd
  | secondGroup
  | noPriority
  | noPriorityName
  | noPriorityEnd
  | noColonInDomain
deriving DecidableEq, Repr

structure Refusal where
  reason : Reason
  left : Nat
deriving DecidableEq, Repr

abbrev Parser (α : Type) : Type := (ts : List Token) → Except Refusal (Step α ts)

def refuse {α : Type} (reason : Reason) (ts : List Token) : Except Refusal α :=
  .error ⟨reason, ts.length⟩

def expect (accepts : Token → Bool) (reason : Reason) : Parser Unit
  | [] => refuse reason []
  | t :: ts => if accepts t then .ok ⟨(), ts, by simp⟩ else refuse reason (t :: ts)

def name (reason : Reason) : Parser String
  | .word w :: ts => if isName w then .ok ⟨w, ts, by simp⟩ else refuse reason (.word w :: ts)
  | ts => refuse reason ts

/-- Names that each follow a separator. A separator without a name behind it is left where it is. -/
def moreNames (separates : Token → Bool) : (ts : List Token) → List String × Place ts
  | t :: .word w :: ts =>
    if separates t && isName w then
      let (ws, place) := moreNames separates ts
      (w :: ws, ⟨place.1, by have := place.2; simp; omega⟩)
    else ([], ⟨t :: .word w :: ts, Nat.le_refl _⟩)
  | ts => ([], ⟨ts, Nat.le_refl _⟩)

def enclosed (separates : Token → Bool) (noName noEnd : Reason) : Parser (List String) :=
    fun ts => do
  let first ← name noName ts
  let (others, place) := moreNames separates first.rest
  let last ← expect (· == .rightParen) noEnd place.1
  .ok ⟨first.value :: others, last.rest,
    by have := first.shorter; have := place.2; have := last.shorter; omega⟩

inductive Term where
  | condition (name : String)
  | group (names : List String)
deriving DecidableEq, Repr

def term : Parser Term
  | .leftParen :: ts =>
    (enclosed (Keyword.or.isToken ·) .noTerm .noGroupEnd ts).map fun step =>
      (step.map Term.group).widen (by simp)
  | ts => (name .noTerm ts).map (·.map Term.condition)

def moreTerms (ts : List Token) : Except Refusal (List Term × Place ts) :=
  match ts with
  | [] => .ok ([], ⟨[], Nat.le_refl _⟩)
  | t :: r =>
    if Keyword.and.isToken t then
      match term r with
      | .error refusal => .error refusal
      | .ok head =>
        have := head.shorter
        match moreTerms head.rest with
        | .error refusal => .error refusal
        | .ok (terms, place) =>
          .ok (head.value :: terms, ⟨place.1, by have := place.2; simp; omega⟩)
    else .ok ([], ⟨t :: r, Nat.le_refl _⟩)
termination_by ts.length

def Term.conditions : Term → List Condition
  | condition name => [⟨name⟩]
  | group _ => []

def Term.alternatives : Term → List Condition
  | condition _ => []
  | group names => names.map Condition.mk

def Term.isGroup : Term → Bool
  | condition _ => false
  | group _ => true

def ruleOf (result : String) (terms : List Term) : Rule :=
  ⟨⟨result⟩, Conditions.ofList (terms.flatMap Term.conditions),
    Conditions.ofList (terms.flatMap Term.alternatives)⟩

def option : Parser Rule := fun ts => do
  let result ← name .noOutcome ts
  let sign ← expect (· == .colon) .noColonInOption result.rest
  let first ← term sign.rest
  let (others, place) ← moreTerms first.rest
  let terms := first.value :: others
  if 1 < terms.countP (·.isGroup) then refuse .secondGroup place.1
  else .ok ⟨ruleOf result.value terms, place.1, by
    have := result.shorter; have := sign.shorter; have := first.shorter; have := place.2; omega⟩

def options (ts : List Token) : Except Refusal (List Rule × Place ts) :=
  match ts with
  | [] => .ok ([], ⟨[], Nat.le_refl _⟩)
  | t :: r =>
    if Keyword.option.isToken t then
      match option r with
      | .error refusal => .error refusal
      | .ok head =>
        have := head.shorter
        match options head.rest with
        | .error refusal => .error refusal
        | .ok (rules, place) =>
          .ok (head.value :: rules, ⟨place.1, by have := place.2; simp; omega⟩)
    else .ok ([], ⟨t :: r, Nat.le_refl _⟩)
termination_by ts.length

def priority : (ts : List Token) → Except Refusal (Conditions × Place ts)
  | .leftParen :: ts => do
    let head ← expect (Keyword.priority.isToken ·) .noPriority ts
    let names ← enclosed (· == .comma) .noPriorityName .noPriorityEnd head.rest
    .ok (Conditions.ofList (names.value.map Condition.mk), ⟨names.rest, by
      have := head.shorter; have := names.shorter; simp; omega⟩)
  | ts => .ok (Conditions.empty, ⟨ts, Nat.le_refl _⟩)

def domain : Parser Domain := fun ts => do
  let (order, place) ← priority ts
  let sign ← expect (· == .colon) .noColonInDomain place.1
  let (rules, rest) ← options sign.rest
  .ok ⟨⟨rules, order⟩, rest.1, by have := place.2; have := sign.shorter; have := rest.2; omega⟩

def domains (ts : List Token) : Except Refusal (List Domain) :=
  match ts with
  | [] => .ok []
  | t :: r =>
    if Keyword.domain.isToken t then
      match domain r with
      | .error refusal => .error refusal
      | .ok head =>
        have := head.shorter
        match domains head.rest with
        | .error refusal => .error refusal
        | .ok ds => .ok (head.value :: ds)
    else refuse .leftover (t :: r)
termination_by ts.length

end Verdict.Language

namespace Verdict

def Spec.ofTokens (ts : List Language.Token) : Except Language.Refusal Spec :=
  (Language.domains ts).map Spec.mk

namespace Language

def Reason.text : Reason → String
  | .leftover => ""
  | .noOutcome => "expected name, outcome"
  | .noColonInOption => ""
  | .noTerm => "expected name, condition or (A OR B) group"
  | .noGroupEnd => "expected condition or (A OR B) group"
  | .secondGroup => ""
  | .noPriority => "expected `priority`"
  | .noPriorityName => "expected name"
  | .noPriorityEnd => ""
  | .noColonInDomain => "expected `:`"

def Refusal.offset (lexemes : List Lexeme) (size : Nat) (refusal : Refusal) : Nat :=
  let read := lexemes.length - refusal.left
  match refusal.reason with
  | .secondGroup => (lexemes.take read).getLast?.elim 0 Lexeme.stop
  | _ => lexemes[read]?.elim size Lexeme.start

end Language

structure SyntaxError where
  reason : Language.Reason
  offset : Nat
deriving DecidableEq, Repr

namespace SyntaxError

def text (e : SyntaxError) : String := e.reason.text

def message (e : SyntaxError) : String := s!"parse error at byte {e.offset}: {e.text}"

end SyntaxError

def Spec.parse (text : String) : Except SyntaxError Spec :=
  let lexemes := Language.scan text
  (Spec.ofTokens (lexemes.map Language.Lexeme.token)).mapError fun refusal =>
    ⟨refusal.reason, refusal.offset lexemes text.utf8ByteSize⟩

end Verdict
