import Verdict.Binary.Blob
import Verdict.Json.Spec
import Verdict.Language.Grammar
import Verdict.Tree

/-! Where trees come from: a specification, written out, in the rule language or in JSON, which is
compiled; or a stored tree, which is taken as it is. Texts and stored trees may stand in a file. A
file is known by its bytes, or it is not there; a file of rules has to be a text.
-/

set_option autoImplicit false

namespace Verdict

abbrev File : Type := Option (List UInt8)

inductive FileError where
  | missing
  | notText
deriving DecidableEq, Repr

namespace FileError

def text : FileError → String
  | missing => "No such file or directory (os error 2)"
  | notText => "stream did not contain valid UTF-8"

def storing (e : FileError) : String := "I/O error during serialization: " ++ e.text

end FileError

def File.text : File → Except FileError String
  | none => .error .missing
  | some bytes =>
    match Text.decodeUtf8 bytes with
    | .error _ => .error .notText
    | .ok s => .ok s

inductive LoadError where
  | syntactic (e : SyntaxError)
  | json (fault : Json.Fault)
  | naming (e : NamingError)
  | stored (fault : Binary.Fault)
  | rulesFile (e : FileError)
  | storedFile (e : FileError)
deriving DecidableEq, Repr

def LoadError.message : LoadError → String
  | syntactic e => e.message
  | json fault => fault.message
  | naming e => e.message
  | stored fault => fault.message
  | rulesFile e => e.text
  | storedFile e => "I/O error during deserialization: " ++ e.text

inductive Material where
  | spec (s : Spec) (compact : Bool)
  | tree (t : Tree)
deriving DecidableEq, Repr

namespace Material

def load : Material → Except LoadError Tree
  | tree t => .ok t
  | spec s compact =>
    match s.compile compact with
    | .error e => .error (.naming e)
    | .ok t => .ok t

def log : Material → List Event
  | tree _ => []
  | spec s compact => s.log compact

end Material

inductive Source where
  | spec (s : Spec) (compact : Bool)
  | rules (text : String)
  | json (text : String)
  | stored (bytes : List UInt8)
  | rulesFile (file : File)
  | jsonFile (file : File)
  | storedFile (file : File)

namespace Source

def ofRules (text : String) : Except LoadError Material :=
  match Spec.parse text with
  | .error e => .error (.syntactic e)
  | .ok s => .ok (.spec s true)

def ofJson (text : String) : Except LoadError Material :=
  match Spec.ofJson text with
  | .error fault => .error (.json fault)
  | .ok s => .ok (.spec s true)

def ofStored (bytes : List UInt8) : Except LoadError Material :=
  match Tree.ofBytes bytes with
  | .error fault => .error (.stored fault)
  | .ok t => .ok (.tree t)

/-- A specification that is not written out says itself whether its tree is compacted; any other one
is. -/
def read : Source → Except LoadError Material
  | spec s compact => .ok (.spec s compact)
  | rules text => ofRules text
  | json text => ofJson text
  | stored bytes => ofStored bytes
  | rulesFile file =>
    match file.text with
    | .error e => .error (.rulesFile e)
    | .ok text => ofRules text
  | jsonFile file =>
    match file.text with
    | .error e => .error (.rulesFile e)
    | .ok text => ofJson text
  | storedFile none => .error (.storedFile .missing)
  | storedFile (some bytes) => ofStored bytes

def load (s : Source) : Except LoadError Tree := s.read.bind Material.load

def log (s : Source) : List Event :=
  match s.read with
  | .error _ => []
  | .ok material => material.log

/-- The text that an offset of a syntax error belongs to. -/
def text? : Source → Option String
  | rules text => some text
  | rulesFile file => file.text.toOption
  | _ => none

end Source

end Verdict
