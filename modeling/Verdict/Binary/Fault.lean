set_option autoImplicit false

namespace Verdict.Binary

inductive Width where
  | length
  | u32
  | u64
  | u128
  | reserved
deriving DecidableEq, Repr

def Width.text : Width → String
  | length => "Usize"
  | u32 => "U32"
  | u64 => "U64"
  | u128 => "U128"
  | reserved => "Reserved"

inductive DecodeFault where
  | ended (missing : Nat)
  | badWidth (expected found : Width)
  | badPresence (found : Nat)
  | badVariant (found : Nat)
  | badText (valid : Nat) (length : Option Nat)
deriving DecidableEq, Repr

def DecodeFault.text : DecodeFault → String
  | ended missing => s!"UnexpectedEnd \x7b additional: {missing} \x7d"
  | badWidth expected found =>
    s!"InvalidIntegerType \x7b expected: {expected.text}, found: {found.text} \x7d"
  | badPresence found =>
    "UnexpectedVariant \x7b type_name: \"Option<T>\", " ++
      s!"allowed: Range \x7b min: 0, max: 1 \x7d, found: {found} \x7d"
  | badVariant found =>
    s!"OtherString(\"invalid value: integer `{found}`, expected variant index 0 <= i < 2\")"
  | badText valid length =>
    let length := match length with
      | some n => s!"Some({n})"
      | none => "None"
    s!"Utf8 \x7b inner: Utf8Error \x7b valid_up_to: {valid}, error_len: {length} \x7d \x7d"

inductive ArenaFault where
  | nodeCount (said actual : Nat)
  | leafCount (said actual : Nat)
  | domainCount (said conditions outcomes : Nat)
  | root (index entries : Nat)
  | emptyOutcome (leaf : Nat)
  | emptyWant (node : Nat)
  | notBefore (node child : Nat)
  | sameSides (node child : Nat)
  | taken (child : Nat)
  | noRoot
  | unreachable (entry : Nat)
deriving DecidableEq, Repr

def ArenaFault.text : ArenaFault → String
  | nodeCount said actual => s!"metadata says {said} nodes but payload has {actual}"
  | leafCount said actual => s!"metadata says {said} leaves but payload has {actual}"
  | domainCount said conditions outcomes =>
    s!"metadata says {said} domains but payload has {conditions} condition sets and " ++
      s!"{outcomes} outcome sets"
  | root index entries => s!"root index {index} does not close a tree of {entries} entries"
  | emptyOutcome leaf => s!"leaf {leaf} has an empty outcome"
  | emptyWant node => s!"node {node} tests no conditions"
  | notBefore node child => s!"node {node} references {child}, violating post-order"
  | sameSides node child => s!"node {node} uses {child} for both branches"
  | taken child => s!"node {child} is referenced twice"
  | noRoot => "missing root"
  | unreachable entry => s!"node {entry} is not reachable from the root"

inductive Fault where
  | badMagic
  | version (found : Nat)
  | length (expected actual : Nat)
  | checksum
  | decode (fault : DecodeFault)
  | arena (fault : ArenaFault)
deriving DecidableEq, Repr

def formatVersion : Nat := 1

def Fault.message : Fault → String
  | badMagic => "not a ruletree binary: invalid magic bytes"
  | version found =>
    s!"incompatible format version: blob is v{found}, engine supports v{formatVersion}"
  | length expected actual =>
    s!"payload length mismatch: expected {expected} bytes, got {actual}"
  | checksum => "integrity check failed: BLAKE3 checksum mismatch"
  | decode fault => "failed to decode payload: " ++ fault.text
  | arena fault => "validation failed: " ++ fault.text

end Verdict.Binary
