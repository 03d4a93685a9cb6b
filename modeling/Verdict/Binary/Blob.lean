import Verdict.Binary.Arena
import Verdict.Binary.Wire
import Verdict.Digest

/-! Stored trees: a header of 32 bytes and a payload. The header holds four magic bytes, the version
of the format, the version of the writer and some flags, both of which are not looked at, the length
of the payload and the first half of its digest. The payload is the arena of the tree and, if it was
made from a text, the digest of that text; bytes behind it are not looked at.
-/

set_option autoImplicit false

namespace Verdict.Binary

def writeConditions (s : Conditions) : List UInt8 := writeMany (writeText ·.name) s.members

def readConditions : Reader Conditions := fun bs =>
  (readMany readText bs).map fun r => (Conditions.ofList (r.1.map Condition.mk), r.2)

def writeOutcome (o : Outcome) : List UInt8 := writeText o.name

def readOutcome : Reader Outcome := fun bs => (readText bs).map fun r => (⟨r.1⟩, r.2)

def writeEntry : Entry → List UInt8
  | .node want m f => writeNat 0 ++ writeConditions want ++ writeNat m ++ writeNat f
  | .leaf outcome => writeNat 1 ++ writeOutcome outcome

def readEntry : Reader Entry := fun bs => do
  let (kind, bs) ← readNat .variant bs
  match kind with
  | 0 =>
    let (want, bs) ← readConditions bs
    let (m, bs) ← readNat .number bs
    let (f, bs) ← readNat .number bs
    .ok (.node want m f, bs)
  | 1 => (readOutcome bs).map fun r => (.leaf r.1, r.2)
  | kind => .error (.badVariant kind)

/-- A digest is read byte by byte, so that at its end one byte is missing. -/
def readDigestBytes : (count : Nat) → List UInt8 →
    Except DecodeFault ({ taken : List UInt8 // taken.length = count } × List UInt8)
  | 0, bs => .ok (⟨[], rfl⟩, bs)
  | _ + 1, [] => .error (.ended 1)
  | count + 1, b :: bs =>
    (readDigestBytes count bs).map fun r => (⟨b :: r.1.1, by simp [r.1.2]⟩, r.2)

def writeDigest : Option Digest → List UInt8
  | none => [0]
  | some d => 1 :: d.bytes

def readDigest : Reader (Option Digest)
  | [] => .error (.ended 1)
  | mark :: bs =>
    if mark == 0 then .ok (none, bs)
    else if mark == 1 then (readDigestBytes 32 bs).map fun r => (some ⟨r.1.1, r.1.2⟩, r.2)
    else .error (.badPresence mark.toNat)

structure Payload where
  arena : Arena
  source : Option Digest
deriving DecidableEq, Repr

namespace Payload

def ofTree (t : Tree) (source : Option String) : Payload :=
  ⟨Arena.ofTree t, source.map fun s => Digest.ofBytes (Text.encodeUtf8 s)⟩

def write (p : Payload) : List UInt8 :=
  writeNat p.arena.nodes ++ writeNat p.arena.leaves ++ writeNat p.arena.domains ++
    writeDigest p.source ++ writeMany writeEntry p.arena.entries ++ writeNat p.arena.root ++
    writeMany writeConditions p.arena.conditions ++
    writeMany (writeMany writeOutcome) p.arena.outcomes

def read : Reader Payload := fun bs => do
  let (nodes, bs) ← readNat .number bs
  let (leaves, bs) ← readNat .number bs
  let (domains, bs) ← readNat .number bs
  let (source, bs) ← readDigest bs
  let (entries, bs) ← readMany readEntry bs
  let (root, bs) ← readNat .number bs
  let (conditions, bs) ← readMany readConditions bs
  let (outcomes, bs) ← readMany (readMany readOutcome) bs
  .ok (⟨⟨entries, root, conditions, outcomes, nodes, leaves, domains⟩, source⟩, bs)

end Payload

def magic : List UInt8 := [82, 84, 82, 69]

def writerVersion : Nat := 1

def headerSize : Nat := 32

def checksum (payload : List UInt8) : List UInt8 := (Digest.ofBytes payload).bytes.take 16

def writeHeader (payload : List UInt8) : List UInt8 :=
  magic ++ littleEndian 2 formatVersion ++ littleEndian 2 writerVersion ++ littleEndian 4 0 ++
    littleEndian 4 payload.length ++ checksum payload

structure Header where
  version : Nat
  length : Nat
  checksum : List UInt8
deriving DecidableEq, Repr

def slice (bytes : List UInt8) (start stop : Nat) : List UInt8 :=
  (bytes.drop start).take (stop - start)

def readHeader (bytes : List UInt8) : Except Fault Header :=
  let size := (bytes.take headerSize).length
  if size < headerSize then .error (.length headerSize size)
  else if bytes.take 4 != magic then .error .badMagic
  else .ok ⟨ofLittleEndian (slice bytes 4 6), ofLittleEndian (slice bytes 12 16), slice bytes 16 32⟩

def openPayload (bytes : List UInt8) : Except Fault Payload :=
  match readHeader bytes with
  | .error fault => .error fault
  | .ok header =>
    let body := bytes.drop headerSize
    let payload := body.take header.length
    if header.version != formatVersion then .error (.version header.version)
    else if payload.length < header.length then .error (.length header.length body.length)
    else if checksum payload != header.checksum then .error .checksum
    else match Payload.read payload with
      | .error fault => .error (.decode fault)
      | .ok (p, _) => .ok p

/-- The digest of the text that a stored tree was made from, if it was noted. The tree itself is not
looked at. -/
def sourceDigest (bytes : List UInt8) : Except Fault (Option Digest) :=
  (openPayload bytes).map Payload.source

end Verdict.Binary

namespace Verdict

def Tree.toBytes (t : Tree) (source : Option String) : List UInt8 :=
  let payload := (Binary.Payload.ofTree t source).write
  Binary.writeHeader payload ++ payload

def Tree.ofBytes (bytes : List UInt8) : Except Binary.Fault Tree :=
  match Binary.openPayload bytes with
  | .error fault => .error fault
  | .ok p =>
    match p.arena.toTree with
    | .error fault => .error (.arena fault)
    | .ok t => .ok t

theorem Tree.ofBytes_eq_ok_iff {bytes : List UInt8} {t : Tree} :
    Tree.ofBytes bytes = .ok t ↔
      ∃ p, Binary.openPayload bytes = .ok p ∧ p.arena.toTree = .ok t := by
  rw [ofBytes]
  cases Binary.openPayload bytes with
  | error fault => simp
  | ok p => cases h : p.arena.toTree <;> simp [h]

end Verdict
