import Verdict.Binary.Fault
import Verdict.Text.Reading

/-! The pieces of a payload, each with its writer and its reader: whole numbers, texts and lists. A
number below 251 is one byte; a greater one follows a mark that says how many bytes it takes. The
shortest form is written, and any is read.
-/

set_option autoImplicit false

namespace Verdict.Binary

def littleEndian : Nat → Nat → List UInt8
  | 0, _ => []
  | count + 1, n => UInt8.ofNat n :: littleEndian count (n / 256)

theorem length_littleEndian (count n : Nat) : (littleEndian count n).length = count := by
  induction count generalizing n with
  | zero => rfl
  | succ count ih => simp [littleEndian, ih]

def ofLittleEndian : List UInt8 → Nat
  | [] => 0
  | b :: bs => b.toNat + 256 * ofLittleEndian bs

/-- The first `count` bytes and the rest, or how many bytes are missing. -/
def split : Nat → List UInt8 → Except Nat (List UInt8 × List UInt8)
  | 0, bs => .ok ([], bs)
  | count + 1, [] => .error (count + 1)
  | count + 1, b :: bs =>
    match split count bs with
    | .error missing => .error missing
    | .ok (taken, rest) => .ok (b :: taken, rest)

theorem split_append (taken rest : List UInt8) :
    split taken.length (taken ++ rest) = .ok (taken, rest) := by
  induction taken with
  | nil => rfl
  | cons b taken ih => simp [split, ih]

abbrev Reader (α : Type) : Type := List UInt8 → Except DecodeFault (α × List UInt8)

def writeNat (n : Nat) : List UInt8 :=
  if n < 251 then [UInt8.ofNat n]
  else if n < 0x10000 then 251 :: littleEndian 2 n
  else if n < 0x100000000 then 252 :: littleEndian 4 n
  else 253 :: littleEndian 8 n

def readBytes (count : Nat) : Reader (List UInt8) := fun bs =>
  match split count bs with
  | .error missing => .error (.ended missing)
  | .ok result => .ok result

inductive Role where
  | number
  | length
  | variant
deriving DecidableEq, Repr

/-- How many bytes follow a mark, or the width that it announces in vain. -/
def widthOf (role : Role) (mark : UInt8) : Except Width Nat :=
  if mark == 251 then .ok 2
  else if mark == 252 then .ok 4
  else if mark == 253 then if role == .variant then .error .u64 else .ok 8
  else if mark == 254 then .error .u128
  else .error .reserved

/-- The width that a message expects in a place. A stored number is of 64 bits, but it is taken for
one of 32 where eight bytes or more follow its mark. -/
def Role.width (role : Role) (following : List UInt8) : Width :=
  match role with
  | .number => if (following.drop 7).isEmpty then .u64 else .u32
  | .length => .length
  | .variant => .u32

def readNat (role : Role) : Reader Nat
  | [] => .error (.ended 1)
  | mark :: bs =>
    if mark < 251 then .ok (mark.toNat, bs)
    else match widthOf role mark with
      | .error found => .error (.badWidth (role.width bs) found)
      | .ok count =>
        match readBytes count bs with
        | .error fault => .error fault
        | .ok (taken, rest) => .ok (ofLittleEndian taken, rest)

def writeText (s : String) : List UInt8 := writeNat s.utf8ByteSize ++ Text.encodeUtf8 s

def readText : Reader String := fun bs =>
  match readNat .number bs with
  | .error fault => .error fault
  | .ok (size, bs) =>
    match readBytes size bs with
    | .error fault => .error fault
    | .ok (taken, rest) =>
      match Text.decodeUtf8 taken with
      | .error fault => .error (.badText fault.valid fault.length)
      | .ok s => .ok (s, rest)

def writeMany {α : Type} (write : α → List UInt8) (xs : List α) : List UInt8 :=
  writeNat xs.length ++ xs.flatMap write

def readTimes {α : Type} (read : Reader α) : Nat → Reader (List α)
  | 0, bs => .ok ([], bs)
  | n + 1, bs =>
    match read bs with
    | .error fault => .error fault
    | .ok (x, bs) =>
      match readTimes read n bs with
      | .error fault => .error fault
      | .ok (xs, rest) => .ok (x :: xs, rest)

def readMany {α : Type} (read : Reader α) : Reader (List α) := fun bs =>
  match readNat .length bs with
  | .error fault => .error fault
  | .ok (count, bs) => readTimes read count bs

end Verdict.Binary
