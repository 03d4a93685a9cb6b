import Verdict.Binary.Wire

/-! BLAKE3 digests. A text of bytes is cut into chunks, a chunk into blocks; the blocks of a chunk
are compressed one after the other, and the chunks are joined in pairs by a binary tree whose left
sides are as large as a power of two allows. The last compression is marked as the root.
-/

set_option autoImplicit false

namespace Verdict

structure Digest where
  bytes : List UInt8
  length_bytes : bytes.length = 32
deriving DecidableEq, Repr

namespace Digest

abbrev Words (n : Nat) : Type := Vector UInt32 n

def initial : Words 8 :=
  #v[0x6A09E667, 0xBB67AE85, 0x3C6EF372, 0xA54FF53A, 0x510E527F, 0x9B05688C, 0x1F83D9AB, 0x5BE0CD19]

def permutation : Vector (Fin 16) 16 := #v[2, 6, 3, 10, 7, 0, 4, 13, 1, 11, 12, 5, 9, 14, 15, 8]

def permute (block : Words 16) : Words 16 := permutation.map fun i => block[i]

def rotate (w : UInt32) (count : UInt32) : UInt32 := (w >>> count) ||| (w <<< (32 - count))

def mix (v : Words 16) (a b c d : Fin 16) (x y : UInt32) : Words 16 :=
  let v := v.set a (v[a] + v[b] + x)
  let v := v.set d (rotate (v[d] ^^^ v[a]) 16)
  let v := v.set c (v[c] + v[d])
  let v := v.set b (rotate (v[b] ^^^ v[c]) 12)
  let v := v.set a (v[a] + v[b] + y)
  let v := v.set d (rotate (v[d] ^^^ v[a]) 8)
  let v := v.set c (v[c] + v[d])
  v.set b (rotate (v[b] ^^^ v[c]) 7)

def round (v block : Words 16) : Words 16 :=
  let v := mix v 0 4 8 12 block[0] block[1]
  let v := mix v 1 5 9 13 block[2] block[3]
  let v := mix v 2 6 10 14 block[4] block[5]
  let v := mix v 3 7 11 15 block[6] block[7]
  let v := mix v 0 5 10 15 block[8] block[9]
  let v := mix v 1 6 11 12 block[10] block[11]
  let v := mix v 2 7 8 13 block[12] block[13]
  mix v 3 4 9 14 block[14] block[15]

def rounds : Nat → Words 16 → Words 16 → Words 16
  | 0, v, _ => v
  | n + 1, v, block => rounds n (round v block) (permute block)

structure Flags where
  chunkStart : Bool
  chunkEnd : Bool
  parent : Bool
deriving DecidableEq, Repr

def Flags.word (f : Flags) (root : Bool) : UInt32 :=
  let bit (on : Bool) (value : UInt32) := if on then value else 0
  bit f.chunkStart 1 ||| bit f.chunkEnd 2 ||| bit f.parent 4 ||| bit root 8

/-- A compression that waits to be told whether it is the last one. -/
structure Node where
  chain : Words 8
  block : Words 16
  counter : Nat
  length : Nat
  flags : Flags

def Node.compress (n : Node) (root : Bool) : Words 8 :=
  let counter := if root then 0 else n.counter
  let v : Words 16 := #v[n.chain[0], n.chain[1], n.chain[2], n.chain[3], n.chain[4], n.chain[5],
    n.chain[6], n.chain[7], initial[0], initial[1], initial[2], initial[3], UInt32.ofNat counter,
    UInt32.ofNat (counter >>> 32), UInt32.ofNat n.length, n.flags.word root]
  let v := rounds 7 v n.block
  Vector.ofFn fun i : Fin 8 => v[i.val] ^^^ v[i.val + 8]

def word (bytes : List UInt8) : UInt32 := UInt32.ofNat (Binary.ofLittleEndian (bytes.take 4))

def blockWords (bytes : List UInt8) : Words 16 :=
  Vector.ofFn fun i : Fin 16 => word (bytes.drop (4 * i))

/-- The last compression of a chunk, of which some blocks have been compressed. -/
def chunkFrom (counter : Nat) (chain : Words 8) (start : Bool) (bytes : List UInt8) : Node :=
  let block := bytes.take 64
  let rest := bytes.drop 64
  let node := Node.mk chain (blockWords block) counter block.length ⟨start, rest.isEmpty, false⟩
  if rest.isEmpty then node
  else chunkFrom counter (node.compress false) false rest
termination_by bytes.length
decreasing_by
  next h =>
  have hne : bytes.drop 64 ≠ [] := fun he => h (by simp [he, rest])
  have := List.length_pos_iff.2 hne
  simp only [List.length_drop] at this ⊢
  omega

def chunkLength : Nat := 1024

def powerUpTo (fuel p n : Nat) : Nat :=
  match fuel with
  | 0 => p
  | fuel + 1 => if 2 * p ≤ n then powerUpTo fuel (2 * p) n else p

theorem powerUpTo_pos {fuel p n : Nat} (hp : 0 < p) : 0 < powerUpTo fuel p n := by
  induction fuel generalizing p with
  | zero => exact hp
  | succ fuel ih =>
    simp only [powerUpTo]; split
    · exact ih (by omega)
    · exact hp

theorem powerUpTo_le {fuel p n : Nat} (hp : p ≤ n) : powerUpTo fuel p n ≤ n := by
  induction fuel generalizing p with
  | zero => exact hp
  | succ fuel ih =>
    simp only [powerUpTo]; split
    · next h => exact ih h
    · exact hp

/-- How many chunks go to the left side; the right side keeps at least one byte. -/
def leftChunks (length : Nat) : Nat :=
  let full := (length - 1) / chunkLength
  powerUpTo full 1 full

theorem leftChunks_pos (length : Nat) : 0 < leftChunks length := powerUpTo_pos (by decide)

theorem leftChunks_lt {length : Nat} (h : chunkLength < length) :
    leftChunks length * chunkLength < length := by
  have hc : chunkLength = 1024 := rfl
  have hle : leftChunks length ≤ (length - 1) / chunkLength :=
    powerUpTo_le ((Nat.le_div_iff_mul_le (by decide)).2 (by omega))
  have := Nat.mul_le_mul_right chunkLength hle
  have := Nat.div_mul_le_self (length - 1) chunkLength
  omega

def parent (left right : Words 8) : Node :=
  ⟨initial, left ++ right, 0, 64, ⟨false, false, true⟩⟩

def nodeFrom (counter length : Nat) (bytes : List UInt8) : Node :=
  if length ≤ chunkLength then chunkFrom counter initial true bytes
  else
    let chunks := leftChunks length
    let left := chunks * chunkLength
    parent ((nodeFrom counter left (bytes.take left)).compress false)
      ((nodeFrom (counter + chunks) (length - left) (bytes.drop left)).compress false)
termination_by length
decreasing_by
  · exact leftChunks_lt (by omega)
  · have := Nat.mul_pos (leftChunks_pos length) (by decide : 0 < chunkLength)
    omega

def ofWords (words : Words 8) : Digest :=
  ⟨words.toList.flatMap fun w => Binary.littleEndian 4 w.toNat, by
    simp [Binary.length_littleEndian, List.length_flatMap, List.map_const']⟩

def ofBytes (bytes : List UInt8) : Digest := ofWords ((nodeFrom 0 bytes.length bytes).compress true)

end Digest

end Verdict
