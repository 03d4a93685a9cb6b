import Mathlib.Algebra.Ring.Nat
import Verdict.Binary.Blob
import Verdict.Proofs.Members
import Verdict.Proofs.Utf8

set_option autoImplicit false

namespace Verdict

namespace Binary

def Reads {α : Type} (read : Reader α) (bytes : List UInt8) (x : α) : Prop :=
  ∀ rest, read (bytes ++ rest) = .ok (x, rest)

theorem ofLittleEndian_littleEndian {count n : Nat} (h : n < 256 ^ count) :
    ofLittleEndian (littleEndian count n) = n := by
  induction count generalizing n with
  | zero =>
    have hn : n = 0 := Nat.lt_one_iff.1 h
    rw [hn]
    rfl
  | succ count ih =>
    have hn : n / 256 < 256 ^ count := by
      rw [Nat.pow_succ] at h
      exact Nat.div_lt_of_lt_mul (by omega)
    simp only [littleEndian, ofLittleEndian, ih hn, UInt8.toNat_ofNat']
    omega

theorem readBytes_append (taken rest : List UInt8) :
    readBytes taken.length (taken ++ rest) = .ok (taken, rest) := by
  rw [readBytes, split_append]

theorem writeNat_pos (n : Nat) : 0 < (writeNat n).length := by
  unfold writeNat
  split
  · simp
  · split
    · simp
    · split <;> simp

theorem reads_small (role : Role) {n : Nat} (h : n < 251) :
    Reads (readNat role) (writeNat n) n := by
  intro rest
  have hb : (UInt8.ofNat n).toNat = n := by
    rw [UInt8.toNat_ofNat']
    omega
  have hlt : UInt8.ofNat n < 251 := by
    rw [UInt8.lt_iff_toNat_lt, hb]
    exact h
  rw [writeNat, if_pos h, List.singleton_append, readNat, if_pos hlt, hb]

theorem reads_marked {role : Role} {mark : UInt8} {count n : Nat} (hm : ¬ mark < 251)
    (hw : widthOf role mark = .ok count) (hn : n < 256 ^ count) :
    Reads (readNat role) (mark :: littleEndian count n) n := by
  intro rest
  have hr := readBytes_append (littleEndian count n) rest
  rw [length_littleEndian] at hr
  rw [List.cons_append, readNat, if_neg hm]
  simp only [hw, hr, ofLittleEndian_littleEndian hn]

theorem widthOf_wide {role : Role} (h : role ≠ .variant) : widthOf role 253 = .ok 8 := by
  cases role with
  | number => rfl
  | length => rfl
  | variant => exact absurd rfl h

theorem reads_writeNat (role : Role) (hr : role ≠ .variant) {n : Nat} (h : n < 2 ^ 64) :
    Reads (readNat role) (writeNat n) n := by
  by_cases h1 : n < 251
  · exact reads_small role h1
  · unfold writeNat
    rw [if_neg h1]
    split
    · next h2 => exact reads_marked (by decide) rfl h2
    · split
      · next h3 => exact reads_marked (by decide) rfl h3
      · exact reads_marked (by decide) (widthOf_wide hr) h

theorem length_writeText (s : String) :
    (writeText s).length = (writeNat s.utf8ByteSize).length + s.utf8ByteSize := by
  rw [writeText, List.length_append, Text.length_encodeUtf8]

theorem reads_writeText {s : String} (h : (writeText s).length < 2 ^ 64) :
    Reads readText (writeText s) s := by
  intro rest
  have hsize : s.utf8ByteSize < 2 ^ 64 := by
    rw [length_writeText] at h
    omega
  have hn := reads_writeNat .number (by decide) hsize (Text.encodeUtf8 s ++ rest)
  have hb := readBytes_append (Text.encodeUtf8 s) rest
  rw [Text.length_encodeUtf8] at hb
  rw [writeText, List.append_assoc, readText]
  simp only [hn, hb, Text.decodeUtf8_encodeUtf8]

section

variable {α : Type} {write : α → List UInt8} {read : Reader α} {xs : List α}

theorem length_le_flatMap (hpos : ∀ x, 0 < (write x).length) (xs : List α) :
    xs.length ≤ (xs.flatMap write).length := by
  induction xs with
  | nil => simp
  | cons x xs ih =>
    have hx := hpos x
    simp only [List.flatMap_cons, List.length_append, List.length_cons]
    omega

theorem length_le_flatMap_of_mem (write : α → List UInt8) {x : α} (hx : x ∈ xs) :
    (write x).length ≤ (xs.flatMap write).length := by
  induction xs with
  | nil => cases hx
  | cons y xs ih =>
    simp only [List.flatMap_cons, List.length_append]
    rcases List.mem_cons.1 hx with rfl | hx
    · omega
    · have := ih hx
      omega

theorem length_writeMany (xs : List α) :
    (writeMany write xs).length = (writeNat xs.length).length + (xs.flatMap write).length := by
  rw [writeMany, List.length_append]

theorem writeMany_pos (xs : List α) : 0 < (writeMany write xs).length := by
  have := writeNat_pos xs.length
  rw [length_writeMany]
  omega

theorem readTimes_flatMap (h : ∀ x ∈ xs, Reads read (write x) x) (rest : List UInt8) :
    readTimes read xs.length (xs.flatMap write ++ rest) = .ok (xs, rest) := by
  induction xs with
  | nil => rfl
  | cons x xs ih =>
    have hx := h x List.mem_cons_self (xs.flatMap write ++ rest)
    have hxs := ih fun y hy => h y (List.mem_cons_of_mem x hy)
    rw [List.flatMap_cons, List.append_assoc, List.length_cons, readTimes]
    simp only [hx, hxs]

theorem reads_writeMany (hpos : ∀ x, 0 < (write x).length)
    (hread : ∀ x ∈ xs, (write x).length < 2 ^ 64 → Reads read (write x) x)
    (h : (writeMany write xs).length < 2 ^ 64) :
    Reads (readMany read) (writeMany write xs) xs := by
  intro rest
  rw [length_writeMany] at h
  have hcount := length_le_flatMap hpos xs
  have hn := reads_writeNat .length (by decide) (n := xs.length) (by omega)
    (xs.flatMap write ++ rest)
  have hxs : ∀ x ∈ xs, Reads read (write x) x := by
    intro x hx
    have := length_le_flatMap_of_mem write hx
    exact hread x hx (by omega)
  rw [writeMany, List.append_assoc, readMany]
  simp only [hn, readTimes_flatMap hxs rest]

end

theorem writeText_pos (s : String) : 0 < (writeText s).length := by
  have := writeNat_pos s.utf8ByteSize
  rw [length_writeText]
  omega

theorem writeOutcome_pos (o : Outcome) : 0 < (writeOutcome o).length := writeText_pos o.name

theorem reads_writeOutcome {o : Outcome} (h : (writeOutcome o).length < 2 ^ 64) :
    Reads readOutcome (writeOutcome o) o := by
  intro rest
  rw [writeOutcome, readOutcome, reads_writeText h rest]
  rfl

theorem writeConditions_pos (s : Conditions) : 0 < (writeConditions s).length :=
  writeMany_pos s.members

theorem reads_writeConditions {s : Conditions} (h : (writeConditions s).length < 2 ^ 64) :
    Reads readConditions (writeConditions s) s := by
  intro rest
  have hw : writeConditions s = writeMany writeText (s.members.map Condition.name) := by
    rw [writeConditions, writeMany, writeMany, List.length_map, List.flatMap_map]
  rw [hw] at h
  have hr : Reads (readMany readText) _ _ :=
    reads_writeMany writeText_pos (fun name _ hname => reads_writeText hname) h
  have hm : (s.members.map Condition.name).map Condition.mk = s.members := by
    rw [List.map_map]
    exact List.map_id _
  rw [hw, readConditions, hr rest]
  simp only [Except.map, hm, Conditions.ofList_members]

/-- Both sides of an entry can be written as numbers. -/
def Entry.Bounded : Entry → Prop
  | .leaf _ => True
  | .node _ m f => m < 2 ^ 64 ∧ f < 2 ^ 64

theorem writeEntry_pos (e : Entry) : 0 < (writeEntry e).length := by
  cases e with
  | leaf o =>
    have := writeNat_pos 1
    simp only [writeEntry, List.length_append]
    omega
  | node want m f =>
    have := writeNat_pos 0
    simp only [writeEntry, List.length_append]
    omega

theorem reads_writeEntry {e : Entry} (hb : e.Bounded) (h : (writeEntry e).length < 2 ^ 64) :
    Reads readEntry (writeEntry e) e := by
  intro rest
  cases e with
  | leaf o =>
    simp only [writeEntry, List.length_append] at h
    have hk := reads_small .variant (n := 1) (by decide) (writeOutcome o ++ rest)
    have ho := reads_writeOutcome (o := o) (by omega) rest
    rw [writeEntry, List.append_assoc, readEntry, hk]
    simp only [bind, Except.bind, ho, Except.map]
  | node want m f =>
    simp only [writeEntry, List.length_append] at h
    have hk := reads_small .variant (n := 0) (by decide)
      (writeConditions want ++ (writeNat m ++ (writeNat f ++ rest)))
    have hw := reads_writeConditions (s := want) (by omega) (writeNat m ++ (writeNat f ++ rest))
    have hm := reads_writeNat .number (by decide) hb.1 (writeNat f ++ rest)
    have hf := reads_writeNat .number (by decide) hb.2 rest
    rw [writeEntry, List.append_assoc, List.append_assoc, List.append_assoc, readEntry, hk]
    simp only [bind, Except.bind, hw, hm, hf]

theorem readDigestBytes_append {count : Nat} (bytes rest : List UInt8) (h : bytes.length = count) :
    readDigestBytes count (bytes ++ rest) = .ok (⟨bytes, h⟩, rest) := by
  induction count generalizing bytes with
  | zero =>
    obtain rfl := List.length_eq_zero_iff.1 h
    rfl
  | succ count ih =>
    cases bytes with
    | nil => cases h
    | cons b bytes =>
      rw [List.cons_append, readDigestBytes, ih bytes (by simpa using h)]
      rfl

theorem reads_writeDigest (source : Option Digest) :
    Reads readDigest (writeDigest source) source := by
  intro rest
  cases source with
  | none => rfl
  | some d =>
    have hd := readDigestBytes_append d.bytes rest d.length_bytes
    rw [writeDigest, List.cons_append, readDigest]
    simp [hd, Except.map]

end Binary

end Verdict
