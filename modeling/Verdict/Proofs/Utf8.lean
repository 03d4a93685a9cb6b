import Verdict.Text.Reading

set_option autoImplicit false

namespace Verdict.Text

/-- The bytes that are read as the rest of a character, with its number, leave this rest. -/
def Continues (least greatest taken code n : Nat) (bs : List UInt8) (number : Nat)
    (rest : List UInt8) : Prop :=
  ∃ h, continuation least greatest taken code n bs = .ok (number, ⟨rest, h⟩)

theorem Continues.done (least greatest taken code : Nat) (rest : List UInt8) :
    Continues least greatest taken code 0 rest code rest :=
  ⟨Nat.le_refl _, rfl⟩

theorem Continues.byte {least greatest taken code n number : Nat} {b : UInt8}
    {bs rest : List UInt8} (hl : least ≤ b.toNat) (hg : b.toNat ≤ greatest)
    (h : Continues 0x80 0xBF (taken + 1) (code * 64 + (b.toNat - 0x80)) n bs number rest) :
    Continues least greatest taken code (n + 1) (b :: bs) number rest := by
  obtain ⟨hle, hc⟩ := h
  refine ⟨Nat.le_succ_of_le hle, ?_⟩
  have hbounds : (decide (least ≤ b.toNat) && decide (b.toNat ≤ greatest)) = true := by
    simp [hl, hg]
  rw [continuation, if_pos hbounds, hc]
  rfl

theorem Continues.tail {taken code n number v : Nat} {bs rest : List UInt8}
    (h : Continues 0x80 0xBF (taken + 1) (code * 64 + v % 64) n bs number rest) :
    Continues 0x80 0xBF taken code (n + 1) (UInt8.ofNat (v % 64 + 0x80) :: bs) number rest := by
  have hb : (UInt8.ofNat (v % 64 + 0x80)).toNat = v % 64 + 0x80 := by
    rw [UInt8.toNat_ofNat']
    omega
  refine Continues.byte (by omega) (by omega) ?_
  rw [hb, Nat.add_sub_cancel]
  exact h

theorem decodeFrom_cons {valid number : Nat} {b : UInt8} {bs rest : List UInt8} {lead : Lead}
    (hl : lead? b.toNat = some lead)
    (hc : Continues lead.least lead.greatest 1 lead.bits lead.following bs number rest) :
    decodeFrom valid (b :: bs) =
      (decodeFrom (valid + 1 + lead.following) rest).map (Char.ofNat number :: ·) := by
  obtain ⟨h, hc⟩ := hc
  rw [decodeFrom]
  simp only [hl, hc]

theorem lead?_one {k : Nat} (h : k < 0x80) : lead? k = some ⟨0, k, 0, 0⟩ := by
  rw [lead?, if_pos h]

theorem lead?_two {k : Nat} (hl : 2 ≤ k) (hu : k < 0x20) :
    lead? (k + 0xC0) = some ⟨1, k, 0x80, 0xBF⟩ := by
  rw [lead?, if_neg (by omega), if_neg (by omega), if_pos (by omega), Nat.add_sub_cancel]

theorem lead?_three {k : Nat} (h : k < 0x10) :
    lead? (k + 0xE0) =
      some ⟨2, k, if k = 0 then 0xA0 else 0x80, if k = 13 then 0x9F else 0xBF⟩ := by
  rw [lead?, if_neg (by omega), if_neg (by omega), if_neg (by omega), if_pos (by omega),
    Nat.add_sub_cancel]
  simp

theorem lead?_four {k : Nat} (h : k < 5) :
    lead? (k + 0xF0) =
      some ⟨3, k, if k = 0 then 0x90 else 0x80, if k = 4 then 0x8F else 0xBF⟩ := by
  rw [lead?, if_neg (by omega), if_neg (by omega), if_neg (by omega), if_neg (by omega),
    if_pos (by omega), Nat.add_sub_cancel]
  simp

def Starts (bytes : List UInt8) (number : Nat) : Prop :=
  ∃ b bs lead, bytes = b :: bs ∧ lead? b.toNat = some lead ∧
    ∀ rest, Continues lead.least lead.greatest 1 lead.bits lead.following (bs ++ rest) number rest

theorem toNat_ofNat_add {v k n : Nat} (hv : v = k) (h : k + n < 256) :
    (UInt8.ofNat (v + n)).toNat = k + n := by
  rw [UInt8.toNat_ofNat', hv]
  omega

theorem starts_one {v : Nat} (h : v ≤ 0x7f) : Starts [UInt8.ofNat v] v := by
  have hb : (UInt8.ofNat v).toNat = v := toNat_ofNat_add (n := 0) rfl (by omega)
  have hlead : lead? (UInt8.ofNat v).toNat = some ⟨0, v, 0, 0⟩ := by
    rw [hb]
    exact lead?_one (by omega)
  refine ⟨_, _, _, rfl, hlead, ?_⟩
  intro rest
  exact Continues.done _ _ _ v rest

theorem starts_two {v : Nat} (hl : 0x80 ≤ v) (hu : v ≤ 0x7ff) :
    Starts [UInt8.ofNat (v / 64 % 0x20 + 0xc0), UInt8.ofNat (v % 0x40 + 0x80)] v := by
  have hb : (UInt8.ofNat (v / 64 % 0x20 + 0xc0)).toNat = v / 64 + 0xC0 :=
    toNat_ofNat_add (by omega) (by omega)
  have hlead := lead?_two (k := v / 64) (by omega) (by omega)
  rw [← hb] at hlead
  refine ⟨_, _, _, rfl, hlead, ?_⟩
  intro rest
  have hv : v / 64 * 64 + v % 64 = v := by omega
  refine Continues.tail ?_
  rw [hv]
  exact Continues.done _ _ _ v rest

theorem starts_three {v : Nat} (hl : 0x800 ≤ v) (hu : v ≤ 0xffff)
    (hs : v < 0xD800 ∨ 0xDFFF < v) :
    Starts [UInt8.ofNat (v / 4096 % 0x10 + 0xe0), UInt8.ofNat (v / 64 % 0x40 + 0x80),
      UInt8.ofNat (v % 0x40 + 0x80)] v := by
  have hb : (UInt8.ofNat (v / 4096 % 0x10 + 0xe0)).toNat = v / 4096 + 0xE0 :=
    toNat_ofNat_add (by omega) (by omega)
  have hc : (UInt8.ofNat (v / 64 % 0x40 + 0x80)).toNat = v / 64 % 64 + 0x80 :=
    toNat_ofNat_add rfl (by omega)
  have hlead := lead?_three (k := v / 4096) (by omega)
  rw [← hb] at hlead
  refine ⟨_, _, _, rfl, hlead, ?_⟩
  intro rest
  dsimp only
  have hv : (v / 4096 * 64 + v / 64 % 64) * 64 + v % 64 = v := by omega
  refine Continues.byte ?_ ?_ (Continues.tail ?_)
  · rw [hc]
    split <;> omega
  · rw [hc]
    split <;> omega
  · rw [hc, Nat.add_sub_cancel, hv]
    exact Continues.done _ _ _ v rest

theorem starts_four {v : Nat} (hl : 0x10000 ≤ v) (hu : v < 0x110000) :
    Starts [UInt8.ofNat (v / 262144 % 0x08 + 0xf0), UInt8.ofNat (v / 4096 % 0x40 + 0x80),
      UInt8.ofNat (v / 64 % 0x40 + 0x80), UInt8.ofNat (v % 0x40 + 0x80)] v := by
  have hb : (UInt8.ofNat (v / 262144 % 0x08 + 0xf0)).toNat = v / 262144 + 0xF0 :=
    toNat_ofNat_add (by omega) (by omega)
  have hc : (UInt8.ofNat (v / 4096 % 0x40 + 0x80)).toNat = v / 4096 % 64 + 0x80 :=
    toNat_ofNat_add rfl (by omega)
  have hlead := lead?_four (k := v / 262144) (by omega)
  rw [← hb] at hlead
  refine ⟨_, _, _, rfl, hlead, ?_⟩
  intro rest
  dsimp only
  have hv : ((v / 262144 * 64 + v / 4096 % 64) * 64 + v / 64 % 64) * 64 + v % 64 = v := by omega
  refine Continues.byte ?_ ?_ (Continues.tail (Continues.tail ?_))
  · rw [hc]
    split <;> omega
  · rw [hc]
    split <;> omega
  · rw [hc, Nat.add_sub_cancel, hv]
    exact Continues.done _ _ _ v rest

theorem starts_utf8EncodeChar (c : Char) : Starts (String.utf8EncodeChar c) c.toNat := by
  have hvalid : c.toNat < 0xD800 ∨ (0xDFFF < c.toNat ∧ c.toNat < 0x110000) := c.valid
  have hdef : c.val.toNat = c.toNat := rfl
  unfold String.utf8EncodeChar
  simp only [hdef]
  split
  · next h1 => exact starts_one h1
  · next h1 =>
    split
    · next h2 => exact starts_two (by omega) h2
    · next h2 =>
      split
      · next h3 => exact starts_three (by omega) h3 (by omega)
      · next h3 => exact starts_four (by omega) (by omega)

theorem decodeFrom_encode (valid : Nat) (cs : List Char) :
    decodeFrom valid (cs.flatMap String.utf8EncodeChar) = .ok cs := by
  induction cs generalizing valid with
  | nil => rw [List.flatMap_nil, decodeFrom]
  | cons c cs ih =>
    obtain ⟨b, bs, lead, hbytes, hl, hc⟩ := starts_utf8EncodeChar c
    rw [List.flatMap_cons, hbytes, List.cons_append, decodeFrom_cons hl (hc _), ih,
      Char.ofNat_toNat]
    rfl

theorem decodeUtf8_encodeUtf8 (s : String) : decodeUtf8 (encodeUtf8 s) = .ok s := by
  rw [decodeUtf8, encodeUtf8, decodeFrom_encode]
  exact congrArg Except.ok String.ofList_toList

theorem length_encodeUtf8 (s : String) : (encodeUtf8 s).length = s.utf8ByteSize := by
  rw [← String.size_toByteArray, ← String.utf8Encode_toList, List.utf8Encode]
  simp [encodeUtf8]

end Verdict.Text
