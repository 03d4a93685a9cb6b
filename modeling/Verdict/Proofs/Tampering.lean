import Verdict.Proofs.Storage

set_option autoImplicit false

namespace Verdict.Binary

def Refused (bytes : List UInt8) (fault : Fault) : Prop :=
  Tree.ofBytes bytes = .error fault ∧ sourceDigest bytes = .error fault

theorem refused_of_openPayload {bytes : List UInt8} {fault : Fault}
    (h : openPayload bytes = .error fault) : Refused bytes fault := by
  rw [Refused, Tree.ofBytes, sourceDigest, h]
  exact ⟨rfl, rfl⟩

def overwrite (bytes : List UInt8) (start : Nat) (new : List UInt8) : List UInt8 :=
  bytes.take start ++ (new ++ bytes.drop (start + new.length))

theorem overwrite_append {before old new : List UInt8} {start : Nat}
    (hstart : before.length = start) (hlength : new.length = old.length) (after : List UInt8) :
    overwrite (before ++ (old ++ after)) start new = before ++ (new ++ after) := by
  rw [overwrite, ← hstart, hlength, List.take_left, ← List.drop_drop, List.drop_left,
    List.drop_left]

theorem length_slice {bytes : List UInt8} {start stop : Nat} (h : start ≤ stop)
    (hstop : stop ≤ bytes.length) : (slice bytes start stop).length = stop - start := by
  rw [slice, List.length_take, List.length_drop]
  omega

theorem slice_append_drop (bytes : List UInt8) {start stop : Nat} (h : start ≤ stop) :
    slice bytes start stop ++ bytes.drop stop = bytes.drop start := by
  have hstop : start + (stop - start) = stop := by omega
  rw [slice, ← hstop, ← List.drop_drop, hstop, List.take_append_drop]

structure Envelope where
  tag : List UInt8
  version : List UInt8
  skipped : List UInt8
  length : List UInt8
  sum : List UInt8
  body : List UInt8
  length_tag : tag.length = 4
  length_version : version.length = 2
  length_skipped : skipped.length = 6
  length_length : length.length = 4
  length_sum : sum.length = 16

namespace Envelope

def bytes (e : Envelope) : List UInt8 :=
  e.tag ++ (e.version ++ (e.skipped ++ (e.length ++ (e.sum ++ e.body))))

/-- As many bytes of the body as the header speaks of, or all of them if there are fewer. -/
def payload (e : Envelope) : List UInt8 := e.body.take (ofLittleEndian e.length)

def header (e : Envelope) : List UInt8 :=
  e.tag ++ (e.version ++ (e.skipped ++ (e.length ++ e.sum)))

theorem length_header (e : Envelope) : e.header.length = headerSize := by
  simp only [header, List.length_append, e.length_tag, e.length_version, e.length_skipped,
    e.length_length, e.length_sum, headerSize]

theorem bytes_eq (e : Envelope) : e.bytes = e.header ++ e.body := by
  simp only [bytes, header, List.append_assoc]

theorem length_bytes (e : Envelope) : e.bytes.length = headerSize + e.body.length := by
  rw [bytes_eq, List.length_append, length_header]

theorem drop_bytes (e : Envelope) : e.bytes.drop headerSize = e.body := by
  rw [bytes_eq, ← length_header e, List.drop_left]

theorem openPayload_bytes (e : Envelope) :
    openPayload e.bytes =
      if e.tag ≠ magic then .error .badMagic
      else if ofLittleEndian e.version ≠ formatVersion then
        .error (.version (ofLittleEndian e.version))
      else if e.payload.length < ofLittleEndian e.length then
        .error (.length (ofLittleEndian e.length) e.body.length)
      else if checksum e.payload ≠ e.sum then .error .checksum
      else match Payload.read e.payload with
        | .error fault => .error (.decode fault)
        | .ok (p, _) => .ok p := by
  unfold openPayload
  rw [drop_bytes, bytes, readHeader_fields e.length_tag e.length_version e.length_skipped
    e.length_length e.length_sum]
  by_cases htag : e.tag = magic
  · simp only [htag, bne_self_eq_false, Bool.false_eq_true, if_false, ne_eq, not_true_eq_false,
      bne_iff_ne, payload]
    rfl
  · simp [htag]

def ofBytes (bytes : List UInt8) (h : headerSize ≤ bytes.length) : Envelope where
  tag := bytes.take 4
  version := slice bytes 4 6
  skipped := slice bytes 6 12
  length := slice bytes 12 16
  sum := slice bytes 16 32
  body := bytes.drop 32
  length_tag := List.length_take_of_le (Nat.le_trans (by decide) h)
  length_version := length_slice (by decide) (Nat.le_trans (by decide) h)
  length_skipped := length_slice (by decide) (Nat.le_trans (by decide) h)
  length_length := length_slice (by decide) (Nat.le_trans (by decide) h)
  length_sum := length_slice (by decide) h

theorem bytes_ofBytes (bytes : List UInt8) (h : headerSize ≤ bytes.length) :
    (ofBytes bytes h).bytes = bytes := by
  simp only [Envelope.bytes, ofBytes]
  rw [slice_append_drop bytes (by decide), slice_append_drop bytes (by decide),
    slice_append_drop bytes (by decide), slice_append_drop bytes (by decide),
    List.take_append_drop]

theorem take_bytes (e : Envelope) {n : Nat} (h : headerSize ≤ n) :
    e.bytes.take n = { e with body := e.body.take (n - headerSize) }.bytes := by
  rw [bytes_eq, bytes_eq, List.take_append, length_header,
    List.take_of_length_le (by rw [length_header]; exact h)]
  rfl

theorem bytes_append (e : Envelope) (behind : List UInt8) :
    e.bytes ++ behind = { e with body := e.body ++ behind }.bytes := by
  rw [bytes_eq, bytes_eq, List.append_assoc]
  rfl

theorem overwrite_skipped (e : Envelope) {skipped : List UInt8} (h : skipped.length = 6) :
    overwrite e.bytes 6 skipped = { e with skipped := skipped, length_skipped := h }.bytes := by
  have hstart : (e.tag ++ e.version).length = 6 := by
    simp only [List.length_append, e.length_tag, e.length_version]
  have hchange := overwrite_append hstart (h.trans e.length_skipped.symm)
    (e.length ++ (e.sum ++ e.body))
  simpa only [bytes, List.append_assoc] using hchange

theorem overwrite_length (e : Envelope) {length : List UInt8} (h : length.length = 4) :
    overwrite e.bytes 12 length = { e with length := length, length_length := h }.bytes := by
  have hstart : (e.tag ++ (e.version ++ e.skipped)).length = 12 := by
    simp only [List.length_append, e.length_tag, e.length_version, e.length_skipped]
  have hchange := overwrite_append hstart (h.trans e.length_length.symm) (e.sum ++ e.body)
  simpa only [bytes, List.append_assoc] using hchange

theorem length_before_sum (e : Envelope) :
    (e.tag ++ (e.version ++ (e.skipped ++ e.length))).length = 16 := by
  simp only [List.length_append, e.length_tag, e.length_version, e.length_skipped,
    e.length_length]

theorem overwrite_sum (e : Envelope) {sum : List UInt8} (h : sum.length = 16) :
    overwrite e.bytes 16 sum = { e with sum := sum, length_sum := h }.bytes := by
  have hchange := overwrite_append e.length_before_sum (h.trans e.length_sum.symm) e.body
  simpa only [bytes, List.append_assoc] using hchange

theorem slice_bytes (e : Envelope) : slice e.bytes 16 32 = e.sum := by
  have h := slice_append _ e.sum e.body e.length_before_sum (by rw [e.length_sum])
  simpa only [bytes, List.append_assoc] using h

theorem refused_magic {e : Envelope} (h : e.tag ≠ magic) : Refused e.bytes .badMagic :=
  refused_of_openPayload (by rw [openPayload_bytes, if_pos h])

theorem refused_version {e : Envelope} (htag : e.tag = magic)
    (h : ofLittleEndian e.version ≠ formatVersion) :
    Refused e.bytes (.version (ofLittleEndian e.version)) :=
  refused_of_openPayload (by rw [openPayload_bytes, if_neg (not_not_intro htag), if_pos h])

theorem refused_length {e : Envelope} (htag : e.tag = magic)
    (hversion : ofLittleEndian e.version = formatVersion)
    (h : e.body.length < ofLittleEndian e.length) :
    Refused e.bytes (.length (ofLittleEndian e.length) e.body.length) := by
  have hshort : e.payload.length < ofLittleEndian e.length := by
    rw [payload, List.length_take]
    omega
  exact refused_of_openPayload (by
    rw [openPayload_bytes, if_neg (not_not_intro htag), if_neg (not_not_intro hversion),
      if_pos hshort])

theorem refused_checksum {e : Envelope} (htag : e.tag = magic)
    (hversion : ofLittleEndian e.version = formatVersion)
    (hlength : ofLittleEndian e.length ≤ e.body.length) (h : checksum e.payload ≠ e.sum) :
    Refused e.bytes .checksum := by
  have hlong : ¬ e.payload.length < ofLittleEndian e.length := by
    rw [payload, List.length_take]
    omega
  exact refused_of_openPayload (by
    rw [openPayload_bytes, if_neg (not_not_intro htag), if_neg (not_not_intro hversion),
      if_neg hlong, if_pos h])

theorem openPayload_congr {e e' : Envelope} (htag : e.tag = e'.tag)
    (hversion : e.version = e'.version) (hlength : e.length = e'.length) (hsum : e.sum = e'.sum)
    (hpayload : e.payload = e'.payload)
    (hlong : ofLittleEndian e'.length ≤ e'.payload.length) :
    openPayload e.bytes = openPayload e'.bytes := by
  have hn : ¬ e'.payload.length < ofLittleEndian e'.length := Nat.not_lt.2 hlong
  rw [openPayload_bytes, openPayload_bytes, htag, hversion, hlength, hsum, hpayload, if_neg hn,
    if_neg hn]

def enclose (payload : List UInt8) : Envelope where
  tag := magic
  version := littleEndian 2 formatVersion
  skipped := littleEndian 2 writerVersion ++ littleEndian 4 0
  length := littleEndian 4 payload.length
  sum := Binary.checksum payload
  body := payload
  length_tag := rfl
  length_version := length_littleEndian 2 _
  length_skipped := by simp only [List.length_append, length_littleEndian]
  length_length := length_littleEndian 4 _
  length_sum := length_checksum payload

theorem bytes_enclose (payload : List UInt8) :
    (enclose payload).bytes = writeHeader payload ++ payload :=
  (writeHeader_append payload payload).symm

end Envelope

/-- How bytes of which the header announces a payload of some size answer to a change. Cut short,
they are found too short, and which length was expected depends on whether the header is whole.
The six bytes behind the version and anything behind the payload do not matter. Other magic bytes,
another version, a greater length and another checksum are told apart, in this order. -/
structure ChangeTold (bytes : List UInt8) (size : Nat) : Prop where
  cut_header : ∀ n < headerSize, Refused (bytes.take n) (.length headerSize n)
  cut_payload : ∀ n, headerSize ≤ n → n < bytes.length →
    Refused (bytes.take n) (.length size (n - headerSize))
  unread : ∀ skipped behind : List UInt8, skipped.length = 6 →
    Tree.ofBytes (overwrite bytes 6 skipped ++ behind) = Tree.ofBytes bytes ∧
      sourceDigest (overwrite bytes 6 skipped ++ behind) = sourceDigest bytes
  magic : ∀ other : List UInt8, headerSize ≤ other.length → other.take 4 ≠ magic →
    Refused other .badMagic
  version : ∀ v < 2 ^ 16, v ≠ formatVersion → ∀ rest : List UInt8, headerSize ≤ rest.length + 6 →
    Refused (Binary.magic ++ (littleEndian 2 v ++ rest)) (.version v)
  length : ∀ n < 2 ^ 32, size < n → Refused (overwrite bytes 12 (littleEndian 4 n)) (.length n size)
  checksum : ∀ sum : List UInt8, sum.length = 16 → sum ≠ slice bytes 16 32 →
    Refused (overwrite bytes 16 sum) .checksum

namespace Envelope

variable {payload : List UInt8}

theorem version_enclose (payload : List UInt8) :
    ofLittleEndian (enclose payload).version = formatVersion :=
  ofLittleEndian_littleEndian (by decide)

theorem length_enclose (h : payload.length < 2 ^ 32) :
    ofLittleEndian (enclose payload).length = payload.length :=
  ofLittleEndian_littleEndian h

theorem payload_enclose (h : payload.length < 2 ^ 32) : (enclose payload).payload = payload := by
  rw [Envelope.payload, length_enclose h]
  exact List.take_length

theorem refused_short {bytes : List UInt8} (h : bytes.length < headerSize) :
    Refused bytes (.length headerSize bytes.length) := by
  have hall : bytes.take headerSize = bytes := List.take_of_length_le (Nat.le_of_lt h)
  have hheader : readHeader bytes = .error (.length headerSize bytes.length) := by
    simp only [readHeader, hall, if_pos h]
  exact refused_of_openPayload (by rw [openPayload, hheader])

theorem changeTold_enclose (h : payload.length < 2 ^ 32) :
    ChangeTold (enclose payload).bytes payload.length where
  cut_header n hn := by
    have hlength : ((enclose payload).bytes.take n).length = n := by
      rw [List.length_take, length_bytes]
      omega
    have hshort := refused_short (hlength.trans_lt hn)
    rwa [hlength] at hshort
  cut_payload n hn hlt := by
    have hbytes : (enclose payload).bytes.length = headerSize + payload.length := length_bytes _
    have hlength : (payload.take (n - headerSize)).length = n - headerSize := by
      rw [List.length_take]
      omega
    have hcut := refused_length
      (e := { enclose payload with body := payload.take (n - headerSize) }) rfl
      (version_enclose payload) (by rw [length_enclose h, hlength]; omega)
    rw [take_bytes _ hn]
    rwa [length_enclose h, hlength] at hcut
  unread skipped behind hskipped := by
    have hopen : openPayload (overwrite (enclose payload).bytes 6 skipped ++ behind) =
        openPayload (enclose payload).bytes := by
      have hpayload : (payload ++ behind).take (ofLittleEndian (enclose payload).length) =
          (enclose payload).payload := by
        rw [payload_enclose h, length_enclose h, List.take_left]
      rw [overwrite_skipped _ hskipped, bytes_append]
      exact openPayload_congr rfl rfl rfl rfl hpayload
        (by rw [payload_enclose h, length_enclose h])
    rw [Tree.ofBytes, Tree.ofBytes, sourceDigest, sourceDigest, hopen]
    exact ⟨rfl, rfl⟩
  magic other hlength htag := by
    rw [← bytes_ofBytes other hlength]
    exact refused_magic htag
  version v hv hne rest hrest := by
    have hsize : headerSize ≤ (Binary.magic ++ (littleEndian 2 v ++ rest)).length := by
      have hmagic : Binary.magic.length = 4 := rfl
      simp only [List.length_append, length_littleEndian]
      omega
    have hversion : (ofBytes _ hsize).version = littleEndian 2 v :=
      slice_append Binary.magic _ rest rfl (by rw [length_littleEndian])
    have hvalue : ofLittleEndian (ofBytes _ hsize).version = v := by
      rw [hversion, ofLittleEndian_littleEndian hv]
    have htag : (ofBytes _ hsize).tag = Binary.magic := rfl
    have hother := refused_version htag (by rwa [hvalue])
    rwa [bytes_ofBytes, hvalue] at hother
  length n hn hlt := by
    rw [overwrite_length _ (length_littleEndian 4 n)]
    have hvalue : ofLittleEndian (littleEndian 4 n) = n := ofLittleEndian_littleEndian hn
    have hraised := refused_length (e := { enclose payload with
      length := littleEndian 4 n, length_length := length_littleEndian 4 n })
      rfl (version_enclose payload) (hlt.trans_eq hvalue.symm)
    rwa [hvalue] at hraised
  checksum sum hsum hne := by
    rw [slice_bytes] at hne
    rw [overwrite_sum _ hsum]
    have hchecksum : Binary.checksum (enclose payload).payload ≠ sum := by
      rw [payload_enclose h]
      exact hne.symm
    exact refused_checksum rfl (version_enclose payload) (length_enclose h).le hchecksum

end Envelope

end Verdict.Binary

namespace Verdict

theorem Tree.changes_told (t : Tree) (source : Option String)
    (h : (Binary.Payload.ofTree t source).write.length < 2 ^ 32) :
    Binary.ChangeTold (t.toBytes source) (Binary.Payload.ofTree t source).write.length := by
  have hbytes : (Binary.Envelope.enclose (Binary.Payload.ofTree t source).write).bytes =
      t.toBytes source := Binary.Envelope.bytes_enclose _
  rw [← hbytes]
  exact Binary.Envelope.changeTold_enclose h

theorem Tree.changes_told_orders :
    (Binary.Payload.ofTree (Spec.orders.tree true) (some "orders")).write.length = 307 ∧
      307 < 2 ^ 32 ∧
      Binary.ChangeTold ((Spec.orders.tree true).toBytes (some "orders")) 307 ∧
      Binary.Refused (((Spec.orders.tree true).toBytes (some "orders")).take 40)
        (.length 307 8) := by
  have hsize :
      (Binary.Payload.ofTree (Spec.orders.tree true) (some "orders")).write.length = 307 := by
    decide +kernel
  have htold := Tree.changes_told (Spec.orders.tree true) (some "orders") (by rw [hsize]; decide)
  rw [hsize] at htold
  have hlength : 40 < ((Spec.orders.tree true).toBytes (some "orders")).length := by
    rw [Tree.toBytes, List.length_append, Binary.length_writeHeader, hsize]
    decide
  exact ⟨hsize, by decide, htold, htold.cut_payload 40 (by decide) hlength⟩

end Verdict
