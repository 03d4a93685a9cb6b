import Verdict.Proofs.Storable
import Verdict.Proofs.Wire

set_option autoImplicit false

namespace Verdict.Binary

theorem slice_append (before middle after : List UInt8) {start stop : Nat}
    (hstart : before.length = start) (hstop : start + middle.length = stop) :
    slice (before ++ (middle ++ after)) start stop = middle := by
  have hcount : stop - start = middle.length := by omega
  rw [slice, hcount, ← hstart, List.drop_left, List.take_left]

/-- A header is read field by field. The version of the writer and the flags stand in six bytes that
are not looked at. -/
theorem readHeader_fields {tag version skipped length sum rest : List UInt8}
    (htag : tag.length = 4) (hversion : version.length = 2) (hskipped : skipped.length = 6)
    (hlength : length.length = 4) (hsum : sum.length = 16) :
    readHeader (tag ++ (version ++ (skipped ++ (length ++ (sum ++ rest))))) =
      if tag != magic then .error .badMagic
      else .ok ⟨ofLittleEndian version, ofLittleEndian length, sum⟩ := by
  have hsize : ((tag ++ (version ++ (skipped ++ (length ++ (sum ++ rest))))).take
      headerSize).length = headerSize := by
    simp only [List.length_take, List.length_append, headerSize]
    omega
  have htake : (tag ++ (version ++ (skipped ++ (length ++ (sum ++ rest))))).take 4 = tag := by
    rw [← htag, List.take_left]
  have hv : slice (tag ++ (version ++ (skipped ++ (length ++ (sum ++ rest))))) 4 6 = version :=
    slice_append tag version _ htag (by omega)
  have hl : slice (tag ++ (version ++ (skipped ++ (length ++ (sum ++ rest))))) 12 16 = length := by
    have hstart : (tag ++ (version ++ skipped)).length = 12 := by
      simp only [List.length_append]
      omega
    have h := slice_append (tag ++ (version ++ skipped)) length (sum ++ rest) hstart
      (by omega : 12 + length.length = 16)
    simpa only [List.append_assoc] using h
  have hs : slice (tag ++ (version ++ (skipped ++ (length ++ (sum ++ rest))))) 16 32 = sum := by
    have hstart : (tag ++ (version ++ (skipped ++ length))).length = 16 := by
      simp only [List.length_append]
      omega
    have h := slice_append (tag ++ (version ++ (skipped ++ length))) sum rest hstart
      (by omega : 16 + sum.length = 32)
    simpa only [List.append_assoc] using h
  unfold readHeader
  simp only [hsize, htake, hv, hl, hs, Nat.lt_irrefl, if_false]

theorem length_checksum (payload : List UInt8) : (checksum payload).length = 16 := by
  rw [checksum, List.length_take, (Digest.ofBytes payload).length_bytes]
  rfl

theorem writeHeader_append (payload rest : List UInt8) :
    writeHeader payload ++ rest =
      magic ++ (littleEndian 2 formatVersion ++
        ((littleEndian 2 writerVersion ++ littleEndian 4 0) ++
          (littleEndian 4 payload.length ++ (checksum payload ++ rest)))) := by
  simp only [writeHeader, List.append_assoc]

theorem length_writeHeader (payload : List UInt8) : (writeHeader payload).length = headerSize := by
  simp only [writeHeader, List.length_append, length_littleEndian, length_checksum]
  rfl

theorem readHeader_writeHeader {payload : List UInt8} (h : payload.length < 2 ^ 32)
    (rest : List UInt8) :
    readHeader (writeHeader payload ++ rest) =
      .ok ⟨formatVersion, payload.length, checksum payload⟩ := by
  have hskipped : (littleEndian 2 writerVersion ++ littleEndian 4 0).length = 6 := by
    simp only [List.length_append, length_littleEndian]
  have hv : ofLittleEndian (littleEndian 2 formatVersion) = formatVersion :=
    ofLittleEndian_littleEndian (by decide)
  have hl : ofLittleEndian (littleEndian 4 payload.length) = payload.length :=
    ofLittleEndian_littleEndian h
  rw [writeHeader_append, readHeader_fields rfl (length_littleEndian 2 _) hskipped
    (length_littleEndian 4 _) (length_checksum payload), hv, hl]
  rfl

theorem openPayload_append {payload : List UInt8} (h : payload.length < 2 ^ 32) {p : Payload}
    (hp : Payload.read payload = .ok (p, [])) (rest : List UInt8) :
    openPayload (writeHeader payload ++ (payload ++ rest)) = .ok p := by
  have hbody : (writeHeader payload ++ (payload ++ rest)).drop headerSize = payload ++ rest := by
    rw [← length_writeHeader payload, List.drop_left]
  have hpayload : (payload ++ rest).take payload.length = payload := List.take_left
  unfold openPayload
  rw [readHeader_writeHeader h]
  simp only [hbody, hpayload, hp]
  simp

namespace Payload

theorem reads_write {p : Payload} (hnodes : p.arena.nodes < 2 ^ 64)
    (hleaves : p.arena.leaves < 2 ^ 64) (hdomains : p.arena.domains < 2 ^ 64)
    (hroot : p.arena.root < 2 ^ 64) (hentries : ∀ e ∈ p.arena.entries, e.Bounded)
    (h : p.write.length < 2 ^ 64) : Reads read p.write p := by
  intro rest
  simp only [write, List.length_append] at h
  have hn := reads_writeNat .number (by decide) hnodes
  have hl := reads_writeNat .number (by decide) hleaves
  have hd := reads_writeNat .number (by decide) hdomains
  have hr := reads_writeNat .number (by decide) hroot
  have he : Reads (readMany readEntry) _ p.arena.entries :=
    reads_writeMany writeEntry_pos (fun e hmem hlen => reads_writeEntry (hentries e hmem) hlen)
      (by omega)
  have hc : Reads (readMany readConditions) _ p.arena.conditions :=
    reads_writeMany writeConditions_pos (fun _ _ hlen => reads_writeConditions hlen) (by omega)
  have hmany : ∀ os : List Outcome, (writeMany writeOutcome os).length < 2 ^ 64 →
      Reads (readMany readOutcome) (writeMany writeOutcome os) os := fun os hlen =>
    reads_writeMany writeOutcome_pos (fun _ _ hlen => reads_writeOutcome hlen) hlen
  have ho : Reads (readMany (readMany readOutcome)) (writeMany (writeMany writeOutcome) _)
      p.arena.outcomes :=
    reads_writeMany writeMany_pos (fun os _ hlen => hmany os hlen) (by omega)
  simp only [write, List.append_assoc]
  rw [read, hn]
  simp only [bind, Except.bind, hl _, hd _, reads_writeDigest p.source _, he _, hr _, hc _, ho rest]

theorem read_ofTree (t : Tree) (source : Option String)
    (h : (ofTree t source).write.length < 2 ^ 64) :
    read (ofTree t source).write = .ok (ofTree t source, []) := by
  have hentries : (ofTree t source).arena.entries = laid 0 t.root := Arena.entries_ofTree t
  have hroot : (ofTree t source).arena.root + 1 = t.root.weight := Arena.root_ofTree t
  have hnodes : (ofTree t source).arena.nodes = t.root.nodeCount := rfl
  have hleaves : (ofTree t source).arena.leaves = t.root.leafCount := rfl
  have hdomains : (ofTree t source).arena.domains = t.conditions.length := rfl
  have hconditions : (ofTree t source).arena.conditions = t.conditions := rfl
  have hcounts := nodeCount_add_leafCount t.root
  have hsize := h
  simp only [write, List.length_append, length_writeMany, hentries, hconditions] at hsize
  -- No count or place is greater than the number of bytes, since an entry takes at least one.
  have hweight := length_le_flatMap writeEntry_pos (laid 0 t.root)
  rw [length_laid] at hweight
  have hlength := length_le_flatMap writeConditions_pos t.conditions
  have hreads : Reads read (ofTree t source).write (ofTree t source) := by
    refine reads_write ?_ ?_ ?_ ?_ ?_ h
    · omega
    · omega
    · omega
    · omega
    · intro e he
      rw [hentries] at he
      cases e with
      | leaf outcome => trivial
      | node want i j =>
        have := mem_laid_node he
        exact ⟨by omega, by omega⟩
  have hnil := hreads []
  rwa [List.append_nil] at hnil

end Payload

theorem openPayload_toBytes {t : Tree} {source : Option String}
    (h : (Payload.ofTree t source).write.length < 2 ^ 32) :
    openPayload (t.toBytes source) = .ok (Payload.ofTree t source) := by
  have hread := Payload.read_ofTree t source (by omega)
  have hopen := openPayload_append h hread []
  rwa [List.append_nil] at hopen

end Verdict.Binary

namespace Verdict

theorem Tree.ofBytes_toBytes_of_storable {t : Tree} (ht : t.Storable) {source : Option String}
    (h : (Binary.Payload.ofTree t source).write.length < 2 ^ 32) :
    Tree.ofBytes (t.toBytes source) = .ok t := by
  have harena : (Binary.Payload.ofTree t source).arena.toTree = .ok t :=
    Binary.Arena.toTree_ofTree ht
  rw [Tree.ofBytes, Binary.openPayload_toBytes h]
  simp only [harena]

theorem Tree.storage_exact {t : Tree} (ht : t.Obtained) (source : Option String)
    (h : (Binary.Payload.ofTree t source).write.length < 2 ^ 32) :
    Tree.ofBytes (t.toBytes source) = .ok t ∧
      Binary.sourceDigest (t.toBytes source) =
        .ok (source.map fun s => Digest.ofBytes (Text.encodeUtf8 s)) ∧
      (Tree.ofBytes (t.toBytes source)).map (·.toBytes source) = .ok (t.toBytes source) := by
  have hread := Tree.ofBytes_toBytes_of_storable ht.storable h
  refine ⟨hread, ?_, ?_⟩
  · rw [Binary.sourceDigest, Binary.openPayload_toBytes h]
    rfl
  · rw [hread]
    rfl

theorem Tree.storage_exact_orders :
    (Spec.orders.tree true).Obtained ∧
      (Binary.Payload.ofTree (Spec.orders.tree true) (some "orders")).write.length < 2 ^ 32 ∧
      Tree.ofBytes ((Spec.orders.tree true).toBytes (some "orders")) = .ok (Spec.orders.tree true) ∧
      Binary.sourceDigest ((Spec.orders.tree true).toBytes (some "orders")) =
        .ok (some (Digest.ofBytes (Text.encodeUtf8 "orders"))) ∧
      (Tree.ofBytes ((Spec.orders.tree true).toBytes (some "orders"))).map
        (·.toBytes (some "orders")) = .ok ((Spec.orders.tree true).toBytes (some "orders")) := by
  have ht : (Spec.orders.tree true).Obtained :=
    .compiled (Spec.compile_of_named (s := Spec.orders) (by decide) true)
  have hsize : (Binary.Payload.ofTree (Spec.orders.tree true) (some "orders")).write.length <
      2 ^ 32 := by decide +kernel
  exact ⟨ht, hsize, Tree.storage_exact ht (some "orders") hsize⟩

end Verdict
