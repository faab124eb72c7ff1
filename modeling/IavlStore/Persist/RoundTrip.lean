import IavlStore.Persist.Placed

/-! A snapshot that was written opens as the tree it was written from, and a lookup in it
finds what a search in the pairs of the tree finds. -/

namespace IavlStore.Persist

open IavlStore.Base.Encoding IavlStore.Base.Search IavlStore.Base.Slices IavlStore.Tree

/-! ### Opening what was written -/

theorem kvs_writeRecursive (p : StoredNode) (w : SnapshotWriter) :
    (w.writeRecursive p).kvs = w.kvs ++ kvsOf p := by
  induction p generalizing w with
  | leaf => rfl
  | branch h sz v hash l r ihl ihr =>
    simp only [SnapshotWriter.writeRecursive, SnapshotWriter.writeBranch, ihl, ihr, kvsOf, List.append_assoc]

theorem leafCounter_writeRecursive (p : StoredNode) (w : SnapshotWriter) :
    (w.writeRecursive p).leafCounter = (w.leafCounter + count p) % 2 ^ 32 := by
  induction p generalizing w with
  | leaf =>
    simp only [SnapshotWriter.writeRecursive, SnapshotWriter.writeLeaf, SnapshotWriter.writeKeyValue, u32, count]
    omega
  | branch h sz v hash l r ihl ihr =>
    simp only [SnapshotWriter.writeRecursive, SnapshotWriter.writeBranch, ihl, ihr, count]
    omega

/-- The size of the kvs file of a tree. -/
def kvsSize (t : Node Bytes Bytes) : ℕ :=
  (t.toList.map fun p => 4 + p.1.length + 4 + p.2.length).sum

theorem length_kvsOf_stored (sha256 : Bytes → Bytes) (t : Node Bytes Bytes) :
    (kvsOf (t.stored sha256)).length = kvsSize t := by
  induction t with
  | leaf v k x => simp [Node.stored, kvsOf, kvsSize, pairBytes, Node.toList, Nat.add_assoc]
  | branch h sz v k l r ihl ihr =>
    simp only [Node.stored, kvsOf, List.length_append, ihl, ihr, kvsSize, Node.toList, List.map_append,
      List.sum_append]

theorem length_of_mem_leavesOf {sha256 : Bytes → Bytes} (hsha : ∀ b, (sha256 b).length = sizeHash)
    (t : Node Bytes Bytes) (off : ℕ) :
    ∀ r ∈ leavesOf off (t.stored sha256), r.length = sizeLeaf := by
  induction t generalizing off with
  | leaf v k x =>
    simp only [Node.stored, leavesOf, List.mem_singleton, forall_eq]
    exact length_leafRecord (hashNode_length hsha _)
  | branch h sz v k l r ihl ihr =>
    simp only [Node.stored, leavesOf, List.mem_append]
    rintro x (hx | hx)
    · exact ihl _ x hx
    · exact ihr _ x hx

theorem length_of_mem_nodesOf {sha256 : Bytes → Bytes} (hsha : ∀ b, (sha256 b).length = sizeHash)
    (t : Node Bytes Bytes) (B L : ℕ) :
    ∀ r ∈ nodesOf B L (t.stored sha256), r.length = sizeNode := by
  induction t generalizing B L with
  | leaf v k x => simp [Node.stored, nodesOf]
  | branch h sz v k l r ihl ihr =>
    simp only [Node.stored, nodesOf, List.mem_append, List.mem_singleton]
    rintro x ((hx | hx) | rfl)
    · exact ihl _ _ x hx
    · exact ihr _ _ x hx
    · exact length_branchRecord (hashNode_length hsha _)

theorem metadata_fields {version : ℕ} (hv : version < 2 ^ 64) :
    (metadataBytes version).length = sizeMetadata ∧
      readLE ((metadataBytes version).take 4) = snapshotFileMagic ∧
      readLE (((metadataBytes version).drop 4).take 4) = snapshotFormat ∧
      readLE (((metadataBytes version).drop 8).take 8) = version := by
  refine ⟨by simp [metadataBytes, sizeMetadata], ?_, ?_, ?_⟩
  · simpa only [List.drop_zero] using readLE_field (d := 0) [] (putLE 4 snapshotFormat ++ putLE 8 version)
      4 snapshotFileMagic (by simp [metadataBytes]) rfl (by decide)
  · exact readLE_field (putLE 4 snapshotFileMagic) (putLE 8 version) 4 snapshotFormat
      (by simp [metadataBytes]) (by simp) (by decide)
  · exact readLE_field (putLE 4 snapshotFileMagic ++ putLE 4 snapshotFormat) [] 8 version
      (by simp [metadataBytes]) (by simp) hv

/-- Array sizes that fit together are accepted; the last branch, or the only leaf, is the root. -/
theorem openSnapshot_ok {f : Files} {version c : ℕ} (hm : f.metadata = metadataBytes version)
    (hv : version < 2 ^ 64) (hn : f.nodes.length = (c - 1) * sizeNode)
    (hl : f.leaves.length = c * sizeLeaf) (hc : c < 2 ^ 32) :
    openSnapshot f = .ok ⟨f.nodes, f.leaves, f.kvs, version,
      if c = 0 then none else if c = 1 then some ⟨true, 0⟩ else some ⟨false, c - 2⟩⟩ := by
  obtain ⟨m1, m2, m3, m4⟩ := metadata_fields hv
  have hroot : (if 0 < c - 1 then some (⟨false, u32 (((c - 1 : ℕ) : ℤ) - 1)⟩ : PersistedNode)
      else if 0 < c then some ⟨true, 0⟩ else none) =
      if c = 0 then none else if c = 1 then some ⟨true, 0⟩ else some ⟨false, c - 2⟩ := by
    rcases c with _ | _ | c
    · rfl
    · rfl
    · have hu : u32 (c : ℤ) = c := by simp only [u32]; omega
      simp [hu]
  have hmis : ¬ (0 < c ∧ c - 1 + 1 ≠ c ∨ c = 0 ∧ c - 1 ≠ 0) := by omega
  have hnm : (c - 1) * sizeNode % sizeNode = 0 := Nat.mul_mod_left _ _
  have hlm : c * sizeLeaf % sizeLeaf = 0 := Nat.mul_mod_left _ _
  have hnd : (c - 1) * sizeNode / sizeNode = c - 1 := Nat.mul_div_cancel _ (by decide)
  have hld : c * sizeLeaf / sizeLeaf = c := Nat.mul_div_cancel _ (by decide)
  simp only [openSnapshot, hm, m1, m2, m3, m4, hn, hl, hnm, hlm, hnd, hld, hmis, hroot, ne_eq,
    not_true_eq_false, if_false]
  rfl

section

variable {sha256 : Bytes → Bytes}

theorem writeSnapshot_eq {version : ℕ} {t : Node Bytes Bytes} (hb : t.Balanced) (ht : t.size < 2 ^ 32)
    (hsha : ∀ b, (sha256 b).length = sizeHash) :
    writeSnapshot version (some (t.stored sha256)) =
      if kvsSize t < maxFileSize then some (filesOf version (t.stored sha256)) else none := by
  have hc := count_stored sha256 hb
  have hpos := count_pos (t.stored sha256)
  have hk := length_kvsOf_stored sha256 t
  have hleaf : ¬ (newSnapshotWriter.writeRecursive (t.stored sha256)).leafCounter = 0 := by
    rw [leafCounter_writeRecursive]
    simp only [newSnapshotWriter]
    omega
  simp only [writeSnapshot]
  rw [if_neg hleaf]
  by_cases hsize : kvsSize t < maxFileSize
  · have hw := writeRecursive_eq (t.stored sha256) (w := newSnapshotWriter)
      (by simp only [newSnapshotWriter]; omega) le_rfl
      (by simp only [newSnapshotWriter, hk]; unfold maxFileSize at hsize; omega)
    have hnodes := length_flatten_of_forall (length_of_mem_nodesOf hsha t 0 0)
    have hleaves := length_flatten_of_forall (length_of_mem_leavesOf hsha t 0)
    rw [length_nodesOf] at hnodes
    rw [length_leavesOf] at hleaves
    simp only [newSnapshotWriter, List.nil_append] at hw
    rw [if_pos hsize, newSnapshotWriter, hw]
    refine if_pos ⟨?_, ?_, ?_⟩
    · simp only [hnodes, sizeNode, maxFileSize]; omega
    · simp only [hleaves, sizeLeaf, maxFileSize]; omega
    · simpa only [hk] using hsize
  · rw [if_neg hsize, if_neg]
    rintro ⟨-, -, h⟩
    rw [kvs_writeRecursive] at h
    simp only [newSnapshotWriter, List.nil_append, hk] at h
    exact hsize h

/-- The files of a tree open as a snapshot in which the tree is found at the start. -/
theorem openSnapshot_filesOf {n version : ℕ} {t : Node Bytes Bytes} (hn : n < 2 ^ 64)
    (hv : version < 2 ^ 64) (hi : t.Inv n) (hf : Fits t) (ht : t.size < 2 ^ 32)
    (hsha : ∀ b, (sha256 b).length = sizeHash) (hsize : kvsSize t < maxFileSize) :
    ∃ s, openSnapshot (filesOf version (t.stored sha256)) = .ok s ∧ s.version = version ∧
      s.root = some (rootAt 0 0 (t.stored sha256)) ∧ Written sha256 s n 0 0 0 t := by
  have hc := count_stored sha256 hi.balanced
  have hpos := count_pos (t.stored sha256)
  have hnodes := length_of_mem_nodesOf hsha t 0 0
  have hleaves := length_of_mem_leavesOf hsha t 0
  have hopen := openSnapshot_ok (c := t.size) (f := filesOf version (t.stored sha256)) rfl hv
    (by rw [filesOf, length_flatten_of_forall hnodes, length_nodesOf, hc])
    (by rw [filesOf, length_flatten_of_forall hleaves, length_leavesOf, hc]) ht
  have hheight := height_lt_of_size_lt hi.balanced ht
  refine ⟨_, hopen, rfl, ?_, hi, hn, hf, hsha, ?_, le_rfl, by omega, by omega, ⟨?_, hnodes⟩,
    ⟨?_, hleaves⟩, ?_⟩
  · rw [rootAt, hc, if_neg (by omega)]
    split_ifs <;> simp
  · simpa only [filesOf, length_kvsOf_stored, maxFileSize] using hsize
  all_goals exact at_iff.mpr ⟨[], [], by simp [filesOf], by simp⟩

/-- A tree whose pairs fit in a file is written, and what is written are its files. -/
theorem writeSnapshot_eq_some_iff (version : ℕ) {t : Node Bytes Bytes} {f : Files} (hb : t.Balanced)
    (ht : t.toList.length < 2 ^ 32) (hsha : ∀ b, (sha256 b).length = sizeHash) :
    writeSnapshot version (some (t.stored sha256)) = some f ↔
      kvsSize t < maxFileSize ∧ filesOf version (t.stored sha256) = f := by
  rw [← hb.size_eq] at ht
  rw [writeSnapshot_eq hb ht hsha, Option.ite_none_right_eq_some, Option.some.injEq]

/-- What is written for a tree opens as that tree. -/
theorem openSnapshot_of_write {n version : ℕ} {t : Node Bytes Bytes} {f : Files} (hn : n < 2 ^ 64)
    (hv : version < 2 ^ 64) (hi : t.Inv n) (hf : Fits t) (ht : t.toList.length < 2 ^ 32)
    (hsha : ∀ b, (sha256 b).length = sizeHash)
    (hwrite : writeSnapshot version (some (t.stored sha256)) = some f) :
    ∃ s, openSnapshot f = .ok s ∧ s.version = version ∧ s.root = some (rootAt 0 0 (t.stored sha256)) ∧
      Written sha256 s n 0 0 0 t := by
  obtain ⟨hkvs, rfl⟩ := (writeSnapshot_eq_some_iff version hi.balanced ht hsha).mp hwrite
  rw [← hi.balanced.size_eq] at ht
  exact openSnapshot_filesOf hn hv hi hf ht hsha hkvs

/-- Lookups in the files of a tree find what a search in its pairs finds. -/
theorem get_openSnapshot {n version : ℕ} {t : Node Bytes Bytes} (hn : n < 2 ^ 64)
    (hv : version < 2 ^ 64) (hi : t.Inv n) (hf : Fits t) (ht : t.size < 2 ^ 32)
    (hsha : ∀ b, (sha256 b).length = sizeHash) (hsize : kvsSize t < maxFileSize) (key : Bytes) :
    ∃ s m, openSnapshot (filesOf version (t.stored sha256)) = .ok s ∧ s.root = some m ∧
      m.get s key = some (searchPair key (t.stored sha256).leaves) := by
  obtain ⟨s, hopen, -, hroot, w⟩ := openSnapshot_filesOf hn hv hi hf ht hsha hsize
  refine ⟨s, _, hopen, hroot, ?_⟩
  rw [StoredNode.leaves, Node.toNode_stored sha256 hi.ordered]
  exact w.get_eq key

/-- A tree is written when its pairs fit in a file, and the files written open as that
tree: from the root of the snapshot every node is reached with all its fields. -/
theorem snapshot_round_trip (hsha : ∀ b, (sha256 b).length = sizeHash) {n : ℕ} (version : ℕ)
    (root : Option (Node Bytes Bytes)) (hn : n < 2 ^ 64) (hv : version < 2 ^ 64)
    (hroot : ∀ t ∈ root, t.Inv n ∧ Fits t ∧ t.toList.length < 2 ^ 32) :
    ((∀ t ∈ root, kvsSize t < maxFileSize) →
        (writeSnapshot version (root.map (Node.stored sha256))).isSome) ∧
      ∀ f, writeSnapshot version (root.map (Node.stored sha256)) = some f →
        ∃ s, openSnapshot f = .ok s ∧ s.version = version ∧
          match root with
          | none => s.root = none
          | some t => ∃ m, s.root = some m ∧ Shows sha256 s m t := by
  rcases root with _ | t
  · refine ⟨fun _ => rfl, fun f hf => ?_⟩
    obtain rfl : (⟨[], [], [], metadataBytes version⟩ : Files) = f := Option.some.inj hf
    exact ⟨_, openSnapshot_ok (c := 0) rfl hv rfl rfl (by omega), rfl, rfl⟩
  · obtain ⟨hi, hf, hlen⟩ := hroot t rfl
    refine ⟨fun h => ?_, fun f hw => ?_⟩
    · exact Option.isSome_of_eq_some ((writeSnapshot_eq_some_iff version hi.balanced hlen hsha).mpr
        ⟨h t rfl, rfl⟩)
    · obtain ⟨s, hopen, hver, hm, w⟩ := openSnapshot_of_write hn hv hi hf hlen hsha hw
      exact ⟨s, hopen, hver, _, hm, w.shows⟩

/-- A leaf on the left, a branch on the right and an empty value. -/
def threeLeaves : Node Bytes Bytes :=
  .branch 2 3 5 [2] (.leaf 1 [1] [10]) (.branch 1 2 5 [3] (.leaf 5 [2] []) (.leaf 3 [3] [7]))

theorem threeLeaves_inv : threeLeaves.Inv 5 := by
  refine ⟨?_, ?_, ?_, le_rfl⟩
  · simp [threeLeaves, Node.Balanced, Node.size]
  · refine ⟨?_, rfl, trivial, ?_, rfl, trivial, trivial⟩ <;>
      simp only [Base.SortedPairs.Below, Node.toList] <;> decide
  · simp [threeLeaves, Node.Stamped, Node.version]

theorem snapshot_round_trip_threeLeaves :
    let sha256 : Bytes → Bytes := fun _ => List.replicate 32 0
    ∃ f s m, writeSnapshot 7 (some (threeLeaves.stored sha256)) = some f ∧ openSnapshot f = .ok s ∧
      s.root = some m ∧ Shows sha256 s m threeLeaves := by
  intro sha256
  have hfits : Fits threeLeaves := by simp [Fits, threeLeaves, Node.toList]
  have hsha : ∀ b, (sha256 b).length = sizeHash := fun _ => rfl
  obtain ⟨hw, hopen⟩ := snapshot_round_trip hsha (n := 5) 7 (some threeLeaves) (by decide) (by decide)
    (by rintro t ⟨⟩; exact ⟨threeLeaves_inv, hfits, by decide⟩)
  obtain ⟨f, hf⟩ := Option.isSome_iff_exists.mp (hw (by rintro t ⟨⟩; decide))
  obtain ⟨s, hs, -, m, hm, hshow⟩ := hopen f hf
  exact ⟨f, s, m, hf, hs, hm, hshow⟩

end

end IavlStore.Persist
