import IavlStore.Proto.Messages

/-! Every message is written into a buffer of its size without a panic, fills it, and is decoded
to itself, except that an empty value becomes nil. So the log and the metadata file hold what
was committed. -/

namespace IavlStore.Proto

open IavlStore.Base.Encoding IavlStore.Base.Wire IavlStore.Multi

/-! ### Change sets -/

theorem rereadPair_eq (m : KVPair) :
    rereadPair m = ⟨m.delete, m.key, if valueBytes m = [] then none else some (valueBytes m)⟩ := by
  obtain ⟨delete, key, _ | v⟩ := m
  · rfl
  · by_cases hv : v = []
    · simp [rereadPair, valueBytes, hv]
    · simp [rereadPair, valueBytes, hv]

theorem kvPair_codes (m : KVPair) :
    Codes kvPair.fields (kvPair.size m) (kvPair.write m) kvPair.zero (rereadPair m) := by
  have hdelete : Codes kvPair.fields (if m.delete then 2 else 0) (putIf m.delete (putByte 1 >=> putByte 0x8))
      ⟨false, [], none⟩ ⟨m.delete, [], none⟩ :=
    Codes.optional (fun h => codes_boolField 0x8 (by decide) rfl (by simp [h])) fun h => by simp [h]
  have hkey : Codes kvPair.fields _ (putIf (0 < m.key.length) (putBytesField 0x12 m.key))
      ⟨m.delete, [], none⟩ ⟨m.delete, m.key, none⟩ :=
    codes_optionalBytes 0x12 (by decide) rfl (fun _ => rfl) fun h => by rw [h]
  have hvalue : Codes kvPair.fields _ (putIf (0 < (valueBytes m).length) (putBytesField 0x1a (valueBytes m)))
      ⟨m.delete, m.key, none⟩ ⟨m.delete, m.key, if valueBytes m = [] then none else some (valueBytes m)⟩ :=
    codes_optionalBytes 0x1a (by decide) rfl (fun h => by rw [if_neg h]) fun h => by rw [if_pos h]
  rw [rereadPair_eq]
  exact hvalue.bind (hkey.bind hdelete)

theorem changeSet_codes (m cs : ChangeSet) :
    Codes changeSet.fields (changeSet.size m) (changeSet.write m) cs (cs ++ m.map rereadPair) :=
  Codes.elements id (fun e _ _ => (kvPair_codes e).messageField 0xa (by decide) rfl
    fun _ h => congrArg (Except.map _) h) cs

/-! ### Entries of the log -/

theorem namedChangeSet_codes (m : NamedChangeSet Bytes) :
    Codes namedChangeSet.fields (namedChangeSet.size m) (namedChangeSet.write m) namedChangeSet.zero
      { m with changeset := m.changeset.map rereadPair } := by
  have hchangeset : Codes namedChangeSet.fields _ (putMessageField 0xa (changeSet.marshalToSizedBuffer m.changeset))
      ⟨[], []⟩ ⟨[], m.changeset.map rereadPair⟩ :=
    (changeSet_codes m.changeset []).messageField 0xa (by decide) rfl fun _ h => congrArg (Except.map _) h
  have hname : Codes namedChangeSet.fields _ (putIf (0 < m.name.length) (putBytesField 0x12 m.name))
      ⟨[], m.changeset.map rereadPair⟩ ⟨m.name, m.changeset.map rereadPair⟩ :=
    codes_optionalBytes 0x12 (by decide) rfl (fun _ => rfl) fun h => by rw [h]
  exact hname.bind hchangeset

theorem renameFrom_eq {m : TreeNameUpgrade Bytes} (hm : m.renameFrom ≠ some []) :
    (if renameFromString m = [] then none else some (renameFromString m)) = m.renameFrom := by
  obtain ⟨name, _ | old, delete⟩ := m
  · rfl
  · exact if_neg fun h : old = [] => hm (congrArg some h)

/-- An old name is not the empty string, which stands for no name. -/
theorem treeNameUpgrade_codes {m : TreeNameUpgrade Bytes} (hm : m.renameFrom ≠ some []) :
    Codes treeNameUpgrade.fields (treeNameUpgrade.size m) (treeNameUpgrade.write m) treeNameUpgrade.zero m := by
  have hname : Codes treeNameUpgrade.fields _ (putIf (0 < m.name.length) (putBytesField 0xa m.name))
      ⟨[], none, false⟩ ⟨m.name, none, false⟩ :=
    codes_optionalBytes 0xa (by decide) rfl (fun _ => rfl) fun h => by rw [h]
  have hrename : Codes treeNameUpgrade.fields _
      (putIf (0 < (renameFromString m).length) (putBytesField 0x12 (renameFromString m)))
      ⟨m.name, none, false⟩ ⟨m.name, m.renameFrom, false⟩ :=
    codes_optionalBytes 0x12 (by decide) rfl (fun _ => by rw [← renameFrom_eq hm])
      fun h => by rw [← renameFrom_eq hm, if_pos h]
  have hdelete : Codes treeNameUpgrade.fields (if m.delete then 2 else 0)
      (putIf m.delete (putByte 1 >=> putByte 0x18)) ⟨m.name, m.renameFrom, false⟩ ⟨m.name, m.renameFrom, m.delete⟩ :=
    Codes.optional (fun h => codes_boolField 0x18 (by decide) rfl (by simp [h])) fun h => by simp [h]
  exact hdelete.bind (hrename.bind hname)

theorem walEntry_codes {m : WALEntry Bytes} (hm : ∀ u ∈ m.upgrades, u.renameFrom ≠ some []) (e : WALEntry Bytes) :
    Codes walEntry.fields (walEntry.size m) (walEntry.write m) e
      ⟨e.changesets ++ m.reread.changesets, e.upgrades ++ m.upgrades⟩ := by
  have hchangesets : Codes walEntry.fields _
      (fun b => m.changesets.foldrM (fun c => putMessageField 0xa (namedChangeSet.marshalToSizedBuffer c)) b)
      e ⟨e.changesets ++ m.reread.changesets, e.upgrades⟩ :=
    Codes.elements (fun cs => (⟨cs, e.upgrades⟩ : WALEntry Bytes))
      (fun c _ _ => (namedChangeSet_codes c).messageField 0xa (by decide) rfl fun _ h => congrArg (Except.map _) h) _
  have hupgrades : Codes walEntry.fields _
      (fun b => m.upgrades.foldrM (fun u => putMessageField 0x12 (treeNameUpgrade.marshalToSizedBuffer u)) b)
      ⟨e.changesets ++ m.reread.changesets, e.upgrades⟩
      ⟨e.changesets ++ m.reread.changesets, e.upgrades ++ m.upgrades.map id⟩ :=
    Codes.elements (fun us => (⟨e.changesets ++ m.reread.changesets, us⟩ : WALEntry Bytes))
      (fun u hu _ => (treeNameUpgrade_codes (hm u hu)).messageField 0x12 (by decide) rfl
        fun _ h => congrArg (Except.map _) h) _
  rw [List.map_id] at hupgrades
  exact hupgrades.bind hchangesets

/-- An entry is written to the log completely and read back from it with empty values turned into nil. -/
theorem walEntry_marshal_unmarshal {e : WALEntry Bytes} (hnames : ∀ u ∈ e.upgrades, u.renameFrom ≠ some [])
    (hsize : walEntry.size e < 2 ^ 63) :
    ∃ dAtA, walEntry.marshal e = some dAtA ∧ dAtA.length = walEntry.size e ∧
      walEntry.unmarshalNew dAtA = .ok e.reread :=
  (walEntry_codes hnames walEntry.zero).marshal_eq hsize

/-- An entry with an upgrade, an empty value and a deletion. -/
theorem walEntry_marshal_unmarshal_upgrade :
    let e : WALEntry Bytes := ⟨[⟨[97], [⟨false, [1], some []⟩, ⟨true, [2], none⟩]⟩], [⟨[97], some [98], false⟩]⟩
    ∃ dAtA, walEntry.marshal e = some dAtA ∧ dAtA.length = walEntry.size e ∧ walEntry.unmarshalNew dAtA = .ok e.reread :=
  walEntry_marshal_unmarshal (by decide) (by decide +kernel)

/-! ### The metadata file -/

theorem commitID_codes {m : CommitID} (hv : m.version < 2 ^ 64) :
    Codes commitID.fields (commitID.size m) (commitID.write m) commitID.zero m := by
  have hversion : Codes commitID.fields _ (putIf (m.version ≠ 0) (putVarintField 0x8 m.version))
      ⟨0, []⟩ ⟨m.version, []⟩ :=
    Codes.optional (fun _ => codes_varintField 0x8 (by decide) hv rfl rfl) fun h => by rw [not_not.mp h]
  have hhash : Codes commitID.fields _ (putIf (0 < m.hash.length) (putBytesField 0x12 m.hash))
      ⟨m.version, []⟩ ⟨m.version, m.hash⟩ :=
    codes_optionalBytes 0x12 (by decide) rfl (fun _ => rfl) fun h => by rw [h]
  exact hhash.bind hversion

theorem storeInfo_codes {m : StoreInfo Bytes} (hv : m.version < 2 ^ 64) :
    Codes storeInfo.fields (storeInfo.size m) (storeInfo.write m) storeInfo.zero m := by
  have hname : Codes storeInfo.fields _ (putIf (0 < m.name.length) (putBytesField 0xa m.name))
      ⟨[], 0, []⟩ ⟨m.name, 0, []⟩ :=
    codes_optionalBytes 0xa (by decide) rfl (fun _ => rfl) fun h => by rw [h]
  have hid : Codes storeInfo.fields _ (putMessageField 0x12 (commitID.marshalToSizedBuffer (commitIdOf m)))
      ⟨m.name, 0, []⟩ ⟨m.name, m.version, m.hash⟩ :=
    (commitID_codes (m := commitIdOf m) hv).messageField 0x12 (by decide) rfl fun _ h => congrArg (Except.map _) h
  exact hid.bind hname

theorem commitInfo_codes {m : CommitInfo Bytes} (hv : m.version < 2 ^ 64)
    (hs : ∀ info ∈ m.storeInfos, info.version < 2 ^ 64) :
    Codes commitInfo.fields (commitInfo.size m) (commitInfo.write m) commitInfo.zero m := by
  have hversion : Codes commitInfo.fields _ (putIf (m.version ≠ 0) (putVarintField 0x8 m.version))
      ⟨0, []⟩ ⟨m.version, []⟩ :=
    Codes.optional (fun _ => codes_varintField 0x8 (by decide) hv rfl rfl) fun h => by rw [not_not.mp h]
  have hinfos : Codes commitInfo.fields _
      (fun b => m.storeInfos.foldrM (fun e => putMessageField 0x12 (storeInfo.marshalToSizedBuffer e)) b)
      ⟨m.version, []⟩ ⟨m.version, [] ++ m.storeInfos.map id⟩ :=
    Codes.elements (fun infos => (⟨m.version, infos⟩ : CommitInfo Bytes))
      (fun e he _ => (storeInfo_codes (hs e he)).messageField 0x12 (by decide) rfl
        fun _ h => congrArg (Except.map _) h) _
  rw [List.map_id, List.nil_append] at hinfos
  exact hinfos.bind hversion

theorem multiTreeMetadata_codes {info : CommitInfo Bytes} (hv : info.version < 2 ^ 64)
    (hs : ∀ e ∈ info.storeInfos, e.version < 2 ^ 64) {initialVersion : ℕ} (hi : initialVersion < 2 ^ 64) :
    Codes multiTreeMetadata.fields (multiTreeMetadata.size ⟨some info, initialVersion⟩)
      (multiTreeMetadata.write ⟨some info, initialVersion⟩) multiTreeMetadata.zero ⟨some info, initialVersion⟩ := by
  have hinfo : Codes multiTreeMetadata.fields _ (putMessageField 0xa (commitInfo.marshalToSizedBuffer info))
      ⟨none, 0⟩ ⟨some info, 0⟩ :=
    (commitInfo_codes hv hs).messageField 0xa (by decide) rfl fun _ h => congrArg (Except.map _) h
  have hinitial : Codes multiTreeMetadata.fields _ (putIf (initialVersion ≠ 0) (putVarintField 0x10 initialVersion))
      ⟨some info, 0⟩ ⟨some info, initialVersion⟩ :=
    Codes.optional (fun _ => codes_varintField 0x10 (by decide) hi rfl rfl) fun h => by rw [not_not.mp h]
  exact hinitial.bind hinfo

inductive MetadataError where
  | unmarshal (e : DecodeError)
  /-- The commit info of the message is dereferenced without a check. -/
  | nilCommitInfo
  | negativeCommitInfoVersion (version : ℕ)
  | negativeInitialVersion (version : ℕ)
  deriving DecidableEq

def readMetadata (bz : Bytes) : Except MetadataError (CommitInfo Bytes × ℕ) := do
  let metadata ← (multiTreeMetadata.unmarshalNew bz).mapError .unmarshal
  match metadata.commitInfo with
  | none => .error .nilCommitInfo
  | some info =>
    if maxInt64 < info.version then .error (.negativeCommitInfoVersion info.version)
    else if maxInt64 < metadata.initialVersion then .error (.negativeInitialVersion metadata.initialVersion)
    else .ok (info, metadata.initialVersion)

/-- The message that `WriteSnapshot` puts into the metadata file. -/
def metadataOf (t : MultiTree Bytes) : MultiTreeMetadata := ⟨some t.lastCommitInfo, t.initialVersion⟩

/-- The metadata file of a multitree is read back. Its commit info is there, and only a version that is
negative as a signed number is refused. -/
theorem readMetadata_marshal {t : MultiTree Bytes} (hv : t.version < 2 ^ 64)
    (hs : ∀ e ∈ t.lastCommitInfo.storeInfos, e.version < 2 ^ 64) (hi : t.initialVersion < 2 ^ 64)
    (hsize : multiTreeMetadata.size (metadataOf t) < 2 ^ 63) :
    ∃ bz, multiTreeMetadata.marshal (metadataOf t) = some bz ∧ bz.length = multiTreeMetadata.size (metadataOf t) ∧
      readMetadata bz =
        if maxInt64 < t.version then .error (.negativeCommitInfoVersion t.version)
        else if maxInt64 < t.initialVersion then .error (.negativeInitialVersion t.initialVersion)
        else .ok (t.lastCommitInfo, t.initialVersion) := by
  obtain ⟨bz, hbz, hlen, hdec⟩ := (multiTreeMetadata_codes hv hs hi).marshal_eq hsize
  refine ⟨bz, hbz, hlen, ?_⟩
  simp only [readMetadata, hdec, Except.mapError, bind, Except.bind]
  rfl

theorem readMetadata_marshal_two_stores :
    let t : MultiTree Bytes := ⟨5, [], [], ⟨7, [⟨[97], 7, [1, 2]⟩, ⟨[98], 7, []⟩]⟩⟩
    ∃ bz, multiTreeMetadata.marshal (metadataOf t) = some bz ∧ bz.length = multiTreeMetadata.size (metadataOf t) ∧
      readMetadata bz =
        if maxInt64 < t.version then .error (.negativeCommitInfoVersion t.version)
        else if maxInt64 < t.initialVersion then .error (.negativeInitialVersion t.initialVersion)
        else .ok (t.lastCommitInfo, t.initialVersion) :=
  readMetadata_marshal (by decide) (by decide) (by decide) (by decide +kernel)

/-! ### Pairs of a query -/

theorem pair_codes (m : Pair) : Codes pair.fields (pair.size m) (pair.write m) pair.zero m := by
  have hkey : Codes pair.fields _ (putIf (0 < m.key.length) (putBytesField 0xa m.key)) ⟨[], []⟩ ⟨m.key, []⟩ :=
    codes_optionalBytes 0xa (by decide) rfl (fun _ => rfl) fun h => by rw [h]
  have hvalue : Codes pair.fields _ (putIf (0 < m.value.length) (putBytesField 0x12 m.value))
      ⟨m.key, []⟩ ⟨m.key, m.value⟩ :=
    codes_optionalBytes 0x12 (by decide) rfl (fun _ => rfl) fun h => by rw [h]
  exact hvalue.bind hkey

theorem pairs_codes (m ps : List Pair) : Codes pairs.fields (pairs.size m) (pairs.write m) ps (ps ++ m) := by
  have h : Codes pairs.fields (pairs.size m) (pairs.write m) ps (ps ++ m.map id) :=
    Codes.elements id (fun e _ _ => (pair_codes e).messageField 0xa (by decide) rfl
      fun _ h => congrArg (Except.map _) h) ps
  rwa [List.map_id] at h

end IavlStore.Proto
