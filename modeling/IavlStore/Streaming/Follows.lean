import IavlStore.Streaming.Listeners

/-! The version database follows the history of the multistore. At the version of each state of
the history, a read of a store finds what the trees of that state hold. Within a block, the pairs
that the listener has collected lead from the last state to what the writes of the block come to,
so that the commit puts the right values. A rollback leaves later records behind, and the next
start takes them away before anything new is put. -/

namespace IavlStore.Streaming

open IavlStore.Base.Encoding IavlStore.Base.SortedPairs IavlStore.Base.Timestamps IavlStore.Base.Journal
open IavlStore.Multi IavlStore.Rootmulti
open IavlStore.VersionDb hiding History
open IavlStore.Db (DB World versionAt)

variable {L : RollbackLog (WALEntry Bytes)} {R : PlainRocksDB} {sha256 : Bytes → Bytes} {opts : Db.Options}

/-! ### The invariant -/

section Invariant
variable (name : Bytes) (exposedKeys : List Bytes) (iv c : ℕ) (h : History (MultiTree Bytes) (WALEntry Bytes))
  (opts : Db.Options) (sha256 : Bytes → Bytes)

/-- The records of the version database. The latest version is not below them, and it is zero
while nothing is committed. -/
structure Recorded (s : VersionDb.Store R.toRocksDB) : Prop where
  skip : s.skipVersionZero = false
  values : ∀ i ≤ h.log.length, ∀ key,
    valueAt (versionAt 0 iv i) name key s = lookupPair key ((h.state i).pairsOf name)
  positive : ∀ r ∈ R.records s.db, 0 < r.timestamp
  latest : ∃ latest : ℕ, s.getLatestVersion = some (latest : ℤ) ∧
    (∀ r ∈ R.records s.db, r.timestamp ≤ latest) ∧ (h.last.version = 0 → latest = 0)

/-- The block of an open database, and what its listeners have collected. -/
structure InBlock (stores : List (Bytes × ChangeSet)) (listeners : List (Bytes × List StoreKVPair))
    (versionDB : VersionDb.Store R.toRocksDB) (db : DB Bytes) : Prop where
  mounted : Mounted stores db
  stocked : db.working.mtree.Stocked
  tidy : Tidy exposedKeys listeners
  bounded : ∀ r ∈ R.records versionDB.db, r.timestamp ≤ h.last.version
  agrees : ∀ key, blockValue name key db.working.mtree stores = streamedValue name key h.last listeners

/-- A node whose version database follows the history of its multistore. -/
structure Follows (s : Node L R) : Prop where
  kept : Kept 0 iv h c opts sha256 s.store.world
  stocked : ∀ i ≤ h.log.length, (h.state i).Stocked
  recorded : Recorded name iv h s.versionDB
  block : ∀ db ∈ s.store.world.db, InBlock name exposedKeys h s.store.stores s.listeners s.versionDB db

/-- The states that were committed. -/
def states : List (MultiTree Bytes) := (List.range h.log.length).map fun i => h.state (i + 1)

end Invariant

variable {name : Bytes} {exposedKeys : List Bytes} {iv c : ℕ} {h : History (MultiTree Bytes) (WALEntry Bytes)}
  {stores : List (Bytes × ChangeSet)} {listeners : List (Bytes × List StoreKVPair)}
  {versionDB : VersionDb.Store R.toRocksDB} {disk : Db.Disk Bytes L.toWalLog} {db db' : DB Bytes}
  {world world' : World Bytes L.toWalLog} {es : List (Db.Event Bytes)} {s s' : Node L R} {n : ℤ}

theorem InBlock.congr (hin : InBlock name exposedKeys h stores listeners versionDB db)
    (hw : db'.working = db.working) (hidle : db'.phase = .idle) :
    InBlock name exposedKeys h stores listeners versionDB db' :=
  ⟨⟨hidle, hin.mounted.nodup, hw ▸ hin.mounted.names, hw ▸ hin.mounted.pending⟩, hw ▸ hin.stocked, hin.tidy,
    hin.bounded, hw ▸ hin.agrees⟩

/-- The other threads leave the block as it is. -/
theorem Follows.of_background (hk : Kept 0 iv h c opts sha256 world) (hdb : world.db = some db)
    (hb : background sha256 opts world es = some world')
    (hidle : db.phase = .idle ∨ ∀ db' ∈ world'.db, db'.phase = .idle)
    (hstocked : ∀ i ≤ h.log.length, (h.state i).Stocked) (hrec : Recorded name iv h versionDB)
    (hin : InBlock name exposedKeys h stores listeners versionDB { db with phase := .idle }) :
    ∃ c', Follows name exposedKeys iv c' h opts sha256 ⟨⟨world', stores⟩, listeners, n, versionDB⟩ := by
  obtain ⟨c', db', hdb', hk', hw, hsame⟩ := hk.background hdb hb
  refine ⟨c', hk', hstocked, hrec, fun d hd => ?_⟩
  obtain rfl := Option.some.inj (hdb'.symm.trans hd)
  exact hin.congr hw (hidle.elim hsame fun hall => hall db' hd)

/-! ### Starts -/

/-- Opening the version database at the version of the last state takes away what is above it. -/
theorem Recorded.setupVersionDB (hrec : Recorded name iv h versionDB) (hn : Db.Numbered 0 iv h)
    {history : VersionDb.History R}
    (hs : (⟨versionDB, []⟩ : VersionDb.History R).setupVersionDB (h.last.version : ℤ) = some history) :
    Recorded name iv h history.store ∧ ∀ r ∈ R.records history.store.db, r.timestamp ≤ h.last.version := by
  obtain ⟨latest, hl, hle, hzero⟩ := hrec.latest
  have hmax : h.last.version ≤ maxInt64 := by
    rw [History.last, hn.version _ le_rfl]
    exact hn.versionAt_le le_rfl
  rw [VersionDb.History.setupVersionDB_eq _ hl] at hs
  obtain rfl := Option.some.inj hs
  split_ifs with hahead
  · have hrecords : R.records (VersionDb.Store.newStoreAtVersion (h.last.version : ℤ) versionDB.db).db =
        (R.records versionDB.db).filter (·.timestamp ≤ h.last.version) := by
      rw [VersionDb.Store.newStoreAtVersion, VersionDb.Store.newStore, R.records_openAndTrimHistory,
        timestamp_natCast hmax]
    refine ⟨⟨rfl, fun i hi key => ?_, fun r hr => ?_, latest, ?_, fun r hr => ?_, hzero⟩, fun r hr => ?_⟩
    · have hvi : versionAt 0 iv i ≤ h.last.version := by
        rw [History.last, hn.version _ le_rfl]
        exact Db.versionAt_mono hn.base hi
      rw [← hrec.values i hi key, valueAt, valueAt]
      simp only [hrecords, read_filter hvi]
    · simp only [hrecords] at hr
      exact hrec.positive r (List.mem_of_mem_filter hr)
    · exact (VersionDb.History.getLatestVersion_newStoreAtVersion _ versionDB).trans hl
    · simp only [hrecords] at hr
      exact hle r (List.mem_of_mem_filter hr)
    · simp only [hrecords] at hr
      simpa using (List.mem_filter.mp hr).2
  · refine ⟨⟨rfl, hrec.values, hrec.positive, latest, hl, hle, hzero⟩, fun r hr => (hle r hr).trans ?_⟩
    rcases Nat.eq_zero_or_pos h.last.version with h0 | hpos
    · exact (hzero h0).le.trans (Nat.zero_le _)
    · have := not_and.mp hahead (by exact_mod_cast hpos)
      exact_mod_cast not_lt.mp this

theorem applyUpgrades_working {d d' : Db.Working Bytes} {us : List (TreeNameUpgrade Bytes)}
    (hu : d.applyUpgrades us = (d', none)) : d.mtree.applyUpgrades us = (d'.mtree, none) := by
  unfold Db.Working.applyUpgrades at hu
  rcases ht : d.mtree.applyUpgrades us with ⟨t, _ | err⟩ <;>
    simp only [ht, Prod.mk.injEq, reduceCtorEq, and_false] at hu
  obtain ⟨rfl, -⟩ := hu
  rfl

/-- A load keeps the pairs of a store that its upgrades spare. -/
theorem contents_load (hk : Kept 0 iv h c opts sha256 ⟨disk, none⟩) (hstocked : h.last.Stocked)
    {mounts : List Bytes} {upgrades : StoreUpgrades Bytes} {store : Rootmulti.Store Bytes L.toWalLog}
    (hl : load sha256 0 mounts upgrades disk = some store) (hdb : store.world.db = some db)
    (hspare : ∀ u ∈ treeUpgrades upgrades, MultiTree.Spares name u) :
    db.working.mtree.Stocked ∧ db.working.mtree.pairsOf name = h.last.pairsOf name ∧ store.stores = mounts.map (·, []) := by
  obtain ⟨disk', db₀, working, hnd, hload, hu, -, rfl⟩ := load_eq_some hl
  obtain rfl := Option.some.inj hdb
  obtain ⟨-, hw⟩ := hk.inv.loadVersion hk.snapshots (.inl rfl) hload
  obtain hw : db₀.working = (Db.initialWorking (sortNames mounts) h.last).1 := Option.some.inj hw
  have hnone : (Db.initialWorking (sortNames mounts) h.last).2 = none :=
    hk.inv.numbered.initialWorking ((List.perm_insertionSort _ _).nodup_iff.mpr hnd)
  have hinit : db₀.working.mtree.Stocked ∧ db₀.working.mtree.pairsOf name = h.last.pairsOf name := by
    have heq : Db.initialWorking (sortNames mounts) h.last = (db₀.working, none) := Prod.ext hw.symm hnone
    unfold Db.initialWorking at heq
    split_ifs at heq
    · obtain ⟨hst, hpairs⟩ := hstocked.applyUpgrades (applyUpgrades_working heq)
      refine ⟨hst, hpairs name fun u hu => ?_⟩
      obtain ⟨m, -, rfl⟩ := List.mem_map.mp hu
      exact ⟨by simp, fun _ => ⟨rfl, rfl⟩⟩
    · rw [← (Prod.mk.inj heq).1]
      exact ⟨hstocked, rfl⟩
  obtain ⟨hst, hpairs⟩ := hinit.1.applyUpgrades (applyUpgrades_working hu)
  exact ⟨hst, (hpairs name hspare).trans hinit.2, rfl⟩

theorem Follows.start (hf : Follows name exposedKeys iv c h opts sha256 s) {mounts : List Bytes}
    {upgrades : StoreUpgrades Bytes} (hspare : ∀ u ∈ treeUpgrades upgrades, MultiTree.Spares name u)
    (hs : Streaming.start sha256 opts exposedKeys mounts upgrades es s = some s') :
    ∃ c', Follows name exposedKeys iv c' h opts sha256 s' := by
  simp only [Streaming.start, Option.bind_eq_bind, Option.bind_eq_some_iff] at hs
  obtain ⟨⟨store, info⟩, hstep, db', hdb', history, hsetup, heq⟩ := hs
  obtain rfl := Option.some.inj heq
  obtain ⟨⟨⟨disk, _⟩, stores⟩, listeners, n, versionDB⟩ := s
  cases answers_of_step sha256 opts hstep with
  | @load _ _ _ _ _ store₀ world hl hb =>
    obtain ⟨db, hdb, hk, hm, -⟩ := hf.kept.load (.inl rfl) hl
    obtain ⟨hst, hpairs, hstores⟩ := contents_load hf.kept (hf.stocked _ le_rfl) hl hdb hspare
    obtain ⟨c₁, db₁, hdb₁, hk₁, -, -⟩ := hk.background hdb hb
    obtain rfl := Option.some.inj (hdb₁.symm.trans hdb')
    have hn := hk.inv.numbered
    have hver : db₁.working.mtree.version = h.last.version := by
      rw [((hk₁.inv.db _ hdb₁).working.fields hn).2.2.1, History.last, hn.version _ le_rfl]
    simp only [hver] at hsetup
    obtain ⟨hrec, hbounded⟩ := hf.recorded.setupVersionDB hn hsetup
    refine Follows.of_background hk hdb hb (.inl hm.idle) hf.stocked hrec
      ⟨⟨rfl, hm.nodup, hm.names, hm.pending⟩, hst, tidy_addListeners exposedKeys, hbounded, fun key => ?_⟩
    rw [blockValue_of_cleared (by simp [hstores]), streamedValue, listened_addListeners, hpairs]
    rfl

/-! ### Calls -/

theorem stocked_newEmptyMultiTree (v : ℕ) : (MultiTree.newEmptyMultiTree v : MultiTree Bytes).Stocked :=
  ⟨⟨List.Pairwise.nil, rfl⟩, by simp [MultiTree.newEmptyMultiTree]⟩

/-- Before the first commit the history starts over with the new initial version. -/
theorem Follows.setInitialVersion
    (hf : Follows name exposedKeys iv c h opts sha256 ⟨⟨⟨disk, some db⟩, stores⟩, listeners, n, versionDB⟩)
    {v : ℕ} (hiv : db.working.mtree.trees = [] ∨ db.working.mtree.initialVersion ≤ 1 ∨
      v = db.working.mtree.initialVersion) (hv : Db.setInitialVersion v disk db = some world)
    (hb : background sha256 opts world es = some world') :
    h.log = [] ∧ ∃ c', Follows name exposedKeys v c' ⟨[], fun _ => MultiTree.newEmptyMultiTree v⟩ opts sha256
      ⟨⟨world', stores⟩, listeners, n, versionDB⟩ := by
  have hin := hf.block db rfl
  obtain ⟨db', hdb', hk', hm', hmtree⟩ := hf.kept.setInitialVersion hin.mounted hiv hv
  obtain ⟨t, hset, -⟩ := Db.setInitialVersion_eq_some hv
  obtain ⟨-, h0, hempty, -⟩ := MultiTree.setInitialVersion_eq_ok hset
  have hn := hf.kept.inv.numbered
  have hlast0 : h.last.version = 0 := by
    rw [History.last, hn.version _ le_rfl, ← (hf.kept.inv.db_inv.working.fields hn).2.2.1, h0]
  obtain ⟨hnil, hlast⟩ := hn.last_of_version_zero hlast0
  obtain ⟨hst, hpairs⟩ := hin.stocked.assignInitialVersion v hempty
  obtain ⟨latest, hl, hle, hzero⟩ := hf.recorded.latest
  refine ⟨hnil, Follows.of_background hk' hdb' hb (.inl hm'.idle) (fun _ _ => stocked_newEmptyMultiTree v)
    ⟨hf.recorded.skip, fun i hi key => ?_, hf.recorded.positive, latest, hl, hle, fun _ => hzero hlast0⟩
    ⟨⟨rfl, hm'.nodup, hm'.names, hm'.pending⟩, hmtree ▸ hst, hin.tidy, fun r hr => ?_, fun key => ?_⟩⟩
  · obtain rfl := Nat.le_zero.mp hi
    exact valueAt_zero hf.recorded.positive key
  · exact (hin.bounded r hr).trans hlast0.le
  · rw [blockValue, hmtree, hpairs, ← blockValue, hin.agrees key, streamedValue, streamedValue, hlast]
    rfl

/-- A write and its listener. -/
theorem Follows.write
    (hf : Follows name exposedKeys iv c h opts sha256 ⟨⟨⟨disk, some db⟩, stores⟩, listeners, n, versionDB⟩)
    (hname : name ∈ exposedKeys) {name' : Bytes} (hmem : name' ∈ stores.map Prod.fst) (key : Bytes)
    (value : Option Bytes) (delete : Bool) (hb : background sha256 opts ⟨disk, some db⟩ es = some world) :
    ∃ c', Follows name exposedKeys iv c' h opts sha256
      ⟨⟨world, addPair name' ⟨delete, key, value⟩ stores⟩, onWrite name' key value delete listeners, n, versionDB⟩ := by
  have hin := hf.block db rfl
  have hm := hin.mounted
  refine Follows.of_background hf.kept rfl hb (.inl hm.idle) hf.stocked hf.recorded
    ⟨⟨rfl, ?_, ?_, hm.pending⟩, hin.stocked, hin.tidy.onWrite _ _ _ _, hin.bounded, fun k => ?_⟩
  · rw [map_fst_addPair]
    exact hm.nodup
  · rw [map_fst_addPair]
    exact hm.names
  · exact blockValue_addPair hm.nodup hmem hin.tidy hname (hin.agrees k) key value delete

theorem Follows.flush
    (hf : Follows name exposedKeys iv c h opts sha256 ⟨⟨⟨disk, some db⟩, stores⟩, listeners, n, versionDB⟩)
    (hflush : Rootmulti.flush db stores = some db') :
    Kept 0 iv h c opts sha256 ⟨disk, some db'⟩ ∧
      InBlock name exposedKeys h (clearStores stores) listeners versionDB db' ∧
      db'.working.mtree.version = db.working.mtree.version ∧
      db'.working.mtree.initialVersion = db.working.mtree.initialVersion := by
  have hin := hf.block db rfl
  obtain ⟨hk, hm, hr, hver, hiv⟩ := hf.kept.flush hin.mounted hflush
  have hmtree : db'.working.mtree = (db.working.mtree.applyChangeSets (popChangeSets stores)).1 :=
    congrArg Replica.mtree hr
  obtain ⟨hst, hblock⟩ := blockValue_flush name hin.stocked hin.mounted.names
  rw [← hmtree] at hst hblock
  exact ⟨hk, ⟨hm, hst, hin.tidy, hin.bounded, fun key => (hblock key).trans (hin.agrees key)⟩, hver, hiv⟩

theorem Follows.workingHash
    (hf : Follows name exposedKeys iv c h opts sha256 ⟨⟨⟨disk, some db⟩, stores⟩, listeners, n, versionDB⟩)
    (hflush : Rootmulti.flush db stores = some db') (hb : background sha256 opts ⟨disk, some db'⟩ es = some world) :
    ∃ c', Follows name exposedKeys iv c' h opts sha256 ⟨⟨world, clearStores stores⟩, listeners, n, versionDB⟩ := by
  obtain ⟨hk, hin, -, -⟩ := hf.flush hflush
  exact Follows.of_background hk rfl hb (.inl hin.mounted.idle) hf.stocked hf.recorded (hin.congr rfl rfl)

/-- The commit of a block puts what the block came to at the new version. -/
theorem Recorded.putAtVersion (hrec : Recorded name iv h versionDB)
    (hin : InBlock name exposedKeys h stores listeners versionDB db) (hstores : ∀ w ∈ stores, w.2 = [])
    (hplain : ∀ key ∈ exposedKeys, PlainName key) (hname : name ∈ exposedKeys) {entry : WALEntry Bytes}
    {t : MultiTree Bytes} (hn : Db.Numbered 0 iv (h.push entry t))
    (ht : t.pairsOf name = db.working.mtree.pairsOf name) :
    Recorded name iv (h.push entry t) (versionDB.putAtVersion (t.version : ℤ) (popStateCache listeners).1) ∧
      ∀ r ∈ R.records (versionDB.putAtVersion (t.version : ℤ) (popStateCache listeners).1).db,
        r.timestamp ≤ t.version := by
  have hlen := h.length_log_push entry t
  have hv : t.version = versionAt 0 iv (h.log.length + 1) := by
    have := hn.version _ le_rfl
    rwa [← History.last, History.last_push, hlen] at this
  have hmax : t.version ≤ maxInt64 := by
    rw [hv, ← hlen]
    exact hn.versionAt_le le_rfl
  have hlast : h.last.version = versionAt 0 iv h.log.length := by
    have := hn.version h.log.length (by simp)
    rwa [History.state_push_of_le entry t le_rfl] at this
  have hlt : h.last.version < t.version := by
    rw [hlast, hv]
    exact Db.versionAt_lt hn.base (Nat.lt_succ_self _)
  have hbound : ∀ r ∈ R.records (versionDB.putAtVersion (t.version : ℤ) (popStateCache listeners).1).db,
      r.timestamp ≤ t.version := by
    intro r hr
    rcases timestamp_of_mem_putAtVersion hmax hr with hr | hr
    · exact (hin.bounded r hr).trans hlt.le
    · exact hr.le
  refine ⟨⟨hrec.skip, fun i hi key => ?_, fun r hr => ?_, t.version, ?_, hbound, fun h0 => ?_⟩, hbound⟩
  · rw [hlen] at hi
    rcases Nat.lt_succ_iff_lt_or_eq.mp (Nat.lt_succ_of_le hi) with hold | rfl
    · have hi' : i ≤ h.log.length := Nat.lt_succ_iff.mp hold
      have hvi : versionAt 0 iv i < t.version := by
        rw [hv]
        exact Db.versionAt_lt hn.base hold
      rw [valueAt_putAtVersion_of_lt hmax hvi, hrec.values i hi' key, History.state_push_of_le entry t hi']
    · -- the new version sees the pairs of the listener after the last state
      have hstate : (h.push entry t).state (h.log.length + 1) = t := by
        rw [← hlen]
        exact h.last_push entry t
      have hplain' : ∀ p ∈ (popStateCache listeners).1, PlainName p.storeKey :=
        fun p hp => hplain _ (storeKey_of_mem_popStateCache hin.tidy hp)
      rw [hstate, ht, ← hv, valueAt_putAtVersion hmax (fun r hr => (hin.bounded r hr).trans hlt.le) hplain'
        (hplain name hname) le_rfl, filter_popStateCache hin.tidy, valueAt_congr hin.bounded hlt.le, hlast,
        hrec.values _ le_rfl, ← History.last, ← streamedValue, ← hin.agrees key, blockValue_of_cleared hstores]
  · rcases timestamp_of_mem_putAtVersion hmax hr with hr | hr
    · exact hrec.positive r hr
    · exact hr ▸ (Nat.zero_le _).trans_lt hlt
  · exact VersionDb.Store.getLatestVersion_putAtVersion (by unfold maxInt64 at hmax; omega) _ _
  · rw [History.last_push] at h0
    omega

theorem states_push (entry : WALEntry Bytes) (t : MultiTree Bytes) : states (h.push entry t) = states h ++ [t] := by
  have hstate : (h.push entry t).state (h.log.length + 1) = t := by
    rw [← h.length_log_push entry t]
    exact h.last_push entry t
  rw [states, History.length_log_push, List.range_succ, List.map_append, List.map_singleton, hstate, states]
  congr 1
  apply List.map_congr_left
  intro i hi
  exact History.state_push_of_le entry t (List.mem_range.mp hi)

/-- A commit adds a state, and the version database follows. -/
theorem Follows.commit
    (hf : Follows name exposedKeys iv c h opts sha256 ⟨⟨⟨disk, some db⟩, stores⟩, listeners, n, versionDB⟩)
    (hplain : ∀ key ∈ exposedKeys, PlainName key) (hname : name ∈ exposedKeys)
    (hmax : nextVersion db.working.mtree.version db.working.mtree.initialVersion ≤ maxInt64)
    (hnumber : n = nextVersion db.working.mtree.version db.working.mtree.initialVersion)
    (hflush : Rootmulti.flush db stores = some db') {t : MultiTree Bytes} {world₀ : World Bytes L.toWalLog}
    (hc : Db.commit sha256 opts disk db' = some (world₀, t)) (hb : background sha256 opts world₀ es = some world)
    (hidle : ∀ d ∈ world.db, d.phase = .idle) :
    (world.db.map fun d => d.working.mtree) = some t ∧ ∃ h' c', states h' = states h ++ [t] ∧
      Follows name exposedKeys iv c' h' opts sha256
        ⟨⟨world, clearStores stores⟩, (popStateCache listeners).2, n,
          versionDB.putAtVersion n (popStateCache listeners).1⟩ := by
  obtain ⟨hk, hin, hver, hiv⟩ := hf.flush hflush
  obtain ⟨hsave, hnames, hk₁, db₁, hdb₁, hw₁⟩ := hk.commit hc (by rw [hver, hiv]; exact hmax)
  obtain ⟨hst, hpairs⟩ := hin.stocked.saveVersion hsave
  have hn : n = (t.version : ℤ) := by
    rw [hnumber, (MultiTree.saveVersion_fields hsave).1, hver, hiv]
  obtain ⟨hrec, hbounded⟩ := hf.recorded.putAtVersion hin (by simp [clearStores]) hplain hname hk₁.inv.numbered
    (hpairs name)
  obtain ⟨-, db₂, hdb₂, -, hw₂, -⟩ := hk₁.background hdb₁ hb
  rw [← hn] at hrec hbounded
  have hstocked : ∀ i ≤ (h.push db'.working.pendingLog t).log.length,
      ((h.push db'.working.pendingLog t).state i).Stocked := by
    intro i hi
    by_cases hle : i ≤ h.log.length
    · rw [History.state_push_of_le _ t hle]
      exact hf.stocked i hle
    · rw [show (h.push db'.working.pendingLog t).state i = t from if_neg hle]
      exact hst
  have hblock : InBlock name exposedKeys (h.push db'.working.pendingLog t) (clearStores stores)
      (popStateCache listeners).2 (versionDB.putAtVersion n (popStateCache listeners).1)
      { db₁ with phase := .idle } := by
    refine ⟨⟨rfl, hin.mounted.nodup, ?_, ?_⟩, hw₁ ▸ hst, hin.tidy.popStateCache, ?_, fun key => ?_⟩
    · rw [hw₁, hnames]
      exact hin.mounted.names
    · simp [hw₁, Db.emptyEntry]
    · rw [History.last_push]
      exact hbounded
    · rw [blockValue_of_cleared (by simp [clearStores]), streamedValue, listened_popStateCache, History.last_push, hw₁]
      rfl
  obtain ⟨c', hf'⟩ := Follows.of_background hk₁ hdb₁ hb (.inr hidle) hstocked hrec hblock
  exact ⟨by rw [hdb₂, Option.map_some, hw₂, hw₁], _, c', states_push _ t, hf'⟩

end IavlStore.Streaming
