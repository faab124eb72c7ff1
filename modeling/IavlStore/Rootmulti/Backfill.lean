import IavlStore.Db.Versions
import IavlStore.Rootmulti.QueryCache
import IavlStore.Rootmulti.Store

/-! The query cache after a load. The loaded version is added at once, and a background task
opens an older version and catches up with the log, adding one version after another. With
all entries in the log it adds every version from the one it was opened at on. -/

namespace IavlStore.Rootmulti

open IavlStore.Base.Encoding IavlStore.Base.SortedPairs IavlStore.Base.Journal IavlStore.Base.Runs
open IavlStore.Multi IavlStore.Db QueryDBCache

variable {N : Type} [LinearOrder N] {W : WalLog (WALEntry N)}

/-! ### The background task -/

/-- A task that has not opened the directory, or one that has: its log, its multitree and
the next version to add. -/
inductive Backfill (N : Type) (W : WalLog (WALEntry N)) where
  | started (initialVersion latestVersion : ℕ)
  | running (wal : W.Log) (mtree : MultiTree N) (next latestVersion : ℕ)

/-- An initial version above one is one more than a restored version or the first one to
commit. -/
def startVersion (cacheLimit : ℤ) (initialVersion latestVersion : ℕ) : ℕ :=
  let start := if cacheLimit < latestVersion then (latestVersion - cacheLimit + 1).toNat else 1
  if 1 < initialVersion ∧ start < max (initialVersion - 1) 1 then max (initialVersion - 1) 1 else start

/-- Open a version without writing to the directory. -/
def openReadOnly (sha256 : Bytes → Bytes) (target : ℕ) (disk : Disk N W) : Option (MultiTree N) :=
  if maxInt64 < target then none else (openVersion sha256 target disk).map Prod.snd

/-- Open the start version, or catch up to the next version. The task ends with the version
before the latest one, and on every error. -/
def backfillStep (sha256 : Bytes → Bytes) (opts : CacheOptions) (disk : Disk N W)
    (c : QueryDBCache (MultiTree N)) : Backfill N W → QueryDBCache (MultiTree N) × Option (Backfill N W)
  | .started initialVersion latest =>
    if cacheLimit opts ≤ 0 then (c, none)
    else
      let start := startVersion (cacheLimit opts) initialVersion latest
      match openReadOnly sha256 start disk with
      | none => (c, none)
      | some mtree =>
        (c.addHistoricalVersion opts mtree start, some (.running disk.wal mtree (start + 1) latest))
  | .running wal mtree next latest =>
    if next < latest then
      match mtree.catchupWAL sha256 W wal next with
      | none => (c, none)
      | some mtree => (c.addHistoricalVersion opts mtree next, some (.running wal mtree (next + 1) latest))
    else (c, none)

/-- The task alone, until it ends. -/
def loadQueryCache (sha256 : Bytes → Bytes) (opts : CacheOptions) (disk : Disk N W) :
    ℕ → QueryDBCache (MultiTree N) → Backfill N W → QueryDBCache (MultiTree N) × Option (Backfill N W)
  | 0, c, b => (c, some b)
  | n + 1, c, b =>
    match backfillStep sha256 opts disk c b with
    | (c, none) => (c, none)
    | (c, some b) => loadQueryCache sha256 opts disk n c b

/-! ### Loading -/

/-- The open database with the query cache and the background tasks. -/
structure CachedStore (N : Type) (W : WalLog (WALEntry N)) where
  world : World N W
  cache : QueryDBCache (MultiTree N)
  backfills : List (Backfill N W)

/-- Load a version with a new cache. The initial version is the one in the metadata of the
current snapshot. -/
def loadVersionAndUpgrade (sha256 : Bytes → Bytes) (opts : CacheOptions) (target : ℕ) (mounts : List N)
    (upgrades : StoreUpgrades N) (disk : Disk N W) (backfills : List (Backfill N W)) :
    Option (CachedStore N W) := do
  let s ← load sha256 target mounts upgrades disk
  let db ← s.world.db
  let metadata ← lookupPair s.world.disk.current s.world.disk.snapshots
  let version := db.working.mtree.version
  if 0 < version then
    some ⟨s.world, newQueryDBCache.addHistoricalVersion opts db.working.mtree version,
      .started metadata.initialVersion version :: backfills⟩
  else some ⟨s.world, newQueryDBCache, backfills⟩

variable {sha256 : Bytes → Bytes} {opts : CacheOptions} {disk : Disk N W} {target : ℕ}

theorem mtree_applyUpgrades_nil {d working : Working N} (h : d.applyUpgrades [] = (working, none)) :
    working.mtree = d.mtree := by
  rw [Working.applyUpgrades_nil] at h
  rw [(Prod.mk.inj h).1]

/-- A loaded store: the database after the upgrades, and the cache and the task of its version. -/
theorem loadVersionAndUpgrade_eq_some {mounts : List N} {upgrades : StoreUpgrades N}
    {backfills : List (Backfill N W)} {s : CachedStore N W}
    (h : loadVersionAndUpgrade sha256 opts target mounts upgrades disk backfills = some s) :
    ∃ dir t d working metadata, target ≤ maxInt64 ∧ openVersion sha256 target disk = some (dir, t) ∧
      initialWorking (sortNames mounts) t = (d, none) ∧
      d.applyUpgrades (treeUpgrades upgrades) = (working, none) ∧
      lookupPair disk.current disk.snapshots = some metadata ∧
      s.world = ⟨{ disk with currentTmp := none }, some (newDB working dir.commitInfo.version)⟩ ∧
      s.cache = newQueryDBCache.addHistoricalVersion opts working.mtree working.mtree.version ∧
      s.backfills = if 0 < working.mtree.version then
        .started metadata.initialVersion working.mtree.version :: backfills else backfills := by
  simp only [loadVersionAndUpgrade, Option.bind_eq_bind, Option.bind_eq_some_iff] at h
  obtain ⟨s₁, hl, db, hdb, metadata, hmeta, h⟩ := h
  obtain ⟨disk', db₀, working, -, hload, hu, -, rfl⟩ := load_eq_some hl
  obtain ⟨hmax, dir, t, d, ho, hd, heq⟩ := loadVersion_eq_some hload
  obtain ⟨rfl, hdb₀⟩ := World.mk.inj heq
  obtain rfl := Option.some.inj hdb₀
  obtain rfl := Option.some.inj hdb
  refine ⟨dir, t, d, working, metadata, hmax, ho, hd, hu, hmeta, ?_⟩
  split_ifs at h with hpos <;> obtain rfl := Option.some.inj h
  · exact ⟨rfl, rfl, (if_pos hpos).symm⟩
  · refine ⟨rfl, ?_, (if_neg hpos).symm⟩
    rw [addHistoricalVersion, if_pos (.inl (by simpa using hpos))]

/-! ### The start version -/

variable {v₀ iv n i j k : ℕ}

/-- The start version is at most the latest one, and no version within the limit is below. -/
theorem startVersion_spec {limit : ℤ} (hlim : 1 < limit) (hbase : v₀ = 0 ∨ v₀ + 1 = iv)
    (hpos : 0 < versionAt v₀ iv n) :
    let start := startVersion limit iv (versionAt v₀ iv n)
    0 < start ∧ start ≤ versionAt v₀ iv n ∧ iv ≤ start + 1 ∧ (versionAt v₀ iv n : ℤ) - limit < start ∧
      ∀ i, 0 < versionAt v₀ iv i → (versionAt v₀ iv n : ℤ) - limit + 1 ≤ versionAt v₀ iv i →
        start ≤ versionAt v₀ iv i := by
  have hlow : ∀ i, 0 < versionAt v₀ iv i → iv ≤ versionAt v₀ iv i + 1 := by
    intro i hi
    unfold versionAt at hi ⊢
    split_ifs at hi ⊢ <;> omega
  have hn := hlow n hpos
  generalize versionAt v₀ iv n = latest at hpos hn ⊢
  refine ⟨?_, ?_, ?_, ?_, fun i hi hle => ?_⟩
  · simp only [startVersion]
    split_ifs <;> omega
  · simp only [startVersion]
    split_ifs <;> omega
  · simp only [startVersion]
    split_ifs <;> omega
  · simp only [startVersion]
    split_ifs <;> omega
  · have hiv := hlow i hi
    simp only [startVersion]
    split_ifs <;> omega

/-! ### Adding versions within the limit -/

variable {h : History (MultiTree N) (WALEntry N)} {c : QueryDBCache (MultiTree N)}

/-- The cache holds the state of a version. -/
def Cached (v₀ iv : ℕ) (h : History (MultiTree N) (WALEntry N)) (c : QueryDBCache (MultiTree N)) (i : ℕ) :
    Prop :=
  lookupPair (versionAt v₀ iv i : ℤ) c.entries = some (h.state i)

/-- The cached versions are within the limit below the latest one and have the states of the
history. -/
structure Windowed (limit : ℤ) (v₀ iv : ℕ) (h : History (MultiTree N) (WALEntry N))
    (c : QueryDBCache (MultiTree N)) : Prop where
  inv : Inv limit c
  bounds : ∀ v ∈ c.seq, (versionAt v₀ iv h.log.length : ℤ) - limit < v ∧ v ≤ versionAt v₀ iv h.log.length
  sound : ∀ i ≤ h.log.length, ∀ t, lookupPair (versionAt v₀ iv i : ℤ) c.entries = some t → t = h.state i

omit [LinearOrder N] in
/-- An added version is found, and within the limit no other one is lost. -/
theorem Windowed.add (hw : Windowed (cacheLimit opts) v₀ iv h c) (hbase : v₀ = 0 ∨ v₀ + 1 = iv)
    (hi : i ≤ h.log.length) (hpos : 0 < versionAt v₀ iv i)
    (hlow : (versionAt v₀ iv h.log.length : ℤ) - cacheLimit opts < versionAt v₀ iv i) :
    let c' := c.addHistoricalVersion opts (h.state i) (versionAt v₀ iv i)
    Windowed (cacheLimit opts) v₀ iv h c' ∧ Cached v₀ iv h c' i ∧
      (∀ j, Cached v₀ iv h c j → Cached v₀ iv h c' j) ∧
      ∀ v : ℤ, v ≠ versionAt v₀ iv i → lookupPair v c'.entries = lookupPair v c.entries := by
  intro c'
  rcases hold : lookupPair (versionAt v₀ iv i : ℤ) c.entries with _ | t
  swap
  · -- the version is cached already
    have hsame : c' = c := if_pos (.inr (by rw [hold]; rfl))
    rw [hsame, Cached, hold, hw.sound i hi t hold]
    exact ⟨hw, rfl, fun _ hj => hj, fun _ _ => rfl⟩
  have hinv : Inv (cacheLimit opts) c' := hw.inv.addHistoricalVersion _ _
  have hmem : (versionAt v₀ iv i : ℤ) ∉ c.seq := by
    rw [hw.inv.keys, hold]
    simp
  have hpos : (0 : ℤ) < versionAt v₀ iv i := by exact_mod_cast hpos
  obtain ⟨gone, seq, hins, hseq, hfull, -, hlook, -⟩ := addHistoricalVersion_eq opts (h.state i) hpos hold
  have hbounds : ∀ v ∈ insertVersion (versionAt v₀ iv i : ℤ) c.seq,
      (versionAt v₀ iv h.log.length : ℤ) - cacheLimit opts < v ∧ v ≤ versionAt v₀ iv h.log.length := by
    intro v hv
    rcases (mem_insertVersion hw.inv.sorted hmem).mp hv with rfl | hv
    · exact ⟨hlow, by exact_mod_cast versionAt_mono hbase hi⟩
    · exact hw.bounds v hv
  have hgone : gone = [] := by
    by_contra hne
    have hlen := add_length_le (insertVersion_sorted hw.inv.sorted hmem) hbounds
      (by have := one_lt_cacheLimit opts; omega)
    rw [hins, List.length_append, Nat.cast_add, hfull hne] at hlen
    have : 0 < gone.length := List.length_pos_iff.mpr hne
    omega
  subst hgone
  simp only [List.not_mem_nil, if_false] at hlook
  refine ⟨⟨hinv, fun v hv => hbounds v ?_, fun j hj t ht => ?_⟩, ?_, fun j hj => ?_, fun v hne => ?_⟩
  · rw [hins]
    exact hseq ▸ hv
  · rw [hlook] at ht
    split_ifs at ht with heq
    · have hji : j = i := versionAt_inj hbase (by exact_mod_cast heq)
      rw [hji]
      exact (Option.some.inj ht).symm
    · exact hw.sound j hj t ht
  · rw [Cached, hlook, if_pos rfl]
  · rw [Cached, hlook]
    split_ifs with heq
    · have hji : j = i := versionAt_inj hbase (by exact_mod_cast heq)
      rw [hji]
    · exact hj
  · rw [hlook, if_neg hne]

/-! ### Catching up -/

/-- With all entries after a state, the task adds all later versions. -/
theorem loadQueryCache_running (hd : Directory v₀ iv h sha256 disk)
    (hc : h.Complete (MultiTree.entryStep sha256)) (hw : Windowed (cacheLimit opts) v₀ iv h c) (hjk : j ≤ k)
    (hk : k ≤ h.log.length) (hpos : 0 < versionAt v₀ iv j)
    (hlow : (versionAt v₀ iv h.log.length : ℤ) - cacheLimit opts < versionAt v₀ iv j)
    (hdr : W.dropped disk.wal ≤ k ∨ h.log.length ≤ k + 1) {fuel : ℕ} (hfuel : h.log.length < k + fuel)
    (hcached : ∀ i, j ≤ i → i ≤ k → Cached v₀ iv h c i) (hlast : Cached v₀ iv h c h.log.length) :
    ∃ c', loadQueryCache sha256 opts disk fuel c (.running disk.wal (h.state k) (versionAt v₀ iv k + 1)
        (versionAt v₀ iv h.log.length)) = (c', none) ∧
      ∀ i, j ≤ i → i ≤ h.log.length → Cached v₀ iv h c' i := by
  have hn := hd.numbered
  have hbase := hn.base
  induction fuel generalizing k c with
  | zero => omega
  | succ fuel ih =>
    have hnext := versionAt_next hbase (hpos.trans_le (versionAt_mono hbase hjk))
    rw [loadQueryCache, backfillStep, ← hnext]
    split_ifs with hlt
    · -- the next version is before the latest one, and its entry was not dropped
      have hk1 := lt_of_versionAt_lt hbase hlt
      have hnpos : 0 < versionAt v₀ iv (k + 1) := by omega
      have hend : endIndex W disk.wal (versionAt v₀ iv (k + 1)) (h.state k).initialVersion = k + 1 := by
        rw [endIndex, if_neg (by omega), hn.initialVersion k hk, walIndex_of_pos hn hk1.le hnpos]
      have hcat : (h.state k).catchupWAL sha256 W disk.wal (versionAt v₀ iv (k + 1)) =
          some (h.state (k + 1)) := by
        rw [catchupWAL_complete_to sha256 W hd.sound hc hd.holds (hn.nextIndex hk) (by omega)
          (by rw [hd.latest]; omega) (by rw [hend]; omega), hend, hd.latest, min_eq_left hk1.le]
      obtain ⟨hw', hnew, hkeep, -⟩ := hw.add hbase hk1.le hnpos
        (hlow.trans_le (by exact_mod_cast versionAt_mono hbase (by omega)))
      simp only [hcat]
      refine ih hw' (by omega) (by omega) (by omega) (by omega) (fun i hji hik => ?_) (hkeep _ hlast)
      rcases Nat.le_succ_iff.mp hik with hik | rfl
      · exact hkeep i (hcached i hji hik)
      · exact hnew
    · have hnk : h.log.length ≤ k + 1 :=
        le_of_versionAt_le hbase (not_lt.mp hlt)
      refine ⟨c, rfl, fun i hji hi => ?_⟩
      rcases Nat.lt_or_ge k i with hki | hik
      · rw [show i = h.log.length by omega]
        exact hlast
      · exact hcached i hji hik

end IavlStore.Rootmulti
