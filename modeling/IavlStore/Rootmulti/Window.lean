import IavlStore.Db.Rollback
import IavlStore.Rootmulti.Backfill

/-! The window of versions that queries can read after a restart. The background load starts
from what the limit of the cache and the initial version give. When there is no snapshot
below that version, or it was never committed, nothing is added, also where later versions
could be loaded. -/

namespace IavlStore.Rootmulti

open IavlStore.Base.Encoding IavlStore.Base.SortedPairs IavlStore.Base.Journal IavlStore.Base.Runs
open IavlStore.Multi IavlStore.Db QueryDBCache

variable {N : Type} [LinearOrder N] {W : WalLog (WALEntry N)} {sha256 : Bytes → Bytes} {opts : CacheOptions}
  {disk : Disk N W} {v₀ iv : ℕ} {h : History (MultiTree N) (WALEntry N)} {c : QueryDBCache (MultiTree N)}

/-! ### The window -/

/-- The version is within the limit of the cache, and some snapshot is not above it. -/
def InWindow (limit : ℤ) (disk : Disk N W) (latest v : ℕ) : Prop :=
  0 < v ∧ (latest : ℤ) - limit + 1 ≤ v ∧ ∃ w ∈ disk.versions, w ≤ v

/-- The start version was committed or restored, and the log has the entry after the snapshot
it is opened from, unless there is nothing to replay. -/
def Reaches (start latest iv : ℕ) (h : History (MultiTree N) (WALEntry N)) (disk : Disk N W) : Prop :=
  (∃ i ≤ h.log.length, (h.state i).version = start) ∧
    ∃ v ∈ seekSnapshot start disk, v < start ∨ start + 1 < latest →
      (W.read disk.wal (walIndex (nextVersion v iv) iv)).isSome

omit [LinearOrder N] in
/-- The cache with only the latest version. -/
theorem windowed_latest (opts : CacheOptions) (hbase : v₀ = 0 ∨ v₀ + 1 = iv)
    (hpos : 0 < versionAt v₀ iv h.log.length) :
    let c := newQueryDBCache.addHistoricalVersion opts h.last (versionAt v₀ iv h.log.length)
    Windowed (cacheLimit opts) v₀ iv h c ∧ Cached v₀ iv h c h.log.length ∧
      ∀ v : ℤ, v ≠ versionAt v₀ iv h.log.length → lookupPair v c.entries = none := by
  have hlim := one_lt_cacheLimit opts
  have hnew : Windowed (cacheLimit opts) v₀ iv h newQueryDBCache :=
    ⟨.new (by omega), by simp [newQueryDBCache], fun i _ t ht => by simp [newQueryDBCache] at ht⟩
  obtain ⟨hw, hlast, -, hother⟩ := hnew.add hbase le_rfl hpos (by omega)
  exact ⟨hw, hlast, hother⟩

/-- A version up to the latest one is opened as its state, or it cannot be reached. -/
theorem openReadOnly_cases (hd : Directory v₀ iv h sha256 disk) (hc : h.Complete (MultiTree.entryStep sha256))
    {start : ℕ} (hpos : 0 < start) (hle : start ≤ versionAt v₀ iv h.log.length) (hiv : iv ≤ start + 1)
    (latest : ℕ) :
    (∃ i j, i ≤ j ∧ j ≤ h.log.length ∧ versionAt v₀ iv j = start ∧
      seekSnapshot start disk = some (versionAt v₀ iv i) ∧ (i = j ∨ W.dropped disk.wal ≤ i) ∧
      openReadOnly sha256 start disk = some (h.state j)) ∨
    ¬ Reaches start latest iv h disk ∧ openReadOnly sha256 start disk = none := by
  have hn := hd.numbered
  have hmax : ¬ maxInt64 < start := not_lt.mpr (hle.trans (hn.versionAt_le le_rfl))
  by_cases hj : ∃ j ≤ h.log.length, (h.state j).version = start
  · obtain ⟨j, hj, rfl⟩ := hj
    rw [hn.version j hj] at *
    rcases hs : seekSnapshot (versionAt v₀ iv j) disk with _ | v
    · refine .inr ⟨?_, ?_⟩
      · rintro ⟨-, v, hv, -⟩
        rw [hs] at hv
        cases hv
      · rw [openReadOnly, if_neg hmax, openVersion, if_pos hpos, hs]
        rfl
    · obtain ⟨hmem, hvs, -⟩ := seekSnapshot_eq_some hs
      obtain ⟨i, -, hvi, hseek, hdir⟩ := hd.seek ⟨v, hmem, hvs⟩
      have hij := le_of_versionAt_le hn.base hvi
      rw [openReadOnly, if_neg hmax, hd.openVersion_eq hc hj hpos hij hseek hdir]
      by_cases hdr : i = j ∨ W.dropped disk.wal ≤ i
      · rw [if_pos hdr]
        exact .inl ⟨i, j, hij, hj, rfl, hs.symm.trans hseek, hdr, rfl⟩
      · refine .inr ⟨?_, by rw [if_neg hdr]; rfl⟩
        rintro ⟨-, w, hw, hread⟩
        obtain rfl := Option.some.inj (hseek.symm.trans hw)
        have hlt : versionAt v₀ iv i < versionAt v₀ iv j := versionAt_lt hn.base (by omega)
        exact hdr (.inr ((hd.next_isSome (hij.trans hj)).mp (hread (.inl hlt))).1)
  · refine .inr ⟨fun hr => hj hr.1, ?_⟩
    rw [openReadOnly, if_neg hmax]
    rcases ho : openVersion sha256 start disk with _ | ⟨dir, t⟩
    · rfl
    · obtain ⟨i, hi, hv, -⟩ := (hd.exact hpos (not_lt.mp hmax) (.inl hiv) ho []).2
        (by rw [History.last, hn.version _ le_rfl]; exact hle)
      exact absurd ⟨i, hi, hv⟩ hj

section Started
variable {fuel latest : ℕ}

theorem loadQueryCache_of_none
    (ho : openReadOnly sha256 (startVersion (cacheLimit opts) iv latest) disk = none) :
    loadQueryCache sha256 opts disk (fuel + 1) c (.started iv latest) = (c, none) := by
  have hlim := one_lt_cacheLimit opts
  rw [loadQueryCache, backfillStep, if_neg (by omega)]
  simp only [ho]

theorem loadQueryCache_of_some {t : MultiTree N}
    (ho : openReadOnly sha256 (startVersion (cacheLimit opts) iv latest) disk = some t) :
    loadQueryCache sha256 opts disk (fuel + 1) c (.started iv latest) =
      loadQueryCache sha256 opts disk fuel
        (c.addHistoricalVersion opts t (startVersion (cacheLimit opts) iv latest))
        (.running disk.wal t (startVersion (cacheLimit opts) iv latest + 1) latest) := by
  have hlim := one_lt_cacheLimit opts
  rw [loadQueryCache, backfillStep, if_neg (by omega)]
  simp only [ho]

theorem loadQueryCache_stops {wal : W.Log} {t : MultiTree N} {next : ℕ}
    (ht : t.catchupWAL sha256 W wal next = none) :
    loadQueryCache sha256 opts disk (fuel + 1) c (.running wal t next latest) = (c, none) := by
  rw [loadQueryCache, backfillStep]
  split_ifs
  · simp only [ht]
  · rfl

end Started

/-- After the task the whole window is cached exactly when the start version can be opened and
caught up from, or the window has only the latest version. -/
theorem loadQueryCache_window (opts : CacheOptions) (hd : Directory v₀ iv h sha256 disk)
    (hc : h.Complete (MultiTree.entryStep sha256)) {latest start : ℕ}
    (hlatest : latest = versionAt v₀ iv h.log.length) (hpos : 0 < latest)
    (hstart : start = startVersion (cacheLimit opts) iv latest) :
    ∃ c, loadQueryCache sha256 opts disk (latest + 2) (newQueryDBCache.addHistoricalVersion opts h.last latest)
        (.started iv latest) = (c, none) ∧
      ((∀ i ≤ h.log.length, InWindow (cacheLimit opts) disk latest (versionAt v₀ iv i) → Cached v₀ iv h c i) ↔
        Reaches start latest iv h disk ∨ ∀ i ≤ h.log.length,
          InWindow (cacheLimit opts) disk latest (versionAt v₀ iv i) → versionAt v₀ iv i = latest) := by
  subst hlatest
  have hlim := one_lt_cacheLimit opts
  have hn := hd.numbered
  have hbase := hn.base
  obtain ⟨hw, hlast, hnone⟩ := windowed_latest opts hbase hpos
  obtain ⟨hspos, hsle, hsiv, hslow, hsmin⟩ := startVersion_spec hlim hbase hpos
  rw [← hstart] at hspos hsle hsiv hslow hsmin
  rcases openReadOnly_cases hd hc hspos hsle hsiv (versionAt v₀ iv h.log.length) with
    ⟨i, j, hij, hj, rfl, hseek, hdr, ho⟩ | ⟨hno, ho⟩
  · rw [loadQueryCache_of_some (hstart ▸ ho), ← hstart]
    obtain ⟨hw', hnew, hkeep, hold⟩ := hw.add hbase hj hspos hslow
    have hnext := versionAt_next hbase hspos
    by_cases hall : W.dropped disk.wal ≤ j ∨ h.log.length ≤ j + 1
    · have hreach : Reaches (versionAt v₀ iv j) (versionAt v₀ iv h.log.length) iv h disk := by
        refine ⟨⟨j, hj, hn.version j hj⟩, _, hseek, fun hlt => (hd.next_isSome (hij.trans hj)).mpr ?_⟩
        rcases hlt with hlt | hlt
        · have hlt := lt_of_versionAt_lt hbase hlt
          exact ⟨hdr.resolve_left (by omega), by omega⟩
        · rw [← hnext] at hlt
          have hlt := lt_of_versionAt_lt hbase hlt
          exact ⟨by omega, by omega⟩
      have hfuel : h.log.length < j + (versionAt v₀ iv h.log.length + 1) := by
        have hle := le_versionAt v₀ iv h.log.length
        omega
      obtain ⟨c, hrun, hcached⟩ := loadQueryCache_running hd hc hw' le_rfl hj hspos hslow hall hfuel
        (fun k hjk hkj => le_antisymm hjk hkj ▸ hnew) (hkeep _ hlast)
      refine ⟨c, hrun, fun _ => .inl hreach, fun _ k hk hin => hcached k ?_ hk⟩
      exact le_of_versionAt_le hbase (hsmin k hin.1 hin.2.1)
    · -- the version after the start is missing
      push Not at hall
      obtain rfl : i = j := hdr.resolve_right (by omega)
      have hlt := versionAt_lt hbase hall.2
      have hcat := catchupWAL_of_lt_dropped sha256 W (versionAt v₀ iv i + 1) (hn.nextIndex hj)
        (by rw [hd.latest]; omega) hall.1
      have hwin : InWindow (cacheLimit opts) disk (versionAt v₀ iv h.log.length)
          (versionAt v₀ iv (i + 1)) := by
        obtain ⟨hmem, -, -⟩ := seekSnapshot_eq_some hseek
        exact ⟨by omega, by omega, _, hmem, by omega⟩
      refine ⟨_, loadQueryCache_stops hcat, fun hcached => ?_, ?_⟩
      · have hmiss := hcached (i + 1) hall.2.le hwin
        rw [Cached, hold _ (by omega), hnone _ (by omega)] at hmiss
        cases hmiss
      · rintro (⟨-, v, hv, hread⟩ | hone)
        · obtain rfl := Option.some.inj (hseek.symm.trans hv)
          have := (hd.next_isSome hj).mp (hread (.inr (by omega)))
          omega
        · have := hone (i + 1) hall.2.le hwin
          omega
  · rw [loadQueryCache_of_none (hstart ▸ ho)]
    refine ⟨_, rfl, fun hall => .inr fun i hi hin => ?_, ?_⟩
    · by_contra hne
      have hcached := hall i hi hin
      rw [Cached, hnone _ (by exact_mod_cast hne)] at hcached
      cases hcached
    · rintro (hr | hone) i hi hin
      · exact absurd hr hno
      · exact versionAt_inj hbase (hone i hi hin) ▸ hlast

/-- A directory of one history is loaded at its last state. -/
theorem loadVersionAndUpgrade_last (hd : Directory v₀ iv h sha256 disk) (hpos : 0 < h.last.version)
    {mounts : List N} {s : CachedStore N W}
    (hl : loadVersionAndUpgrade sha256 opts 0 mounts .none disk [] = some s) :
    s.world.disk = { disk with currentTmp := none } ∧
      s.cache = newQueryDBCache.addHistoricalVersion opts h.last h.last.version ∧
      s.backfills = [.started iv h.last.version] := by
  have hn := hd.numbered
  obtain ⟨dir, t, d, working, metadata, -, ho, hinit, hu, hmeta, hworld, hcache, hback⟩ :=
    loadVersionAndUpgrade_eq_some hl
  obtain ⟨v, t₀, -, hdir, ht₀, ht⟩ := openVersion_eq_some ho
  rw [replayTo, if_pos (.inl rfl)] at ht
  obtain ⟨i, hi, heq⟩ := hd.snapshots _ (pair_mem_of_lookupPair hdir)
  obtain ⟨-, rfl⟩ := Prod.mk.inj heq
  rw [hn.load_writeSnapshot hi] at ht₀
  obtain rfl := Option.some.inj ht₀
  have hlast : t = h.last := by
    rcases catchupWAL_to sha256 W hd.sound hd.holds (hn.nextIndex hi) ht with ⟨hle, rfl⟩ | ⟨-, rfl⟩
    · rw [hd.latest] at hle
      rw [le_antisymm hi hle]
      rfl
    · rw [endIndex, if_pos rfl, min_self, hd.latest]
      rfl
  subst hlast
  rw [initialWorking_of_pos hpos] at hinit
  obtain ⟨rfl, -⟩ := Prod.mk.inj hinit
  have hwork : working.mtree = h.last := mtree_applyUpgrades_nil hu
  have hiv : metadata.initialVersion = iv := by
    obtain ⟨k, hk, heq⟩ := hd.snapshots _ (pair_mem_of_lookupPair hmeta)
    obtain ⟨-, rfl⟩ := Prod.mk.inj heq
    exact hn.initialVersion k hk
  rw [hwork] at hcache hback
  rw [if_pos hpos, hiv] at hback
  exact ⟨congrArg World.disk hworld, hcache, hback⟩

/-- The versions in the cache after a load and its background task. -/
def cachedVersions (sha256 : Bytes → Bytes) (opts : CacheOptions) (mounts : List N) (disk : Disk N W) :
    Option (List ℤ) := do
  let s ← loadVersionAndUpgrade sha256 opts 0 mounts .none disk []
  let db ← s.world.db
  let task ← s.backfills.head?
  some (loadQueryCache sha256 opts s.world.disk (db.working.mtree.version + 2) s.cache task).1.seq

end IavlStore.Rootmulti
