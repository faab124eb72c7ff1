import IavlStore.Db.Import
import IavlStore.Db.Numbers
import IavlStore.Multi.Upgrades

/-! The version of a closed database without loading it. The last index of the log and the
initial version of the current snapshot give the version that a load reaches, whatever was
set, committed, rewritten, pruned, rolled back or imported before. There is one exception:
an initial version that was set and not yet committed is counted as if the version before
it existed, while a load reports version zero. -/

namespace IavlStore.Db

open IavlStore.Base.Encoding IavlStore.Base.SortedPairs IavlStore.Base.Runs IavlStore.Tree IavlStore.Multi

variable {N : Type} [LinearOrder N]

/-- Zero when there is no current snapshot, an error when its metadata holds a negative version. -/
def getLatestVersion {W : WalLog (WALEntry N)} (disk : Disk N W) : Option ℕ :=
  match lookupPair disk.current disk.snapshots with
  | none => some 0
  | some dir =>
    if maxInt64 < dir.commitInfo.version ∨ maxInt64 < dir.initialVersion then none
    else some (walVersion (W.lastIndex disk.wal) dir.initialVersion)

variable {R : RollbackLog (WALEntry N)} {sha256 : Bytes → Bytes} {opts : Options}

/-! ### The machine with rollbacks and imports -/

inductive AdminEvent (N : Type) where
  | event (e : VersionEvent N)
  | rollback (target : ℕ) (initialStores : List N)
  | failedRollback (target : ℕ)
  | restore (height : ℕ) (roots : List (N × Option (Node Bytes Bytes)))

/-- A rollback that fails to cut the log has already moved the `current` link. -/
def adminStep (sha256 : Bytes → Bytes) (opts : Options) (s : World N R.toWalLog) :
    AdminEvent N → Option (World N R.toWalLog × Reply N)
  | .event e => versionStep sha256 opts s e
  | .rollback target stores =>
    match s.db with
    | none => do some (← loadForOverwriting sha256 target stores s.disk, .nothing)
    | some _ => none
  | .failedRollback target =>
    match s.db with
    | none => do
      let (_, mtree) ← openVersion sha256 target s.disk
      let version ← seekSnapshot target s.disk
      if (R.truncateBack s.disk.wal (walIndex target mtree.initialVersion)).isSome then none
      else some (⟨{ s.disk with current := version, currentTmp := none }, none⟩, .nothing)
    | some _ => none
  | .restore height roots =>
    match s.db with
    | none => do some (⟨← restoreDir sha256 height roots s.disk, none⟩, .nothing)
    | some _ => none

/-- Nothing is killed and version numbers do not overflow. An import finds only snapshots that
it removes; the log may hold entries. -/
def Probeable (s : World N R.toWalLog) : AdminEvent N → Prop
  | .event (.event (.kill _)) => False
  | .event (.event .commit) => ∀ db ∈ s.db,
    nextVersion db.working.mtree.version db.working.mtree.initialVersion ≤ maxInt64
  | .restore height _ =>
    height + R.lastIndex s.disk.wal < maxInt64 ∧ ∀ p ∈ s.disk.snapshots, p.1 < height
  | _ => True

instance (s : World N R.toWalLog) : (e : AdminEvent N) → Decidable (Probeable s e)
  | .event (.event (.kill _)) => .isFalse id
  | .event (.event .commit) => inferInstanceAs (Decidable (∀ db ∈ s.db, _ ≤ _))
  | .restore height _ => inferInstanceAs (Decidable (_ < _ ∧ ∀ p ∈ s.disk.snapshots, p.1 < height))
  | .event (.event (.load _)) | .event (.event (.setInitialVersion _)) | .event (.event (.applyUpgrades _))
  | .event (.event (.applyChangeSets _)) | .event (.event .finish) | .event (.event .await)
  | .event (.event .switch) | .event (.event (.receive _)) | .event (.event .write) | .event (.event .rewrite)
  | .event (.event .rewriteFail) | .event (.event (.prune _)) | .event (.event .close)
  | .event (.loadVersion _ _) | .rollback _ _ | .failedRollback _ => .isTrue trivial

/-! ### What a run keeps -/

/-- Snapshots have the names of their versions, and before the first commit the log is empty
and nothing is rewritten. -/
structure ProbeInv (v₀ iv n : ℕ) (opts : Options) (s : World N R.toWalLog) : Prop where
  numbers : Numbers v₀ iv n False opts s
  named : ∀ p ∈ s.disk.snapshots, p.1 = p.2.commitInfo.version
  fresh : ∀ db ∈ s.db, db.working.mtree.version = 0 → R.lastIndex s.disk.wal = 0 ∧ db.rewrite = none

variable {v₀ iv n k : ℕ} {s s' : World N R.toWalLog} {disk : Disk N R.toWalLog} {db : DB N} {o : Reply N}

omit [LinearOrder N] in
theorem DBNumbers.version_pos (h : DBNumbers v₀ iv n k False opts disk db) (hk : 0 < k) :
    0 < db.working.mtree.version := by
  rw [h.working.1, versionAt, if_neg (by omega)]
  omega

/-- A load that ends at version zero has found an empty log. -/
theorem Numbers.lastIndex_of_loadVersion (h : Numbers v₀ iv n False opts ⟨disk, none⟩) {target : ℕ}
    {stores : List N} {disk' : Disk N R.toWalLog}
    (hl : Db.loadVersion sha256 target stores disk = some ⟨disk', some db⟩)
    (h0 : db.working.mtree.version = 0) : R.lastIndex disk.wal = 0 := by
  obtain ⟨-, dir, t, working, ho, hw, heq⟩ := loadVersion_eq_some hl
  obtain ⟨v, t₀, -, hdir, ht₀, hrep⟩ := openVersion_eq_some ho
  obtain ⟨i, hi, hat⟩ := h.dirs _ (pair_mem_of_lookupPair hdir) t₀ ht₀
  have hv : t.version = 0 := by
    cases heq
    rw [← version_initialWorking stores t, hw]
    exact h0
  have hlast : R.lastIndex disk.wal ≤ n := (h.closed rfl).le
  unfold replayTo at hrep
  split_ifs at hrep with hcase
  · rcases hat.catchupWAL h.range hi hlast hrep with ⟨hle, rfl⟩ | ⟨hlt, ht⟩
    · have hzero := hat.1.symm.trans hv
      unfold versionAt at hzero
      split_ifs at hzero <;> omega
    · have hpos := ht.1.symm.trans hv
      rw [versionAt, if_neg (by omega)] at hpos
      omega
  · obtain rfl := Option.some.inj hrep
    omega

theorem Numbers.versions_of_zero (h : Numbers v₀ iv n False opts ⟨disk, some db⟩)
    (h0 : db.working.mtree.version = 0) : v₀ = 0 ∧ DBNumbers v₀ iv n 0 False opts disk db := by
  obtain ⟨k, hdb⟩ := h.db db rfl
  rcases Nat.eq_zero_or_pos k with rfl | hpos
  · exact ⟨hdb.working.1.symm.trans h0, hdb⟩
  · exact absurd h0 (hdb.version_pos hpos).ne'

namespace ProbeInv

variable (h : ProbeInv v₀ iv n opts s)
include h

/-- Loads of any version. -/
theorem loadVersion (hclosed : s.db = none) {target : ℕ} {stores : List N}
    (hl : Db.loadVersion sha256 target stores s.disk = some s') : ProbeInv v₀ iv n opts s' := by
  obtain ⟨disk, _⟩ := s
  obtain rfl : _ = none := hclosed
  have hn : Numbers v₀ iv n False opts s' := h.numbers.loadVersion False.elim hl
  obtain ⟨-, dir, t, working, -, -, rfl⟩ := loadVersion_eq_some hl
  refine ⟨hn, h.named, fun db hdb h0 => ?_⟩
  obtain rfl := Option.some.inj hdb
  exact ⟨h.numbers.lastIndex_of_loadVersion hl h0, rfl⟩

/-- The initial version is set before the first commit. All there is is the empty snapshot. -/
theorem setInitialVersion {v : ℕ} (hs : s = ⟨disk, some db⟩) (hf : Db.setInitialVersion v disk db = some s')
    (hphase : db.phase = .idle) : ProbeInv 0 v 0 opts s' := by
  subst hs
  obtain ⟨t, hset, rfl⟩ := setInitialVersion_eq_some hf
  obtain ⟨hv, hv0, -, rfl⟩ := MultiTree.setInitialVersion_eq_ok hset
  obtain ⟨hlast, hrw⟩ := h.fresh db rfl hv0
  obtain ⟨rfl, hdb⟩ := h.numbers.versions_of_zero hv0
  have hqueue : db.batch ++ db.walChan = [] := List.length_eq_zero_iff.mp (Nat.le_zero.mp hdb.length)
  have hrange : InRange 0 v 0 := ⟨.inl rfl, hv, Nat.zero_le _⟩
  refine ⟨⟨hrange, fun p hp t ht => ?_, fun d hd => ?_, by simp⟩, fun p hp => ?_, ?_⟩
  · obtain ⟨hver, hiv⟩ := loadMultiTree_fields ht
    rcases List.mem_cons.mp hp with rfl | hp
    · exact ⟨0, le_rfl, hver, hiv⟩
    · obtain ⟨hp, hne⟩ := List.mem_filter.mp hp
      obtain ⟨i, hi, hat⟩ := h.numbers.dirs p hp t ht
      have hn : n = 0 := by rw [hdb.top, hlast]; rfl
      obtain rfl : i = 0 := by omega
      have hzero : p.1 = 0 := by
        rw [h.named p hp, ← hver, hat.1]
        rfl
      simp [hzero] at hne
  · obtain rfl := Option.some.inj hd
    refine ⟨0, ⟨hv0, rfl⟩, fun _ => hdb.snapshotVersion hlast, ?_, ?_, ?_, False.elim, ?_, fun _ => hqueue,
      .of_idle hphase, fun r hr => ?_⟩
    · simp [hqueue]
    · simp [hqueue]
    · exact Nat.zero_le _
    · simp [hlast]
    · rw [hrw] at hr
      cases hr
  · rcases List.mem_cons.mp hp with rfl | hp
    · rfl
    · exact h.named p (List.mem_of_mem_filter hp)
  · intro d hd _
    obtain rfl := Option.some.inj hd
    exact ⟨hlast, hrw⟩

/-- After a rollback the log ends with the target, and no snapshot is newer. -/
theorem rollback (hclosed : s.db = none) {target : ℕ} {stores : List N}
    (hl : loadForOverwriting sha256 target stores s.disk = some s') : ∃ n', ProbeInv v₀ iv n' opts s' := by
  rcases Nat.eq_zero_or_pos target with rfl | hpos
  · have hl' : Db.loadVersion sha256 0 stores s.disk = some s' := (loadVersion_zero stores).trans hl
    exact ⟨n, h.loadVersion hclosed hl'⟩
  obtain ⟨disk, _⟩ := s
  obtain rfl : _ = none := hclosed
  have hrange := h.numbers.range
  have hlast := h.numbers.closed rfl
  obtain ⟨hmax, dir, t, v, wal, working, ho, hseek, hwal, hw, rfl⟩ := loadForOverwriting_eq_some hpos hl
  obtain ⟨v', t₀, hv', hdir, ht₀, hrep⟩ := openVersion_eq_some ho
  obtain ⟨i, hi, hat⟩ := h.numbers.dirs _ (pair_mem_of_lookupPair hdir) t₀ ht₀
  have hdirv : v' = t₀.version := (h.named _ (pair_mem_of_lookupPair hdir)).trans (loadMultiTree_fields ht₀).1.symm
  obtain ⟨-, hvle, -⟩ := seekSnapshot_eq_some (hv' hpos)
  obtain ⟨-, -, -, hiv⟩ := UpTo.replayTo hrange ⟨i, hi, hat⟩ hlast.le hrep
  rw [hiv] at hwal
  obtain ⟨hdr, hle, hcut⟩ := RollbackLog.lastIndex_truncateBack hwal
  have htarget := hrange.versionAt_walIndex hmax (by omega) (hle.trans hlast.le)
  generalize walIndex target iv = k at hdr hle hcut htarget
  have ht : AtVersion v₀ iv k t := by
    subst htarget
    exact hat.replayTo hrange hi hlast.le hle hpos (by rw [← hat.1, ← hdirv]; exact hvle) hrep
  have hworking : AtVersion v₀ iv k working.mtree := by
    have hinit := atVersion_initialWorking ht stores
    rwa [hw] at hinit
  refine ⟨k, ⟨⟨hrange.base, hrange.iv_le, htarget.trans_le hmax⟩, fun p hp t' ht' => ?_, fun d hd => ?_,
    by simp⟩, fun p hp => h.named p (List.mem_of_mem_filter hp), fun d hd h0 => ?_⟩
  · obtain ⟨hp, hple⟩ := List.mem_filter.mp hp
    obtain ⟨j, -, hj⟩ := h.numbers.dirs p hp t' ht'
    refine ⟨j, le_of_versionAt_le hrange.base ?_, hj⟩
    rw [← hj.1, (loadMultiTree_fields ht').1, ← h.named p hp, htarget]
    simpa using hple
  · obtain rfl := Option.some.inj hd
    refine ⟨k, .newDB hworking le_rfl (fun h0 => ?_) hcut False.elim⟩
    exact absurd (hcut.symm.trans h0) (by omega)
  · obtain rfl := Option.some.inj hd
    have hv : working.mtree.version = 0 := h0
    rw [hworking.1] at hv
    omega

/-- A failed rollback changes the current snapshot only. -/
theorem failedRollback (hclosed : s.db = none) (v : ℕ) :
    ProbeInv v₀ iv n opts ⟨{ s.disk with current := v, currentTmp := none }, none⟩ :=
  ⟨⟨h.numbers.range, h.numbers.dirs, by simp, fun _ => h.numbers.closed hclosed⟩, h.named, by simp⟩

omit h in
/-- An import leaves its own snapshot only. The entries in the log count from its height on. -/
theorem restore {height : ℕ} {roots : List (N × Option (Node Bytes Bytes))} {disk' : Disk N R.toWalLog}
    (hf : restoreDir sha256 height roots s.disk = some disk')
    (hlt : height + R.lastIndex s.disk.wal < maxInt64) (hold : ∀ p ∈ s.disk.snapshots, p.1 < height) :
    ProbeInv height (height + 1) (R.lastIndex s.disk.wal) opts ⟨disk', none⟩ := by
  obtain ⟨-, -, -, -, rfl⟩ := restoreDir_eq_some hf
  have hsnap : (s.disk.snapshots.filter fun p => height ≤ p.1) = [] := by
    refine List.filter_eq_nil_iff.mpr fun p hp => ?_
    simpa using hold p hp
  have hversion : versionAt height (height + 1) (R.lastIndex s.disk.wal) ≤ maxInt64 := by
    unfold versionAt
    split_ifs <;> omega
  refine ⟨⟨⟨.inr rfl, by omega, hversion⟩, fun p hp t ht => ?_, by simp, fun _ => rfl⟩, fun p hp => ?_, by simp⟩
  · rw [hsnap, List.nil_append, List.mem_singleton] at hp
    subst hp
    obtain ⟨hver, hiv⟩ := loadMultiTree_fields ht
    exact ⟨0, Nat.zero_le _, hver, hiv⟩
  · rw [hsnap, List.nil_append, List.mem_singleton] at hp
    subst hp
    rfl

/-- Before the first commit nothing is queued, and no commit is under way. -/
theorem fresh_of_step {e : Event N} (hs : Db.step sha256 opts s e = some (s', o))
    (hc : Probeable s (.event (.event e))) :
    ∀ db ∈ s'.db, db.working.mtree.version = 0 → R.lastIndex s'.disk.wal = 0 ∧ db.rewrite = none := by
  intro db' hdb' h0
  have hrange := h.numbers.range
  cases fires_of_step hs with
  | load hl =>
    rw [← loadVersion_zero] at hl
    exact (h.loadVersion rfl hl).fresh db' hdb' h0
  | kill | close => cases hdb'
  | receive hf =>
    have hold := h.fresh _ rfl
    obtain ⟨-, rfl⟩ := receive_eq_some hf
    obtain rfl := Option.some.inj hdb'
    exact hold h0
  | write hf =>
    have hold := h.numbers.versions_of_zero (by
      rcases write_eq_some hf with ⟨wal, -, rfl⟩ | ⟨-, rfl⟩ <;> obtain rfl := Option.some.inj hdb' <;> exact h0)
    have hqueue := List.length_eq_zero_iff.mp (Nat.le_zero.mp hold.2.length)
    simp [Db.write, (List.append_eq_nil_iff.mp hqueue).1] at hf
  | rewrite hr hf =>
    obtain rfl := Option.some.inj hdb'
    cases hr.symm.trans (h.fresh _ rfl h0).2
  | rewriteFail hr hcan =>
    obtain rfl := Option.some.inj hdb'
    cases hr.symm.trans (h.fresh _ rfl h0).2
  | prune hp hf =>
    obtain rfl := Option.some.inj hdb'
    obtain ⟨hlast, -⟩ := disk_pruneStep hf
    obtain ⟨hzero, hrw⟩ := h.fresh _ rfl h0
    exact ⟨hlast.trans hzero, hrw⟩
  | finish hf =>
    obtain rfl := Option.some.inj hdb'
    obtain ⟨k, hdb⟩ := h.numbers.db _ rfl
    obtain ⟨v, hp, -⟩ := finish_eq_some hf
    obtain ⟨hpos, -⟩ := hdb.phase.1 v (by rw [hp]; rfl)
    exact absurd h0 ((hdb.finish hf).version_pos hpos).ne'
  | await hf =>
    obtain rfl := Option.some.inj hdb'
    obtain ⟨k, hdb⟩ := h.numbers.db _ rfl
    obtain ⟨v, t, sv, hp, -⟩ := await_eq_some hf
    obtain ⟨hpos, -⟩ := hdb.phase.1 v (by rw [hp]; rfl)
    exact absurd h0 ((hdb.await hf).version_pos hpos).ne'
  | switch hf =>
    obtain rfl := Option.some.inj hdb'
    obtain ⟨k, hdb⟩ := h.numbers.db _ rfl
    obtain ⟨v, t, sv, hp, -⟩ := switch_eq_some hf
    obtain ⟨hpos, -⟩ := hdb.phase.1 v (by rw [hp]; rfl)
    exact absurd h0 ((hdb.switch hrange hf).version_pos hpos).ne'
  | setInitialVersion hp hf =>
    exact (h.setInitialVersion rfl hf hp).fresh db' hdb' h0
  | applyUpgrades hp =>
    obtain rfl := Option.some.inj hdb'
    obtain ⟨k, hdb⟩ := h.numbers.db _ rfl
    have hold := h.fresh _ rfl
    exact hold (hdb.working.1.trans ((atVersion_applyUpgrades hdb.working _).1.symm.trans h0))
  | applyChangeSets hp =>
    obtain rfl := Option.some.inj hdb'
    obtain ⟨k, hdb⟩ := h.numbers.db _ rfl
    have hold := h.fresh _ rfl
    exact hold (hdb.working.1.trans ((atVersion_applyChangeSets hdb.working _).1.symm.trans h0))
  | commit hp hf =>
    obtain ⟨k, hdb⟩ := h.numbers.db _ rfl
    obtain ⟨hsave, hcases⟩ := commit_eq_some hf
    have ht := hdb.working.saveVersion hrange hdb.le.2 hsave
    have hpos : 0 < versionAt v₀ iv (k + 1) := by
      rw [versionAt_succ]
      omega
    have hv : db'.working.mtree.version = versionAt v₀ iv (k + 1) := by
      rcases hcases with ⟨-, rfl⟩ | ⟨-, wal, -, rfl⟩ <;> obtain rfl := Option.some.inj hdb' <;> exact ht.1
    omega

/-- The events of the plain machine. -/
theorem event {e : Event N} (hs : Db.step sha256 opts s e = some (s', o))
    (hc : Probeable s (.event (.event e))) : ∃ v₀ iv n, ProbeInv v₀ iv n opts s' := by
  by_cases hset : ∃ v, e = .setInitialVersion v
  · obtain ⟨v, rfl⟩ := hset
    cases fires_of_step hs with
    | setInitialVersion hp hf => exact ⟨0, v, 0, h.setInitialVersion rfl hf hp⟩
  have hb : Bounded s (.event e) := by
    cases e with
    | setInitialVersion v => exact absurd ⟨v, rfl⟩ hset
    | kill | commit => exact hc
    | load | applyUpgrades | applyChangeSets | finish | await | switch | receive | write | rewrite | rewriteFail
    | prune | close => trivial
  obtain ⟨n', hn⟩ := h.numbers.step (e := .event e) hs hb False.elim
  refine ⟨v₀, iv, n', hn, fun p hp => ?_, h.fresh_of_step hs hc⟩
  rcases snapshots_of_step hs p hp with hp | ⟨db, t, -, -, rfl⟩ | ⟨v, rfl, -⟩
  · exact h.named p hp
  · rfl
  · exact absurd ⟨v, rfl⟩ hset

/-- Every step keeps the numbers, with a new start after an import. -/
theorem step {e : AdminEvent N} (hs : adminStep sha256 opts s e = some (s', o)) (hc : Probeable s e) :
    ∃ v₀ iv n, ProbeInv v₀ iv n opts s' := by
  cases e with
  | event e =>
    cases e with
    | event e => exact h.event hs hc
    | loadVersion target stores =>
      rcases hdb : s.db with _ | db <;> simp only [adminStep, versionStep, hdb, reduceCtorEq] at hs
      simp only [Option.bind_eq_bind, Option.bind_eq_some_iff] at hs
      obtain ⟨s₁, hl, heq⟩ := hs
      cases heq
      exact ⟨v₀, iv, n, h.loadVersion hdb hl⟩
  | rollback target stores =>
    rcases hdb : s.db with _ | db <;> simp only [adminStep, hdb, reduceCtorEq] at hs
    simp only [Option.bind_eq_bind, Option.bind_eq_some_iff] at hs
    obtain ⟨s₁, hl, heq⟩ := hs
    cases heq
    obtain ⟨n', h'⟩ := h.rollback hdb hl
    exact ⟨v₀, iv, n', h'⟩
  | failedRollback target =>
    rcases hdb : s.db with _ | db <;> simp only [adminStep, hdb, reduceCtorEq] at hs
    simp only [Option.bind_eq_bind, Option.bind_eq_some_iff] at hs
    obtain ⟨r, -, v, -, heq⟩ := hs
    split_ifs at heq
    cases heq
    exact ⟨v₀, iv, n, h.failedRollback hdb v⟩
  | restore height roots =>
    rcases hdb : s.db with _ | db <;> simp only [adminStep, hdb, reduceCtorEq] at hs
    simp only [Option.bind_eq_bind, Option.bind_eq_some_iff] at hs
    obtain ⟨disk', hf, heq⟩ := hs
    cases heq
    exact ⟨_, _, _, restore hf hc.1 hc.2⟩

end ProbeInv

/-! ### The probe -/

theorem Origin.probeInv {base : MultiTree N} (hb : Origin base) :
    ProbeInv base.version base.initialVersion 0 opts (R := R) ⟨freshDisk R.toWalLog base, none⟩ := by
  refine ⟨hb.numbers, fun p hp => ?_, by simp⟩
  obtain rfl := List.mem_singleton.mp hp
  rfl

/-- The version of the last entry, unless there is none. -/
theorem InRange.walVersion_eq_iff (hr : InRange v₀ iv n) :
    walVersion n iv = versionAt v₀ iv n ↔ n ≠ 0 ∨ versionAt v₀ iv n ≠ 0 ∨ iv ≤ 1 := by
  have hiv := hr.iv_le
  have hle := hr.index_le le_rfl
  have hbase := hr.base
  unfold maxInt64 at hiv hle
  unfold walVersion versionAt
  split_ifs <;> omega

/-- In every such run, the probe of a closed database gives the version that a load
returns, unless the log is empty, the version is zero and an initial version was set. -/
theorem getLatestVersion_iff {base : MultiTree N} (hb : Origin base) {es : List (AdminEvent N)}
    {os : List (Reply N)}
    (ha : Along (adminStep sha256 opts) Probeable ⟨freshDisk R.toWalLog base, none⟩ es)
    (he : exec (adminStep sha256 opts) ⟨freshDisk R.toWalLog base, none⟩ es = some (s, os))
    (hclosed : s.db = none) (stores : List N) {disk' : Disk N R.toWalLog}
    (hl : load sha256 stores s.disk = some ⟨disk', some db⟩) :
    getLatestVersion s.disk = some db.working.mtree.version ↔
      R.lastIndex s.disk.wal ≠ 0 ∨ db.working.mtree.version ≠ 0 ∨ db.working.mtree.initialVersion ≤ 1 := by
  obtain ⟨v₀, iv, n, h⟩ : ∃ v₀ iv n, ProbeInv v₀ iv n opts s :=
    exec_invariant (P := fun s _ => ∃ v₀ iv n, ProbeInv v₀ iv n opts s)
      (fun s os e s' o ⟨v₀, iv, n, h⟩ hc hs => h.step hs hc) ⟨_, _, 0, hb.probeInv⟩ ha he
  obtain ⟨disk, _⟩ := s
  obtain rfl : _ = none := hclosed
  have hexact : Numbers v₀ iv n True opts ⟨disk, none⟩ :=
    ⟨h.numbers.range, h.numbers.dirs, by simp, h.numbers.closed⟩
  have hlast := h.numbers.closed rfl
  obtain ⟨dir, t₀, t, working, hdir, ht₀, -, -, heq⟩ := load_eq_some hl
  have hl' : Db.loadVersion sha256 0 stores disk = some ⟨disk', some db⟩ := (loadVersion_zero stores).trans hl
  obtain ⟨k, hdb⟩ := (hexact.loadVersion (fun _ => .inl rfl) hl').db db rfl
  obtain ⟨-, -, -, hiv⟩ := h.numbers.dirs _ (pair_mem_of_lookupPair hdir) t₀ ht₀
  have hk : k = n := by
    have hcount := hdb.exact trivial
    cases heq
    exact hcount.symm.trans hlast
  have hprobe : getLatestVersion disk = some (walVersion n iv) := by
    have hdiriv := (loadMultiTree_fields ht₀).2
    unfold loadMultiTree at ht₀
    split_ifs at ht₀ with hneg
    rw [getLatestVersion, hdir, ← hiv, hdiriv]
    exact (if_neg hneg).trans (by rw [hlast])
  subst hk
  rw [hprobe, hdb.working.1, hdb.working.2, Option.some.injEq, h.numbers.range.walVersion_eq_iff, ← hlast]

/-- Two versions from ten on, a rollback of the second and a new one. -/
def rollbackRun : List (AdminEvent ℕ) :=
  [.event (.event (.load [])), .event (.event (.setInitialVersion 10)), .event (.event .commit),
    .event (.event .finish), .event (.event .commit), .event (.event .finish), .event (.event .close),
    .rollback 10 [], .event (.event .commit), .event (.event .finish), .event (.event .close)]

theorem getLatestVersion_eleven :
    ∃ s os disk db, exec (adminStep (R := listRollbackLog (WALEntry ℕ)) (fun _ => []) ⟨100, 0, false⟩)
        ⟨freshDisk (listLog (WALEntry ℕ)) (MultiTree.newEmptyMultiTree 0), none⟩ rollbackRun = some (s, os) ∧
      load (fun _ => []) [] s.disk = some ⟨disk, some db⟩ ∧
      getLatestVersion s.disk = some db.working.mtree.version := by
  have ha : Along (adminStep (R := listRollbackLog (WALEntry ℕ)) (fun _ => []) ⟨100, 0, false⟩) Probeable
    ⟨freshDisk (listLog (WALEntry ℕ)) (MultiTree.newEmptyMultiTree 0), none⟩ rollbackRun := by decide
  refine ⟨_, _, _, _, rfl, rfl, ?_⟩
  exact (getLatestVersion_iff (R := listRollbackLog (WALEntry ℕ)) (Origin.empty (Nat.zero_le _)) ha rfl rfl
    [] rfl).mpr (.inl (by decide))

/-- The initial version is set to one hundred and nothing is committed. The probe gives
ninety-nine, and a load version zero. -/
theorem getLatestVersion_before_initial_version :
    ∃ s os disk db, exec (adminStep (R := listRollbackLog (WALEntry ℕ)) (fun _ => []) ⟨100, 0, false⟩)
        ⟨freshDisk (listLog (WALEntry ℕ)) (MultiTree.newEmptyMultiTree 0), none⟩
        [.event (.event (.load [])), .event (.event (.setInitialVersion 100)), .event (.event .close)] =
          some (s, os) ∧
      load (fun _ => []) [] s.disk = some ⟨disk, some db⟩ ∧ db.working.mtree.version = 0 ∧
      getLatestVersion s.disk = some 99 :=
  ⟨_, _, _, _, rfl, rfl, rfl, rfl⟩

end IavlStore.Db
