import IavlStore.Db.Coherence
import IavlStore.Db.Crash
import IavlStore.Db.PruneSnapshots

/-! Loading a given version. The load starts from the latest snapshot that is not above the
target and replays the log up to the target. In a directory whose snapshots and log belong
to one history this gives the state of the target version or fails, with one exception: a
target below the version before the initial one has an index that wraps around, and the
whole log is replayed. -/

namespace IavlStore.Db

open IavlStore.Base.Encoding IavlStore.Base.SortedPairs IavlStore.Base.Journal IavlStore.Base.Runs
open IavlStore.Multi

variable {N : Type} [LinearOrder N] {W : WalLog (WALEntry N)}

/-! ### Loading -/

/-- The biggest snapshot version that is not above the target. -/
def seekSnapshot (target : ℕ) (disk : Disk N W) : Option ℕ :=
  (disk.versions.insertionSort (· ≥ ·)).find? (· ≤ target)

/-- Replay the log unless the multitree is at the target version. -/
def replayTo (sha256 : Bytes → Bytes) (target : ℕ) (wal : W.Log) (mtree : MultiTree N) :
    Option (MultiTree N) :=
  if target = 0 ∨ mtree.version < target then mtree.catchupWAL sha256 W wal target else some mtree

/-- Open the snapshot for a target version and replay the log up to it. The target zero
stands for the latest version. -/
def openVersion (sha256 : Bytes → Bytes) (target : ℕ) (disk : Disk N W) :
    Option (SnapshotDir N × MultiTree N) := do
  let version ← if 0 < target then seekSnapshot target disk else some disk.current
  let dir ← lookupPair version disk.snapshots
  let mtree ← loadMultiTree dir
  let mtree ← replayTo sha256 target disk.wal mtree
  some (dir, mtree)

/-- Load a target version; a target that is no signed number is invalid. -/
def loadVersion (sha256 : Bytes → Bytes) (target : ℕ) (initialStores : List N) (disk : Disk N W) :
    Option (World N W) :=
  if maxInt64 < target then none
  else do
    let (dir, mtree) ← openVersion sha256 target disk
    match initialWorking initialStores mtree with
    | (_, some _) => none
    | (working, none) => some ⟨{ disk with currentTmp := none }, some (newDB working dir.commitInfo.version)⟩

variable {sha256 : Bytes → Bytes} {disk : Disk N W} {target v : ℕ}

/-- Without a target the latest version is loaded. -/
theorem loadVersion_zero (stores : List N) : loadVersion sha256 0 stores disk = load sha256 stores disk := by
  rcases hdir : lookupPair disk.current disk.snapshots with _ | dir
  · simp [loadVersion, openVersion, load, hdir]
  · rcases ht : loadMultiTree dir with _ | t
    · simp [loadVersion, openVersion, load, hdir, ht]
    · rcases hcat : t.catchupWAL sha256 W disk.wal 0 with _ | t'
      · simp [loadVersion, openVersion, load, replayTo, hdir, ht, hcat]
      · rcases hw : initialWorking stores t' with ⟨d, _ | err⟩ <;>
          simp [loadVersion, openVersion, load, replayTo, hdir, ht, hcat, hw]

theorem openVersion_eq_some {dir : SnapshotDir N} {t : MultiTree N}
    (h : openVersion sha256 target disk = some (dir, t)) :
    ∃ v t₀, (0 < target → seekSnapshot target disk = some v) ∧ lookupPair v disk.snapshots = some dir ∧
      loadMultiTree dir = some t₀ ∧ replayTo sha256 target disk.wal t₀ = some t := by
  unfold openVersion at h
  split_ifs at h with hpos <;> simp only [Option.bind_eq_bind, Option.bind_some, Option.bind_eq_some_iff] at h
  · obtain ⟨v, hseek, dir', hdir, t₀, ht₀, t', hrep, heq⟩ := h
    obtain ⟨rfl, rfl⟩ := Prod.mk.inj (Option.some.inj heq)
    exact ⟨v, t₀, fun _ => hseek, hdir, ht₀, hrep⟩
  · obtain ⟨dir', hdir, t₀, ht₀, t', hrep, heq⟩ := h
    obtain ⟨rfl, rfl⟩ := Prod.mk.inj (Option.some.inj heq)
    exact ⟨disk.current, t₀, fun h0 => absurd h0 hpos, hdir, ht₀, hrep⟩

omit [LinearOrder N] in
theorem seekSnapshot_eq_some (h : seekSnapshot target disk = some v) :
    v ∈ disk.versions ∧ v ≤ target ∧ ∀ w ∈ disk.versions, w ≤ target → w ≤ v := by
  have hperm : (disk.versions.insertionSort (· ≥ ·)).Perm disk.versions := List.perm_insertionSort _ _
  have hsorted := List.pairwise_insertionSort (· ≥ ·) disk.versions
  obtain ⟨hv, l₁, l₂, heq, hl₁⟩ := List.find?_eq_some_iff_append.mp h
  rw [heq] at hperm hsorted
  refine ⟨hperm.mem_iff.mp (by simp), by simpa using hv, fun w hw hwt => ?_⟩
  rcases List.mem_append.mp (hperm.mem_iff.mpr hw) with hw | hw
  · exact absurd hwt (by simpa using hl₁ w hw)
  · rcases List.mem_cons.mp hw with rfl | hw
    · exact le_rfl
    · exact (List.pairwise_cons.mp (List.pairwise_append.mp hsorted).2.1).1 w hw

omit [LinearOrder N] in
theorem seekSnapshot_isSome {w : ℕ} (hw : w ∈ disk.versions) (hle : w ≤ target) :
    ∃ v, seekSnapshot target disk = some v := by
  apply Option.isSome_iff_exists.mp
  rw [seekSnapshot, List.find?_isSome]
  exact ⟨w, (List.perm_insertionSort _ _).mem_iff.mpr hw, by simpa using hle⟩

/-! ### Directories of one history -/

/-- The snapshots are states of a history, and the log is the last part of its entries. -/
structure Directory (v₀ iv : ℕ) (h : History (MultiTree N) (WALEntry N)) (sha256 : Bytes → Bytes)
    (disk : Disk N W) : Prop where
  numbered : Numbered v₀ iv h
  sound : h.Sound (MultiTree.entryStep sha256)
  holds : W.Holds disk.wal h.log
  latest : W.lastIndex disk.wal = h.log.length
  snapshots : ∀ p ∈ disk.snapshots, ∃ i ≤ h.log.length,
    p = (versionAt v₀ iv i, (h.state i).writeSnapshot)

variable {v₀ iv : ℕ} {h : History (MultiTree N) (WALEntry N)}

/-- The index of a version from the one before the initial version on. -/
theorem walIndex_eq (hle : iv ≤ target + 1) (ht : target ≤ maxInt64) (hpos : 0 < target) :
    walIndex target iv = target - (iv - 1) := by
  unfold maxInt64 at ht
  unfold walIndex
  split_ifs <;> omega

/-- The index of an earlier version wraps around. -/
theorem walIndex_wraps (hlt : target + 1 < iv) (hiv : iv ≤ maxInt64) : maxInt64 < walIndex target iv := by
  unfold maxInt64 at hiv ⊢
  unfold walIndex
  split_ifs <;> omega

/-- A load of a target opens the state of a snapshot, or a later one up to which the log was
replayed. -/
theorem Directory.openVersion (hd : Directory v₀ iv h sha256 disk) (hpos : 0 < target) {dir : SnapshotDir N}
    {t : MultiTree N} (ho : openVersion sha256 target disk = some (dir, t)) :
    ∃ i ≤ h.log.length, versionAt v₀ iv i ≤ target ∧
      (∀ p ∈ disk.snapshots, p.1 ≤ target → p.1 ≤ versionAt v₀ iv i) ∧ dir = (h.state i).writeSnapshot ∧
      (t = h.state i ∧ (versionAt v₀ iv i = target ∨ i = h.log.length) ∨
        versionAt v₀ iv i < target ∧ i < min (walIndex target iv) h.log.length ∧
          t = h.state (min (walIndex target iv) h.log.length)) := by
  have hn := hd.numbered
  obtain ⟨v, t₀, hseek, hdir, ht₀, hcat⟩ := openVersion_eq_some ho
  obtain ⟨-, hvt, hmax⟩ := seekSnapshot_eq_some (hseek hpos)
  obtain ⟨i, hi, hp⟩ := hd.snapshots _ (pair_mem_of_lookupPair hdir)
  obtain ⟨rfl, rfl⟩ := Prod.mk.inj hp
  rw [hn.load_writeSnapshot hi] at ht₀
  obtain rfl := Option.some.inj ht₀
  refine ⟨i, hi, hvt, fun p hp hpt => hmax p.1 (List.mem_map_of_mem hp) hpt, rfl, ?_⟩
  have hiv := hn.initialVersion i hi
  rw [replayTo, hn.version i hi] at hcat
  have hend : endIndex W disk.wal target iv = walIndex target iv := if_neg (by omega)
  by_cases hlt : versionAt v₀ iv i < target
  · rw [if_pos (.inr hlt)] at hcat
    rcases catchupWAL_to sha256 W hd.sound hd.holds (hn.nextIndex hi) hcat with ⟨hle, rfl⟩ | ⟨hlt', rfl⟩
    · rw [hd.latest] at hle
      exact .inl ⟨rfl, .inr (le_antisymm hi hle)⟩
    · rw [hiv, hend, hd.latest] at hlt' ⊢
      exact .inr ⟨hlt, hlt', rfl⟩
  · rw [if_neg (by omega)] at hcat
    obtain rfl := Option.some.inj hcat
    exact .inl ⟨rfl, .inl (by omega)⟩

/-! ### The loaded version -/

theorem loadVersion_eq_some {stores : List N} {s' : World N W}
    (hl : loadVersion sha256 target stores disk = some s') :
    target ≤ maxInt64 ∧ ∃ dir t working, openVersion sha256 target disk = some (dir, t) ∧
      initialWorking stores t = (working, none) ∧
      s' = ⟨{ disk with currentTmp := none }, some (newDB working dir.commitInfo.version)⟩ := by
  unfold loadVersion at hl
  split_ifs at hl with hneg
  rw [Option.bind_eq_bind, Option.bind_eq_some_iff] at hl
  obtain ⟨⟨dir, t⟩, ho, hw⟩ := hl
  rcases hi : initialWorking stores t with ⟨working, _ | err⟩
  · simp only [hi] at hw
    exact ⟨not_lt.mp hneg, dir, t, working, ho, hi, (Option.some.inj hw).symm⟩
  · simp only [hi, reduceCtorEq] at hw

theorem version_initialWorking (stores : List N) (t : MultiTree N) :
    (initialWorking stores t).1.mtree.version = t.version := by
  unfold initialWorking
  split_ifs
  · simp only [Working.applyUpgrades]
    rcases hu : t.applyUpgrades (stores.map fun name => ⟨name, none, false⟩) with ⟨t', _ | err⟩ <;>
      exact congrArg CommitInfo.version (MultiTree.applyUpgrades_fields hu).1
  · rfl

theorem initialWorking_of_pos {t : MultiTree N} (ht : 0 < t.version) (stores : List N) :
    initialWorking stores t = (⟨t, emptyEntry⟩, none) :=
  if_neg fun hc => by omega

/-- The loaded version is at most the target, and the target itself if it is not above the latest
version; then the multitree is the state of that version. -/
def Exact (h : History (MultiTree N) (WALEntry N)) (target : ℕ) (working : Working N) : Prop :=
  working.mtree.version ≤ target ∧ (target ≤ h.last.version →
    ∃ i ≤ h.log.length, (h.state i).version = target ∧ working = ⟨h.state i, emptyEntry⟩)

theorem exact_of_version {i : ℕ} (hi : i ≤ h.log.length) (hv : (h.state i).version = target) (hpos : 0 < target)
    (stores : List N) : Exact h target (initialWorking stores (h.state i)).1 := by
  rw [initialWorking_of_pos (by omega)]
  exact ⟨hv.le, fun _ => ⟨i, hi, hv, rfl⟩⟩

theorem exact_of_last (hv : h.last.version ≤ target) (hpos : 0 < target) (stores : List N) :
    Exact h target (initialWorking stores h.last).1 := by
  rcases hv.lt_or_eq with hlt | heq
  · refine ⟨?_, fun hle => absurd hle (not_le.mpr hlt)⟩
    rw [version_initialWorking]
    exact hv
  · exact exact_of_version le_rfl heq hpos stores

/-- A load of a target from the version before the initial one on is exact, and so is one that
finds no log to replay. -/
theorem Directory.exact (hd : Directory v₀ iv h sha256 disk) (hpos : 0 < target) (ht : target ≤ maxInt64)
    (hle : iv ≤ target + 1 ∨ h.log = []) {dir : SnapshotDir N} {t : MultiTree N}
    (ho : Db.openVersion sha256 target disk = some (dir, t)) (stores : List N) :
    Exact h target (initialWorking stores t).1 := by
  have hn := hd.numbered
  obtain ⟨i, hi, hvt, -, -, ⟨rfl, heq | rfl⟩ | ⟨-, hlt, rfl⟩⟩ := hd.openVersion hpos ho
  · exact exact_of_version hi ((hn.version i hi).trans heq) hpos stores
  · exact exact_of_last (by rw [History.last, hn.version _ le_rfl]; exact hvt) hpos stores
  · have hlog : iv ≤ target + 1 := by
      rcases hle with hle | hnil
      · exact hle
      · simp [hnil] at hlt
    have hidx := walIndex_eq hlog ht hpos
    rcases le_or_gt (walIndex target iv) h.log.length with hk | hk
    · rw [min_eq_left hk] at hlt ⊢
      refine exact_of_version hk ?_ hpos stores
      rw [hn.version _ hk, versionAt, if_neg (by omega)]
      omega
    · rw [min_eq_right hk.le] at hlt ⊢
      refine exact_of_last ?_ hpos stores
      rw [History.last, hn.version _ le_rfl, versionAt, if_neg (by omega)]
      omega

/-- A load of an earlier target that replays a log passes the target. -/
theorem Directory.passes (hd : Directory v₀ iv h sha256 disk) (hpos : 0 < target) (hlt : target + 1 < iv)
    (hlog : h.log ≠ []) {dir : SnapshotDir N} {t : MultiTree N}
    (ho : Db.openVersion sha256 target disk = some (dir, t)) : target < t.version := by
  have hn := hd.numbered
  have hlen : 0 < h.log.length := List.length_pos_iff.mpr hlog
  obtain ⟨i, hi, hvt, -, -, hcases⟩ := hd.openVersion hpos ho
  have hi0 : i = 0 ∧ v₀ = 0 := by
    have := hn.base
    unfold versionAt at hvt
    split_ifs at hvt <;> omega
  obtain ⟨rfl, rfl⟩ := hi0
  rcases hcases with ⟨rfl, heq | heq⟩ | ⟨-, -, rfl⟩
  · simp only [versionAt, ↓reduceIte] at heq
    omega
  · omega
  · have hwrap := walIndex_wraps hlt hn.iv_le
    rw [min_eq_right ((hn.length_le.trans_lt hwrap).le), hn.version _ le_rfl, versionAt, if_neg (by omega)]
    omega

section Open
variable {i j : ℕ}

/-- The index of a committed version; a restored one has no entry. -/
theorem walIndex_of_pos (hn : Numbered v₀ iv h) (hj : j ≤ h.log.length) (hpos : 0 < versionAt v₀ iv j) :
    walIndex (versionAt v₀ iv j) iv = j := by
  have hle := hn.versionAt_le hj
  have hiv := hn.iv_le
  have hbase := hn.base
  unfold maxInt64 at hle hiv
  unfold versionAt at hle hpos ⊢
  unfold walIndex
  split_ifs at hle hpos ⊢ <;> omega

/-- The snapshot a load of a committed version starts from. -/
theorem Directory.seek (hd : Directory v₀ iv h sha256 disk) (hsnap : ∃ v ∈ disk.versions, v ≤ target) :
    ∃ i ≤ h.log.length, versionAt v₀ iv i ≤ target ∧ seekSnapshot target disk = some (versionAt v₀ iv i) ∧
      lookupPair (versionAt v₀ iv i) disk.snapshots = some (h.state i).writeSnapshot := by
  obtain ⟨w, hw, hwt⟩ := hsnap
  obtain ⟨v, hseek⟩ := seekSnapshot_isSome hw hwt
  obtain ⟨hv, hvt, -⟩ := seekSnapshot_eq_some hseek
  obtain ⟨dir, hdir⟩ := exists_lookupPair_of_mem hv
  obtain ⟨i, hi, heq⟩ := hd.snapshots _ (pair_mem_of_lookupPair hdir)
  obtain ⟨rfl, rfl⟩ := Prod.mk.inj heq
  exact ⟨i, hi, hvt, hseek, hdir⟩

/-- Opening a committed version needs the entries after its snapshot. -/
theorem Directory.openVersion_eq (hd : Directory v₀ iv h sha256 disk)
    (hc : h.Complete (MultiTree.entryStep sha256)) (hj : j ≤ h.log.length)
    (hpos : 0 < versionAt v₀ iv j) (hi : i ≤ j)
    (hseek : seekSnapshot (versionAt v₀ iv j) disk = some (versionAt v₀ iv i))
    (hdir : lookupPair (versionAt v₀ iv i) disk.snapshots = some (h.state i).writeSnapshot) :
    Db.openVersion sha256 (versionAt v₀ iv j) disk =
      if i = j ∨ W.dropped disk.wal ≤ i then some ((h.state i).writeSnapshot, h.state j) else none := by
  have hn := hd.numbered
  have hil := hi.trans hj
  have hopen : Db.openVersion sha256 (versionAt v₀ iv j) disk =
      (replayTo sha256 (versionAt v₀ iv j) disk.wal (h.state i)).map ((h.state i).writeSnapshot, ·) := by
    simp only [Db.openVersion, if_pos hpos, hseek, Option.bind_eq_bind, Option.bind_some, hdir,
      hn.load_writeSnapshot hil]
    rcases replayTo sha256 (versionAt v₀ iv j) disk.wal (h.state i) with _ | t <;> rfl
  rw [hopen, replayTo, hn.version i hil]
  rcases hi.eq_or_lt with rfl | hlt
  · rw [if_neg (by omega), if_pos (.inl rfl)]
    rfl
  · have hlast : i < W.lastIndex disk.wal := by rw [hd.latest]; omega
    have hend : endIndex W disk.wal (versionAt v₀ iv j) (h.state i).initialVersion = j := by
      rw [endIndex, if_neg (by omega), hn.initialVersion i hil, walIndex_of_pos hn hj hpos]
    rw [if_pos (.inr (versionAt_lt hn.base hlt))]
    by_cases hdr : W.dropped disk.wal ≤ i
    · rw [if_pos (.inr hdr), catchupWAL_complete_to sha256 W hd.sound hc hd.holds (hn.nextIndex hil) hdr
        hlast (by rw [hend]; exact hlt), hend, hd.latest, min_eq_left hj]
      rfl
    · rw [if_neg (by omega), catchupWAL_of_lt_dropped sha256 W _ (hn.nextIndex hil) hlast (by omega)]
      rfl

theorem Directory.read_isSome (hd : Directory v₀ iv h sha256 disk) (k : ℕ) :
    (W.read disk.wal k).isSome ↔ W.dropped disk.wal < k ∧ k ≤ h.log.length := by
  rw [← hd.latest, ← not_iff_not, Option.not_isSome_iff_eq_none, WalLog.read_eq_none_iff]

/-- The log has the entry after a state. -/
theorem Directory.next_isSome (hd : Directory v₀ iv h sha256 disk) (hi : i ≤ h.log.length) :
    (W.read disk.wal (walIndex (nextVersion (versionAt v₀ iv i) iv) iv)).isSome ↔
      W.dropped disk.wal ≤ i ∧ i < h.log.length := by
  have hn := hd.numbered
  have hnext := hn.nextIndex hi
  rw [NextIndex, hn.version i hi, hn.initialVersion i hi] at hnext
  rw [hnext, hd.read_isSome]
  omega

end Open

/-! ### Directories of runs -/

/-- Every snapshot on disk is a state of the history. -/
def HistorySnapshots (v₀ iv : ℕ) (h : History (MultiTree N) (WALEntry N)) (disk : Disk N W) : Prop :=
  ∀ p ∈ disk.snapshots, ∃ i ≤ h.log.length, p = (versionAt v₀ iv i, (h.state i).writeSnapshot)

omit [LinearOrder N] in
theorem HistorySnapshots.mono {h' : History (MultiTree N) (WALEntry N)} (hs : HistorySnapshots v₀ iv h disk)
    (he : h.Extends h') : HistorySnapshots v₀ iv h' disk := by
  intro p hp
  obtain ⟨i, hi, heq⟩ := hs p hp
  exact ⟨i, hi.trans he.1, by rw [heq, he.2 i hi]⟩

variable {opts : Options} {replayable behind : Prop} {c : ℕ} {s s' : World N W} {e : Event N} {o : Reply N}

/-- A step adds no snapshot but one of a state of the history. -/
theorem HistorySnapshots.step (hs : HistorySnapshots v₀ iv h s.disk)
    (hi : Inv v₀ iv h c opts replayable behind sha256 s) (hstep : step sha256 opts s e = some (s', o))
    (ho : Orderly s e) : HistorySnapshots v₀ iv h s'.disk := by
  intro p hp
  rcases snapshots_of_step hstep p hp with hp | ⟨db, t, hdb, hr, rfl⟩ | ⟨v, rfl, -⟩
  · exact hs p hp
  · obtain ⟨j, -, hj, rfl⟩ := (hi.db db hdb).rewrite _ hr
    exact ⟨j, hj, by rw [hi.numbered.version j hj]⟩
  · exact absurd ho id

/-- Along a run that is not killed, the snapshots and the log belong to one history. -/
theorem history_of_exec (replayable : Prop) {base : MultiTree N} (hb : Origin base) {cond : World N W → Event N → Prop}
    (hcond : ∀ s e, cond s e → Orderly s e ∧ (replayable → Succeeds s e) ∧ e.isKill = false)
    {es : List (Event N)} {os : List (Reply N)}
    (ha : Along (Db.step sha256 opts) cond ⟨freshDisk W base, none⟩ es)
    (he : exec (Db.step sha256 opts) ⟨freshDisk W base, none⟩ es = some (s, os)) :
    ∃ h c, Inv base.version base.initialVersion h c opts replayable False sha256 s ∧
      HistorySnapshots base.version base.initialVersion h s.disk ∧
      ∀ i ≤ h.log.length, h.state i = base ∨ .saved (h.state i) ∈ os := by
  refine exec_invariant (P := fun s os => ∃ h c, Inv base.version base.initialVersion h c opts replayable
    False sha256 s ∧ HistorySnapshots base.version base.initialVersion h s.disk ∧
      ∀ i ≤ h.log.length, h.state i = base ∨ .saved (h.state i) ∈ os) ?_ ?_ ha he
  · rintro s os e s' o ⟨h, c, hi, hsnap, hstates⟩ hc hs
    obtain ⟨ho, hr, hk⟩ := hcond s e hc
    obtain ⟨h', c', hi', hnew⟩ := hi.step hs ho hr False.elim (fun hk' => nomatch hk.symm.trans hk')
    refine ⟨h', c', hi', (hsnap.step hi hs ho).mono (hnew.extends hk), fun i hle => ?_⟩
    rcases hnew.states i hle with ⟨hle', heq⟩ | heq
    · rw [heq]
      exact (hstates i hle').imp_right (List.mem_append_left _)
    · exact .inr (List.mem_append_right _ (by simp [heq]))
  · refine ⟨⟨[], fun _ => base⟩, 0, hb.inv, fun p hp => ⟨0, le_rfl, ?_⟩, fun i _ => .inl rfl⟩
    exact List.mem_singleton.mp hp

/-- Once the process has closed the database, its directory is one of a history. -/
theorem Inv.directory (hi : Inv v₀ iv h c opts replayable behind sha256 ⟨disk, none⟩)
    (hs : HistorySnapshots v₀ iv h disk) : Directory v₀ iv h sha256 disk :=
  ⟨hi.numbered, hi.sound, hi.disk.holds, hi.closed rfl, hs⟩

/-- The index of a target that is not before the last version is past the end of the log. -/
theorem Numbered.length_le_walIndex (hn : Numbered v₀ iv h) (hlog : h.log ≠ []) (ht : target ≤ maxInt64)
    (hpos : 0 < target) (hle : versionAt v₀ iv h.log.length ≤ target) : h.log.length ≤ walIndex target iv := by
  have hlen := List.length_pos_iff.mpr hlog
  rcases le_or_gt iv (target + 1) with hiv | hiv
  · rw [versionAt, if_neg (by omega)] at hle
    rw [walIndex_eq hiv ht hpos]
    omega
  · exact hn.length_le.trans (walIndex_wraps hiv hn.iv_le).le

/-- A load that asks for no version before the last one starts from the last state, whichever
snapshot it begins with. -/
theorem Inv.loadVersion (hi : Inv v₀ iv h c opts replayable behind sha256 ⟨disk, none⟩)
    (hs : HistorySnapshots v₀ iv h disk)
    (hlatest : target = 0 ∨ h.log = [] ∨ versionAt v₀ iv h.log.length ≤ target) {stores : List N}
    (hl : loadVersion sha256 target stores disk = some s') :
    Inv v₀ iv h c opts replayable behind sha256 s' ∧
      (s'.db.map fun db => db.working) = some (initialWorking stores h.last).1 := by
  rcases Nat.eq_zero_or_pos target with rfl | hpos
  · rw [loadVersion_zero] at hl
    exact hi.load hl
  have hn := hi.numbered
  have hlatest := hlatest.resolve_left (by omega)
  obtain ⟨ht, dir, t, working, ho, hw, rfl⟩ := loadVersion_eq_some hl
  obtain ⟨i, hile, -, -, rfl, hcases⟩ := (hi.directory hs).openVersion hpos ho
  have hlast : t = h.last := by
    rcases hcases with ⟨rfl, heq | rfl⟩ | ⟨-, hlt, rfl⟩
    · suffices hi' : i = h.log.length by rw [hi', History.last]
      rcases hlatest with hnil | hle
      · simpa [hnil] using hile
      · exact le_antisymm hile (le_of_versionAt_le hn.base (hle.trans heq.ge))
    · rfl
    · rcases hlatest with hnil | hle
      · simp [hnil] at hlt
      · have hlog : h.log ≠ [] := by
          rintro hnil
          simp [hnil] at hlt
        rw [min_eq_right (hn.length_le_walIndex hlog ht hpos hle), History.last]
  subst hlast
  refine ⟨hi.opened (WorkingInv.initialWorking hw) fun hnil => ?_, by rw [hw]; rfl⟩
  obtain rfl : i = 0 := by simpa [hnil] using hile
  exact hn.version 0 hile

/-- The directory that a run without errors and kills leaves. -/
theorem directory_of_exec {base : MultiTree N} (hb : Origin base) {es : List (Event N)} {os : List (Reply N)}
    (ha : Along (Db.step sha256 opts) (fun s e => Orderly s e ∧ Succeeds s e ∧ e.isKill = false)
      ⟨freshDisk W base, none⟩ es)
    (he : exec (Db.step sha256 opts) ⟨freshDisk W base, none⟩ es = some (⟨disk, none⟩, os)) :
    ∃ h, Directory base.version base.initialVersion h sha256 disk ∧ h.Complete (MultiTree.entryStep sha256) := by
  obtain ⟨h, c, hi, hs, -⟩ := history_of_exec True hb (fun s e hc => ⟨hc.1, fun _ => hc.2.1, hc.2.2⟩) ha he
  exact ⟨h, hi.directory hs, hi.complete trivial⟩

/-! ### Three blocks -/

/-- Three blocks are committed and the database is closed. -/
def threeCommits : List (Event ℕ) :=
  [.load [0], .applyChangeSets [setKey 1], .commit, .finish, .applyChangeSets [setKey 2], .commit, .finish,
    .applyChangeSets [setKey 3], .commit, .finish, .close]

def threeBlocks (iv : ℕ) : Option (World ℕ (listLog (WALEntry ℕ))) :=
  (exec (step (fun _ => []) ⟨100, 0, false⟩) ⟨freshDisk _ (MultiTree.newEmptyMultiTree iv), none⟩
    threeCommits).map Prod.fst

end IavlStore.Db
