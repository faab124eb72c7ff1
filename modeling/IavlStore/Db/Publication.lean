import IavlStore.Db.Crash
import IavlStore.Db.FileSystem
import IavlStore.Db.Versions

/-! Creating a database and publishing a snapshot, stopped after any file-system step. The
next load finds the old snapshot and the log, or the new snapshot. It succeeds at the state
of the last entry of the log except in two cases: a creation stopped between making the
temporary link and renaming it leaves the link in the way of the next creation, and a new
snapshot that is ahead of the log, or holds changes that were not committed, is loaded as
it is. -/

namespace IavlStore.Db

open IavlStore.Base.Encoding IavlStore.Base.SortedPairs IavlStore.Base.Journal IavlStore.Base.Runs
open IavlStore.Multi

variable {N : Type} [LinearOrder N] {W : WalLog (WALEntry N)}

/-! ### Loading what was left -/

/-- A load that may create the database succeeds at a state. -/
def Root.Loads (root : Root N W) (sha256 : Bytes → Bytes) (initialVersion : ℕ) (stores : List N)
    (t : MultiTree N) : Prop :=
  ∃ root' db, root.load sha256 true initialVersion stores = some (root', db) ∧
    db.working = (initialWorking stores t).1

section Loads
variable {sha256 : Bytes → Bytes} {opts : Options} {v₀ iv c : ℕ} {h : History (MultiTree N) (WALEntry N)}
  {root : Root N W} {disk : Disk N W} {stores : List N}

theorem Root.Shows.loads_iff (hs : root.Shows disk) (hdir : (lookupPair disk.current disk.snapshots).isSome)
    (sha256 : Bytes → Bytes) (iv : ℕ) (stores : List N) (t : MultiTree N) :
    root.Loads sha256 iv stores t ↔
      ((Db.load sha256 stores disk).bind World.db).map DB.working = some (initialWorking stores t).1 := by
  rw [← hs.load_eq hdir sha256 true iv stores, Root.Loads]
  rcases root.load sha256 true iv stores with _ | ⟨root', db⟩ <;> simp

/-- What the invariant says of a closed disk. -/
theorem Inv.loads (hi : Inv v₀ iv h c opts True True sha256 ⟨disk, none⟩) (hs : root.Shows disk)
    (hnd : stores.Nodup) (iv' : ℕ) : root.Loads sha256 iv' stores h.last := by
  obtain ⟨w, hl⟩ := hi.exists_load trivial (hi.numbered.initialWorking hnd)
  have hdir : (lookupPair disk.current disk.snapshots).isSome := by
    rw [hi.disk.dir]
    rfl
  have hworking := (hi.load hl).2
  rw [hs.loads_iff hdir, hl, Option.bind_some]
  exact hworking

/-- A snapshot that is not current does not matter. -/
theorem Inv.publish (hi : Inv v₀ iv h c opts True True sha256 ⟨disk, none⟩) {t : MultiTree N} {i : ℕ}
    (hv : t.version = versionAt v₀ iv i) : Inv v₀ iv h c opts True True sha256 ⟨disk.publish t, none⟩ := by
  have hd := hi.disk
  have hdir : lookupPair disk.current disk.snapshots = some (h.state c).writeSnapshot := hd.dir
  refine ⟨hi.numbered, hi.sound, hi.complete, ⟨hd.holds, hd.le, hd.current, ?_, hd.dropped, fun v hmem => ?_⟩,
    hi.behind, by simp, fun _ => hi.closed rfl⟩
  · rw [Disk.publish, lookupPair_append, hdir]
    rfl
  · rw [Disk.publish, List.map_append, List.mem_append] at hmem
    rcases hmem with hmem | hmem
    · exact hd.numbers v hmem
    · exact ⟨i, (List.mem_singleton.mp hmem).trans hv⟩

/-- The multitree in use can be loaded from a snapshot at any time. -/
theorem WorkingInv.loadable {d : Working N} {replayable : Prop} (hn : Numbered v₀ iv h)
    (hd : WorkingInv h replayable d) : d.mtree.Loadable := by
  obtain ⟨hcoh, hlevel, hv, hiv⟩ := hd.fields hn
  refine ⟨hcoh, hv ▸ hn.versionAt_le le_rfl, hiv ▸ hn.iv_le, ?_⟩
  rcases Nat.lt_or_ge 1 iv with hlt | hle
  · refine .inr fun e he => ?_
    have hlev := hlevel e he
    rw [hv, hiv, nextVersion_versionAt hn.base (hn.versionAt_le le_rfl), versionAt_succ] at hlev
    omega
  · exact .inl (hiv ▸ hle)

/-- Once the new snapshot is current, the multitree it was made of is loaded. -/
theorem load_linked (hn : Numbered v₀ iv h) {d : Working N} {replayable : Prop} (hd : WorkingInv h replayable d)
    (hpos : 0 < d.mtree.version) (hnew : lookupPair d.mtree.version disk.snapshots = none)
    (hlast : W.lastIndex disk.wal ≤ h.log.length) :
    ((Db.load sha256 stores { disk.publish d.mtree with current := d.mtree.version }).bind World.db).map
      DB.working = some ⟨d.mtree, emptyEntry⟩ := by
  obtain ⟨-, -, hv, hiv⟩ := hd.fields hn
  have hnext : NextIndex d.mtree (h.log.length + 1) := by
    rw [NextIndex, hv, hiv, nextVersion_versionAt hn.base (hn.versionAt_le le_rfl),
      walIndex_versionAt hn.iv_le (hn.versionAt_succ_le le_rfl)]
  have hcat := catchupWAL_of_le sha256 W 0 hnext hlast
  simp [Db.load, Disk.publish, lookupPair_append, hnew, lookupPair_cons,
    (hd.loadable hn).loadMultiTree_writeSnapshot, hcat, initialWorking_of_pos hpos, newDB]

end Loads

/-! ### Creation -/

def emptyRoot (W : WalLog (WALEntry N)) : Root N W := ⟨[], [], none, none, W.new⟩

/-- A creation that has not reached its last step: there may be a snapshot of version zero. -/
structure Root.Bare (root : Root N W) : Prop where
  snapshots : root.snapshots = [] ∨ ∃ metadata, root.snapshots = [(0, ⟨[], metadata⟩)]
  current : root.current = none
  wal : root.wal = W.new

/-- The creation starts again, unless a temporary link is in the way. -/
theorem Root.Bare.createDBIfNotExist {root : Root N W} (h : root.Bare) (iv : ℕ) :
    (root.currentTmp.isSome → Db.createDBIfNotExist iv root = none) ∧
      (root.currentTmp = none → ∃ root', Db.createDBIfNotExist iv root = some root' ∧
        root'.Shows (freshDisk W (.newEmptyMultiTree iv))) := by
  obtain ⟨snapshots, tmpDirs, current, currentTmp, wal⟩ := root
  obtain ⟨hs, rfl : current = none, rfl : wal = W.new⟩ := h
  have hwrite : perform (writeSnapshotSteps (.snapshot 0) [] (.newEmptyMultiTree iv))
      (⟨snapshots, tmpDirs, none, currentTmp, W.new⟩ : Root N W) =
        (⟨filesOf [(0, emptyDir iv)], tmpDirs, none, currentTmp, W.new⟩, true) := by
    rcases hs with hs | ⟨metadata, hs⟩ <;>
      obtain rfl : snapshots = _ := hs <;>
      simp [writeSnapshotSteps, perform, FsStep.run, Root.onDir, makeIn, changeIn, lookupPair_cons, filesOf,
        Files.ofDir, emptyDir, MultiTree.writeSnapshot, MultiTree.newEmptyMultiTree]
  simp only [Db.createDBIfNotExist, Option.bind_none, Option.isSome_none, Bool.false_eq_true, ↓reduceIte,
    initEmptyDBSteps, perform_append, hwrite]
  rcases currentTmp with _ | v
  · exact ⟨by simp, fun _ => ⟨_, rfl, rfl, rfl, rfl⟩⟩
  · exact ⟨fun _ => rfl, by simp⟩

/-- The directory after any number of steps of a creation. -/
theorem initEmptyDBSteps_take (W : WalLog (WALEntry N)) (iv k : ℕ) :
    let root := (perform ((initEmptyDBSteps iv).take k) (emptyRoot W)).1
    root.Bare ∨ root.Shows (freshDisk W (.newEmptyMultiTree iv)) ∧ root.currentTmp = none := by
  rcases k with _ | _ | _ | _ | _ | k
  · exact .inl ⟨.inl rfl, rfl, rfl⟩
  · exact .inl ⟨.inr ⟨_, rfl⟩, rfl, rfl⟩
  · exact .inl ⟨.inr ⟨_, rfl⟩, rfl, rfl⟩
  · exact .inl ⟨.inr ⟨_, rfl⟩, rfl, rfl⟩
  · exact .inl ⟨.inr ⟨_, rfl⟩, rfl, rfl⟩
  · rw [List.take_of_length_le (Nat.le_add_left 5 k)]
    exact .inr ⟨⟨rfl, rfl, rfl⟩, rfl⟩

/-- The next load creates the database again or finds it, unless a temporary link was left. -/
theorem creation_loads_iff (sha256 : Bytes → Bytes) {iv iv' : ℕ} (hiv : iv ≤ maxInt64) (hiv' : iv' ≤ maxInt64)
    {stores : List N} (hnd : stores.Nodup) {root : Root N W}
    (hroot : root.Bare ∨ root.Shows (freshDisk W (.newEmptyMultiTree iv)) ∧ root.currentTmp = none) :
    (∃ v, (v = iv ∨ v = iv') ∧ root.Loads sha256 iv' stores (.newEmptyMultiTree v)) ↔ root.currentTmp = none := by
  have hfresh : ∀ {v : ℕ} {root : Root N W}, v ≤ maxInt64 → root.Shows (freshDisk W (.newEmptyMultiTree v)) →
      root.Loads sha256 iv' stores (.newEmptyMultiTree v) := by
    intro v root hv hs
    have hi : Inv 0 v ⟨[], fun _ => .newEmptyMultiTree v⟩ 0 ⟨0, 0, false⟩ True True sha256
      ⟨freshDisk W (.newEmptyMultiTree v), none⟩ := (Origin.empty hv).inv
    exact hi.loads hs hnd iv'
  rcases hroot with hbare | ⟨hs, htmp⟩
  · obtain ⟨hfail, hcreate⟩ := hbare.createDBIfNotExist iv'
    constructor
    · rintro ⟨v, -, root', db, hl, -⟩
      by_contra htmp
      have hnone := hfail (Option.isSome_iff_ne_none.mpr htmp)
      simp only [Root.load, hnone, ↓reduceIte, Option.bind_none, reduceCtorEq] at hl
    · intro htmp
      obtain ⟨root', hroot', hs⟩ := hcreate htmp
      have hagain := hs.createDBIfNotExist rfl iv'
      refine ⟨iv', .inr rfl, ?_⟩
      have hloads := hfresh hiv' hs
      simp only [Root.Loads, Root.load, hroot', hagain, ↓reduceIte] at hloads ⊢
      exact hloads
  · exact iff_of_true ⟨iv, .inl rfl, hfresh hiv hs⟩ htmp

/-! ### Publication -/

section Publication
variable {sha256 : Bytes → Bytes} {opts : Options} {v₀ iv c : ℕ} {h : History (MultiTree N) (WALEntry N)}
  {root : Root N W} {disk : Disk N W} {db : DB N} {stores : List N}

/-- The log may have moved on while the snapshot was written. -/
def Root.withWal (w : W.Log) (root : Root N W) : Root N W := { root with wal := w }

/-- After any number of steps, the next load succeeds at the state of the last entry if the
link is still the old one, and otherwise exactly if that state was written. -/
theorem publication_loads_iff (hi : Inv v₀ iv h c opts True True sha256 ⟨disk, some db⟩) {j : ℕ} {w : W.Log}
    (hcut : Inv v₀ iv (h.cut j) c opts True True sha256 ⟨{ disk with wal := w }, none⟩)
    {order : List (NamedTree N)} (horder : order.Perm db.working.mtree.trees) (k iv' : ℕ) (hnd : stores.Nodup) :
    let root := ((perform ((rewriteSnapshotSteps order db.working.mtree).take k) (Root.ofDisk disk)).1).withWal w
    root.Loads sha256 iv' stores (h.cut j).last ↔
      root.current = some disk.current ∨ db.working.mtree = (h.cut j).last := by
  intro root
  have hn := hi.numbered
  have hd := hi.db_inv.working
  obtain ⟨hcoh, -, hv, -⟩ := hd.fields hn
  have hdir : lookupPair disk.current disk.snapshots = some (h.state c).writeSnapshot := hi.disk.dir
  rcases rewriteSnapshotSteps_take hcoh horder disk k with hs | ⟨hnew, hs | hs⟩
  · have hs' : root.Shows { disk with wal := w } := ⟨hs.snapshots, hs.current, rfl⟩
    exact iff_of_true (hcut.loads hs' hnd iv') (.inl hs'.current)
  · have hs' : root.Shows (Disk.publish db.working.mtree { disk with wal := w }) :=
      ⟨hs.snapshots, hs.current, rfl⟩
    exact iff_of_true ((hcut.publish hv).loads hs' hnd iv') (.inl hs'.current)
  · have hs' : root.Shows { Disk.publish db.working.mtree { disk with wal := w } with
        current := db.working.mtree.version } := ⟨hs.snapshots, hs.current, rfl⟩
    have hne : db.working.mtree.version ≠ disk.current := by
      intro heq
      rw [heq, hdir] at hnew
      cases hnew
    have hpos : 0 < db.working.mtree.version := by
      by_contra hzero
      have hlen : h.log.length ≤ 0 := (le_versionAt v₀ iv _).trans (by omega)
      have hc : c = h.log.length := by
        have := hi.disk.le
        omega
      exact hne (by rw [hv, ← hc]; exact hi.disk.current.symm)
    have hlast : W.lastIndex w ≤ h.log.length := by
      have hle := hcut.disk.holds.le
      exact hle.trans (by simp [History.cut])
    have hload : ((load sha256 stores { Disk.publish db.working.mtree { disk with wal := w } with
        current := db.working.mtree.version }).bind World.db).map DB.working =
          some ⟨db.working.mtree, emptyEntry⟩ := load_linked hn hd hpos hnew hlast
    have hfound : (lookupPair db.working.mtree.version
        (Disk.publish db.working.mtree { disk with wal := w }).snapshots).isSome := by
      simp [Disk.publish, lookupPair_append, lookupPair_cons, hnew]
    have hcur : root.current = some db.working.mtree.version := hs'.current
    rw [hs'.loads_iff hfound, hload, hcur, Option.some.injEq, Option.some.injEq, or_iff_right hne]
    constructor
    · intro heq
      have hver := version_initialWorking stores (h.cut j).last
      rw [← heq] at hver
      rw [initialWorking_of_pos (hver ▸ hpos)] at heq
      exact congrArg Working.mtree heq
    · intro heq
      rw [← heq, initialWorking_of_pos hpos]

end Publication

/-- One block whose entry is in the log. -/
def oneBlock : List (Event ℕ) :=
  [.load [0], .applyChangeSets [setKey 0], .commit, .finish, .receive 0, .write]

/-- The directory of a run after so many steps of a publication. -/
def publishAfter (k : ℕ) (s : World ℕ (listLog (WALEntry ℕ))) : Option (Root ℕ (listLog (WALEntry ℕ))) :=
  s.db.map fun db =>
    (perform ((rewriteSnapshotSteps db.working.mtree.trees db.working.mtree).take k) (Root.ofDisk s.disk)).1

end IavlStore.Db
