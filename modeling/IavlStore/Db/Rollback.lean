import IavlStore.Db.Versions

/-! Rolling back. A load for overwriting opens a target version, moves the `current` link to
the snapshot it started from, cuts the log after the target and removes the newer
snapshots. Afterwards the directory is one of the history up to the target, and new commits
continue from there. The cut needs the entry of the target itself, so a target that is only
left as a snapshot, or was restored, cannot be rolled back to. -/

namespace IavlStore.Db

open IavlStore.Base.Encoding IavlStore.Base.SortedPairs IavlStore.Base.Journal IavlStore.Base.Runs
open IavlStore.Multi

variable {N : Type} [LinearOrder N] {R : RollbackLog (WALEntry N)}

/-! ### Loading for overwriting -/

/-- Remove the snapshots above the target, from the newest on. -/
def removeAbove (target : ℕ) : List ℕ → List (ℕ × SnapshotDir N) → List (ℕ × SnapshotDir N)
  | [], snapshots => snapshots
  | v :: vs, snapshots =>
    if v ≤ target then snapshots else removeAbove target vs (erasePair v snapshots)

/-- Downgrade the `current` link, truncate the log from the back and prune the snapshots. -/
def overwrite (target initialVersion : ℕ) (disk : Disk N R.toWalLog) : Option (Disk N R.toWalLog) := do
  let version ← seekSnapshot target disk
  let wal ← R.truncateBack disk.wal (walIndex target initialVersion)
  some ⟨removeAbove target (disk.versions.insertionSort (· ≥ ·)) disk.snapshots, version, none, wal⟩

/-- Load a target version and forget the later ones. -/
def loadForOverwriting (sha256 : Bytes → Bytes) (target : ℕ) (initialStores : List N)
    (disk : Disk N R.toWalLog) : Option (World N R.toWalLog) :=
  if target = 0 then load sha256 initialStores disk
  else if maxInt64 < target then none
  else do
    let (dir, mtree) ← openVersion sha256 target disk
    let disk ← overwrite target mtree.initialVersion disk
    match initialWorking initialStores mtree with
    | (_, some _) => none
    | (working, none) => some ⟨disk, some (newDB working dir.commitInfo.version)⟩

omit [LinearOrder N] in
/-- In descending order all snapshots above the target come first. -/
theorem removeAbove_eq_filter {target : ℕ} {vs : List ℕ} {snapshots : List (ℕ × SnapshotDir N)}
    (hs : vs.Pairwise (· ≥ ·)) (hall : ∀ p ∈ snapshots, p.1 ∈ vs ∨ p.1 ≤ target) :
    removeAbove target vs snapshots = snapshots.filter fun p => p.1 ≤ target := by
  induction vs generalizing snapshots with
  | nil =>
    refine (List.filter_eq_self.mpr fun p hp => ?_).symm
    simpa using hall p hp
  | cons v vs ih =>
    obtain ⟨hv, hs⟩ := List.pairwise_cons.mp hs
    rw [removeAbove]
    split_ifs with hle
    · refine (List.filter_eq_self.mpr fun p hp => ?_).symm
      rcases hall p hp with hp | hp
      · rcases List.mem_cons.mp hp with heq | hp
        · simpa [heq] using hle
        · simpa using (hv _ hp).trans hle
      · simpa using hp
    · rw [ih hs fun p hp => ?_, erasePair, List.filter_filter]
      · refine List.filter_congr fun p _ => ?_
        simp only [ne_eq, decide_not, Bool.and_eq_left_iff_imp, decide_eq_true_eq, Bool.not_eq_true',
          decide_eq_false_iff_not]
        intro hp heq
        omega
      · obtain ⟨hp, hne⟩ := List.mem_filter.mp hp
        refine (hall p hp).imp_left fun hmem => (List.mem_cons.mp hmem).resolve_left ?_
        simpa using hne

omit [LinearOrder N] in
theorem removeAbove_versions (target : ℕ) (disk : Disk N R.toWalLog) :
    removeAbove target (disk.versions.insertionSort (· ≥ ·)) disk.snapshots =
      disk.snapshots.filter fun p => p.1 ≤ target := by
  refine removeAbove_eq_filter (List.pairwise_insertionSort _ _) fun p hp => .inl ?_
  exact (List.perm_insertionSort _ _).mem_iff.mpr (List.mem_map_of_mem hp)

variable {sha256 : Bytes → Bytes} {opts : Options} {disk : Disk N R.toWalLog} {v₀ iv target i j : ℕ}
  {h : History (MultiTree N) (WALEntry N)}

/-- What a load for overwriting has done. -/
theorem loadForOverwriting_eq_some {stores : List N} {s : World N R.toWalLog} (hpos : 0 < target)
    (h : loadForOverwriting sha256 target stores disk = some s) :
    target ≤ maxInt64 ∧ ∃ dir t v wal working, openVersion sha256 target disk = some (dir, t) ∧
      seekSnapshot target disk = some v ∧ R.truncateBack disk.wal (walIndex target t.initialVersion) = some wal ∧
      initialWorking stores t = (working, none) ∧
      s = ⟨⟨disk.snapshots.filter fun p => p.1 ≤ target, v, none, wal⟩,
        some (newDB working dir.commitInfo.version)⟩ := by
  unfold loadForOverwriting at h
  rw [if_neg hpos.ne'] at h
  split_ifs at h with hmax
  simp only [Option.bind_eq_bind, Option.bind_eq_some_iff, Db.overwrite] at h
  obtain ⟨⟨dir, t⟩, ho, disk', ⟨v, hseek, wal, hwal, hdisk⟩, h⟩ := h
  rcases hw : initialWorking stores t with ⟨working, _ | err⟩ <;> simp only [hw, reduceCtorEq] at h
  rw [removeAbove_versions] at hdisk
  obtain rfl := Option.some.inj hdisk
  exact ⟨not_lt.mp hmax, dir, t, v, wal, working, ho, hseek, hwal, hw, (Option.some.inj h).symm⟩

/-! ### The directory after a rollback -/

omit [LinearOrder N] in
/-- Where the log is cut, it holds the history up to there. -/
theorem truncateBack_holds {w : R.Log} {log : List (WALEntry N)} (hw : R.toWalLog.Holds w log)
    (hlast : R.lastIndex w = log.length) (hdr : R.dropped w < j) (hj : j ≤ log.length) :
    ∃ w', R.truncateBack w j = some w' ∧ R.toWalLog.Holds w' (log.take j) ∧ R.dropped w' = R.dropped w ∧
      R.lastIndex w' = j := by
  obtain ⟨w', heq, hd', hes⟩ := R.truncateBack_eq w j hdr (by omega)
  have hentries : R.entries w = log.drop (R.dropped w) := by
    rw [hw.entries, hlast, List.take_length]
  have hlast' : R.lastIndex w' = j := by
    rw [R.lastIndex_eq, hd', hes, hentries, List.length_take, List.length_drop]
    omega
  refine ⟨w', heq, ⟨?_, ?_⟩, hd', hlast'⟩
  · rw [hlast', List.length_take]
    omega
  · rw [hes, hentries, hd', hlast', List.take_take, min_self, List.drop_take]

/-- The disk of the history up to the target. -/
theorem Directory.overwrite (hd : Directory v₀ iv h sha256 disk)
    (hc : h.Complete (MultiTree.entryStep sha256)) (hj : j ≤ h.log.length) (hpos : 0 < versionAt v₀ iv j)
    (hi : i ≤ j) (hseek : seekSnapshot (versionAt v₀ iv j) disk = some (versionAt v₀ iv i))
    (hdir : lookupPair (versionAt v₀ iv i) disk.snapshots = some (h.state i).writeSnapshot)
    (hdj : R.dropped disk.wal < j) (hdi : R.dropped disk.wal ≤ i) (opts : Options) :
    ∃ disk', Db.overwrite (versionAt v₀ iv j) iv disk = some disk' ∧
      (∀ p ∈ disk'.snapshots, p.1 ≤ versionAt v₀ iv j) ∧
      Inv v₀ iv (h.cut j) i opts True False sha256 ⟨disk', none⟩ ∧ disk'.currentTmp = none := by
  have hn := hd.numbered
  obtain ⟨w', hw', hholds, hdr', hlast'⟩ := truncateBack_holds hd.holds hd.latest hdj hj
  have hlen : (h.cut j).log.length = j := by simp [History.cut, hj]
  refine ⟨_, by
    rw [Db.overwrite, hseek, walIndex_of_pos hn hj hpos, hw', removeAbove_versions]
    rfl, ?_, ⟨hn.cut j, hd.sound.cut j, fun _ => hc.cut j, ?_, False.elim, by simp, fun _ => ?_⟩, rfl⟩
  · intro p hp
    simpa using (List.mem_filter.mp hp).2
  · refine ⟨hholds, hi.trans hlen.ge, rfl, ?_, hdr' ▸ hdi, fun v hv => ?_⟩
    · have hkey : decide (versionAt v₀ iv i ≤ versionAt v₀ iv j) = true := by
        simpa using versionAt_mono hn.base hi
      exact (lookupPair_filter (p := fun v => decide (v ≤ versionAt v₀ iv j)) hkey _).trans hdir
    · obtain ⟨p, hp, rfl⟩ := List.mem_map.mp hv
      obtain ⟨k, -, rfl⟩ := hd.snapshots p (List.mem_of_mem_filter hp)
      exact ⟨k, rfl⟩
  · rw [hlen]
    exact hlast'

/-! ### Commits after a rollback -/

section Commits
variable {W : WalLog (WALEntry N)} {s s' : World N W} {c : ℕ}

def Reply.savedTree : Reply N → Option (MultiTree N)
  | .saved t => some t
  | _ => none

/-- The multitrees that were committed, in order. -/
def savedTrees (os : List (Reply N)) : List (MultiTree N) := os.filterMap Reply.savedTree

/-- The event keeps the changes of a block in order, succeeds and is no kill. -/
def Plain (s : World N W) (e : Event N) : Prop := Orderly s e ∧ Succeeds s e ∧ e.isKill = false

/-- A run extends the history by what it commits. -/
theorem Inv.commits (hi : Inv v₀ iv h c opts True False sha256 s) {es : List (Event N)} {os : List (Reply N)}
    (ha : Along (Db.step sha256 opts) Plain s es) (he : exec (Db.step sha256 opts) s es = some (s', os)) :
    ∃ h' c', Inv v₀ iv h' c' opts True False sha256 s' ∧
      h'.log.length = h.log.length + (savedTrees os).length ∧ h'.last = (savedTrees os).getLastD h.last ∧
      (savedTrees os).map MultiTree.version =
        (List.range' (h.log.length + 1) (savedTrees os).length).map (versionAt v₀ iv) := by
  refine exec_invariant (P := fun s os => ∃ h' c', Inv v₀ iv h' c' opts True False sha256 s ∧
    h'.log.length = h.log.length + (savedTrees os).length ∧ h'.last = (savedTrees os).getLastD h.last ∧
    (savedTrees os).map MultiTree.version =
      (List.range' (h.log.length + 1) (savedTrees os).length).map (versionAt v₀ iv)) ?_
    ⟨h, c, hi, rfl, rfl, rfl⟩ ha he
  rintro s os e s' o ⟨h₁, c₁, hi₁, hlen, hlast, hver⟩ ⟨ho, hok, hk⟩ hs
  obtain ⟨h₂, c₂, hi₂, hnew⟩ := hi₁.step hs ho (fun _ => hok) False.elim (by simp [hk])
  have happ : savedTrees (os ++ [o]) = savedTrees os ++ o.savedTree.toList := by
    rw [savedTrees, List.filterMap_append]
    rcases ho : o.savedTree with _ | t <;> simp [savedTrees, ho]
  refine ⟨h₂, c₂, hi₂, ?_⟩
  rw [happ]
  cases hnew with
  | same hno =>
    have hnone : o.savedTree = none := by
      cases o with
      | saved t => exact absurd rfl (hno t)
      | nothing => rfl
      | returned ok => rfl
    rw [hnone, Option.toList_none, List.append_nil]
    exact ⟨hlen, hlast, hver⟩
  | push entry t =>
    have htree : (Reply.saved t).savedTree.toList = [t] := rfl
    have htv : t.version = versionAt v₀ iv (h.log.length + 1 + (savedTrees os).length) := by
      have hv := hi₂.numbered.version _ le_rfl
      rw [← History.last, History.last_push, History.length_log_push, hlen] at hv
      rw [hv, Nat.add_right_comm]
    rw [htree, History.length_log_push, History.last_push, List.map_append, hver, List.length_append,
      List.length_singleton, List.range'_concat, List.map_append]
    refine ⟨by omega, by simp, ?_⟩
    simp only [List.map_cons, List.map_nil, one_mul, htv]
  | cut n k => cases hk

/-- The rollback law: the state of the target is in use, no snapshot is newer, a plain load
returns the same, and new commits take the next versions and are what later loads return. -/
structure RolledBack (sha256 : Bytes → Bytes) (opts : Options) (mtree : MultiTree N) (s : World N W) : Prop where
  working : (s.db.map fun db => db.working) = some ⟨mtree, emptyEntry⟩
  snapshots : ∀ p ∈ s.disk.snapshots, p.1 ≤ mtree.version
  load : ∀ stores, ∃ s', load sha256 stores s.disk = some s' ∧
    (s'.db.map fun db => db.working) = some ⟨mtree, emptyEntry⟩
  continues : ∀ es s' os, Along (step sha256 opts) Plain s es → exec (step sha256 opts) s es = some (s', os) →
    (savedTrees os).map MultiTree.version = List.range' (mtree.version + 1) (savedTrees os).length ∧
      (s'.db = none → ∀ stores, ∃ s'', Db.load sha256 stores s'.disk = some s'' ∧
        (s''.db.map fun db => db.working) = some ⟨(savedTrees os).getLastD mtree, emptyEntry⟩)

/-- A closed database is loaded at its last state. -/
theorem Inv.load_last (hi : Inv v₀ iv h c opts True False sha256 s) (hclosed : s.db = none)
    (hpos : 0 < h.last.version) (stores : List N) :
    ∃ s', Db.load sha256 stores s.disk = some s' ∧
      (s'.db.map fun db => db.working) = some ⟨h.last, emptyEntry⟩ := by
  obtain ⟨disk, _⟩ := s
  subst hclosed
  have hw := initialWorking_of_pos hpos stores
  obtain ⟨s', hl⟩ := hi.exists_load trivial (congrArg Prod.snd hw)
  exact ⟨s', hl, (hi.load hl).2.trans (by rw [hw])⟩

theorem RolledBack.of_load {disk : Disk N W} (hi : Inv v₀ iv h c opts True False sha256 ⟨disk, none⟩)
    (hpos : 0 < h.log.length) (hsnap : ∀ p ∈ disk.snapshots, p.1 ≤ h.last.version) {stores : List N}
    (hl : Db.load sha256 stores disk = some s) : RolledBack sha256 opts h.last s := by
  have hn := hi.numbered
  have hver : h.last.version = versionAt v₀ iv h.log.length := hn.version _ le_rfl
  have hlv : 0 < h.last.version := by
    rw [hver, versionAt, if_neg (by omega)]
    omega
  have hi' := (hi.load hl).1
  obtain ⟨dir, t₀, t, working, -, -, -, -, rfl⟩ := load_eq_some hl
  have hdisk : Inv v₀ iv h c opts True False sha256 ⟨{ disk with currentTmp := none }, none⟩ :=
    ⟨hn, hi.sound, hi.complete, ⟨hi.disk.holds, hi.disk.le, hi.disk.current, hi.disk.dir, hi.disk.dropped,
      hi.disk.numbers⟩, False.elim, by simp, fun _ => hi.closed rfl⟩
  refine ⟨(hi.load hl).2.trans (by rw [initialWorking_of_pos hlv]), hsnap, hdisk.load_last rfl hlv, ?_⟩
  intro es s' os ha he
  obtain ⟨h', c', hi₂, hlen, hlast, hvers⟩ := hi'.commits ha he
  refine ⟨?_, fun hclosed => hlast ▸ hi₂.load_last hclosed ?_⟩
  · rw [hvers, hver, versionAt, if_neg (by omega), List.range'_eq_map_range, List.range'_eq_map_range,
      List.map_map]
    refine List.map_congr_left fun k _ => ?_
    simp only [Function.comp_apply, versionAt]
    rw [if_neg (by omega)]
    omega
  · rw [History.last, hi₂.numbered.version _ le_rfl, versionAt, if_neg (by omega)]
    omega

end Commits

/-! ### The rollback law -/

/-- The entries a rollback to a committed version needs, by what was dropped. -/
theorem Directory.readable_iff (hd : Directory v₀ iv h sha256 disk) (hj : j ≤ h.log.length)
    (hpos : 0 < versionAt v₀ iv j) (hij : i ≤ j) :
    ((R.read disk.wal (walIndex (versionAt v₀ iv j) iv)).isSome ∧
      (versionAt v₀ iv i < versionAt v₀ iv j →
        (R.read disk.wal (walIndex (nextVersion (versionAt v₀ iv i) iv) iv)).isSome)) ↔
      R.dropped disk.wal < j ∧ R.dropped disk.wal ≤ i := by
  have hn := hd.numbered
  rw [walIndex_of_pos hn hj hpos, hd.read_isSome, hd.next_isSome (hij.trans hj)]
  rcases hij.eq_or_lt with rfl | hlt
  · have hirr := lt_irrefl (versionAt v₀ iv i)
    constructor
    · rintro ⟨⟨hdj, -⟩, -⟩
      exact ⟨hdj, hdj.le⟩
    · rintro ⟨hdj, -⟩
      exact ⟨⟨hdj, hj⟩, fun hlt => absurd hlt hirr⟩
  · have hver := versionAt_lt hn.base hlt
    constructor
    · rintro ⟨⟨hdj, -⟩, hall⟩
      exact ⟨hdj, (hall hver).1⟩
    · rintro ⟨hdj, hdi⟩
      exact ⟨⟨hdj, hj⟩, fun _ => ⟨hdi, by omega⟩⟩

/-- A plain load of the overwritten disk starts from the same snapshot. -/
theorem Inv.load_eq {W : WalLog (WALEntry N)} {disk : Disk N W} {c : ℕ}
    (hi : Inv v₀ iv h c opts True False sha256 ⟨disk, none⟩) (htmp : disk.currentTmp = none)
    (hpos : 0 < h.last.version) (stores : List N) : Db.load sha256 stores disk =
      some ⟨disk, some (newDB ⟨h.last, emptyEntry⟩ (h.state c).writeSnapshot.commitInfo.version)⟩ := by
  obtain ⟨s, hl, hworking⟩ := hi.load_last rfl hpos stores
  obtain ⟨dir, t₀, t, working, hdir, -, -, -, rfl⟩ := load_eq_some hl
  obtain rfl := Option.some.inj (hi.disk.dir.symm.trans hdir)
  obtain rfl : working = ⟨h.last, emptyEntry⟩ := Option.some.inj hworking
  have hdisk : { disk with currentTmp := none } = disk := by rw [← htmp]
  exact hl.trans (by rw [hdisk])

/-- Three blocks with a snapshot of version two. The older snapshot is pruned and the log
begins with entry three. -/
def snapshotAtTwo : List (Event ℕ) :=
  [.load [0], .commit, .finish, .commit, .finish] ++ List.replicate 6 .rewrite ++
    [.commit, .await, .switch, .prune true, .prune true, .prune true, .prune true, .close]

/-- A directory restored at version seven. -/
def restoredAtSeven : MultiTree ℕ := ⟨8, [⟨0, Tree.newEmptyTree 7⟩], [(0, 0)], ⟨7, []⟩⟩

end IavlStore.Db
