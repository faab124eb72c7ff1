import IavlStore.Db.Moves

/-! What holds in every state of the database. There is a history of committed states, each
led to from the one before by its log entry. The log holds a part of its entries and the
channel the rest; the current snapshot, the rewrite in the background and the multitree in
use are states of the history. Two properties hold in some runs only and are parameters:
that every entry can be replayed, and that the current snapshot is not ahead of the log. -/

namespace IavlStore.Db

open IavlStore.Base.Encoding IavlStore.Base.SortedPairs IavlStore.Base.Journal IavlStore.Multi

variable {N : Type} [LinearOrder N]

/-! ### Version numbers -/

/-- The version after `i` entries, from version `v₀` on. -/
def versionAt (v₀ iv i : ℕ) : ℕ := if i = 0 then v₀ else iv - 1 + i

theorem versionAt_lt {v₀ iv i j : ℕ} (hb : v₀ = 0 ∨ v₀ + 1 = iv) (h : i < j) :
    versionAt v₀ iv i < versionAt v₀ iv j := by
  unfold versionAt
  split_ifs <;> omega

theorem le_of_versionAt_le {v₀ iv i j : ℕ} (hb : v₀ = 0 ∨ v₀ + 1 = iv)
    (h : versionAt v₀ iv i ≤ versionAt v₀ iv j) : i ≤ j := by
  by_contra hlt
  exact absurd h (not_le.mpr (versionAt_lt hb (not_le.mp hlt)))

theorem versionAt_mono {v₀ iv i j : ℕ} (hb : v₀ = 0 ∨ v₀ + 1 = iv) (h : i ≤ j) :
    versionAt v₀ iv i ≤ versionAt v₀ iv j := by
  rcases h.eq_or_lt with rfl | h
  · exact le_rfl
  · exact (versionAt_lt hb h).le

theorem lt_of_versionAt_lt {v₀ iv i j : ℕ} (hb : v₀ = 0 ∨ v₀ + 1 = iv)
    (h : versionAt v₀ iv i < versionAt v₀ iv j) : i < j :=
  not_le.mp fun hle => absurd (versionAt_mono hb hle) (not_le.mpr h)

theorem versionAt_inj {v₀ iv i j : ℕ} (hb : v₀ = 0 ∨ v₀ + 1 = iv)
    (h : versionAt v₀ iv i = versionAt v₀ iv j) : i = j :=
  le_antisymm (le_of_versionAt_le hb h.le) (le_of_versionAt_le hb h.ge)

theorem le_versionAt (v₀ iv n : ℕ) : n ≤ versionAt v₀ iv n := by
  unfold versionAt
  split_ifs <;> omega

theorem versionAt_succ (v₀ iv i : ℕ) : versionAt v₀ iv (i + 1) = iv - 1 + (i + 1) :=
  if_neg (by omega)

theorem versionAt_next {v₀ iv i : ℕ} (hb : v₀ = 0 ∨ v₀ + 1 = iv) (h : 0 < versionAt v₀ iv i) :
    versionAt v₀ iv (i + 1) = versionAt v₀ iv i + 1 := by
  rw [versionAt_succ]
  unfold versionAt at h ⊢
  split_ifs at h ⊢ <;> omega

theorem nextVersion_versionAt {v₀ iv i : ℕ} (hb : v₀ = 0 ∨ v₀ + 1 = iv)
    (hv : versionAt v₀ iv i ≤ maxInt64) :
    nextVersion (versionAt v₀ iv i) iv = versionAt v₀ iv (i + 1) := by
  rw [nextVersion, next_eq hv, versionAt_succ]
  rcases i with _ | i
  · simp only [versionAt, ↓reduceIte]
    split_ifs <;> omega
  · rw [versionAt_succ, if_neg (by omega), Nat.add_assoc]

theorem walIndex_versionAt {v₀ iv i : ℕ} (hiv : iv ≤ maxInt64)
    (hv : versionAt v₀ iv (i + 1) ≤ 2 ^ 63) : walIndex (versionAt v₀ iv (i + 1)) iv = i + 1 := by
  unfold maxInt64 at hiv
  rw [versionAt_succ] at hv ⊢
  unfold walIndex
  split_ifs <;> omega

theorem walVersion_eq {v₀ iv i : ℕ} (hv : versionAt v₀ iv (i + 1) ≤ maxInt64) :
    walVersion (i + 1) iv = versionAt v₀ iv (i + 1) := by
  unfold maxInt64 at hv
  rw [versionAt_succ] at hv ⊢
  unfold walVersion
  split_ifs <;> omega

/-- Every state can be loaded, its trees are level, and the versions are numbered. -/
structure Numbered (v₀ iv : ℕ) (h : History (MultiTree N) (WALEntry N)) : Prop where
  base : v₀ = 0 ∨ v₀ + 1 = iv
  empty : v₀ = 0 → h.state 0 = MultiTree.newEmptyMultiTree iv
  loadable : ∀ i ≤ h.log.length, (h.state i).Loadable
  level : ∀ i ≤ h.log.length, (h.state i).Level
  version : ∀ i ≤ h.log.length, (h.state i).version = versionAt v₀ iv i
  initialVersion : ∀ i ≤ h.log.length, (h.state i).initialVersion = iv

namespace Numbered

variable {v₀ iv : ℕ} {h : History (MultiTree N) (WALEntry N)} (hn : Numbered v₀ iv h)
include hn

theorem versionAt_le {i : ℕ} (hi : i ≤ h.log.length) : versionAt v₀ iv i ≤ maxInt64 :=
  hn.version i hi ▸ (hn.loadable i hi).version_le

theorem iv_le : iv ≤ maxInt64 := by
  have := (hn.loadable 0 (by omega)).initialVersion_le
  rwa [hn.initialVersion 0 (by omega)] at this

theorem length_le : h.log.length ≤ maxInt64 := by
  have := hn.versionAt_le le_rfl
  unfold versionAt at this
  split_ifs at this <;> omega

theorem nextVersion_state {i : ℕ} (hi : i ≤ h.log.length) :
    nextVersion (h.state i).version (h.state i).initialVersion = versionAt v₀ iv (i + 1) := by
  rw [hn.version i hi, hn.initialVersion i hi, nextVersion_versionAt hn.base (hn.versionAt_le hi)]

theorem versionAt_succ_le {i : ℕ} (hi : i ≤ h.log.length) : versionAt v₀ iv (i + 1) ≤ 2 ^ 63 := by
  have hlt := hn.versionAt_le hi
  have hiv := hn.iv_le
  have := hn.base
  unfold maxInt64 at hlt hiv
  unfold versionAt at hlt ⊢
  split_ifs at hlt ⊢ <;> omega

theorem nextIndex {i : ℕ} (hi : i ≤ h.log.length) : NextIndex (h.state i) (i + 1) := by
  rw [NextIndex, hn.nextVersion_state hi, hn.initialVersion i hi,
    walIndex_versionAt hn.iv_le (hn.versionAt_succ_le hi)]

theorem load_writeSnapshot {i : ℕ} (hi : i ≤ h.log.length) :
    loadMultiTree (h.state i).writeSnapshot = some (h.state i) :=
  (hn.loadable i hi).loadMultiTree_writeSnapshot

theorem coherent {i : ℕ} (hi : i ≤ h.log.length) : (h.state i).Coherent := (hn.loadable i hi).coherent

theorem push {e : WALEntry N} {t : MultiTree N} (hl : t.Loadable) (hlev : t.Level)
    (hv : t.version = versionAt v₀ iv (h.log.length + 1)) (hi : t.initialVersion = iv) :
    Numbered v₀ iv (h.push e t) := by
  have hcases : ∀ i ≤ (h.push e t).log.length, i ≤ h.log.length ∧ (h.push e t).state i = h.state i ∨
      i = h.log.length + 1 ∧ (h.push e t).state i = t := by
    intro i hle
    rw [History.length_log_push] at hle
    rcases hle.lt_or_eq with hlt | rfl
    · exact .inl ⟨by omega, History.state_push_of_le e t (by omega)⟩
    · exact .inr ⟨rfl, by simp [History.push]⟩
  refine ⟨hn.base, fun h0 => ?_, ?_, ?_, ?_, ?_⟩
  · rw [History.state_push_of_le e t (by omega)]
    exact hn.empty h0
  all_goals
    intro i hle
    rcases hcases i hle with ⟨hle, heq⟩ | ⟨rfl, heq⟩ <;> rw [heq]
  · exact hn.loadable i hle
  · exact hl
  · exact hn.level i hle
  · exact hlev
  · exact hn.version i hle
  · exact hv
  · exact hn.initialVersion i hle
  · exact hi

theorem cut (k : ℕ) : Numbered v₀ iv (h.cut k) := by
  have hle : (h.cut k).log.length ≤ h.log.length := by
    simp [History.cut]
  exact ⟨hn.base, hn.empty, fun i hi => hn.loadable i (hi.trans hle), fun i hi => hn.level i (hi.trans hle),
    fun i hi => hn.version i (hi.trans hle), fun i hi => hn.initialVersion i (hi.trans hle)⟩

end Numbered

/-! ### The invariant -/

section Invariant
variable {W : WalLog (WALEntry N)} (v₀ iv : ℕ) (h : History (MultiTree N) (WALEntry N)) (c : ℕ)

/-- The log is a part of the history and reaches back to the current snapshot, which is
the state after `c` entries. -/
structure DiskInv (disk : Disk N W) : Prop where
  holds : W.Holds disk.wal h.log
  le : c ≤ h.log.length
  current : disk.current = versionAt v₀ iv c
  dir : lookupPair disk.current disk.snapshots = some (h.state c).writeSnapshot
  dropped : W.dropped disk.wal ≤ c
  numbers : ∀ v ∈ disk.snapshots.map Prod.fst, ∃ i, v = versionAt v₀ iv i

/-- The entries after those in the log, with their indices. -/
def Queued (w : W.Log) (q : List (ℕ × WALEntry N)) : Prop :=
  q.map Prod.snd = h.log.drop (W.lastIndex w) ∧
    q.map Prod.fst = List.range' (W.lastIndex w + 1) q.length

/-- During a commit something was committed and nothing is pending. A rewritten multitree
that waits is not before the current snapshot. -/
def PhaseInv (db : DB N) : Prop :=
  match db.phase with
  | .idle => True
  | .checking _ => h.log ≠ [] ∧ db.working = ⟨h.last, emptyEntry⟩
  | .waiting _ t _ => h.log ≠ [] ∧ db.working = ⟨h.last, emptyEntry⟩ ∧ db.rewrite = none ∧
      ∃ j, c ≤ j ∧ j ≤ h.log.length ∧ t = h.state j

variable (opts : Options) (replayable behind : Prop)

/-- A rewrite is of a state not before the current snapshot, and fails only when an entry
cannot be replayed. -/
def RewriteInv (disk : Disk N W) : Rewrite N → Prop
  | .copied t => ∃ j, c ≤ j ∧ j ≤ h.log.length ∧ t = h.state j
  | .written t => ∃ j, c ≤ j ∧ j ≤ h.log.length ∧ t = h.state j
  | .renamed v => ∃ j, c ≤ j ∧ j ≤ h.log.length ∧ v = versionAt v₀ iv j ∧
      lookupPair v disk.snapshots = some (h.state j).writeSnapshot
  | .tmpLinked v => ∃ j, c ≤ j ∧ j ≤ h.log.length ∧ v = versionAt v₀ iv j ∧
      lookupPair v disk.snapshots = some (h.state j).writeSnapshot
  | .loaded t _ => ∃ j, c ≤ j ∧ j ≤ h.log.length ∧ t = h.state j
  | .ready t _ => ∃ j, c ≤ j ∧ j ≤ h.log.length ∧ t = h.state j
  | .failed => ¬ replayable
  | _ => True

/-- Pruning keeps the current snapshot: once it is visited, no kept version is later. -/
def PruneInv : Pruning → Prop
  | .started => True
  | .visiting cur todo _ earliest =>
    cur ≤ versionAt v₀ iv c ∧ todo.Pairwise (· ≥ ·) ∧ (∀ v ∈ todo, ∃ i, v = versionAt v₀ iv i) ∧
      (earliest = 0 ∨ ∃ i, earliest = versionAt v₀ iv i) ∧
      (cur ∈ todo ∨ (∀ v ∈ todo, v ≤ cur) ∧ earliest ≤ cur)

/-- The changes of the block lead to the trees, or cannot be replayed. -/
def WorkingInv (d : Working N) : Prop :=
  (∃ up, Clean h.last up d) ∨ ¬ replayable ∧ ∃ up, Poisoned h.last up d

/-- The snapshot version in memory matters only while the log is empty. -/
structure DBInv (disk : Disk N W) (db : DB N) : Prop where
  working : WorkingInv h replayable db.working
  snapshotVersion : W.lastIndex disk.wal = 0 → db.snapshotVersion = v₀
  queue : Queued h disk.wal (db.batch ++ db.walChan)
  sync : opts.asyncCommit = false → db.batch ++ db.walChan = []
  writer : db.writerFailed = false
  phase : PhaseInv h c db
  rewrite : ∀ r ∈ db.rewrite, RewriteInv v₀ iv h c replayable disk r
  pruning : ∀ p ∈ db.pruning, PruneInv v₀ iv c p

/-- The invariant for a history and the place of the current snapshot in it. -/
structure Inv (sha256 : Bytes → Bytes) (s : World N W) : Prop where
  numbered : Numbered v₀ iv h
  sound : h.Sound (MultiTree.entryStep sha256)
  complete : replayable → h.Complete (MultiTree.entryStep sha256)
  disk : DiskInv v₀ iv h c s.disk
  behind : behind → c ≤ W.lastIndex s.disk.wal
  db : ∀ db ∈ s.db, DBInv v₀ iv h c opts replayable s.disk db
  closed : s.db = none → W.lastIndex s.disk.wal = h.log.length

end Invariant

end IavlStore.Db
