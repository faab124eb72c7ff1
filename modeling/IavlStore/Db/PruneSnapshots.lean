import IavlStore.Db.Model

/-! All steps of one pruning. The snapshots from the current one on and the most recent
older ones are kept. An older one survives all the same when its exporter lock is held or
its removal fails, and the log is truncated up to the earliest kept one without regard to
it. So the log keeps what every remaining snapshot needs exactly when it had nothing
between a surviving snapshot and the earliest kept one, or nothing after that. -/

namespace IavlStore.Db

open IavlStore.Base.Encoding IavlStore.Base.SortedPairs IavlStore.Multi

variable {N : Type} {W : WalLog (WALEntry N)}

section Steps
variable (opts : Options) (initialVersion : ℕ) (removable : ℕ → Bool)

def Disk.versions (disk : Disk N W) : List ℕ := disk.snapshots.map Prod.fst

/-- Whether the next step removes the version it visits. -/
def Pruning.removes (removable : ℕ → Bool) : Pruning → Bool
  | .visiting _ (v :: _) _ _ => removable v
  | _ => false

/-- Steps of pruning, until it ends. -/
def pruneSteps : ℕ → Disk N W → Pruning → Disk N W × Option Pruning
  | 0, disk, p => (disk, some p)
  | n + 1, disk, p =>
    match pruneStep opts (p.removes removable) initialVersion disk p with
    | (disk, none) => (disk, none)
    | (disk, some p) => pruneSteps n disk p

/-- One step to begin, one for each snapshot and one to truncate the log. A version is
removable when its exporter lock is free and the removal does not fail. -/
def pruneSnapshots (disk : Disk N W) : Disk N W :=
  (pruneSteps opts initialVersion removable (disk.snapshots.length + 2) disk .started).1

end Steps

/-- The current version, later ones, and those with fewer than `keepRecent` versions in between. -/
def Kept (keepRecent current : ℕ) (versions : List ℕ) (v : ℕ) : Prop :=
  current ≤ v ∨ (versions.filter fun w => v < w ∧ w < current).length < keepRecent

instance (keepRecent current : ℕ) (versions : List ℕ) (v : ℕ) :
    Decidable (Kept keepRecent current versions v) := by
  unfold Kept
  infer_instance

/-! ### Visiting the snapshots -/

variable {opts : Options} {initialVersion : ℕ} {removable : ℕ → Bool} {disk : Disk N W}

/-- In descending order the versions visited before are the later ones. -/
theorem kept_head_iff {cur v keepRecent : ℕ} {before todo : List ℕ}
    (hs : (before ++ v :: todo).Pairwise (· > ·)) :
    Kept keepRecent cur (before ++ v :: todo) v ↔
      cur ≤ v ∨ 0 < keepRecent - (before.filter fun w => w < cur).length := by
  obtain ⟨-, hv, hbefore⟩ := List.pairwise_append.mp hs
  have h₁ : before.filter (fun w => v < w ∧ w < cur) = before.filter fun w => w < cur := by
    refine List.filter_congr fun w hw => ?_
    have hlt : v < w := hbefore w hw v (by simp)
    simp [hlt]
  have h₂ : (v :: todo).filter (fun w => v < w ∧ w < cur) = [] := by
    refine List.filter_eq_nil_iff.mpr fun w hw => ?_
    have hle : w ≤ v := by
      rcases List.mem_cons.mp hw with rfl | hw
      · exact le_rfl
      · exact ((List.pairwise_cons.mp hv).1 w hw).le
    simp [not_lt.mpr hle]
  unfold Kept
  rw [List.filter_append, h₁, h₂, List.append_nil]
  omega

section Visits
variable (opts) (removable) (cur : ℕ) (all : List ℕ)

/-- Pruning after these versions were visited: the last kept one is remembered. -/
def visited (before : List ℕ) : Pruning :=
  .visiting cur (all.drop before.length)
    (opts.snapshotKeepRecent - (before.filter fun w => w < cur).length)
    ((before.filter fun v => Kept opts.snapshotKeepRecent cur all v).getLast?.getD 0)

/-- The disk then: versions that are neither kept nor stuck were removed. -/
def afterVisits (disk : Disk N W) (before : List ℕ) : Disk N W :=
  { disk with
    snapshots := disk.snapshots.filter fun p =>
      p.1 ∉ before ∨ Kept opts.snapshotKeepRecent cur all p.1 ∨ removable p.1 = false }

end Visits

/-- A visit removes a version that is neither kept nor stuck. -/
theorem afterVisits_concat {cur v : ℕ} (before all : List ℕ) (disk : Disk N W) :
    afterVisits opts removable cur all disk (before ++ [v]) =
      if ¬ Kept opts.snapshotKeepRecent cur all v ∧ removable v then
        { afterVisits opts removable cur all disk before with
          snapshots := erasePair v (afterVisits opts removable cur all disk before).snapshots }
      else afterVisits opts removable cur all disk before := by
  unfold afterVisits
  split_ifs with hv
  · congr 1
    rw [erasePair, List.filter_filter]
    refine List.filter_congr fun p _ => ?_
    by_cases hp : p.1 = v
    · simp [hp, hv.1, hv.2]
    · simp [hp]
  · congr 1
    refine List.filter_congr fun p _ => ?_
    by_cases hp : p.1 = v
    · have hkeep : Kept opts.snapshotKeepRecent cur all v ∨ removable v = false := by
        by_cases hk : Kept opts.snapshotKeepRecent cur all v
        · exact .inl hk
        · exact .inr (by simpa [hk] using hv)
      simp [hp, hkeep]
    · simp [hp]

theorem pruneStep_visited {cur v : ℕ} {before todo all : List ℕ} (hall : all = before ++ v :: todo)
    (hs : all.Pairwise (· > ·)) (disk : Disk N W) :
    pruneStep opts ((visited opts cur all before).removes removable) initialVersion
        (afterVisits opts removable cur all disk before) (visited opts cur all before) =
      (afterVisits opts removable cur all disk (before ++ [v]), some (visited opts cur all (before ++ [v]))) := by
  have hdrop : all.drop before.length = v :: todo := by rw [hall, List.drop_left]
  have hdrop' : all.drop (before ++ [v]).length = todo := by
    rw [hall, List.length_append, List.length_singleton, ← List.drop_drop, List.drop_left]
    rfl
  have hlater : ∀ w ∈ before, v < w := by
    rw [hall] at hs
    exact fun w hw => (List.pairwise_append.mp hs).2.2 w hw v (by simp)
  have hkept : Kept opts.snapshotKeepRecent cur all v ↔
      cur ≤ v ∨ 0 < opts.snapshotKeepRecent - (before.filter fun w => w < cur).length := by
    rw [hall] at hs ⊢
    exact kept_head_iff hs
  -- the remembered version is a later one, if there is any
  have hlast : ∀ e, (before.filter fun v => Kept opts.snapshotKeepRecent cur all v).getLast?.getD 0 = e →
      e = 0 ∨ v < e := by
    rintro e rfl
    rcases hl : (before.filter fun v => Kept opts.snapshotKeepRecent cur all v).getLast? with _ | x
    · exact .inl rfl
    · exact .inr (hlater x (List.mem_of_mem_filter (List.mem_of_getLast? hl)))
  simp only [visited, hdrop, hdrop']
  simp only [pruneStep, Pruning.removes, afterVisits_concat, List.filter_append, List.filter_singleton,
    List.length_append]
  by_cases hk : Kept opts.snapshotKeepRecent cur all v
  · simp only [hk, not_true_eq_false, false_and, ↓reduceIte, decide_true, cond_true, List.getLast?_concat,
      Option.getD_some, if_pos (hkept.mp hk), if_pos (hlast _ rfl)]
    congr 3
    by_cases hc : cur ≤ v
    · simp [hc, not_lt.mpr hc]
    · simp [hc, not_le.mp hc, Nat.sub_sub]
  · have hlt : v < cur := not_le.mp fun hc => hk (.inl hc)
    have hcounter : opts.snapshotKeepRecent - (before.filter fun w => w < cur).length = 0 := by
      by_contra hne
      exact hk (hkept.mpr (.inr (by omega)))
    rw [if_neg (hkept.not.mp hk)]
    simp only [hk, not_false_eq_true, true_and, decide_false, cond_false, List.append_nil, hlt, decide_true,
      cond_true, List.length_singleton]
    congr 3
    omega

/-- All the visits. -/
theorem pruneSteps_visited {cur n : ℕ} {before todo all : List ℕ} (hall : all = before ++ todo)
    (hs : all.Pairwise (· > ·)) (disk : Disk N W) :
    pruneSteps opts initialVersion removable (todo.length + n)
        (afterVisits opts removable cur all disk before) (visited opts cur all before) =
      pruneSteps opts initialVersion removable n (afterVisits opts removable cur all disk all)
        (visited opts cur all all) := by
  induction todo generalizing before with
  | nil =>
    rw [List.append_nil] at hall
    simp [hall]
  | cons v todo ih =>
    rw [List.length_cons, Nat.add_right_comm, pruneSteps, pruneStep_visited hall hs]
    exact ih (by rw [hall, List.append_assoc]; rfl)

/-! ### The whole of pruning -/

theorem isLeast_getLast {p : ℕ → Bool} {all : List ℕ} (hs : all.Pairwise (· > ·)) {v : ℕ} (hv : v ∈ all)
    (hp : p v = true) : IsLeast {v | v ∈ all ∧ p v = true} ((all.filter p).getLast?.getD 0) := by
  rcases hl : (all.filter p).getLast? with _ | x
  · rw [List.getLast?_eq_none_iff] at hl
    exact absurd (List.mem_filter.mpr ⟨hv, hp⟩) (by simp [hl])
  · obtain ⟨init, hinit⟩ := List.getLast?_eq_some_iff.mp hl
    have hsorted : (init ++ [x]).Pairwise (· > ·) := hinit ▸ hs.filter p
    refine ⟨List.mem_filter.mp (List.mem_of_getLast? hl), fun w hw => ?_⟩
    have hmem : w ∈ init ++ [x] := hinit ▸ List.mem_filter.mpr hw
    rcases List.mem_append.mp hmem with hmem | hmem
    · exact ((List.pairwise_append.mp hsorted).2.2 w hmem x (by simp)).le
    · exact (List.mem_singleton.mp hmem).ge

/-- Version zero also stands for no version. Then it is the earliest snapshot that is left. -/
theorem earliest_of_isLeast {keepRecent e : ℕ}
    (h : IsLeast {v | v ∈ disk.versions ∧ Kept keepRecent disk.current disk.versions v} e) :
    (if e = 0 then ((disk.snapshots.filter fun p =>
      Kept keepRecent disk.current disk.versions p.1 ∨ removable p.1 = false).map Prod.fst).min?
      else some e) = some e := by
  split_ifs with h0
  · obtain ⟨hmem, hk⟩ := h.1
    obtain ⟨p, hp, hpv⟩ := List.mem_map.mp hmem
    rw [List.min?_eq_some_iff, h0]
    refine ⟨List.mem_map.mpr ⟨p, List.mem_filter.mpr ⟨hp, ?_⟩, hpv.trans h0⟩, fun b _ => Nat.zero_le b⟩
    simp [hpv, hk]
  · rfl

/-- Pruning removes what is neither kept nor stuck and truncates the log up to the earliest kept
version. -/
theorem pruneSnapshots_eq (opts : Options) (initialVersion : ℕ) (removable : ℕ → Bool)
    (hnd : disk.versions.Nodup) (hcur : disk.current ∈ disk.versions) :
    ∃ e, IsLeast {v | v ∈ disk.versions ∧ Kept opts.snapshotKeepRecent disk.current disk.versions v} e ∧
      pruneSnapshots opts initialVersion removable disk = { disk with
        snapshots := disk.snapshots.filter fun p =>
          Kept opts.snapshotKeepRecent disk.current disk.versions p.1 ∨ removable p.1 = false
        wal := (W.truncateFront disk.wal (walIndex (next e) initialVersion)).getD disk.wal } := by
  set all := disk.versions.insertionSort (· ≥ ·) with hall
  have hperm : all.Perm disk.versions := List.perm_insertionSort _ _
  have hs : all.Pairwise (· > ·) := by
    refine (List.pairwise_insertionSort (· ≥ ·) disk.versions).imp₂ ?_ (hperm.nodup_iff.mpr hnd)
    exact fun a b hge hne => lt_of_le_of_ne hge hne.symm
  have hkept : ∀ v, Kept opts.snapshotKeepRecent disk.current all v ↔
      Kept opts.snapshotKeepRecent disk.current disk.versions v := by
    intro v
    unfold Kept
    rw [(hperm.filter _).length_eq]
  set e := (all.filter fun v => Kept opts.snapshotKeepRecent disk.current all v).getLast?.getD 0 with he
  have hleast : IsLeast {v | v ∈ disk.versions ∧ Kept opts.snapshotKeepRecent disk.current disk.versions v} e := by
    have h := isLeast_getLast (p := fun v => Kept opts.snapshotKeepRecent disk.current all v) hs
      (hperm.mem_iff.mpr hcur) (decide_eq_true (.inl le_rfl))
    have hset : {v | v ∈ all ∧ decide (Kept opts.snapshotKeepRecent disk.current all v) = true} =
        {v | v ∈ disk.versions ∧ Kept opts.snapshotKeepRecent disk.current disk.versions v} := by
      ext v
      exact and_congr hperm.mem_iff (decide_eq_true_iff.trans (hkept v))
    rwa [hset] at h
  refine ⟨e, hleast, ?_⟩
  have hlen : disk.snapshots.length = all.length := by
    rw [hperm.length_eq, Disk.versions, List.length_map]
  have hstart : pruneStep opts (Pruning.started.removes removable) initialVersion disk .started =
      (afterVisits opts removable disk.current all disk [], some (visited opts disk.current all [])) := by
    simp [pruneStep, afterVisits, visited, hall, Disk.versions]
  have hdisk : afterVisits opts removable disk.current all disk all = { disk with
      snapshots := disk.snapshots.filter fun p =>
        Kept opts.snapshotKeepRecent disk.current disk.versions p.1 ∨ removable p.1 = false } := by
    unfold afterVisits
    congr 1
    refine List.filter_congr fun p hp => ?_
    have hmem : p.1 ∈ all := hperm.mem_iff.mpr (List.mem_map_of_mem hp)
    simp [hmem, hkept]
  rw [pruneSnapshots, hlen, show all.length + 2 = (all.length + 1) + 1 from rfl, pruneSteps, hstart]
  dsimp only
  rw [pruneSteps_visited (List.nil_append all).symm hs, pruneSteps, hdisk]
  simp only [visited, List.drop_length, pruneStep, ← he, earliest_of_isLeast hleast]

/-! ### What the remaining snapshots need -/

/-- The log is truncated at an index before which there are the versions up to the earliest
kept one, apart from versions that are not in the log at all. -/
theorem walIndex_of_le {e v iv last : ℕ} (he : e ≤ maxInt64)
    (hlast : iv - 1 + last ≤ maxInt64) (hidx : walIndex (next e) iv ≤ last) (hv : v ≤ e) :
    walIndex v iv < walIndex (next e) iv ∨ last < walIndex v iv := by
  rw [next_eq he] at hidx ⊢
  unfold maxInt64 at he hlast
  unfold walIndex at hidx ⊢
  split_ifs at hidx ⊢ <;> omega

theorem le_walIndex_of_lt {e v iv last : ℕ} (he : e ≤ maxInt64)
    (hlast : iv - 1 + last ≤ maxInt64) (hidx : walIndex (next e) iv ≤ last) (hev : e < v)
    (hv : v ≤ maxInt64) : walIndex (next e) iv ≤ walIndex v iv := by
  rw [next_eq he] at hidx ⊢
  unfold maxInt64 at he hlast hv
  unfold walIndex at hidx ⊢
  split_ifs at hidx ⊢ <;> omega

theorem mem_versions_filter {p : ℕ → Prop} [DecidablePred p] {v : ℕ} :
    v ∈ Disk.versions { disk with snapshots := disk.snapshots.filter fun q => p q.1 } ↔
      v ∈ disk.versions ∧ p v := by
  simp only [Disk.versions, List.mem_map, List.mem_filter, decide_eq_true_eq]
  constructor
  · rintro ⟨q, ⟨hq, hp⟩, rfl⟩
    exact ⟨⟨q, hq, rfl⟩, hp⟩
  · rintro ⟨⟨q, hq, rfl⟩, hp⟩
    exact ⟨q, ⟨hq, hp⟩, rfl⟩

/-- The versions from the current one on and the most recent older ones are still there. The
log still has, for every snapshot that is left, all later versions it had before, exactly when
it had no version between a surviving snapshot and the earliest kept one, or none right after
that one. -/
theorem pruneSnapshots_replayable_iff (hnd : disk.versions.Nodup) (hcur : disk.current ∈ disk.versions)
    (hv : ∀ v ∈ disk.versions, v ≤ maxInt64)
    (hlast : initialVersion - 1 + W.lastIndex disk.wal ≤ maxInt64) :
    let disk' := pruneSnapshots opts initialVersion removable disk
    let kept := Kept opts.snapshotKeepRecent disk.current disk.versions
    (∀ v ∈ disk.versions, kept v → v ∈ disk'.versions) ∧
    ((∀ s ∈ disk'.versions, ∀ v, s < v → v ≤ maxInt64 →
        W.read disk'.wal (walIndex v initialVersion) = W.read disk.wal (walIndex v initialVersion)) ↔
      ∀ s ∈ disk.versions, ¬ kept s → removable s = false →
        ∀ e, IsLeast {v | v ∈ disk.versions ∧ kept v} e →
          W.read disk.wal (walIndex (next e) initialVersion) = none ∨
            ∀ v, s < v → v ≤ e → W.read disk.wal (walIndex v initialVersion) = none) := by
  intro disk' kept
  obtain ⟨e, hleast, heq⟩ := pruneSnapshots_eq opts initialVersion removable hnd hcur
  have he : e ≤ maxInt64 := hv e hleast.1.1
  have hmem : ∀ v, v ∈ disk'.versions ↔ v ∈ disk.versions ∧ (kept v ∨ removable v = false) := by
    intro v
    rw [show disk' = _ from heq]
    exact mem_versions_filter (p := fun v => kept v ∨ removable v = false)
  have hwal : disk'.wal =
      (W.truncateFront disk.wal (walIndex (next e) initialVersion)).getD disk.wal := by
    rw [show disk' = _ from heq]
  refine ⟨fun v hmv hk => (hmem v).mpr ⟨hmv, .inl hk⟩, ?_⟩
  by_cases hrange : W.read disk.wal (walIndex (next e) initialVersion) = none
  · -- the truncation fails and the log stays as it is
    have hsame : disk'.wal = disk.wal := by
      rw [hwal, W.truncateFront_out_of_range _ _ (WalLog.read_eq_none_iff.mp hrange)]
      rfl
    refine iff_of_true (fun s _ v _ _ => by rw [hsame]) fun s _ _ _ e' he' => ?_
    rw [he'.unique hleast]
    exact .inl hrange
  · rw [WalLog.read_eq_none_iff, not_not] at hrange
    obtain ⟨w', htr, -⟩ := W.truncateFront_eq _ _ hrange.1 hrange.2
    have hread : ∀ v, W.read disk'.wal (walIndex v initialVersion) =
        if walIndex v initialVersion < walIndex (next e) initialVersion then none
        else W.read disk.wal (walIndex v initialVersion) := by
      intro v
      rw [hwal, htr, Option.getD_some]
      exact WalLog.read_truncateFront htr _
    have hafter : ∀ v, e < v → v ≤ maxInt64 →
        W.read disk'.wal (walIndex v initialVersion) = W.read disk.wal (walIndex v initialVersion) := by
      intro v hev hvm
      rw [hread, if_neg (not_lt.mpr (le_walIndex_of_lt he hlast hrange.2 hev hvm))]
    have hbefore : ∀ v ≤ e, W.read disk'.wal (walIndex v initialVersion) = none := by
      intro v hve
      rw [hread]
      split_ifs with hlt
      · rfl
      · rcases walIndex_of_le he hlast hrange.2 hve with h | h
        · exact absurd h hlt
        · rw [WalLog.read_eq_none_iff]
          omega
    constructor
    · intro hall s hs hk hr e' he'
      rw [he'.unique hleast]
      refine .inr fun v hsv hve => ?_
      rw [← hall s ((hmem s).mpr ⟨hs, .inr hr⟩) v hsv (hve.trans he), hbefore v hve]
    · intro hneed s hs v hsv hvm
      obtain ⟨hs, hkept⟩ := (hmem s).mp hs
      by_cases hev : e < v
      · exact hafter v hev hvm
      · have hk : ¬ kept s := fun hk => hev ((hleast.2 ⟨hs, hk⟩).trans_lt hsv)
        rw [hbefore v (not_lt.mp hev)]
        rcases hneed s hs hk (hkept.resolve_left hk) e hleast with hnone | hnone
        · exact absurd hnone (by rw [WalLog.read_eq_none_iff]; omega)
        · exact (hnone v hsv (not_lt.mp hev)).symm

/-! ### A locked snapshot -/

/-- Snapshots of the versions two, four and six, and a log of eight entries. -/
def threeSnapshots : Disk ℕ (listLog (WALEntry ℕ)) :=
  ⟨[2, 4, 6].map fun v => (v, ⟨⟨v, []⟩, 0, []⟩), 6, none, (0, List.replicate 8 emptyEntry)⟩

/-- All older snapshots are removed, and the log keeps the entries after the current one. -/
theorem pruneSnapshots_replayable_all :
    let disk' := pruneSnapshots ⟨1, 0, true⟩ 0 (fun _ => true) threeSnapshots
    disk'.versions = [6] ∧ disk'.wal = (6, List.replicate 2 emptyEntry) ∧
      ∀ s ∈ disk'.versions, ∀ v, s < v → v ≤ maxInt64 →
        (listLog _).read disk'.wal (walIndex v 0) = (listLog _).read threeSnapshots.wal (walIndex v 0) := by
  refine ⟨rfl, rfl, ?_⟩
  refine (pruneSnapshots_replayable_iff (by decide) (by decide) (by decide) (by decide)).2.mpr ?_
  intro s _ _ hr
  exact absurd hr (by simp)

/-- The snapshot of version two is locked. It survives, and the log begins after version six. -/
theorem locked_snapshot_loses_log :
    let disk' := pruneSnapshots ⟨1, 0, true⟩ 0 (fun v => v ≠ 2) threeSnapshots
    disk'.versions = [2, 6] ∧ (listLog _).read threeSnapshots.wal (walIndex 3 0) = some emptyEntry ∧
      (listLog _).read disk'.wal (walIndex 3 0) = none :=
  ⟨rfl, rfl, rfl⟩

end IavlStore.Db
