import IavlStore.Changeset.Format

/-! Splitting a range of versions for workers. All ranges but the last have one length, the rounded
quotient, so the files of the workers, one after the other, hold every version once. -/

namespace IavlStore.Changeset

open IavlStore.Base.Encoding

/-- The versions from `start` on, before `stop`. -/
structure Range where
  start : ℤ
  stop : ℤ
  deriving DecidableEq

/-- The versions of a range, in order. -/
def Range.versions (r : Range) : List ℤ := (List.range (r.stop - r.start).toNat).map fun k : ℕ => r.start + k

/-- Ranges of one size up to the end of the full one; `none` when the rounds are used up before. -/
def rangesFrom (stop chunkSize : ℤ) : ℕ → ℤ → Option (List Range)
  | 0, i => if i < stop then none else some []
  | rounds + 1, i =>
    if i < stop then
      let chunkEnd := addInt64 i chunkSize
      let chunkEnd := if stop < chunkEnd then stop else chunkEnd
      (rangesFrom stop chunkSize rounds (addInt64 i chunkSize)).map (⟨i, chunkEnd⟩ :: ·)
    else some []

def splitWorkLoad (rounds : ℕ) (workers : ℤ) (full : Range) : Option (List Range) :=
  let chunkSize := (addInt64 (addInt64 (addInt64 full.stop (-full.start)) workers) (-1)).tdiv workers
  rangesFrom full.stop chunkSize rounds full.start

/-- The chunks of a store, one output file each. -/
def dumpChunks (rounds : ℕ) (chunkSize : ℤ) (full : Range) : Option (List Range) :=
  rangesFrom full.stop chunkSize rounds full.start

/-- The file of a worker: the change sets of the versions in its range. -/
def dumpRangeBlocks (changeSets : ℤ → ChangeSet) (blockRange : Range) : Option Bytes :=
  writeChangeSets (blockRange.versions.map fun version => (version, changeSets version))

/-- The file of a chunk: the files of the workers one after the other. -/
def collect (changeSets : ℤ → ChangeSet) (tasks : List Range) : Option Bytes := do
  let taskFiles ← tasks.mapM (dumpRangeBlocks changeSets)
  return taskFiles.flatten

/-- Ranges that are not empty and follow each other from `start` to `stop`. -/
def Adjacent (start stop : ℤ) : List Range → Prop
  | [] => start = stop
  | r :: rs => r.start = start ∧ r.start < r.stop ∧ Adjacent r.stop stop rs

theorem Adjacent.le {start stop : ℤ} {rs : List Range} (h : Adjacent start stop rs) : start ≤ stop := by
  induction rs generalizing start with
  | nil => exact le_of_eq h
  | cons r rs ih =>
    obtain ⟨rfl, hlt, hrest⟩ := h
    exact hlt.le.trans (ih hrest)

theorem versions_append {a b c : ℤ} (hab : a ≤ b) (hbc : b ≤ c) :
    Range.versions ⟨a, b⟩ ++ Range.versions ⟨b, c⟩ = Range.versions ⟨a, c⟩ := by
  have hlen : (c - a).toNat = (b - a).toNat + (c - b).toNat := by omega
  simp only [Range.versions, hlen, List.range_add, List.map_append, List.map_map]
  congr 1
  refine List.map_congr_left fun k _ => ?_
  simp only [Function.comp_apply, Nat.cast_add]
  omega

/-- Adjacent ranges hold every version once, in order. -/
theorem Adjacent.versions {start stop : ℤ} {rs : List Range} (h : Adjacent start stop rs) :
    rs.flatMap Range.versions = Range.versions ⟨start, stop⟩ := by
  induction rs generalizing start with
  | nil =>
    obtain rfl : start = stop := h
    simp [Range.versions]
  | cons r rs ih =>
    obtain ⟨start, next⟩ := r
    obtain ⟨rfl, hlt, hrest⟩ := h
    rw [List.flatMap_cons, ih hrest, versions_append hlt.le hrest.le]

theorem writeChangeSets_append (l m : List (ℤ × ChangeSet)) :
    writeChangeSets (l ++ m) = do
      let file ← writeChangeSets l
      let rest ← writeChangeSets m
      return file ++ rest := by
  simp only [writeChangeSets, List.mapM_append]
  generalize (l.mapM fun r => writeChangeSet r.1 r.2) = written
  generalize (m.mapM fun r => writeChangeSet r.1 r.2) = written'
  rcases written with _ | written
  · rfl
  · rcases written' with _ | written'
    · rfl
    · exact congrArg some List.flatten_append

/-- The files of the workers make the file of all their versions. -/
theorem collect_eq (changeSets : ℤ → ChangeSet) (tasks : List Range) :
    collect changeSets tasks =
      writeChangeSets ((tasks.flatMap Range.versions).map fun version => (version, changeSets version)) := by
  induction tasks with
  | nil => rfl
  | cons task tasks ih =>
    rw [List.flatMap_cons, List.map_append, writeChangeSets_append, ← ih, collect, List.mapM_cons, collect, dumpRangeBlocks]
    generalize writeChangeSets (task.versions.map fun version => (version, changeSets version)) = file
    generalize tasks.mapM (dumpRangeBlocks changeSets) = files
    rcases file with _ | file
    · rfl
    · rcases files with _ | files <;> rfl

theorem addInt64_eq {a b : ℤ} (h : -2 ^ 63 ≤ a + b ∧ a + b < 2 ^ 63) : addInt64 a b = a + b := int64_uint64 h

/-- As many rounds as ranges of this size are needed are enough. -/
theorem rangesFrom_eq {stop chunkSize i : ℤ} {k : ℕ} (hi : 0 ≤ i ∧ i ≤ stop) (hstop : stop < 2 ^ 62)
    (hsize : 0 ≤ chunkSize ∧ chunkSize < 2 ^ 62) (hk : stop - i ≤ k * chunkSize) :
    ∃ chunks, (∀ rounds, k ≤ rounds → rangesFrom stop chunkSize rounds i = some chunks) ∧ chunks.length ≤ k ∧
      Adjacent i stop chunks := by
  induction k generalizing i with
  | zero =>
    obtain rfl : i = stop := by simp at hk; omega
    refine ⟨[], fun rounds _ => ?_, le_rfl, rfl⟩
    cases rounds <;> simp [rangesFrom]
  | succ k ih =>
    by_cases hdone : i = stop
    · subst hdone
      refine ⟨[], fun rounds _ => ?_, Nat.zero_le _, rfl⟩
      cases rounds <;> simp [rangesFrom]
    · have hlt : i < stop := by omega
      have hsum : addInt64 i chunkSize = i + chunkSize := addInt64_eq (by omega)
      have hpos : 0 < chunkSize := by
        rcases hsize.1.lt_or_eq with hpos | rfl
        · exact hpos
        · simp at hk; omega
      rw [Nat.cast_succ, Int.add_mul, Int.one_mul] at hk
      by_cases hlast : stop < i + chunkSize
      · -- the last range is clipped, and the next round finds nothing left
        refine ⟨[⟨i, stop⟩], fun rounds hrounds => ?_, by simp, rfl, hlt, rfl⟩
        obtain ⟨rounds, rfl⟩ : ∃ n, rounds = n + 1 := ⟨rounds - 1, by omega⟩
        have hend : rangesFrom stop chunkSize rounds (i + chunkSize) = some [] := by
          cases rounds <;> simp [rangesFrom, hlast.le]
        simp only [rangesFrom, hlt, hsum, hend, hlast, if_true, Option.map_some]
      · obtain ⟨chunks, hchunks, hlen, hadj⟩ := ih (i := i + chunkSize) ⟨by omega, by omega⟩ (by omega)
        refine ⟨⟨i, i + chunkSize⟩ :: chunks, fun rounds hrounds => ?_, by simpa using hlen, rfl, by simpa, hadj⟩
        obtain ⟨rounds, rfl⟩ : ∃ n, rounds = n + 1 := ⟨rounds - 1, by omega⟩
        simp only [rangesFrom, hlt, hsum, hchunks rounds (by omega), hlast, if_true, if_false, Option.map_some]

theorem Adjacent.nonempty {start stop : ℤ} {rs : List Range} (h : Adjacent start stop rs) :
    ∀ r ∈ rs, r.start < r.stop := by
  induction rs generalizing start with
  | nil => simp
  | cons r rs ih =>
    obtain ⟨-, hlt, hrest⟩ := h
    exact List.forall_mem_cons.mpr ⟨hlt, ih hrest⟩

/-- The chunks hold every version of the store once. -/
theorem dumpChunks_versions {chunkSize : ℤ} (hsize : 1 ≤ chunkSize ∧ chunkSize < 2 ^ 62) {full : Range}
    (hfull : 0 ≤ full.start ∧ full.start ≤ full.stop ∧ full.stop < 2 ^ 62) :
    ∃ chunks, (∀ rounds, (full.stop - full.start).toNat ≤ rounds → dumpChunks rounds chunkSize full = some chunks) ∧
      chunks.flatMap Range.versions = full.versions := by
  have hk : full.stop - full.start ≤ ((full.stop - full.start).toNat : ℕ) * chunkSize := by
    rw [Int.toNat_of_nonneg (by omega)]
    exact le_mul_of_one_le_right (by omega) hsize.1
  obtain ⟨chunks, hchunks, -, hadj⟩ := rangesFrom_eq ⟨hfull.1, hfull.2.1⟩ hfull.2.2 ⟨by omega, hsize.2⟩ hk
  exact ⟨chunks, hchunks, hadj.versions⟩

/-- The work of at least one worker is split in at most as many ranges as there are workers, and
these have the versions of the full range, one after the other. -/
theorem splitWorkLoad_partition (workers : ℤ) (hworkers : 1 ≤ workers ∧ workers < 2 ^ 62) (full : Range)
    (hfull : 0 ≤ full.start ∧ full.start ≤ full.stop ∧ full.stop < 2 ^ 62) :
    ∃ chunks, (∀ rounds, workers.toNat ≤ rounds → splitWorkLoad rounds workers full = some chunks) ∧
      (chunks.length : ℤ) ≤ workers ∧ (∀ r ∈ chunks, r.start < r.stop) ∧ Adjacent full.start full.stop chunks ∧
      chunks.flatMap Range.versions = full.versions ∧
      ∀ changeSets, collect changeSets chunks = dumpRangeBlocks changeSets full := by
  obtain ⟨start, stop⟩ := full
  obtain ⟨hstart, hle, hstop⟩ := hfull
  dsimp only at hstart hle hstop
  have hsum : addInt64 (addInt64 (addInt64 stop (-start)) workers) (-1) = stop - start + workers - 1 := by
    have hlen : addInt64 stop (-start) = stop - start := addInt64_eq (by omega)
    have hadd : addInt64 (stop - start) workers = stop - start + workers := addInt64_eq (by omega)
    rw [hlen, hadd, addInt64_eq (by omega)]
    rfl
  obtain ⟨chunkSize, hsize⟩ : ∃ c, c = (stop - start + workers - 1) / workers := ⟨_, rfl⟩
  have hsplit : ∀ rounds, splitWorkLoad rounds workers ⟨start, stop⟩ = rangesFrom stop chunkSize rounds start := by
    intro rounds
    rw [splitWorkLoad, hsum, Int.tdiv_eq_ediv_of_nonneg (by omega), hsize]
  -- the quotient is rounded up
  have hlower : stop - start ≤ workers * chunkSize := by
    have hmod := Int.emod_lt_of_pos (stop - start + workers - 1) (show 0 < workers by omega)
    have hdiv := Int.mul_ediv_add_emod (stop - start + workers - 1) workers
    rw [← hsize] at hdiv
    omega
  have hupper : chunkSize < stop - start + 1 := by
    have hmul : stop - start ≤ (stop - start) * workers := le_mul_of_one_le_right (by omega) hworkers.1
    rw [hsize]
    refine Int.ediv_lt_of_lt_mul (by omega) ?_
    rw [Int.add_mul, Int.one_mul]
    omega
  have hnonneg : 0 ≤ chunkSize := by
    rw [hsize]
    exact Int.ediv_nonneg (by omega) (by omega)
  have hk : stop - start ≤ (workers.toNat : ℕ) * chunkSize := by rwa [Int.toNat_of_nonneg (by omega)]
  obtain ⟨chunks, hchunks, hlen, hadj⟩ := rangesFrom_eq ⟨hstart, hle⟩ hstop ⟨hnonneg, by omega⟩ hk
  refine ⟨chunks, fun rounds hr => (hsplit rounds).trans (hchunks rounds hr), by omega, hadj.nonempty, hadj,
    hadj.versions, fun changeSets => ?_⟩
  rw [collect_eq, hadj.versions, dumpRangeBlocks]

/-- Five versions for four workers take three ranges. -/
theorem splitWorkLoad_five :
    ∃ chunks, splitWorkLoad 4 4 ⟨10, 15⟩ = some chunks ∧ chunks.length ≤ 4 ∧ chunks = [⟨10, 12⟩, ⟨12, 14⟩, ⟨14, 15⟩] := by
  obtain ⟨chunks, hsplit, hlen, -⟩ := splitWorkLoad_partition 4 (by decide) ⟨10, 15⟩ (by decide)
  have hchunks := hsplit 4 le_rfl
  refine ⟨chunks, hchunks, by omega, ?_⟩
  exact Option.some.inj (hchunks.symm.trans (by decide +kernel))

end IavlStore.Changeset
