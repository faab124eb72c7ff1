import IavlStore.Db.Rollback
import IavlStore.Rootmulti.History
import IavlStore.Rootmulti.Replica

/-! What a process leaves behind. Closing a store in the middle of a block, or killing it while
nothing waits for the writer of the log, loses the block and keeps the history. A rollback cuts
the history after its target. In each case the directory can be loaded again at the last state
of the history that is left. -/

namespace IavlStore.Rootmulti

open IavlStore.Base.Encoding IavlStore.Base.SortedPairs IavlStore.Base.Journal
open IavlStore.Multi IavlStore.Db

variable {N : Type} [LinearOrder N] {R : RollbackLog (WALEntry N)} {sha256 : Bytes → Bytes} {opts : Options}
  {v₀ iv c : ℕ} {h : History (MultiTree N) (WALEntry N)}

section Process
variable {W : WalLog (WALEntry N)} {disk : Disk N W} {db : DB N} {world world' : World N W}

/-- The database is closed with whatever is pending. -/
theorem Kept.closeStep (hk : Kept v₀ iv h c opts sha256 world) {o : Reply N}
    (hc : Db.step sha256 opts world .close = some (world', o)) :
    world'.db = none ∧ Kept v₀ iv h c opts sha256 world' := by
  have hsnap := hk.snapshots.step hk.inv hc trivial
  cases fires_of_step hc with
  | close hp hchan hbatch hdone => exact ⟨rfl, hk.inv.close hchan hbatch, hsnap, fun _ _ hd => absurd hd (by simp)⟩

/-- Nothing that was committed is lost when the process is killed with an empty queue, or while
the last of it is written. -/
theorem Kept.kill (hk : Kept v₀ iv h c opts sha256 ⟨disk, some db⟩) {n : ℕ} (hchan : db.walChan = [])
    (hbatch : db.batch.length ≤ n) {o : Reply N}
    (hs : Db.step sha256 opts ⟨disk, some db⟩ (.kill n) = some (world', o)) :
    world'.db = none ∧ Kept v₀ iv h c opts sha256 world' := by
  have hi := hk.inv
  have hd := hi.disk
  have hsnap := hk.snapshots.step hi hs trivial
  have hq := hi.db_inv.queue
  rw [hchan, ← List.append_nil db.batch, List.append_assoc] at hq
  obtain ⟨w', hw', hholds, hrest, hdr, -⟩ := hq.writeEntries hd.holds
  simp only [Db.step, List.take_of_length_le hbatch, hw', Option.getD_some] at hs
  obtain rfl := (Prod.mk.inj (Option.some.inj hs)).1
  refine ⟨rfl, ⟨hi.numbered, hi.sound, hi.complete, ?_, False.elim, by simp, fun _ => hrest.lastIndex hholds⟩,
    hsnap, fun _ _ hd => absurd hd (by simp)⟩
  exact ⟨hholds, hd.le, hd.current, hd.dir, hdr ▸ hd.dropped, hd.numbers⟩

end Process

variable {disk : Disk N R.toWalLog} {world world' : World N R.toWalLog}

theorem Kept.closed (hk : Kept v₀ iv h c opts sha256 world) (hc : closed sha256 opts world = some world') :
    world'.db = none ∧ Kept v₀ iv h c opts sha256 world' := by
  unfold Rootmulti.closed at hc
  split_ifs at hc with hopen
  · obtain ⟨⟨world₁, o⟩, hstep, rfl⟩ := Option.map_eq_some_iff.mp hc
    exact hk.closeStep hstep
  · obtain rfl := Option.some.inj hc
    exact ⟨by simpa using hopen, hk⟩

/-- A target that the log can be cut after is the version of a state. -/
theorem exists_versionAt_of_walIndex (hn : Numbered v₀ iv h) {target : ℕ} (hpos : 0 < target)
    (hmax : target ≤ maxInt64) (hlt : 0 < walIndex target iv) (hle : walIndex target iv ≤ h.log.length) :
    versionAt v₀ iv (walIndex target iv) = target := by
  rcases le_or_gt iv (target + 1) with hiv | hiv
  · rw [walIndex_eq hiv hmax hpos] at hlt ⊢
    rw [versionAt, if_neg (by omega)]
    omega
  · have hwrap := walIndex_wraps hiv hn.iv_le
    have hlen := hn.length_le
    omega

/-- A rollback that succeeds leaves the directory of the history up to its target. -/
theorem Kept.rollback (hk : Kept v₀ iv h c opts sha256 ⟨disk, none⟩) {target : ℕ} (hpos : 0 < target)
    {stores : List N} (hl : loadForOverwriting sha256 target stores disk = some world) :
    ∃ j c', 0 < j ∧ j ≤ h.log.length ∧ versionAt v₀ iv j = target ∧
      Kept v₀ iv (h.cut j) c' opts sha256 ⟨world.disk, none⟩ := by
  have hd := hk.inv.directory hk.snapshots
  have hn := hd.numbered
  obtain ⟨hmax, dir, t, v, wal, working, hopen, hseek, hwal, hw, rfl⟩ := loadForOverwriting_eq_some hpos hl
  obtain ⟨i, hi, hvi, hseek', hdir⟩ := hd.seek ⟨v, (seekSnapshot_eq_some hseek).imp_right And.left⟩
  -- the tree that was opened has the initial version of the history
  have ht : t.initialVersion = iv := by
    obtain ⟨k, hk, -, -, -, ⟨rfl, -⟩ | ⟨-, -, rfl⟩⟩ := hd.openVersion hpos hopen
    · exact hn.initialVersion k hk
    · exact hn.initialVersion _ (min_le_right _ _)
  rw [ht] at hwal
  obtain ⟨hdj, hj, -⟩ := RollbackLog.lastIndex_truncateBack hwal
  rw [hd.latest] at hj
  have htarget := exists_versionAt_of_walIndex hn hpos hmax (by omega) hj
  generalize walIndex target iv = j at *
  subst htarget
  have hij := le_of_versionAt_le hn.base hvi
  have hdi : R.dropped disk.wal ≤ i := by
    have heq := hd.openVersion_eq (hk.inv.complete trivial) hj hpos hij hseek' hdir
    rw [heq] at hopen
    split_ifs at hopen with hcase
    omega
  obtain ⟨disk', hover, hnew, hinv, -⟩ :=
    hd.overwrite (hk.inv.complete trivial) hj hpos hij hseek' hdir hdj hdi opts
  have hdisk : disk' = ⟨disk.snapshots.filter fun p => p.1 ≤ versionAt v₀ iv j, v, none, wal⟩ := by
    rw [Db.overwrite, hseek, walIndex_of_pos hn hj hpos, removeAbove_versions] at hover
    simp only [Option.bind_eq_bind, Option.bind_some, hwal, Option.some.injEq] at hover
    exact hover.symm
  subst hdisk
  refine ⟨j, i, by omega, hj, rfl, hinv, fun p hp => ?_, fun _ _ hd => absurd hd (by simp)⟩
  obtain ⟨hp, hle⟩ := List.mem_filter.mp hp
  obtain ⟨k, hk, rfl⟩ := hk.snapshots p hp
  have hkj : k ≤ j := le_of_versionAt_le hn.base (by simpa using hle)
  exact ⟨k, by simp [History.cut, hkj, hk], rfl⟩

end IavlStore.Rootmulti
