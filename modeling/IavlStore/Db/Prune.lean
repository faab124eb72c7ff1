import IavlStore.Db.Steps

/-! Pruning keeps the invariant. Versions are visited from the latest down, and none from
the current snapshot on is removed. The log is truncated up to the entry of the earliest
version that was kept, so it still reaches back to the current snapshot. -/

namespace IavlStore.Db

open IavlStore.Base.Encoding IavlStore.Base.SortedPairs IavlStore.Base.Journal IavlStore.Multi

variable {N : Type} [LinearOrder N] {W : WalLog (WALEntry N)} {sha256 : Bytes → Bytes} {opts : Options}
  {replayable behind : Prop} {v₀ iv c : ℕ} {h : History (MultiTree N) (WALEntry N)}
  {disk disk' : Disk N W} {db : DB N}

/-- The index at which the log is truncated, if it is one of the log. -/
theorem truncation_index {n i e : ℕ} (hb : v₀ = 0 ∨ v₀ + 1 = iv) (hiv : iv ≤ maxInt64) (hn : n ≤ maxInt64)
    (hv : versionAt v₀ iv i ≤ maxInt64) (he : walIndex (next (versionAt v₀ iv i)) iv = e)
    (hpos : 0 < e) (hle : e ≤ n) : e = i + 1 := by
  rw [next_eq hv] at he
  rcases i with _ | i
  · simp only [versionAt, ↓reduceIte] at he
    unfold maxInt64 at hiv hn
    unfold walIndex at he
    split_ifs at he <;> omega
  · have hsucc : versionAt v₀ iv (i + 1) + 1 = versionAt v₀ iv (i + 1 + 1) := by
      rw [versionAt_succ, versionAt_succ, Nat.add_assoc]
    unfold maxInt64 at hv
    rw [hsucc, walIndex_versionAt hiv (by omega)] at he
    exact he.symm

/-- The log is truncated up to the entry of a version that is not after the current
snapshot. For an empty first version this is not an index of the log. -/
theorem DiskInv.truncate (hn : Numbered v₀ iv h) (hd : DiskInv v₀ iv h c disk) {i : ℕ} (hic : i ≤ c) :
    ∃ w', (W.truncateFront disk.wal (walIndex (next (versionAt v₀ iv i)) iv)).getD disk.wal = w' ∧
      W.Holds w' h.log ∧ W.dropped w' ≤ c ∧ W.lastIndex w' = W.lastIndex disk.wal := by
  have hle := hd.le
  have hlast := hd.holds.le
  set e := walIndex (next (versionAt v₀ iv i)) iv with he
  by_cases hrange : W.dropped disk.wal < e ∧ e ≤ W.lastIndex disk.wal
  · obtain ⟨w', heq, hdr, hes⟩ := W.truncateFront_eq _ e hrange.1 hrange.2
    have hei : e = i + 1 := truncation_index hn.base hn.iv_le (hlast.trans hn.length_le)
      (hn.versionAt_le (hic.trans hle)) he.symm (by omega) hrange.2
    have hlast' := WalLog.lastIndex_truncateFront heq
    refine ⟨w', by rw [heq]; rfl, ⟨by omega, ?_⟩, by omega, hlast'⟩
    rw [hes, hd.holds.entries, List.drop_drop, hlast', hdr]
    congr 1
    omega
  · refine ⟨disk.wal, ?_, hd.holds, hd.dropped, rfl⟩
    rw [W.truncateFront_out_of_range _ _ hrange]
    rfl

/-- A visit keeps what is known of pruning, whether the version is kept or not. -/
theorem PruneInv.visit {cur v counter counter' earliest earliest' : ℕ} {todo : List ℕ}
    (hp : PruneInv v₀ iv c (.visiting cur (v :: todo) counter earliest))
    (he : earliest' = (if earliest = 0 ∨ v < earliest then v else earliest) ∨ v < cur ∧ earliest' = earliest) :
    PruneInv v₀ iv c (.visiting cur todo counter' earliest') := by
  obtain ⟨hcur, hsorted, hnums, hear, hvis⟩ := hp
  rw [List.pairwise_cons] at hsorted
  refine ⟨hcur, hsorted.2, fun u hu => hnums u (by simp [hu]), ?_, ?_⟩
  · rcases he with rfl | ⟨-, rfl⟩
    · split_ifs
      · exact .inr (hnums v (by simp))
      · exact hear
    · exact hear
  · rcases hvis with hmem | ⟨hbelow, hle⟩
    · rcases List.mem_cons.mp hmem with rfl | hmem
      · -- the current version itself is kept
        refine .inr ⟨hsorted.1, ?_⟩
        rcases he with rfl | ⟨hlt, -⟩
        · split_ifs <;> omega
        · exact absurd hlt (lt_irrefl _)
      · exact .inl hmem
    · refine .inr ⟨fun u hu => hbelow u (by simp [hu]), ?_⟩
      have hv := hbelow v (by simp)
      rcases he with rfl | ⟨-, rfl⟩
      · split_ifs <;> omega
      · exact hle

/-- Removing a snapshot before the current one keeps what is known of the disk. -/
theorem DiskInv.erase (hn : Numbered v₀ iv h) (hd : DiskInv v₀ iv h c disk) {v : ℕ}
    (hv : v < versionAt v₀ iv c) :
    DiskInv v₀ iv h c { disk with snapshots := erasePair v disk.snapshots } ∧
      ∀ r, RewriteInv v₀ iv h c replayable disk r →
        RewriteInv v₀ iv h c replayable { disk with snapshots := erasePair v disk.snapshots } r := by
  have hkeep : ∀ j, c ≤ j → lookupPair (versionAt v₀ iv j) (erasePair v disk.snapshots) =
      lookupPair (versionAt v₀ iv j) disk.snapshots := by
    intro j hcj
    have hle := versionAt_mono hn.base hcj
    rw [lookupPair_erasePair, if_neg (by omega)]
  refine ⟨⟨hd.holds, hd.le, hd.current, ?_, hd.dropped, fun u hu => ?_⟩, fun r hr => ?_⟩
  · have hdir := hd.dir
    rw [hd.current] at hdir ⊢
    exact (hkeep c le_rfl).trans hdir
  · obtain ⟨q, hq, rfl⟩ := List.mem_map.mp hu
    exact hd.numbers _ (List.mem_map_of_mem (List.mem_filter.mp hq).1)
  · cases r with
    | renamed u =>
      obtain ⟨j, hcj, hj, rfl, hl⟩ := hr
      exact ⟨j, hcj, hj, rfl, (hkeep j hcj).trans hl⟩
    | tmpLinked u =>
      obtain ⟨j, hcj, hj, rfl, hl⟩ := hr
      exact ⟨j, hcj, hj, rfl, (hkeep j hcj).trans hl⟩
    | _ => exact hr

omit [LinearOrder N] in
/-- The version the log is truncated to is not after the current snapshot. -/
theorem PruneInv.earliest {cur counter earliest e : ℕ}
    (hp : PruneInv v₀ iv c (.visiting cur [] counter earliest)) (hd : DiskInv v₀ iv h c disk)
    (he : (if earliest = 0 then (disk.snapshots.map Prod.fst).min? else some earliest) = some e) :
    (∃ i, e = versionAt v₀ iv i) ∧ e ≤ versionAt v₀ iv c := by
  obtain ⟨hcur, -, -, hear, hvis⟩ := hp
  split_ifs at he with h0
  · obtain ⟨hmem, hmin⟩ := List.min?_eq_some_iff.mp he
    exact ⟨hd.numbers e hmem, hd.current ▸ hmin _ (mem_of_lookupPair hd.dir)⟩
  · obtain rfl := Option.some.inj he
    rcases hvis with hmem | ⟨-, hle⟩
    · exact absurd hmem (by simp)
    · exact ⟨hear.resolve_left h0, hle.trans hcur⟩

theorem Inv.prune (hi : Inv v₀ iv h c opts replayable behind sha256 ⟨disk, some db⟩) {removed : Bool}
    {p : Pruning} {p' : Option Pruning} (hp : db.pruning = some p)
    (hs : pruneStep opts removed db.working.mtree.initialVersion disk p = (disk', p')) :
    Inv v₀ iv h c opts replayable behind sha256 ⟨disk', some { db with pruning := p' }⟩ := by
  have hdb := hi.db_inv
  have hn := hi.numbered
  have hpr := hdb.pruning p hp
  have hsame : (∀ q ∈ p', PruneInv v₀ iv c q) → disk' = disk →
      Inv v₀ iv h c opts replayable behind sha256 ⟨disk', some { db with pruning := p' }⟩ := by
    rintro hq rfl
    exact hi.of_db ⟨hdb.working, hdb.snapshotVersion, hdb.queue, hdb.sync, hdb.writer, hdb.phase, hdb.rewrite, hq⟩
  cases p with
  | started =>
    cases hs
    refine hsame (fun q hq => ?_) rfl
    obtain rfl := Option.some.inj hq
    refine ⟨hi.disk.current.le, List.pairwise_insertionSort _ _, fun v hv => ?_, .inl rfl, .inl ?_⟩
    · exact hi.disk.numbers v ((List.mem_insertionSort _).mp hv)
    · exact (List.mem_insertionSort _).mpr (mem_of_lookupPair hi.disk.dir)
  | visiting cur todo counter earliest =>
    cases todo with
    | nil =>
      simp only [pruneStep, (hdb.working.fields hn).2.2.2] at hs
      rcases he : (if earliest = 0 then (disk.snapshots.map Prod.fst).min? else some earliest) with _ | e
      · rw [he] at hs
        cases hs
        exact hsame (fun q hq => nomatch hq) rfl
      · rw [he] at hs
        obtain ⟨⟨i, rfl⟩, hle⟩ := hpr.earliest hi.disk he
        obtain ⟨w', hw', hholds, hdr, hlast⟩ := hi.disk.truncate hn (le_of_versionAt_le hn.base hle)
        simp only [hw'] at hs
        cases hs
        refine ⟨hn, hi.sound, hi.complete, hi.disk.of_wal hholds hdr, ?_, fun d hd => ?_, fun hd => nomatch hd⟩
        · simpa only [hlast] using hi.behind
        · obtain rfl := Option.some.inj hd
          refine ⟨hdb.working, by simpa only [hlast] using hdb.snapshotVersion, ?_, hdb.sync, hdb.writer,
            hdb.phase, hdb.rewrite, fun q hq => nomatch hq⟩
          simpa only [Queued, hlast] using hdb.queue
    | cons v todo =>
      rw [pruneStep] at hs
      by_cases hkeep : cur ≤ v ∨ 0 < counter
      · rw [if_pos hkeep] at hs
        cases hs
        refine hsame (fun q hq => ?_) rfl
        obtain rfl := Option.some.inj hq
        exact hpr.visit (.inl rfl)
      have hlt : v < cur := by omega
      rw [if_neg hkeep] at hs
      by_cases hrem : removed = true
      · rw [if_pos hrem] at hs
        cases hs
        obtain ⟨hdisk, hrw⟩ := hi.disk.erase hn (hlt.trans_le hpr.1)
        refine ⟨hn, hi.sound, hi.complete, hdisk, hi.behind, fun d hd => ?_, fun hd => nomatch hd⟩
        obtain rfl := Option.some.inj hd
        refine ⟨hdb.working, hdb.snapshotVersion, hdb.queue, hdb.sync, hdb.writer, hdb.phase,
          fun r hr => hrw r (hdb.rewrite r hr), fun q hq => ?_⟩
        obtain rfl := Option.some.inj hq
        exact hpr.visit (.inr ⟨hlt, rfl⟩)
      · rw [if_neg hrem] at hs
        cases hs
        refine hsame (fun q hq => ?_) rfl
        obtain rfl := Option.some.inj hq
        exact hpr.visit (.inr ⟨hlt, rfl⟩)

end IavlStore.Db
