import IavlStore.Db.Versions

/-! The version numbers of multitrees, whatever they hold. A save moves to the next version,
changes within a block keep it, and a replay moves by the entries it reads. A replay up to a
version that is not before the last one in the log leads to the end of the log. -/

namespace IavlStore.Db

open IavlStore.Base.Encoding IavlStore.Multi

variable {N : Type} [LinearOrder N] {W : WalLog (WALEntry N)} {sha256 : Bytes → Bytes}
  {v₀ iv n i : ℕ} {t t' : MultiTree N}

/-- The multitree has the version after `i` entries. -/
def AtVersion (v₀ iv i : ℕ) (t : MultiTree N) : Prop :=
  t.version = versionAt v₀ iv i ∧ t.initialVersion = iv

/-- The multitree has one of the versions up to the one after `n` entries. -/
def UpTo (v₀ iv n : ℕ) (t : MultiTree N) : Prop := ∃ i ≤ n, AtVersion v₀ iv i t

/-- The versions up to the one after `n` entries are signed numbers. -/
structure InRange (v₀ iv n : ℕ) : Prop where
  base : v₀ = 0 ∨ v₀ + 1 = iv
  iv_le : iv ≤ maxInt64
  version_le : versionAt v₀ iv n ≤ maxInt64

theorem InRange.nextVersion (hr : InRange v₀ iv n) (hi : i ≤ n) :
    nextVersion (versionAt v₀ iv i) iv = versionAt v₀ iv (i + 1) :=
  nextVersion_versionAt hr.base ((versionAt_mono hr.base hi).trans hr.version_le)

theorem InRange.walIndex (hr : InRange v₀ iv n) (hi : i ≤ n) :
    walIndex (versionAt v₀ iv (i + 1)) iv = i + 1 := by
  have hle := (versionAt_mono hr.base hi).trans hr.version_le
  have hiv := hr.iv_le
  have hbase := hr.base
  refine walIndex_versionAt hiv ?_
  unfold maxInt64 at hle hiv
  unfold versionAt at hle ⊢
  split_ifs at hle ⊢ <;> omega

omit [LinearOrder N] in
theorem AtVersion.congr (ht : AtVersion v₀ iv i t) (hv : t'.version = t.version)
    (hiv : t'.initialVersion = t.initialVersion) : AtVersion v₀ iv i t' :=
  ⟨hv.trans ht.1, hiv.trans ht.2⟩

omit [LinearOrder N] in
theorem UpTo.mono (ht : UpTo v₀ iv n t) {m : ℕ} (hle : n ≤ m) : UpTo v₀ iv m t := by
  obtain ⟨i, hi, ht⟩ := ht
  exact ⟨i, hi.trans hle, ht⟩

omit [LinearOrder N] in
theorem AtVersion.saveVersion (hr : InRange v₀ iv n) (hi : i ≤ n) (ht : AtVersion v₀ iv i t) {update : Bool}
    (hs : t.saveVersion sha256 update = .ok t') : AtVersion v₀ iv (i + 1) t' := by
  obtain ⟨hv, hiv⟩ := MultiTree.saveVersion_fields hs
  rw [ht.1, ht.2, hr.nextVersion hi] at hv
  exact ⟨hv, hiv.trans ht.2⟩

theorem AtVersion.catchupLoop (hr : InRange v₀ iv n) (ht : AtVersion v₀ iv i t) {w : W.Log} {count k : ℕ}
    (hle : i + count ≤ n) (hc : MultiTree.catchupLoop sha256 W w count k t = some t') :
    AtVersion v₀ iv (i + count) t' := by
  induction count generalizing i k t with
  | zero =>
    obtain rfl := Option.some.inj hc
    exact ht
  | succ count ih =>
    obtain ⟨e, t₁, t₂, -, ha, hs, hc⟩ := MultiTree.catchupLoop_succ sha256 W hc
    obtain ⟨hv, hiv⟩ := applyWALEntry_fields ha
    rw [Nat.add_comm count 1, ← Nat.add_assoc]
    exact ih ((ht.congr hv hiv).saveVersion hr (by omega) hs) (by omega) hc

/-- Catching up moves by the entries that are read. -/
theorem AtVersion.catchupWAL (hr : InRange v₀ iv n) (hi : i ≤ n) (ht : AtVersion v₀ iv i t) {w : W.Log}
    (hlast : W.lastIndex w ≤ n) {endVersion : ℕ} (hc : t.catchupWAL sha256 W w endVersion = some t') :
    W.lastIndex w ≤ i ∧ t' = t ∨
      i < min (endIndex W w endVersion iv) (W.lastIndex w) ∧
        AtVersion v₀ iv (min (endIndex W w endVersion iv) (W.lastIndex w)) t' := by
  simp only [MultiTree.catchupWAL, ht.1, ht.2, hr.nextVersion hi, hr.walIndex hi] at hc
  rw [← endIndex] at hc
  generalize endIndex W w endVersion iv = k at hc ⊢
  have hright := min_le_right k (W.lastIndex w)
  split_ifs at hc with hlt hend
  · exact .inl ⟨by omega, (Option.some.inj hc).symm⟩
  · obtain ⟨t₁, hloop, rfl⟩ := Option.map_eq_some_iff.mp hc
    have hmin : i + 1 ≤ min k (W.lastIndex w) := le_min (by omega) (by omega)
    refine .inr ⟨by omega, ?_⟩
    have h₁ := ht.catchupLoop hr (by omega) hloop
    rw [show i + (min k (W.lastIndex w) + 1 - (i + 1)) = min k (W.lastIndex w) by omega] at h₁
    exact h₁.congr rfl rfl

/-- A replay of the whole log leads to its end. -/
theorem UpTo.catchupWAL (hr : InRange v₀ iv n) (ht : UpTo v₀ iv n t) {w : W.Log} (hlast : W.lastIndex w ≤ n)
    (hc : t.catchupWAL sha256 W w 0 = some t') :
    UpTo v₀ iv n t' ∧ (W.lastIndex w = n → AtVersion v₀ iv n t') := by
  obtain ⟨i, hi, ht⟩ := ht
  have hend : endIndex W w 0 iv = W.lastIndex w := rfl
  rcases ht.catchupWAL hr hi hlast hc with ⟨hle, rfl⟩ | ⟨-, h'⟩
  · refine ⟨⟨i, hi, ht⟩, fun hn => ?_⟩
    rwa [show n = i by omega]
  · rw [hend, min_self] at h'
    exact ⟨⟨_, hlast, h'⟩, fun hn => hn ▸ h'⟩

/-- A replay up to any version leads to one within the log, or stays. -/
theorem UpTo.replayTo (hr : InRange v₀ iv n) (ht : UpTo v₀ iv n t) {w : W.Log} (hlast : W.lastIndex w ≤ n)
    {target : ℕ} (hc : Db.replayTo sha256 target w t = some t') : UpTo v₀ iv n t' := by
  obtain ⟨i, hi, ht⟩ := ht
  unfold Db.replayTo at hc
  split_ifs at hc
  · rcases ht.catchupWAL hr hi hlast hc with ⟨-, rfl⟩ | ⟨-, h'⟩
    · exact ⟨i, hi, ht⟩
    · exact ⟨_, (min_le_right _ _).trans hlast, h'⟩
  · exact Option.some.inj hc ▸ ⟨i, hi, ht⟩

/-- A replay up to a version that is not before the last one in the log leads to its end. -/
theorem UpTo.replayTo_end (hr : InRange v₀ iv n) (ht : UpTo v₀ iv n t) {w : W.Log} (hlast : W.lastIndex w = n)
    {target : ℕ} (hmax : target ≤ maxInt64) (hreach : target = 0 ∨ n = 0 ∨ versionAt v₀ iv n ≤ target)
    (hc : Db.replayTo sha256 target w t = some t') : AtVersion v₀ iv n t' := by
  obtain ⟨i, hi, ht⟩ := ht
  rw [Db.replayTo, ht.1] at hc
  split_ifs at hc with hcase
  · rcases ht.catchupWAL hr hi hlast.le hc with ⟨hle, rfl⟩ | ⟨hlt, h'⟩
    · rwa [show n = i by omega]
    · have hn : n ≤ endIndex W w target iv := by
        unfold endIndex
        split_ifs with h0
        · exact hlast.ge
        · have hle := hreach.resolve_left h0 |>.resolve_left (by omega)
          rw [versionAt, if_neg (by omega)] at hle
          rw [walIndex_eq (by omega) hmax (by omega)]
          omega
      rwa [hlast, min_eq_right hn] at h'
  · obtain rfl := Option.some.inj hc
    have hni : n ≤ i := by
      rcases hreach with h0 | h0 | hle
      · exact absurd (.inl h0) hcase
      · omega
      · exact le_of_versionAt_le hr.base (hle.trans (by omega))
    rwa [le_antisymm hni hi]

theorem InRange.index_le (hr : InRange v₀ iv n) (hi : i ≤ n) : iv - 1 + i ≤ maxInt64 := by
  have hle := hr.version_le
  have hiv := hr.iv_le
  unfold versionAt at hle
  split_ifs at hle <;> omega

/-- The index of a version that is not zero. -/
theorem InRange.walIndex_versionAt (hr : InRange v₀ iv n) (hi : i ≤ n) (hpos : 0 < versionAt v₀ iv i) :
    Multi.walIndex (versionAt v₀ iv i) iv = i := by
  rcases i with _ | i
  · have hbase := hr.base
    have hiv := hr.iv_le
    unfold maxInt64 at hiv
    simp only [versionAt, if_true] at hpos ⊢
    unfold Multi.walIndex
    split_ifs <;> omega
  · exact hr.walIndex (by omega)

/-- The version of an index in the log. -/
theorem InRange.versionAt_walIndex (hr : InRange v₀ iv n) {target : ℕ} (hmax : target ≤ maxInt64)
    (hpos : 0 < Multi.walIndex target iv) (hle : Multi.walIndex target iv ≤ n) :
    versionAt v₀ iv (Multi.walIndex target iv) = target := by
  have hn := (le_versionAt v₀ iv n).trans hr.version_le
  by_cases hlt : target + 1 < iv
  · have := walIndex_wraps hlt hr.iv_le
    omega
  · have hidx : Multi.walIndex target iv = target - (iv - 1) := by
      rcases Nat.eq_zero_or_pos target with rfl | ht
      · unfold Multi.walIndex at hpos ⊢
        split_ifs at hpos ⊢ <;> omega
      · exact walIndex_eq (by omega) hmax ht
    rw [versionAt, if_neg (by omega), hidx]
    omega

/-- A replay up to a version that is in the log leads to it. -/
theorem AtVersion.replayTo (hr : InRange v₀ iv n) (hi : i ≤ n) (ht : AtVersion v₀ iv i t) {w : W.Log}
    (hlast : W.lastIndex w ≤ n) {j : ℕ} (hj : j ≤ W.lastIndex w) (hpos : 0 < versionAt v₀ iv j)
    (hle : versionAt v₀ iv i ≤ versionAt v₀ iv j)
    (hc : Db.replayTo sha256 (versionAt v₀ iv j) w t = some t') : AtVersion v₀ iv j t' := by
  have hij := le_of_versionAt_le hr.base hle
  rw [Db.replayTo, ht.1] at hc
  split_ifs at hc with hcase
  · have hlt := lt_of_versionAt_lt hr.base (hcase.resolve_left (by omega))
    rcases ht.catchupWAL hr hi hlast hc with ⟨hend, -⟩ | ⟨-, h'⟩
    · omega
    · rwa [endIndex, if_neg (by omega), hr.walIndex_versionAt (hj.trans hlast) hpos, min_eq_left hj] at h'
  · obtain rfl := Option.some.inj hc
    have hji : j ≤ i := le_of_versionAt_le hr.base (by omega)
    rwa [le_antisymm hji hij]

/-! ### Changes of a block -/

theorem atVersion_applyUpgrades {d : Working N} (h : AtVersion v₀ iv i d.mtree) (us : List (TreeNameUpgrade N)) :
    AtVersion v₀ iv i (d.applyUpgrades us).1.mtree := by
  unfold Working.applyUpgrades
  rcases hu : d.mtree.applyUpgrades us with ⟨t, _ | e⟩ <;>
    exact h.congr (congrArg CommitInfo.version (MultiTree.applyUpgrades_fields hu).1)
      (MultiTree.applyUpgrades_fields hu).2

theorem atVersion_applyChangeSets {d : Working N} (h : AtVersion v₀ iv i d.mtree)
    (cs : List (NamedChangeSet N)) : AtVersion v₀ iv i (d.applyChangeSets cs).1.mtree := by
  refine Working.applyChangeSets_keeps (fun t cs ht => ?_) h cs
  obtain ⟨hci, hiv⟩ := MultiTree.applyChangeSets_fields cs t
  exact ht.congr (congrArg CommitInfo.version hci) hiv

theorem atVersion_initialWorking (h : AtVersion v₀ iv i t) (stores : List N) :
    AtVersion v₀ iv i (initialWorking stores t).1.mtree := by
  unfold initialWorking
  split_ifs
  · exact atVersion_applyUpgrades (d := ⟨t, emptyEntry⟩) h _
  · exact h

end IavlStore.Db
