import IavlStore.Base.Journal
import IavlStore.Multi.Apply
import IavlStore.Multi.Wal

/-! Replaying the write-ahead log. An entry holds the upgrades and change sets of one
version. Read back from the log, empty values have become nil, which the trees do not
tell apart. Catching up from a state of a history leads to the state of the last entry in
the log, or of the version it stops at. -/

namespace IavlStore.Multi

open IavlStore.Base.Encoding IavlStore.Base.SortedPairs IavlStore.Base.Journal

structure WALEntry (N : Type) where
  changesets : List (NamedChangeSet N)
  upgrades : List (TreeNameUpgrade N)
  deriving DecidableEq

/-! ### Entries -/

/-- An empty value is nil when it is decoded. -/
def rereadPair (p : KVPair) : KVPair :=
  if p.value = some [] then { p with value := none } else p

section Entries
variable {N : Type}

def WALEntry.reread (e : WALEntry N) : WALEntry N :=
  { e with changesets := e.changesets.map fun c => { c with changeset := c.changeset.map rereadPair } }

theorem applyChangeSet_reread (t : Tree) (cs : ChangeSet) :
    t.applyChangeSet (cs.map rereadPair) = t.applyChangeSet cs := by
  have hpair : ∀ (t : Tree) (p : KVPair), t.applyPair (rereadPair p) = t.applyPair p := by
    intro t p
    unfold rereadPair
    split_ifs with h
    · simp [Tree.applyPair, Tree.set, h]
    · rfl
  simp [Tree.applyChangeSet, List.foldl_map, hpair]

variable [LinearOrder N]

theorem pairsFor_reread (name : N) (e : WALEntry N) :
    pairsFor name e.reread.changesets = (pairsFor name e.changesets).map rereadPair := by
  simp [WALEntry.reread, pairsFor, List.filter_map, Function.comp_def, List.flatMap_map,
    List.map_flatMap]

theorem MultiTree.applyAll_reread (t : MultiTree N) (e : WALEntry N) :
    (t.applyAll fun n => pairsFor n e.reread.changesets) = t.applyAll fun n => pairsFor n e.changesets := by
  simp [MultiTree.applyAll, pairsFor_reread, applyChangeSet_reread]

end Entries

namespace MultiTree

variable {N : Type} [LinearOrder N]

def applyWALEntry (e : WALEntry N) (t : MultiTree N) : Except (Error N) (MultiTree N) :=
  match t.applyUpgrades e.upgrades with
  | (_, some err) => .error err
  | (t, none) =>
    match t.applyChangeSets e.changesets with
    | (_, some err) => .error err
    | (t, none) => .ok t

/-- Upgrades and change sets of known trees can be replayed. -/
theorem applyWALEntry_reread {t b : MultiTree N} (ht : t.Coherent) {e : WALEntry N}
    (hu : t.applyUpgrades e.upgrades = (b, none)) (hn : ∀ c ∈ e.changesets, c.name ∈ b.names) :
    t.applyWALEntry e.reread = .ok (b.applyAll fun n => pairsFor n e.changesets) := by
  have hu' : t.applyUpgrades e.reread.upgrades = (b, none) := hu
  have hn' : ∀ c ∈ e.reread.changesets, c.name ∈ b.names := by
    intro c hc
    obtain ⟨d, hd, rfl⟩ := List.mem_map.mp hc
    exact hn d hd
  simp only [applyWALEntry, hu', (ht.applyUpgrades hu).applyChangeSets hn', applyAll_reread]

/-- A change set of an unknown tree cannot be replayed. -/
theorem applyWALEntry_reread_unknown {t b : MultiTree N} (ht : t.Coherent) {e : WALEntry N}
    (hu : t.applyUpgrades e.upgrades = (b, none)) (hn : ∃ c ∈ e.changesets, c.name ∉ b.names) :
    ∃ err, t.applyWALEntry e.reread = .error err := by
  have hu' : t.applyUpgrades e.reread.upgrades = (b, none) := hu
  obtain ⟨c, hc, hcn⟩ := hn
  have hn' : ∃ c ∈ e.reread.changesets, c.name ∉ b.names :=
    ⟨_, List.mem_map.mpr ⟨c, hc, rfl⟩, hcn⟩
  obtain ⟨err, herr⟩ := Option.isSome_iff_exists.mp ((ht.applyUpgrades hu).applyChangeSets_unknown hn')
  refine ⟨err, ?_⟩
  simp only [applyWALEntry, hu']
  rcases hcs : b.applyChangeSets e.reread.changesets with ⟨b', e'⟩
  rw [hcs] at herr
  obtain rfl : e' = some err := herr
  rfl

/-! ### States without store infos -/

/-- Replay clears the store infos until it is done. -/
def clear (t : MultiTree N) : MultiTree N := { t with lastCommitInfo := ⟨t.version, []⟩ }

omit [LinearOrder N] in
@[simp] theorem version_clear (t : MultiTree N) : t.clear.version = t.version := rfl

theorem applyUpgrades_clear (us : List (TreeNameUpgrade N)) (t : MultiTree N) :
    t.clear.applyUpgrades us = ((t.applyUpgrades us).1.clear, (t.applyUpgrades us).2) := by
  simp only [applyUpgrades, version_clear]
  split_ifs
  · rfl
  · have hl : upgradeLoop (nextVersion t.version t.clear.initialVersion) us t.clear.trees =
      upgradeLoop (nextVersion t.version t.initialVersion) us t.trees := rfl
    rw [hl]
    rcases upgradeLoop (nextVersion t.version t.initialVersion) us t.trees with ⟨trees, _ | e⟩ <;> rfl

theorem applyChangeSet_clear (name : N) (cs : ChangeSet) (t : MultiTree N) :
    t.clear.applyChangeSet name cs = ((t.applyChangeSet name cs).1.clear, (t.applyChangeSet name cs).2) := by
  have hi : t.clear.treesByName = t.treesByName := rfl
  simp only [applyChangeSet, hi]
  rcases lookupPair name t.treesByName with _ | i <;> rfl

theorem applyChangeSets_clear (cs : List (NamedChangeSet N)) (t : MultiTree N) :
    t.clear.applyChangeSets cs = ((t.applyChangeSets cs).1.clear, (t.applyChangeSets cs).2) := by
  induction cs generalizing t with
  | nil => rfl
  | cons c cs ih =>
    simp only [applyChangeSets, applyChangeSet_clear]
    rcases t.applyChangeSet c.name c.changeset with ⟨t', _ | e⟩
    · exact ih t'
    · rfl

theorem applyWALEntry_clear (e : WALEntry N) (t : MultiTree N) :
    t.clear.applyWALEntry e = (t.applyWALEntry e).map clear := by
  simp only [applyWALEntry, applyUpgrades_clear]
  rcases t.applyUpgrades e.upgrades with ⟨t₁, _ | err⟩
  · simp only [applyChangeSets_clear]
    rcases t₁.applyChangeSets e.changesets with ⟨t₂, _ | err⟩ <;> rfl
  · rfl

variable (sha256 : Bytes → Bytes)

omit [LinearOrder N] in
theorem saveVersion_clear (t : MultiTree N) :
    t.clear.saveVersion sha256 false = (t.saveVersion sha256 true).map clear := by
  have ht : t.clear.trees = t.trees := rfl
  simp only [saveVersion, ht]
  rcases saveTrees t.trees with err | trees <;> rfl

omit [LinearOrder N] in
theorem saveVersion_false (t : MultiTree N) :
    t.saveVersion sha256 false = (t.saveVersion sha256 true).map clear := by
  simp only [saveVersion]
  rcases saveTrees t.trees with err | trees <;> rfl

/-- The store infos are those of the trees. -/
def Recorded (t : MultiTree N) : Prop := t.lastCommitInfo = t.buildCommitInfo sha256 t.version

omit [LinearOrder N] in
theorem recorded_saveVersion {t t' : MultiTree N} (h : t.saveVersion sha256 true = .ok t') :
    t'.Recorded sha256 := by
  obtain ⟨trees, -, rfl⟩ := saveVersion_eq_ok h
  rfl

omit [LinearOrder N] in
theorem Recorded.updateCommitInfo_clear {t : MultiTree N} (h : t.Recorded sha256) :
    t.clear.updateCommitInfo sha256 = t := by
  have hb : t.clear.buildCommitInfo sha256 t.clear.version = t.lastCommitInfo := h.symm
  rw [updateCommitInfo, hb]
  rfl

/-! ### Catching up -/

/-- Replay of one entry and the save that follows it. -/
def entryStep (t : MultiTree N) (e : WALEntry N) : Option (MultiTree N) :=
  match t.applyWALEntry e.reread with
  | .error _ => none
  | .ok t => (t.saveVersion sha256 true).toOption

theorem entryStep_recorded {t t' : MultiTree N} {e : WALEntry N}
    (h : t.entryStep sha256 e = some t') : t'.Recorded sha256 := by
  unfold entryStep at h
  rcases ha : t.applyWALEntry e.reread with err | t₁
  · rw [ha] at h; exact nomatch h
  · rcases hs : t₁.saveVersion sha256 true with err | t₂
    · simp only [ha, hs] at h; exact nomatch h
    · simp only [ha, hs] at h
      obtain rfl := Option.some.inj h
      exact recorded_saveVersion sha256 hs

variable (W : WalLog (WALEntry N))

/-- Replay `count` entries from an index on. -/
def catchupLoop (w : W.Log) : ℕ → ℕ → MultiTree N → Option (MultiTree N)
  | 0, _, t => some t
  | count + 1, i, t =>
    match W.read w i with
    | none => none
    | some e =>
      match t.applyWALEntry e.reread with
      | .error _ => none
      | .ok t =>
        match t.saveVersion sha256 false with
        | .error _ => none
        | .ok t => catchupLoop w count (i + 1) t

theorem catchupLoop_succ {w : W.Log} {count i : ℕ} {t t' : MultiTree N}
    (h : catchupLoop sha256 W w (count + 1) i t = some t') :
    ∃ e t₁ t₂, W.read w i = some e ∧ t.applyWALEntry e.reread = .ok t₁ ∧
      t₁.saveVersion sha256 false = .ok t₂ ∧ catchupLoop sha256 W w count (i + 1) t₂ = some t' := by
  rw [catchupLoop] at h
  rcases hr : W.read w i with _ | e <;> simp only [hr, reduceCtorEq] at h
  rcases ha : t.applyWALEntry e.reread with err | t₁ <;> simp only [ha, reduceCtorEq] at h
  rcases hs : t₁.saveVersion sha256 false with err | t₂ <;> simp only [hs, reduceCtorEq] at h
  exact ⟨e, t₁, t₂, rfl, ha, hs, h⟩

/-- Replay what the log has after the version of the tree, up to a version or to the end;
`none` when an entry is missing or cannot be replayed. -/
def catchupWAL (w : W.Log) (endVersion : ℕ) (t : MultiTree N) : Option (MultiTree N) :=
  let lastIndex := W.lastIndex w
  let firstIndex := walIndex (nextVersion t.version t.initialVersion) t.initialVersion
  if lastIndex < firstIndex then some t
  else
    let endIndex := if endVersion = 0 then lastIndex else walIndex endVersion t.initialVersion
    if endIndex < firstIndex then none
    else
      (catchupLoop sha256 W w (min endIndex lastIndex + 1 - firstIndex) firstIndex t).map
        (updateCommitInfo sha256)

theorem catchupLoop_clear {w : W.Log} {es : List (WALEntry N)} {i : ℕ} {t : MultiTree N}
    (hread : ∀ j e, es[j]? = some e → W.read w (i + j) = some e) :
    catchupLoop sha256 W w es.length i t.clear = (replay (entryStep sha256) t es).map clear := by
  induction es generalizing i t with
  | nil => rfl
  | cons e es ih =>
    have hread' : ∀ j e', es[j]? = some e' → W.read w (i + 1 + j) = some e' := by
      intro j e' hj
      rw [Nat.add_assoc, Nat.add_comm 1 j]
      exact hread (j + 1) e' (by simpa using hj)
    have hread0 : W.read w i = some e := hread 0 e rfl
    rw [List.length_cons, catchupLoop, hread0, replay, entryStep]
    simp only [applyWALEntry_clear]
    rcases t.applyWALEntry e.reread with err | t₁
    · rfl
    · simp only [Except.map, saveVersion_clear]
      rcases t₁.saveVersion sha256 true with err | t₂
      · rfl
      · exact ih hread'

/-- After the first entry the loop runs on cleared states. -/
theorem catchupLoop_cons {w : W.Log} {e : WALEntry N} {es : List (WALEntry N)} {i : ℕ} {t : MultiTree N}
    (hread : ∀ j e', (e :: es)[j]? = some e' → W.read w (i + j) = some e') :
    catchupLoop sha256 W w (e :: es).length i t =
      (replay (entryStep sha256) t (e :: es)).map clear := by
  rw [← catchupLoop_clear sha256 W hread, List.length_cons, catchupLoop, catchupLoop]
  rcases W.read w i with _ | e'
  · rfl
  · simp only [applyWALEntry_clear]
    rcases t.applyWALEntry e'.reread with err | t₁
    · rfl
    · simp only [Except.map]
      rw [saveVersion_clear, saveVersion_false]

theorem recorded_replay {t t' : MultiTree N} {es : List (WALEntry N)} (hes : es ≠ [])
    (h : replay (entryStep sha256) t es = some t') : t'.Recorded sha256 := by
  induction es generalizing t with
  | nil => exact absurd rfl hes
  | cons e es ih =>
    rw [replay, Option.bind_eq_some_iff] at h
    obtain ⟨t₁, h₁, h⟩ := h
    rcases es with _ | ⟨e', es⟩
    · obtain rfl := Option.some.inj h
      exact entryStep_recorded sha256 h₁
    · exact ih (by simp) h

end MultiTree

/-! ### Logs that hold a part of a history -/

section Recovery
variable {N : Type} [LinearOrder N] (sha256 : Bytes → Bytes) (W : WalLog (WALEntry N))
  {h : History (MultiTree N) (WALEntry N)} {w : W.Log} {i : ℕ}

/-- The next version of a state has the index of the next entry. -/
def NextIndex (t : MultiTree N) (i : ℕ) : Prop :=
  walIndex (nextVersion t.version t.initialVersion) t.initialVersion = i

/-- Where the replay ends: at a version, or at the end of the log. -/
def endIndex (w : W.Log) (endVersion iv : ℕ) : ℕ :=
  if endVersion = 0 then W.lastIndex w else walIndex endVersion iv

theorem catchupWAL_of_le {t : MultiTree N} (endVersion : ℕ) (hi : NextIndex t (i + 1))
    (hle : W.lastIndex w ≤ i) : t.catchupWAL sha256 W w endVersion = some t := by
  simp only [NextIndex] at hi
  simp only [MultiTree.catchupWAL, hi]
  rw [if_pos (by omega)]

/-- The end is not after the state itself. -/
theorem catchupWAL_of_endIndex_le {t : MultiTree N} {endVersion : ℕ} (hi : NextIndex t (i + 1))
    (hlt : i < W.lastIndex w) (hend : endIndex W w endVersion t.initialVersion ≤ i) :
    t.catchupWAL sha256 W w endVersion = none := by
  simp only [NextIndex] at hi
  unfold endIndex at hend
  simp only [MultiTree.catchupWAL, hi]
  rw [if_neg (by omega), if_pos (by omega)]

/-- The first entry to replay was dropped. -/
theorem catchupWAL_of_lt_dropped {t : MultiTree N} (endVersion : ℕ) (hi : NextIndex t (i + 1))
    (hlt : i < W.lastIndex w) (hd : i < W.dropped w) : t.catchupWAL sha256 W w endVersion = none := by
  have hread : W.read w (i + 1) = none := by
    rw [W.read_eq, if_neg (by omega)]
  simp only [NextIndex] at hi
  simp only [MultiTree.catchupWAL, hi]
  rw [if_neg (by omega)]
  generalize (if endVersion = 0 then W.lastIndex w else walIndex endVersion t.initialVersion) = e
  split_ifs with he
  · rfl
  · obtain ⟨n, hn⟩ : ∃ n, min e (W.lastIndex w) + 1 - (i + 1) = n + 1 :=
      Nat.exists_eq_succ_of_ne_zero (by omega)
    rw [hn, MultiTree.catchupLoop, hread]
    rfl

/-- With entries to replay, catching up is a replay of a part of the log. -/
theorem catchupWAL_eq_replay {t : MultiTree N} {endVersion : ℕ} (hw : W.Holds w h.log)
    (hi : NextIndex t (i + 1)) (hd : W.dropped w ≤ i) (hlt : i < W.lastIndex w)
    (hend : i < endIndex W w endVersion t.initialVersion) :
    t.catchupWAL sha256 W w endVersion = replay (MultiTree.entryStep sha256) t
      ((h.log.drop i).take (min (endIndex W w endVersion t.initialVersion) (W.lastIndex w) - i)) := by
  have hle := hw.le
  set k := min (endIndex W w endVersion t.initialVersion) (W.lastIndex w) with hk
  have hik : i < k := lt_min hend hlt
  have hkl : k ≤ W.lastIndex w := min_le_right _ _
  obtain ⟨e, es, hes⟩ : ∃ e es, (h.log.drop i).take (k - i) = e :: es := by
    rw [← List.ne_nil_iff_exists_cons, ← List.length_pos_iff]
    simp only [List.length_take, List.length_drop]
    omega
  have hlen : (e :: es).length = k - i := by
    rw [← hes]
    simp only [List.length_take, List.length_drop]
    omega
  have hread : ∀ j e', (e :: es)[j]? = some e' → W.read w (i + 1 + j) = some e' := by
    intro j e' hj
    have hjlt : j < k - i := by
      rw [← hlen]
      exact (List.getElem?_eq_some_iff.mp hj).1
    rw [← hes, List.getElem?_take, if_pos hjlt, List.getElem?_drop] at hj
    rw [Nat.add_right_comm, hw.read (by omega) (by omega), hj]
  simp only [NextIndex] at hi
  unfold endIndex at hk hend
  simp only [MultiTree.catchupWAL, hi]
  rw [if_neg (by omega), if_neg (by omega), ← hk, show k + 1 - (i + 1) = (e :: es).length by omega,
    MultiTree.catchupLoop_cons sha256 W hread, hes, Option.map_map]
  rcases hr : replay (MultiTree.entryStep sha256) t (e :: es) with _ | t'
  · rfl
  · simp only [Option.map_some, Function.comp_apply]
    rw [(MultiTree.recorded_replay sha256 (by simp) hr).updateCommitInfo_clear]

/-- Catching up from a state of a history, if it succeeds, leads to a state of the history. -/
theorem catchupWAL_to (hs : h.Sound (MultiTree.entryStep sha256)) (hw : W.Holds w h.log)
    {endVersion : ℕ} (hi : NextIndex (h.state i) (i + 1)) {t : MultiTree N}
    (ht : (h.state i).catchupWAL sha256 W w endVersion = some t) :
    W.lastIndex w ≤ i ∧ t = h.state i ∨
      i < min (endIndex W w endVersion (h.state i).initialVersion) (W.lastIndex w) ∧
        t = h.state (min (endIndex W w endVersion (h.state i).initialVersion) (W.lastIndex w)) := by
  rcases le_or_gt (W.lastIndex w) i with hle | hlt
  · rw [catchupWAL_of_le sha256 W endVersion hi hle] at ht
    exact .inl ⟨hle, (Option.some.inj ht).symm⟩
  rcases le_or_gt (endIndex W w endVersion (h.state i).initialVersion) i with hle | hend
  · rw [catchupWAL_of_endIndex_le sha256 W hi hlt hle] at ht
    exact nomatch ht
  rcases le_or_gt (W.dropped w) i with hd | hd
  · rw [catchupWAL_eq_replay sha256 W hw hi hd hlt hend] at ht
    have hle := hw.le
    have hmin := lt_min hend hlt
    have hright := min_le_right (endIndex W w endVersion (h.state i).initialVersion) (W.lastIndex w)
    refine .inr ⟨hmin, ?_⟩
    rw [hs.replay (by omega) ht]
    congr 1
    omega
  · rw [catchupWAL_of_lt_dropped sha256 W endVersion hi hlt hd] at ht
    exact nomatch ht

theorem catchupWAL_sound (hs : h.Sound (MultiTree.entryStep sha256)) (hw : W.Holds w h.log)
    (hi : NextIndex (h.state i) (i + 1)) {t : MultiTree N}
    (ht : (h.state i).catchupWAL sha256 W w 0 = some t) : t = h.state (max i (W.lastIndex w)) := by
  have hend : endIndex W w 0 (h.state i).initialVersion = W.lastIndex w := rfl
  rcases catchupWAL_to sha256 W hs hw hi ht with ⟨hle, rfl⟩ | ⟨hlt, rfl⟩
  · rw [max_eq_left hle]
  · rw [hend, min_self] at hlt ⊢
    rw [max_eq_right hlt.le]

/-- It succeeds when no entry it needs was dropped and every entry can be replayed. -/
theorem catchupWAL_complete_to (hs : h.Sound (MultiTree.entryStep sha256))
    (hc : h.Complete (MultiTree.entryStep sha256)) (hw : W.Holds w h.log) {endVersion : ℕ}
    (hi : NextIndex (h.state i) (i + 1)) (hd : W.dropped w ≤ i) (hlt : i < W.lastIndex w)
    (hend : i < endIndex W w endVersion (h.state i).initialVersion) :
    (h.state i).catchupWAL sha256 W w endVersion =
      some (h.state (min (endIndex W w endVersion (h.state i).initialVersion) (W.lastIndex w))) := by
  have hle := hw.le
  have hmin := lt_min hend hlt
  have hright := min_le_right (endIndex W w endVersion (h.state i).initialVersion) (W.lastIndex w)
  rw [catchupWAL_eq_replay sha256 W hw hi hd hlt hend, hc.replay hs (by omega)]
  congr 2
  omega

theorem catchupWAL_complete (hs : h.Sound (MultiTree.entryStep sha256))
    (hc : h.Complete (MultiTree.entryStep sha256)) (hw : W.Holds w h.log)
    (hi : NextIndex (h.state i) (i + 1)) (hd : W.dropped w ≤ i) :
    (h.state i).catchupWAL sha256 W w 0 = some (h.state (max i (W.lastIndex w))) := by
  have hend : endIndex W w 0 (h.state i).initialVersion = W.lastIndex w := rfl
  rcases le_or_gt (W.lastIndex w) i with hle | hlt
  · rw [catchupWAL_of_le sha256 W 0 hi hle, max_eq_left hle]
  · rw [catchupWAL_complete_to sha256 W hs hc hw hi hd hlt (hend ▸ hlt), hend, min_self, max_eq_right hlt.le]

end Recovery

end IavlStore.Multi
