import IavlStore.Multi.Catchup
import IavlStore.Multi.Upgrades

/-! Coherence of a multitree: the trees are in the order of their names, the index holds
their positions, and all trees will be saved at the next version of the multitree. Upgrades
that succeed, change sets, saving and replaying any log keep it. Setting the initial
version keeps it while the trees have none, as they ignore a second one. -/

namespace IavlStore.Multi

open IavlStore.Base.Encoding

variable {N : Type} [LinearOrder N] {W : WalLog (WALEntry N)} {sha256 : Bytes → Bytes} {t t' : MultiTree N}

/-! ### Multitrees between and after commits -/

/-- A coherent multitree whose trees will all be saved at its next version. -/
structure Building (t : MultiTree N) : Prop where
  coherent : t.Coherent
  level : t.Level
  version_le : t.version ≤ maxInt64
  initialVersion_le : t.initialVersion ≤ maxInt64

/-- A multitree that was committed or loaded. -/
structure Saved (t : MultiTree N) : Prop where
  loadable : t.Loadable
  level : t.Level

theorem Saved.building (h : Saved t) : Building t :=
  ⟨h.loadable.coherent, h.level, h.loadable.version_le, h.loadable.initialVersion_le⟩

theorem Building.applyAll (h : Building t) (f : N → ChangeSet) : Building (t.applyAll f) :=
  ⟨h.coherent.applyAll f, h.level.applyAll f, h.version_le, h.initialVersion_le⟩

theorem Building.applyUpgrades (h : Building t) {us : List (TreeNameUpgrade N)}
    (hu : t.applyUpgrades us = (t', none)) : Building t' := by
  obtain ⟨hci, hiv⟩ := MultiTree.applyUpgrades_fields hu
  have hv : t'.version = t.version := congrArg CommitInfo.version hci
  exact ⟨h.coherent.applyUpgrades hu, h.level.applyUpgrades h.version_le hu, hv ▸ h.version_le,
    hiv ▸ h.initialVersion_le⟩

theorem Building.applyChangeSets (h : Building t) (cs : List (NamedChangeSet N)) :
    Building (t.applyChangeSets cs).1 := by
  obtain ⟨f, -, hf⟩ := h.coherent.applyChangeSets_fst cs
  exact hf ▸ h.applyAll f

theorem applyWALEntry_eq_ok {e : WALEntry N} (he : t.applyWALEntry e = .ok t') :
    ∃ t₁, t.applyUpgrades e.upgrades = (t₁, none) ∧ t₁.applyChangeSets e.changesets = (t', none) := by
  unfold MultiTree.applyWALEntry at he
  rcases hu : t.applyUpgrades e.upgrades with ⟨t₁, _ | err⟩ <;> simp only [hu, reduceCtorEq] at he
  rcases hc : t₁.applyChangeSets e.changesets with ⟨t₂, _ | err⟩ <;> simp only [hc, reduceCtorEq] at he
  obtain rfl := Except.ok.inj he
  exact ⟨t₁, rfl, hc⟩

theorem applyWALEntry_fields {e : WALEntry N} (he : t.applyWALEntry e = .ok t') :
    t'.version = t.version ∧ t'.initialVersion = t.initialVersion := by
  obtain ⟨t₁, hu, hc⟩ := applyWALEntry_eq_ok he
  obtain ⟨hci, hiv⟩ := MultiTree.applyUpgrades_fields hu
  obtain ⟨hci', hiv'⟩ := MultiTree.applyChangeSets_fields e.changesets t₁
  rw [hc] at hci' hiv'
  exact ⟨congrArg CommitInfo.version (hci'.trans hci), hiv'.trans hiv⟩

/-- Replay of any entry. -/
theorem Building.applyWALEntry (h : Building t) {e : WALEntry N} (he : t.applyWALEntry e = .ok t') :
    Building t' := by
  obtain ⟨t₁, hu, hc⟩ := applyWALEntry_eq_ok he
  have hb := (h.applyUpgrades hu).applyChangeSets e.changesets
  rwa [hc] at hb

theorem Saved.clear (h : Saved t) : Saved t.clear :=
  ⟨⟨⟨h.loadable.coherent.sorted, h.loadable.coherent.index⟩, h.loadable.version_le,
    h.loadable.initialVersion_le, h.loadable.assigned⟩, h.level⟩

theorem Saved.updateCommitInfo (h : Saved t) : Saved (t.updateCommitInfo sha256) :=
  ⟨⟨⟨h.loadable.coherent.sorted, h.loadable.coherent.index⟩, h.loadable.version_le,
    h.loadable.initialVersion_le, h.loadable.assigned⟩, h.level⟩

theorem Building.saveVersion (h : Building t) {update : Bool} (hs : t.saveVersion sha256 update = .ok t')
    (hv : nextVersion t.version t.initialVersion ≤ maxInt64) :
    Saved t' ∧ t'.version = nextVersion t.version t.initialVersion ∧
      t'.initialVersion = t.initialVersion := by
  refine ⟨?_, MultiTree.saveVersion_fields hs⟩
  have htrue : ∀ {t'}, t.saveVersion sha256 true = .ok t' → Saved t' := by
    intro t' hs
    obtain ⟨hl, hlev, -⟩ := MultiTree.Loadable.saveVersion h.coherent h.level h.version_le
      h.initialVersion_le hs (.inr ((MultiTree.saveVersion_fields hs).1 ▸ hv))
    exact ⟨hl, hlev⟩
  cases update with
  | true => exact htrue hs
  | false =>
    rw [MultiTree.saveVersion_false] at hs
    rcases h₁ : t.saveVersion sha256 true with err | t₁
    · rw [h₁] at hs
      exact nomatch hs
    · rw [h₁] at hs
      obtain rfl := Except.ok.inj hs
      exact (htrue h₁).clear

/-- After a commit every tree is at the version of the multitree. -/
theorem Saved.version_eq (h : Saved t) (hpos : 0 < t.version) : ∀ e ∈ t.trees, e.tree.version = t.version := by
  intro e he
  have hlev := h.level e he
  rw [nextVersion, if_neg (by omega), next_eq h.loadable.version_le] at hlev
  omega

/-! ### Replaying a log -/

/-- The next version and its index in the log, as long as both are in range. -/
theorem nextVersion_of_walIndex {v iv i : ℕ} (hi : walIndex (nextVersion v iv) iv = i) (hpos : 0 < i)
    (hle : iv - 1 + i ≤ maxInt64) (hv : v ≤ maxInt64) :
    nextVersion v iv = iv - 1 + i ∧ (iv - 1 + i < maxInt64 →
      walIndex (nextVersion (iv - 1 + i) iv) iv = i + 1) := by
  unfold maxInt64 at hle hv ⊢
  unfold walIndex nextVersion next at *
  constructor
  · split_ifs at hi ⊢ <;> omega
  · intro hlt
    split_ifs at hi ⊢ <;> omega

theorem Saved.catchupLoop {w : W.Log} {count i : ℕ} (h : Saved t)
    (hi : walIndex (nextVersion t.version t.initialVersion) t.initialVersion = i)
    (hle : t.initialVersion - 1 + i + count ≤ maxInt64 + 1)
    (hc : MultiTree.catchupLoop sha256 W w count i t = some t') : Saved t' := by
  induction count generalizing i t with
  | zero =>
    obtain rfl := Option.some.inj hc
    exact h
  | succ count ih =>
    obtain ⟨e, t₁, t₂, hr, ha, hs, hc⟩ := MultiTree.catchupLoop_succ sha256 W hc
    have hpos : 0 < i := by
      by_contra h0
      rw [W.read_eq, if_neg (by omega)] at hr
      exact nomatch hr
    have h₁ := h.building.applyWALEntry ha
    obtain ⟨hv₁, hiv₁⟩ := applyWALEntry_fields ha
    obtain ⟨hnext, hidx⟩ := nextVersion_of_walIndex hi hpos (by omega) h.loadable.version_le
    obtain ⟨h₂, hv₂, hiv₂⟩ := h₁.saveVersion hs (by rw [hv₁, hiv₁, hnext]; omega)
    rw [hv₁, hiv₁, hnext] at hv₂
    rw [hiv₁] at hiv₂
    rcases count with _ | count
    · obtain rfl := Option.some.inj hc
      exact h₂
    · refine ih h₂ ?_ (by rw [hiv₂]; omega) hc
      rw [hv₂, hiv₂]
      exact hidx (by omega)

/-- A saved multitree. Where it is asked for, its commit info is that of its trees from the
first version on. -/
structure Sealed (recorded : Prop) (sha256 : Bytes → Bytes) (t : MultiTree N) : Prop extends Saved t where
  recorded : recorded → 0 < t.version → t.Recorded sha256

variable {recorded : Prop}

theorem Building.seal (recorded : Prop) (h : Building t) (hs : t.saveVersion sha256 true = .ok t')
    (hv : nextVersion t.version t.initialVersion ≤ maxInt64) :
    Sealed recorded sha256 t' ∧ t'.version = nextVersion t.version t.initialVersion :=
  ⟨⟨(h.saveVersion hs hv).1, fun _ _ => MultiTree.recorded_saveVersion sha256 hs⟩, (h.saveVersion hs hv).2.1⟩

/-- Catching up with any log. -/
theorem Sealed.catchupWAL {w : W.Log} {endVersion : ℕ} (h : Sealed recorded sha256 t)
    (hle : t.initialVersion - 1 + W.lastIndex w ≤ maxInt64)
    (hc : t.catchupWAL sha256 W w endVersion = some t') : Sealed recorded sha256 t' := by
  simp only [MultiTree.catchupWAL] at hc
  generalize (if endVersion = 0 then W.lastIndex w else walIndex endVersion t.initialVersion) = endIndex at hc
  split_ifs at hc with hlt hend
  · obtain rfl := Option.some.inj hc
    exact h
  · rw [Option.map_eq_some_iff] at hc
    obtain ⟨t₁, hloop, rfl⟩ := hc
    refine ⟨(h.toSaved.catchupLoop rfl ?_ hloop).updateCommitInfo, fun _ _ => rfl⟩
    have := min_le_right endIndex (W.lastIndex w)
    omega

/-! ### Setting the initial version -/

/-- Before the first commit, trees follow a new initial version unless they have one. -/
theorem Building.setInitialVersion {v : ℕ} (h : Building t) (hs : t.setInitialVersion v = .ok t')
    (hv : t.trees = [] ∨ t.initialVersion ≤ 1 ∨ v = t.initialVersion) : Building t' ∧ v ≤ maxInt64 := by
  obtain ⟨hle, h0, -, rfl⟩ := MultiTree.setInitialVersion_eq_ok hs
  have hnames : (t.assignInitialVersion v).trees.map NamedTree.name = t.trees.map NamedTree.name := by
    unfold MultiTree.assignInitialVersion
    split_ifs <;> simp [Function.comp_def]
  have hcoh : (t.assignInitialVersion v).Coherent :=
    ⟨by rw [MultiTree.names, hnames]; exact h.coherent.sorted,
      by rw [positions, hnames]; exact h.coherent.index⟩
  refine ⟨⟨hcoh, ?_, h.version_le, hle⟩, hle⟩
  have hold : ∀ e ∈ t.trees, e.tree.version + 1 = nextVersion 0 t.initialVersion := by
    intro e he
    rw [h.level e he, h0]
  have hver : (t.assignInitialVersion v).version = 0 := h0
  intro e he
  rw [hver, show (t.assignInitialVersion v).initialVersion = v from rfl]
  simp only [MultiTree.assignInitialVersion] at he
  by_cases h1 : 1 < v
  · rw [if_pos h1] at he
    obtain ⟨d, hd, rfl⟩ := List.mem_map.mp he
    have hdv := hold d hd
    have hne := List.ne_nil_of_mem hd
    rw [nextVersion, if_pos ⟨rfl, h1⟩]
    simp only [setInitialVersionTree, nextVersion] at hdv ⊢
    rcases hv with hnil | hiv | rfl
    · exact absurd hnil hne
    · rw [if_neg (by omega)] at hdv
      have hzero : d.tree.version = 0 := Nat.succ.inj hdv
      rw [if_neg (by omega)]
      simp only
      omega
    · rw [if_pos ⟨trivial, h1⟩] at hdv
      rw [if_pos (by omega)]
      exact hdv
  · rw [if_neg h1] at he
    rw [hold e he]
    rcases hv with hnil | hiv | rfl
    · exact absurd hnil (List.ne_nil_of_mem he)
    · rw [nextVersion, nextVersion, if_neg (by omega), if_neg (by omega)]
    · rfl

end IavlStore.Multi
