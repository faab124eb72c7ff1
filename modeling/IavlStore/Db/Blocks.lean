import IavlStore.Base.Runs
import IavlStore.Db.Model
import IavlStore.Multi.UpgradeOrder

/-! The log entry of a block. Between two commits, upgrades and change sets come in any
order and number of calls, and each may fail. The entry lists the upgrades before the
change sets, and a change set that failed is in it all the same. While upgrades stay away
from changed trees and merges keep the order of the changes, the entry leads to what the
commit saves exactly when no call failed. -/

namespace IavlStore.Db

open IavlStore.Base.Encoding IavlStore.Base.SortedPairs IavlStore.Base.Runs IavlStore.Multi

variable {N : Type} [LinearOrder N]

/-- The calls that change the block being built. -/
inductive BlockCall (N : Type) where
  | applyUpgrades (upgrades : List (TreeNameUpgrade N))
  | applyChangeSets (changeSets : List (NamedChangeSet N))
  | applyChangeSet (name : N) (changeSet : ChangeSet)

def Working.call (d : Working N) : BlockCall N → Working N × Option (Error N)
  | .applyUpgrades us => d.applyUpgrades us
  | .applyChangeSets cs => d.applyChangeSets cs
  | .applyChangeSet name cs => d.applyChangeSet name cs

/-- A call and the error it returns. -/
def blockStep (d : Working N) (call : BlockCall N) : Option (Working N × Option (Error N)) :=
  some (d.call call)

/-- The stores with remembered changes. -/
def Working.touched (d : Working N) : List N := d.pendingLog.changesets.map NamedChangeSet.name

/-- The call keeps the block in order. Upgrades succeed; after other calls they name no store
with remembered changes, and what they look for is not there twice. Change sets are not
merged into a block that has two change sets of their store. -/
def InOrder (d : Working N) : BlockCall N → Prop
  | .applyUpgrades us =>
    (d.applyUpgrades us).2 = none ∧
      (d.pendingLog = emptyEntry ∨
        (∀ u ∈ us, u.name ∉ d.touched ∧ ∀ old ∈ u.renameFrom, old ∉ d.touched) ∧
          MultiTree.Unambiguous (nextVersion d.mtree.version d.mtree.initialVersion) us d.mtree.trees)
  | .applyChangeSets cs => MergesInOrder cs d
  | .applyChangeSet name _ => d.touched.count name ≤ 1

instance (d : Working N) : (call : BlockCall N) → Decidable (InOrder d call)
  | .applyUpgrades _ => inferInstanceAs (Decidable (_ ∧ (_ ∨ _ ∧ _)))
  | .applyChangeSets cs => inferInstanceAs (Decidable (MergesInOrder cs d))
  | .applyChangeSet _ _ => inferInstanceAs (Decidable (_ ≤ _))

/-! ### Changes of named stores -/

/-- Only stores with remembered changes were changed. -/
def Confined (up : MultiTree N) (d : Working N) : Prop :=
  ∃ f, (∀ n, n ∉ d.touched → f n = []) ∧ d.mtree = up.applyAll f

variable {base up : MultiTree N} {d : Working N}

theorem Clean.confined (h : Clean base up d) : Confined up d :=
  ⟨_, fun _ hn => pairsFor_of_not_mem hn, h.mtree⟩

theorem Confined.applyChangeSet (h : Confined up d) (hup : up.Coherent) (name : N) (cs : ChangeSet) :
    Confined up (d.applyChangeSet name cs).1 := by
  obtain ⟨f, hf, hmt⟩ := h
  have ht : d.mtree.Coherent := hmt ▸ hup.applyAll _
  unfold Working.applyChangeSet
  split_ifs with hnil
  · exact ⟨f, hf, hmt⟩
  · have htouched : ∀ n, n ∉ (addPending name cs d.pendingLog.changesets).map NamedChangeSet.name →
        n ≠ name ∧ f n = [] := by
      intro n hn
      rw [mem_name_addPending, not_or] at hn
      exact ⟨hn.1, hf n hn.2⟩
    by_cases hname : name ∈ d.mtree.names
    · rw [ht.applyChangeSet cs hname]
      refine ⟨fun n => f n ++ if n = name then cs else [], fun n hn => ?_, ?_⟩
      · obtain ⟨hne, hfn⟩ := htouched n hn
        simp only [hfn, if_neg hne, List.append_nil]
      · rw [hmt, MultiTree.applyAll_applyAll]
    · rw [ht.applyChangeSet_unknown cs hname]
      exact ⟨f, fun n hn => (htouched n hn).2, hmt⟩

theorem Confined.mergeChangeSets (h : Confined up d) (hup : up.Coherent) (cs : List (NamedChangeSet N)) :
    Confined up (d.mergeChangeSets cs).1 := by
  induction cs generalizing d with
  | nil => exact h
  | cons c cs ih =>
    have hstep := h.applyChangeSet hup c.name c.changeset
    rw [Working.mergeChangeSets]
    rcases he : d.applyChangeSet c.name c.changeset with ⟨d', _ | e⟩
    · rw [he] at hstep
      exact ih hstep
    · rw [he] at hstep
      exact hstep

theorem Confined.applyChangeSets (h : Confined up d) (hup : up.Coherent) (cs : List (NamedChangeSet N)) :
    Confined up (d.applyChangeSets cs).1 := by
  unfold Working.applyChangeSets
  split_ifs with hnil hfirst
  · exact h
  · obtain ⟨f, hf, hmt⟩ := h
    have hclean : d.mtree = up := by
      rw [hmt]
      refine (MultiTree.applyAll_congr fun n _ => ?_).trans up.applyAll_nil
      exact hf n (by simp [Working.touched, hfirst])
    rw [hclean]
    exact hup.applyChangeSets_fst cs
  · exact h.mergeChangeSets hup cs

/-! ### Upgrades after changes -/

/-- The upgrades can be moved before the changes. -/
theorem applyUpgrades_before {f : N → ChangeSet} (hf : ∀ n, n ∉ d.touched → f n = [])
    (hmt : d.mtree = up.applyAll f) {us : List (TreeNameUpgrade N)}
    (hbase : base.applyUpgrades d.pendingLog.upgrades = (up, none)) (hok : (d.applyUpgrades us).2 = none)
    (hnames : ∀ u ∈ us, u.name ∉ d.touched ∧ ∀ old ∈ u.renameFrom, old ∉ d.touched)
    (hu : MultiTree.Unambiguous (nextVersion d.mtree.version d.mtree.initialVersion) us d.mtree.trees) :
    ∃ up', base.applyUpgrades (d.pendingLog.upgrades ++ us) = (up', none) ∧
      (d.applyUpgrades us).1 = ⟨up'.applyAll f, { d.pendingLog with upgrades := d.pendingLog.upgrades ++ us }⟩ ∧
      ∀ n ∈ d.touched, n ∈ up'.names ↔ n ∈ up.names := by
  have hfu : ∀ u ∈ us, f u.name = [] ∧ ∀ old ∈ u.renameFrom, f old = [] := fun u hu' =>
    ⟨hf _ (hnames u hu').1, fun old hold => hf _ ((hnames u hu').2 old hold)⟩
  have hcomm := MultiTree.applyUpgrades_applyAll hfu up
  rw [hmt] at hu
  rcases hup : up.applyUpgrades us with ⟨up', e⟩
  rw [← hmt, hup] at hcomm
  unfold Working.applyUpgrades at hok ⊢
  rw [hcomm] at hok ⊢
  rcases e with _ | e
  · refine ⟨up', ?_, rfl, fun n hn => ?_⟩
    · exact MultiTree.applyUpgrades_append_of_unambiguous hbase hup (hu.of_applyAll hfu)
    · apply MultiTree.mem_names_applyUpgrades _ hup
      intro u hu'
      exact ⟨fun heq => (hnames u hu').1 (heq ▸ hn), fun hold => (hnames u hu').2 n hold hn⟩
  · exact nomatch hok

theorem Clean.applyUpgrades (h : Clean base up d) {us : List (TreeNameUpgrade N)}
    (ho : InOrder d (.applyUpgrades us)) : ∃ up', Clean base up' (d.applyUpgrades us).1 := by
  obtain ⟨hok, hfirst | ⟨hnames, hu⟩⟩ := ho
  · -- the block is still empty
    have hup := h.upgrades
    rw [hfirst] at hup
    obtain ⟨rfl, -⟩ := Prod.mk.inj hup
    have hmt : d.mtree = base := by
      rw [h.mtree, hfirst]
      exact base.applyAll_nil
    unfold Working.applyUpgrades at hok ⊢
    rw [hmt] at hok ⊢
    rcases hb : base.applyUpgrades us with ⟨up', _ | e⟩
    · refine ⟨up', ?_, ?_, ?_⟩
      · simpa [hfirst, emptyEntry] using hb
      · simp [hfirst, emptyEntry]
      · simp [hfirst, emptyEntry, MultiTree.applyAll_nil]
    · rw [hb] at hok
      exact nomatch hok
  · obtain ⟨up', hbase, heq, hmem⟩ := applyUpgrades_before (fun _ hn => pairsFor_of_not_mem hn) h.mtree
      h.upgrades hok hnames hu
    rw [heq]
    exact ⟨up', hbase, fun c hc => (hmem _ (List.mem_map_of_mem hc)).mpr (h.known c hc), rfl⟩

theorem Poisoned.applyUpgrades (h : Poisoned base up d) (hc : Confined up d) {us : List (TreeNameUpgrade N)}
    (ho : InOrder d (.applyUpgrades us)) :
    ∃ up', Poisoned base up' (d.applyUpgrades us).1 ∧ Confined up' (d.applyUpgrades us).1 := by
  obtain ⟨c, hcm, hcn⟩ := h.unknown
  obtain ⟨hok, hfirst | ⟨hnames, hu⟩⟩ := ho
  · rw [hfirst] at hcm
    exact absurd hcm (by simp [emptyEntry])
  · obtain ⟨f, hf, hmt⟩ := hc
    obtain ⟨up', hbase, heq, hmem⟩ := applyUpgrades_before hf hmt h.upgrades hok hnames hu
    rw [heq]
    exact ⟨up', ⟨hbase, ⟨c, hcm, fun hn => hcn ((hmem _ (List.mem_map_of_mem hcm)).mp hn)⟩, f, rfl⟩,
      f, hf, rfl⟩

/-! ### Whole blocks -/

/-- The entry leads to the trees as long as no call failed, and cannot be replayed after. -/
def BlockInv (base : MultiTree N) (d : Working N) (errors : List (Option (Error N))) : Prop :=
  ((∀ e ∈ errors, e = none) ∧ ∃ up, Clean base up d) ∨
    ((∃ e ∈ errors, e ≠ none) ∧ ∃ up, Poisoned base up d ∧ Confined up d)

theorem BlockInv.step (hb : base.Coherent) {errors : List (Option (Error N))} (h : BlockInv base d errors)
    {call : BlockCall N} (ho : InOrder d call) : BlockInv base (d.call call).1 (errors ++ [(d.call call).2]) := by
  have hclean : (∀ e ∈ errors, e = none) → (d.call call).2 = none → ∀ e ∈ errors ++ [(d.call call).2], e = none := by
    intro hall hnone e he
    rcases List.mem_append.mp he with he | he
    · exact hall e he
    · rw [List.mem_singleton.mp he, hnone]
  rcases h with ⟨hall, up, hc⟩ | ⟨⟨e, he, hne⟩, up, hp, hconf⟩
  · have hup := hb.applyUpgrades hc.upgrades
    have hfailed : (d.call call).2 ≠ none → ∃ e ∈ errors ++ [(d.call call).2], e ≠ none :=
      fun hne => ⟨_, by simp, hne⟩
    cases call with
    | applyUpgrades us => exact .inl ⟨hclean hall ho.1, hc.applyUpgrades ho⟩
    | applyChangeSets cs =>
      rcases hc.applyChangeSets hb ho with ⟨hnone, hc'⟩ | ⟨hne, hp⟩
      · exact .inl ⟨hclean hall hnone, up, hc'⟩
      · exact .inr ⟨hfailed hne, up, hp, hc.confined.applyChangeSets hup cs⟩
    | applyChangeSet name cs =>
      rcases hc.applyChangeSet hb cs ho with ⟨hnone, hc'⟩ | ⟨hne, hp⟩
      · exact .inl ⟨hclean hall hnone, up, hc'⟩
      · exact .inr ⟨hfailed hne, up, hp, hc.confined.applyChangeSet hup name cs⟩
  · have hup := hb.applyUpgrades hp.upgrades
    refine .inr ⟨⟨e, List.mem_append_left _ he, hne⟩, ?_⟩
    cases call with
    | applyUpgrades us => exact hp.applyUpgrades hconf ho
    | applyChangeSets cs => exact ⟨up, hp.applyChangeSets hb cs, hconf.applyChangeSets hup cs⟩
    | applyChangeSet name cs => exact ⟨up, hp.applyChangeSet hb name cs, hconf.applyChangeSet hup name cs⟩

/-- In a block whose calls keep it in order, the entry leads from the last committed state to
the one that the commit saved exactly when no call failed. -/
theorem entry_replays_iff (hb : base.Coherent) {calls : List (BlockCall N)}
    {errors : List (Option (Error N))} {sha256 : Bytes → Bytes} {t : MultiTree N}
    (ha : Along blockStep InOrder ⟨base, emptyEntry⟩ calls)
    (he : exec blockStep ⟨base, emptyEntry⟩ calls = some (d, errors))
    (hs : d.mtree.saveVersion sha256 true = .ok t) :
    base.entryStep sha256 d.pendingLog = some t ↔ ∀ e ∈ errors, e = none := by
  have hinit : BlockInv base ⟨base, emptyEntry⟩ [] :=
    .inl ⟨by simp, base, rfl, by simp [emptyEntry], base.applyAll_nil.symm⟩
  have hinv : BlockInv base d errors := by
    refine exec_invariant (P := BlockInv base) ?_ hinit ha he
    intro d errors call d' e h ho hstep
    obtain ⟨rfl, rfl⟩ := Prod.mk.inj (Option.some.inj hstep)
    exact h.step hb ho
  rcases hinv with ⟨hall, up, hc⟩ | ⟨⟨e, he, hne⟩, up, hp, -⟩
  · exact iff_of_true (hc.entryStep hb hs) hall
  · refine iff_of_false ?_ fun hall => hne (hall e he)
    rw [hp.entryStep hb]
    simp

/-! ### Blocks of two stores -/

def setPair (key value : UInt8) : ChangeSet := [⟨false, [key], some [value]⟩]

/-- Two stores with one key each, committed. -/
def twoStores : MultiTree ℕ :=
  let t := ((MultiTree.newEmptyMultiTree 0).applyUpgrades [⟨0, none, false⟩, ⟨1, none, false⟩]).1
  let t := (t.applyChangeSets [⟨0, setPair 7 0⟩, ⟨1, setPair 7 1⟩]).1
  (t.saveVersion (fun _ => []) true).toOption.getD t

/-- The names and pairs of what a block saves, and of what its entry leads to. -/
def savedAndReplayed (calls : List (BlockCall ℕ)) :
    Option (List (ℕ × List (Bytes × Bytes)) × Option (List (ℕ × List (Bytes × Bytes)))) := do
  let (d, _) ← exec blockStep ⟨twoStores, emptyEntry⟩ calls
  let t ← (d.mtree.saveVersion (fun _ => []) true).toOption
  let pairs (t : MultiTree ℕ) := t.trees.map fun e => (e.name, e.tree.pairs)
  some (pairs t, (twoStores.entryStep (fun _ => []) d.pendingLog).map pairs)

/-- Changes of one store, a rename of the other after them, and changes of both. -/
theorem entry_replays_rename_between :
    let calls : List (BlockCall ℕ) := [.applyChangeSet 1 (setPair 8 1), .applyUpgrades [⟨2, some 0, false⟩],
      .applyChangeSets [⟨1, setPair 8 2⟩, ⟨2, setPair 8 3⟩]]
    ∃ d t, exec blockStep ⟨twoStores, emptyEntry⟩ calls = some (d, [none, none, none]) ∧
      d.mtree.saveVersion (fun _ => []) true = .ok t ∧
      twoStores.entryStep (fun _ => []) d.pendingLog = some t := by
  intro calls
  have hb : twoStores.Coherent := ⟨by decide, rfl⟩
  have ha : Along blockStep InOrder ⟨twoStores, emptyEntry⟩ calls := by decide
  have hnone : ∀ e ∈ [none, none, none], e = (none : Option (Error ℕ)) := by simp
  exact ⟨_, _, rfl, rfl, (entry_replays_iff hb ha rfl rfl).mpr hnone⟩

/-- A failed call; a merge into two change sets of one store; a rename after a change; and a
second call that deletes one of two trees of a name. -/
theorem entry_diverges :
    savedAndReplayed [.applyChangeSet 2 (setPair 8 1)] =
      some ([(0, [([7], [0])]), (1, [([7], [1])])], none) ∧
    savedAndReplayed [.applyChangeSets [⟨0, setPair 7 2⟩, ⟨0, setPair 7 3⟩], .applyChangeSet 0 (setPair 7 4)] =
      some ([(0, [([7], [4])]), (1, [([7], [1])])], some [(0, [([7], [3])]), (1, [([7], [1])])]) ∧
    savedAndReplayed [.applyChangeSet 0 (setPair 7 2), .applyUpgrades [⟨2, some 0, false⟩]] =
      some ([(1, [([7], [1])]), (2, [([7], [2])])], none) ∧
    savedAndReplayed [.applyUpgrades [⟨5, some 0, false⟩],
        .applyUpgrades [⟨5, some 1, false⟩, ⟨5, none, true⟩]] =
      some ([(5, [([7], [0])])], some [(5, [([7], [1])])]) :=
  ⟨rfl, rfl, rfl, rfl⟩

end IavlStore.Db
