import IavlStore.Multi.Catchup

/-! The changes of the block being built, and the log entry they become. Change sets are
applied to the trees as they come and remembered for the log: the first call of a block is
remembered as it is, later calls are merged store by store into what is there. A merge
extends the first change set of its store, so it keeps the order of the changes as long as
that is the only one. Then the entry either leads from the last committed state to the
trees as they are, or names an unknown tree and cannot be replayed. -/

namespace IavlStore.Db

open IavlStore.Base.Encoding IavlStore.Base.SortedPairs IavlStore.Multi

variable {N : Type} [LinearOrder N]

/-- Append to the first change set of a store. -/
def mergeFirst (name : N) (cs : ChangeSet) : List (NamedChangeSet N) → List (NamedChangeSet N)
  | [] => []
  | c :: rest =>
    if c.name = name then { c with changeset := c.changeset ++ cs } :: rest
    else c :: mergeFirst name cs rest

def sortChangesets (cs : List (NamedChangeSet N)) : List (NamedChangeSet N) :=
  cs.insertionSort fun a b => a.name ≤ b.name

/-- Remember the changes of one store. -/
def addPending (name : N) (cs : ChangeSet) (pending : List (NamedChangeSet N)) :
    List (NamedChangeSet N) :=
  if name ∈ pending.map NamedChangeSet.name then mergeFirst name cs pending
  else sortChangesets (pending ++ [⟨name, cs⟩])

/-- The trees and the changes since the last commit. -/
structure Working (N : Type) where
  mtree : MultiTree N
  pendingLog : WALEntry N
  deriving DecidableEq

namespace Working

def applyUpgrades (upgrades : List (TreeNameUpgrade N)) (d : Working N) :
    Working N × Option (Error N) :=
  match d.mtree.applyUpgrades upgrades with
  | (t, some e) => ({ d with mtree := t }, some e)
  | (t, none) =>
    ({ mtree := t, pendingLog := { d.pendingLog with upgrades := d.pendingLog.upgrades ++ upgrades } },
      none)

/-- The changes are remembered even when the tree is unknown. -/
def applyChangeSet (name : N) (cs : ChangeSet) (d : Working N) : Working N × Option (Error N) :=
  if cs = [] then (d, none)
  else
    let pending := addPending name cs d.pendingLog.changesets
    let (t, e) := d.mtree.applyChangeSet name cs
    (⟨t, { d.pendingLog with changesets := pending }⟩, e)

/-- Merge one store at a time, up to a failure. -/
def mergeChangeSets : List (NamedChangeSet N) → Working N → Working N × Option (Error N)
  | [], d => (d, none)
  | c :: cs, d =>
    match d.applyChangeSet c.name c.changeset with
    | (d, some e) => (d, some e)
    | (d, none) => mergeChangeSets cs d

def applyChangeSets (cs : List (NamedChangeSet N)) (d : Working N) : Working N × Option (Error N) :=
  if cs = [] then (d, none)
  else if d.pendingLog.changesets = [] then
    let (t, e) := d.mtree.applyChangeSets cs
    (⟨t, { d.pendingLog with changesets := cs }⟩, e)
  else mergeChangeSets cs d

/-! ### What the calls keep -/

section Keeps
variable {P : MultiTree N → Prop} (hP : ∀ t cs, P t → P (t.applyChangeSets cs).1) {d : Working N}
include hP

theorem applyChangeSet_keeps (hd : P d.mtree) (name : N) (cs : ChangeSet) :
    P (d.applyChangeSet name cs).1.mtree := by
  have hone := hP d.mtree [⟨name, cs⟩] hd
  unfold Working.applyChangeSet
  split_ifs
  · exact hd
  · simp only [MultiTree.applyChangeSets] at hone ⊢
    rcases he : d.mtree.applyChangeSet name cs with ⟨t, _ | e⟩ <;> rw [he] at hone <;> exact hone

theorem mergeChangeSets_keeps (hd : P d.mtree) (cs : List (NamedChangeSet N)) :
    P (d.mergeChangeSets cs).1.mtree := by
  induction cs generalizing d with
  | nil => exact hd
  | cons c cs ih =>
    have hstep := applyChangeSet_keeps hP hd c.name c.changeset
    rw [Working.mergeChangeSets]
    rcases he : d.applyChangeSet c.name c.changeset with ⟨d', _ | e⟩
    · rw [he] at hstep
      exact ih hstep
    · rw [he] at hstep
      exact hstep

/-- What change sets keep of a multitree, the calls keep of the working one. -/
theorem applyChangeSets_keeps (hd : P d.mtree) (cs : List (NamedChangeSet N)) :
    P (d.applyChangeSets cs).1.mtree := by
  unfold Working.applyChangeSets
  split_ifs
  · exact hd
  · exact hP d.mtree cs hd
  · exact mergeChangeSets_keeps hP hd cs

end Keeps

theorem applyUpgrades_nil (d : Working N) : d.applyUpgrades [] = (d, none) := by
  simp [Working.applyUpgrades, MultiTree.applyUpgrades]

theorem mtree_applyChangeSet (name : N) {cs : ChangeSet} (hcs : cs ≠ []) (d : Working N) :
    ((d.applyChangeSet name cs).1.mtree, (d.applyChangeSet name cs).2) = d.mtree.applyChangeSet name cs := by
  rw [Working.applyChangeSet, if_neg hcs]

/-- Whichever way change sets are remembered, they are applied one after the other. -/
theorem mtree_applyChangeSets {cs : List (NamedChangeSet N)} (hcs : ∀ c ∈ cs, c.changeset ≠ [])
    (d : Working N) :
    ((d.applyChangeSets cs).1.mtree, (d.applyChangeSets cs).2) = d.mtree.applyChangeSets cs := by
  have hmerge : ∀ d : Working N,
      ((d.mergeChangeSets cs).1.mtree, (d.mergeChangeSets cs).2) = d.mtree.applyChangeSets cs := by
    induction cs with
    | nil => exact fun _ => rfl
    | cons c cs ih =>
      intro d
      have hstep := mtree_applyChangeSet c.name (hcs c (by simp)) d
      rw [Working.mergeChangeSets, MultiTree.applyChangeSets, ← hstep]
      rcases d.applyChangeSet c.name c.changeset with ⟨d', _ | e⟩
      · exact ih (fun c hc => hcs c (by simp [hc])) d'
      · rfl
  unfold Working.applyChangeSets
  split_ifs with hnil
  · rw [hnil]
    rfl
  · rfl
  · exact hmerge d

end Working

/-! ### What is remembered -/

/-- Sorting by name keeps the order of change sets of one name. -/
theorem filter_sortChangesets (name : N) (cs : List (NamedChangeSet N)) :
    (sortChangesets cs).filter (fun c => c.name = name) = cs.filter fun c => c.name = name := by
  have hsub : List.Sublist (cs.filter fun c => decide (c.name = name)) (sortChangesets cs) := by
    refine List.sublist_insertionSort ?_ List.filter_sublist
    refine List.pairwise_of_forall_mem_list fun a ha b hb => ?_
    simp only [List.mem_filter, decide_eq_true_eq] at ha hb
    rw [ha.2, hb.2]
  have hsub' := hsub.filter fun c => decide (c.name = name)
  rw [List.filter_filter] at hsub'
  simp only [Bool.and_self] at hsub'
  exact (hsub'.eq_of_length ((List.perm_insertionSort _ cs).filter _).length_eq.symm).symm

theorem pairsFor_sortChangesets (name : N) (cs : List (NamedChangeSet N)) :
    pairsFor name (sortChangesets cs) = pairsFor name cs := by
  rw [pairsFor, filter_sortChangesets, pairsFor]

theorem map_name_mergeFirst (name : N) (cs : ChangeSet) (p : List (NamedChangeSet N)) :
    (mergeFirst name cs p).map NamedChangeSet.name = p.map NamedChangeSet.name := by
  induction p with
  | nil => rfl
  | cons c rest ih =>
    rw [mergeFirst]
    split_ifs <;> simp [ih]

theorem pairsFor_mergeFirst {name : N} (cs : ChangeSet) {p : List (NamedChangeSet N)}
    (hmem : name ∈ p.map NamedChangeSet.name) (honce : (p.map NamedChangeSet.name).count name ≤ 1)
    (m : N) : pairsFor m (mergeFirst name cs p) = pairsFor m p ++ if m = name then cs else [] := by
  induction p with
  | nil => simp at hmem
  | cons c rest ih =>
    rw [mergeFirst]
    by_cases hc : c.name = name
    · -- no later change set has this name
      have hrest : name ∉ rest.map NamedChangeSet.name := by
        rw [List.map_cons, hc, List.count_cons_self] at honce
        exact List.count_eq_zero.mp (by omega)
      rw [if_pos hc, pairsFor_cons, pairsFor_cons]
      by_cases hm : m = name
      · subst hm
        simp [hc, pairsFor_of_not_mem hrest]
      · have hcm : ¬ c.name = m := fun h => hm (h.symm.trans hc)
        simp [hcm, hm]
    · have hmem' : name ∈ rest.map NamedChangeSet.name := by
        simpa [Ne.symm (by simpa using hc : c.name ≠ name)] using hmem
      rw [List.map_cons, List.count_cons_of_ne hc] at honce
      rw [if_neg hc, pairsFor_cons, pairsFor_cons, ih hmem' honce, List.append_assoc]

theorem pairsFor_addPending {name : N} (cs : ChangeSet) {p : List (NamedChangeSet N)}
    (honce : (p.map NamedChangeSet.name).count name ≤ 1) (m : N) :
    pairsFor m (addPending name cs p) = pairsFor m p ++ if m = name then cs else [] := by
  by_cases hmem : name ∈ p.map NamedChangeSet.name
  · rw [addPending, if_pos hmem]
    exact pairsFor_mergeFirst cs hmem honce m
  · rw [addPending, if_neg hmem, pairsFor_sortChangesets, pairsFor_append, pairsFor_cons, pairsFor_nil,
      List.append_nil]
    simp only [eq_comm]

theorem mem_name_addPending (name m : N) (cs : ChangeSet) (p : List (NamedChangeSet N)) :
    m ∈ (addPending name cs p).map NamedChangeSet.name ↔ m = name ∨ m ∈ p.map NamedChangeSet.name := by
  unfold addPending
  split_ifs with hmem
  · rw [map_name_mergeFirst]
    constructor
    · exact Or.inr
    · rintro (rfl | h)
      · exact hmem
      · exact h
  · have hperm := (List.perm_insertionSort (fun a b : NamedChangeSet N => a.name ≤ b.name)
      (p ++ [⟨name, cs⟩])).map NamedChangeSet.name
    rw [sortChangesets, hperm.mem_iff]
    simp [or_comm]

/-- A name occurs at most once more than before only if it was not there. -/
theorem count_addPending {name m : N} {cs : ChangeSet} {p : List (NamedChangeSet N)}
    (h : (p.map NamedChangeSet.name).count m ≤ 1) :
    ((addPending name cs p).map NamedChangeSet.name).count m ≤ 1 := by
  unfold addPending
  split_ifs with hmem
  · rwa [map_name_mergeFirst]
  · have hperm := (List.perm_insertionSort (fun a b : NamedChangeSet N => a.name ≤ b.name)
      (p ++ [⟨name, cs⟩])).map NamedChangeSet.name
    rw [sortChangesets, hperm.count_eq, List.map_append, List.count_append]
    by_cases hm : m = name
    · subst hm
      rw [List.count_eq_zero.mpr hmem]
      simp
    · simpa [List.count_singleton, Ne.symm hm] using h

/-! ### The entry leads to the trees -/

/-- The change sets can be remembered in order: it is the first call of the block, or no
store to be merged occurs twice in what is remembered. -/
def MergesInOrder (cs : List (NamedChangeSet N)) (d : Working N) : Prop :=
  d.pendingLog.changesets = [] ∨
    ∀ c ∈ cs, (d.pendingLog.changesets.map NamedChangeSet.name).count c.name ≤ 1

instance (cs : List (NamedChangeSet N)) (d : Working N) : Decidable (MergesInOrder cs d) := by
  unfold MergesInOrder
  infer_instance

/-- The trees are the upgraded last state with the remembered changes. -/
structure Clean (base upgraded : MultiTree N) (d : Working N) : Prop where
  upgrades : base.applyUpgrades d.pendingLog.upgrades = (upgraded, none)
  known : ∀ c ∈ d.pendingLog.changesets, c.name ∈ upgraded.names
  mtree : d.mtree = upgraded.applyAll fun n => pairsFor n d.pendingLog.changesets

/-- A change set of an unknown tree was remembered. -/
structure Poisoned (base upgraded : MultiTree N) (d : Working N) : Prop where
  upgrades : base.applyUpgrades d.pendingLog.upgrades = (upgraded, none)
  unknown : ∃ c ∈ d.pendingLog.changesets, c.name ∉ upgraded.names
  mtree : ∃ f, d.mtree = upgraded.applyAll f

variable {base up : MultiTree N} {d : Working N}

theorem Clean.applyChangeSet (h : Clean base up d) (hb : base.Coherent) {name : N} (cs : ChangeSet)
    (honce : (d.pendingLog.changesets.map NamedChangeSet.name).count name ≤ 1) :
    ((d.applyChangeSet name cs).2 = none ∧ Clean base up (d.applyChangeSet name cs).1) ∨
      ((d.applyChangeSet name cs).2 ≠ none ∧ Poisoned base up (d.applyChangeSet name cs).1) := by
  have hup := hb.applyUpgrades h.upgrades
  have ht : d.mtree.Coherent := h.mtree ▸ hup.applyAll _
  have hnames : d.mtree.names = up.names := by rw [h.mtree, MultiTree.names_applyAll]
  unfold Working.applyChangeSet
  split_ifs with hcs
  · exact .inl ⟨rfl, h⟩
  · by_cases hn : name ∈ up.names
    · rw [ht.applyChangeSet cs (hnames ▸ hn)]
      refine .inl ⟨rfl, h.upgrades, fun c hc => ?_, ?_⟩
      · rcases (mem_name_addPending _ _ _ _).mp (List.mem_map_of_mem hc) with hcn | hcn
        · exact hcn ▸ hn
        · obtain ⟨c', hc', hcc⟩ := List.mem_map.mp hcn
          exact hcc ▸ h.known c' hc'
      · simp only [h.mtree, MultiTree.applyAll_applyAll, pairsFor_addPending cs honce]
    · rw [ht.applyChangeSet_unknown cs (hnames ▸ hn)]
      have hmem := (mem_name_addPending name name cs d.pendingLog.changesets).mpr (.inl rfl)
      obtain ⟨c, hc, hcn⟩ := List.mem_map.mp hmem
      exact .inr ⟨by simp, h.upgrades, ⟨c, hc, hcn ▸ hn⟩, _, h.mtree⟩

theorem Poisoned.applyChangeSet (h : Poisoned base up d) (hb : base.Coherent) (name : N)
    (cs : ChangeSet) : Poisoned base up (d.applyChangeSet name cs).1 := by
  obtain ⟨f, hf⟩ := h.mtree
  have ht : d.mtree.Coherent := hf ▸ (hb.applyUpgrades h.upgrades).applyAll _
  unfold Working.applyChangeSet
  split_ifs with hcs
  · exact h
  · obtain ⟨c, hc, hcn⟩ := h.unknown
    have hmem := (mem_name_addPending name c.name cs d.pendingLog.changesets).mpr
      (.inr (List.mem_map_of_mem hc))
    obtain ⟨c', hc', hcc⟩ := List.mem_map.mp hmem
    refine ⟨h.upgrades, ⟨c', hc', hcc ▸ hcn⟩, ?_⟩
    by_cases hn : name ∈ d.mtree.names
    · have hnew : (d.mtree.applyAll fun n => if n = name then cs else []) =
          up.applyAll fun n => f n ++ if n = name then cs else [] := by
        rw [hf, MultiTree.applyAll_applyAll]
      rw [ht.applyChangeSet cs hn]
      exact ⟨_, hnew⟩
    · rw [ht.applyChangeSet_unknown cs hn]
      exact ⟨f, hf⟩

theorem count_applyChangeSet {name m : N} {cs : ChangeSet}
    (h : (d.pendingLog.changesets.map NamedChangeSet.name).count m ≤ 1) :
    ((d.applyChangeSet name cs).1.pendingLog.changesets.map NamedChangeSet.name).count m ≤ 1 := by
  unfold Working.applyChangeSet
  split_ifs
  · exact h
  · exact count_addPending h

/-- Names that occur once in each call occur once in what is remembered. -/
theorem nodup_applyChangeSets {cs : List (NamedChangeSet N)} (hcs : (cs.map NamedChangeSet.name).Nodup)
    (h : (d.pendingLog.changesets.map NamedChangeSet.name).Nodup) :
    ((d.applyChangeSets cs).1.pendingLog.changesets.map NamedChangeSet.name).Nodup := by
  have hmerge : ∀ (cs : List (NamedChangeSet N)) (d : Working N),
      (d.pendingLog.changesets.map NamedChangeSet.name).Nodup →
      ((d.mergeChangeSets cs).1.pendingLog.changesets.map NamedChangeSet.name).Nodup := by
    intro cs
    induction cs with
    | nil => exact fun _ h => h
    | cons c cs ih =>
      intro d h
      have hstep : ((d.applyChangeSet c.name c.changeset).1.pendingLog.changesets.map
          NamedChangeSet.name).Nodup :=
        List.nodup_iff_count_le_one.mpr fun m => count_applyChangeSet (List.nodup_iff_count_le_one.mp h m)
      rw [Working.mergeChangeSets]
      rcases he : d.applyChangeSet c.name c.changeset with ⟨d', _ | e⟩
      · rw [he] at hstep
        exact ih d' hstep
      · rw [he] at hstep
        exact hstep
  unfold Working.applyChangeSets
  split_ifs
  · exact h
  · exact hcs
  · exact hmerge cs d h

theorem Poisoned.mergeChangeSets (h : Poisoned base up d) (hb : base.Coherent)
    (cs : List (NamedChangeSet N)) : Poisoned base up (d.mergeChangeSets cs).1 := by
  induction cs generalizing d with
  | nil => exact h
  | cons c cs ih =>
    have hstep := h.applyChangeSet hb c.name c.changeset
    rw [Working.mergeChangeSets]
    rcases he : d.applyChangeSet c.name c.changeset with ⟨d', _ | e⟩
    · rw [he] at hstep
      exact ih hstep
    · rw [he] at hstep
      exact hstep

theorem Clean.mergeChangeSets (h : Clean base up d) (hb : base.Coherent) {cs : List (NamedChangeSet N)}
    (honce : ∀ c ∈ cs, (d.pendingLog.changesets.map NamedChangeSet.name).count c.name ≤ 1) :
    ((d.mergeChangeSets cs).2 = none ∧ Clean base up (d.mergeChangeSets cs).1) ∨
      ((d.mergeChangeSets cs).2 ≠ none ∧ Poisoned base up (d.mergeChangeSets cs).1) := by
  induction cs generalizing d with
  | nil => exact .inl ⟨rfl, h⟩
  | cons c cs ih =>
    have hstep := h.applyChangeSet hb c.changeset (honce c (by simp))
    have hcount : ∀ c' ∈ cs, ((d.applyChangeSet c.name c.changeset).1.pendingLog.changesets.map
        NamedChangeSet.name).count c'.name ≤ 1 :=
      fun c' hc' => count_applyChangeSet (honce c' (by simp [hc']))
    rw [Working.mergeChangeSets]
    rcases he : d.applyChangeSet c.name c.changeset with ⟨d', _ | e⟩
    · rw [he] at hstep hcount
      rcases hstep with ⟨-, hclean⟩ | ⟨hne, -⟩
      · exact ih hclean hcount
      · exact absurd rfl hne
    · rw [he] at hstep
      rcases hstep with ⟨hnone, -⟩ | ⟨-, hp⟩
      · exact nomatch hnone
      · exact .inr ⟨by simp, hp⟩

/-- A call on clean changes leaves them clean, or fails and poisons them. -/
theorem Clean.applyChangeSets (h : Clean base up d) (hb : base.Coherent) {cs : List (NamedChangeSet N)}
    (hm : MergesInOrder cs d) :
    ((d.applyChangeSets cs).2 = none ∧ Clean base up (d.applyChangeSets cs).1) ∨
      ((d.applyChangeSets cs).2 ≠ none ∧ Poisoned base up (d.applyChangeSets cs).1) := by
  unfold Working.applyChangeSets
  split_ifs with hnil hfirst
  · exact .inl ⟨rfl, h⟩
  · have hup := hb.applyUpgrades h.upgrades
    have hmt : d.mtree = up := by
      rw [h.mtree, hfirst]
      exact MultiTree.applyAll_nil up
    rw [hmt]
    by_cases hn : ∀ c ∈ cs, c.name ∈ up.names
    · rw [hup.applyChangeSets hn]
      exact .inl ⟨rfl, h.upgrades, hn, rfl⟩
    · have hn' : ∃ c ∈ cs, c.name ∉ up.names := by
        push Not at hn
        exact hn
      obtain ⟨f, -, hf⟩ := hup.applyChangeSets_fst cs
      have herr := hup.applyChangeSets_unknown hn'
      rcases hcs : up.applyChangeSets cs with ⟨t, e⟩
      rw [hcs] at hf herr
      refine .inr ⟨fun he => ?_, h.upgrades, hn', f, hf⟩
      obtain rfl : e = none := he
      exact nomatch herr
  · rcases hm with hm | hm
    · exact absurd hm hfirst
    · exact h.mergeChangeSets hb hm

theorem Poisoned.applyChangeSets (h : Poisoned base up d) (hb : base.Coherent)
    (cs : List (NamedChangeSet N)) : Poisoned base up (d.applyChangeSets cs).1 := by
  unfold Working.applyChangeSets
  split_ifs with hnil hfirst
  · exact h
  · obtain ⟨c, hc, -⟩ := h.unknown
    rw [hfirst] at hc
    exact absurd hc (by simp)
  · exact h.mergeChangeSets hb cs

/-! ### Committing -/

variable {sha256 : Bytes → Bytes}

/-- Replay of a clean entry gives what the commit saved. -/
theorem Clean.entryStep (h : Clean base up d) (hb : base.Coherent) {t : MultiTree N}
    (hs : d.mtree.saveVersion sha256 true = .ok t) :
    base.entryStep sha256 d.pendingLog = some t := by
  rw [MultiTree.entryStep, MultiTree.applyWALEntry_reread hb h.upgrades h.known, ← h.mtree]
  simp only [hs, Except.toOption]

/-- A poisoned entry is not replayed. -/
theorem Poisoned.entryStep (h : Poisoned base up d) (hb : base.Coherent) :
    base.entryStep sha256 d.pendingLog = none := by
  obtain ⟨err, he⟩ := MultiTree.applyWALEntry_reread_unknown hb h.upgrades h.unknown
  rw [MultiTree.entryStep, he]

end IavlStore.Db
