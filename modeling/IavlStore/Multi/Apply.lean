import IavlStore.Multi.MultiTree

/-! Change sets on coherent multitrees. While the trees are in the order of their names
and the index holds their positions, change sets of known trees act on every tree by the
pairs that carry its name, in the order they came. -/

namespace IavlStore.Multi

open IavlStore.Base.Encoding IavlStore.Base.SortedPairs

variable {N : Type} [LinearOrder N]

/-- The pairs of the change sets with a name, in order. -/
def pairsFor (name : N) (cs : List (NamedChangeSet N)) : ChangeSet :=
  (cs.filter fun c => c.name = name).flatMap NamedChangeSet.changeset

@[simp] theorem pairsFor_nil (name : N) : pairsFor name [] = [] := rfl

theorem pairsFor_cons (name : N) (c : NamedChangeSet N) (cs : List (NamedChangeSet N)) :
    pairsFor name (c :: cs) = (if c.name = name then c.changeset else []) ++ pairsFor name cs := by
  by_cases h : c.name = name <;> simp [pairsFor, h]

theorem pairsFor_append (name : N) (cs ds : List (NamedChangeSet N)) :
    pairsFor name (cs ++ ds) = pairsFor name cs ++ pairsFor name ds := by
  simp [pairsFor]

theorem pairsFor_of_not_mem {name : N} {cs : List (NamedChangeSet N)}
    (h : name ∉ cs.map NamedChangeSet.name) : pairsFor name cs = [] := by
  have : cs.filter (fun c => c.name = name) = [] :=
    List.filter_eq_nil_iff.mpr fun c hc hn =>
      h (List.mem_map.mpr ⟨c, hc, by simpa using hn⟩)
  rw [pairsFor, this, List.flatMap_nil]

/-! ### The index of the trees -/

theorem lookupPair_zipIdx_eq_none {name : N} {l : List N} {k : ℕ} (h : name ∉ l) :
    lookupPair name (l.zipIdx k) = none :=
  lookupPair_eq_none fun _ hp hn => h (hn ▸ List.fst_mem_of_mem_zipIdx hp)

/-- The position found for a name is where a change by position is a change by name. -/
theorem lookupPair_positions {name : N} {trees : List (NamedTree N)}
    (hnd : (trees.map NamedTree.name).Nodup) (hmem : name ∈ trees.map NamedTree.name)
    (f : NamedTree N → NamedTree N) (k : ℕ) :
    ∃ i, lookupPair name ((trees.map NamedTree.name).zipIdx k) = some (k + i) ∧
      trees.modify i f = trees.map fun e => if e.name = name then f e else e := by
  induction trees generalizing k with
  | nil => simp at hmem
  | cons e es ih =>
    simp only [List.map_cons, List.nodup_cons] at hnd
    simp only [List.map_cons, List.zipIdx_cons, lookupPair_cons]
    by_cases he : name = e.name
    · subst he
      refine ⟨0, by simp, ?_⟩
      have hrest : es.map (fun d => if d.name = e.name then f d else d) = es := by
        conv_rhs => rw [← List.map_id es]
        refine List.map_congr_left fun d hd => if_neg fun h => hnd.1 ?_
        exact h ▸ List.mem_map_of_mem hd
      simp [hrest]
    · have hmem' : name ∈ es.map NamedTree.name := by simpa [he] using hmem
      obtain ⟨i, hi, hmod⟩ := ih hnd.2 hmem' (k + 1)
      refine ⟨i + 1, ?_, ?_⟩
      · rw [if_neg he, hi]
        congr 1
        omega
      · rw [List.modify_succ_cons, hmod, if_neg (Ne.symm he)]

theorem indexTrees_eq {trees : List (NamedTree N)} {k : ℕ} {m : List (N × ℕ)}
    (hnd : (trees.map NamedTree.name).Nodup)
    (hm : ∀ e ∈ trees, lookupPair e.name m = none) :
    indexTrees trees k m = (m ++ (trees.map NamedTree.name).zipIdx k, none) := by
  induction trees generalizing k m with
  | nil => simp [indexTrees]
  | cons e es ih =>
    simp only [List.map_cons, List.nodup_cons] at hnd
    rw [indexTrees, if_neg (by simp [hm e (by simp)]), ih hnd.2, List.map_cons, List.zipIdx_cons,
      List.append_assoc, List.singleton_append]
    intro d hd
    have hne : d.name ≠ e.name := fun h => hnd.1 (h ▸ List.mem_map_of_mem hd)
    rw [lookupPair_append, hm d (by simp [hd]), Option.none_or, lookupPair_cons, if_neg hne]
    rfl

theorem nodup_of_indexTrees {trees : List (NamedTree N)} {k : ℕ} {m : List (N × ℕ)}
    (h : (indexTrees trees k m).2 = none) :
    (trees.map NamedTree.name).Nodup ∧ ∀ e ∈ trees, lookupPair e.name m = none := by
  induction trees generalizing k m with
  | nil => simp
  | cons e es ih =>
    rw [indexTrees] at h
    split_ifs at h with hm
    obtain ⟨hnd, hes⟩ := ih h
    have hm' : lookupPair e.name m = none := by simpa using hm
    have hes' : ∀ d ∈ es, lookupPair d.name m = none ∧ d.name ≠ e.name := by
      intro d hd
      have := hes d hd
      rw [lookupPair_append, Option.or_eq_none_iff, lookupPair_cons] at this
      refine ⟨this.1, fun hne => ?_⟩
      rw [if_pos hne] at this
      exact absurd this.2 (by simp)
    refine ⟨List.nodup_cons.mpr ⟨fun hmem => ?_, hnd⟩, fun d hd => ?_⟩
    · obtain ⟨d, hd, hde⟩ := List.mem_map.mp hmem
      exact (hes' d hd).2 hde
    · rcases List.mem_cons.mp hd with rfl | hd
      · exact hm'
      · exact (hes' d hd).1

namespace MultiTree

section
variable {N : Type}

/-- Apply to every tree the pairs of its name. -/
def applyAll (pairs : N → ChangeSet) (t : MultiTree N) : MultiTree N :=
  { t with trees := t.trees.map fun e => { e with tree := e.tree.applyChangeSet (pairs e.name) } }

@[simp] theorem version_applyAll (f : N → ChangeSet) (t : MultiTree N) :
    (t.applyAll f).version = t.version := rfl

@[simp] theorem initialVersion_applyAll (f : N → ChangeSet) (t : MultiTree N) :
    (t.applyAll f).initialVersion = t.initialVersion := rfl

@[simp] theorem names_applyAll (f : N → ChangeSet) (t : MultiTree N) :
    (t.applyAll f).names = t.names := by
  simp [names, applyAll, Function.comp_def]

theorem applyAll_applyAll (f g : N → ChangeSet) (t : MultiTree N) :
    (t.applyAll f).applyAll g = t.applyAll fun n => f n ++ g n := by
  simp [applyAll, Function.comp_def, Tree.applyChangeSet_append]

theorem applyAll_nil (t : MultiTree N) : t.applyAll (fun _ => []) = t := by
  simp [applyAll, Tree.applyChangeSet]

theorem applyAll_congr {f g : N → ChangeSet} {t : MultiTree N} (h : ∀ n ∈ t.names, f n = g n) :
    t.applyAll f = t.applyAll g := by
  have : t.trees.map (fun e => ({ e with tree := e.tree.applyChangeSet (f e.name) } : NamedTree N)) =
      t.trees.map fun e => { e with tree := e.tree.applyChangeSet (g e.name) } :=
    List.map_congr_left fun e he => by rw [h e.name (List.mem_map_of_mem he)]
  rw [applyAll, this, applyAll]

end

/-- The trees stand in the order of their names, where the index says. -/
structure Coherent (t : MultiTree N) : Prop where
  sorted : t.names.Pairwise (· < ·)
  index : t.treesByName = positions t.trees

theorem Coherent.nodup {t : MultiTree N} (h : t.Coherent) : t.names.Nodup :=
  h.sorted.imp fun hlt => hlt.ne

theorem Coherent.treeByName_mem {t : MultiTree N} (h : t.Coherent) {name : N} {tree : Tree}
    (ht : t.treeByName name = some tree) : ⟨name, tree⟩ ∈ t.trees := by
  obtain ⟨i, hi, ht⟩ := Option.bind_eq_some_iff.mp ht
  obtain ⟨e, he, rfl⟩ := Option.map_eq_some_iff.mp ht
  rw [h.index] at hi
  have hname := List.mk_mem_zipIdx_iff_getElem?.mp (pair_mem_of_lookupPair hi)
  rw [List.getElem?_map, he] at hname
  obtain rfl := Option.some.inj hname
  exact List.mem_of_getElem? he

theorem Coherent.applyAll {t : MultiTree N} (h : t.Coherent) (f : N → ChangeSet) :
    (t.applyAll f).Coherent := by
  refine ⟨by rw [names_applyAll]; exact h.sorted, ?_⟩
  have hn := names_applyAll f t
  rw [names, names] at hn
  rw [positions, hn]
  exact h.index

theorem Coherent.applyChangeSet {t : MultiTree N} (h : t.Coherent) {name : N} (cs : ChangeSet)
    (hn : name ∈ t.names) :
    t.applyChangeSet name cs = (t.applyAll fun n => if n = name then cs else [], none) := by
  obtain ⟨i, hi, hmod⟩ := lookupPair_positions h.nodup hn
    (fun e => { e with tree := e.tree.applyChangeSet cs }) 0
  have hi' : lookupPair name t.treesByName = some i := by rw [h.index, positions, hi, Nat.zero_add]
  simp only [MultiTree.applyChangeSet, hi', hmod, MultiTree.applyAll]
  congr 2
  refine List.map_congr_left fun e _ => ?_
  by_cases he : e.name = name <;> simp [he, Tree.applyChangeSet]

theorem Coherent.applyChangeSet_unknown {t : MultiTree N} (h : t.Coherent) {name : N} (cs : ChangeSet)
    (hn : name ∉ t.names) : t.applyChangeSet name cs = (t, some (.unknownTree name)) := by
  have : lookupPair name t.treesByName = none := by
    rw [h.index]
    exact lookupPair_zipIdx_eq_none hn
  simp only [MultiTree.applyChangeSet, this]

/-- Change sets of known trees act by name. -/
theorem Coherent.applyChangeSets {t : MultiTree N} (h : t.Coherent) {cs : List (NamedChangeSet N)}
    (hn : ∀ c ∈ cs, c.name ∈ t.names) :
    t.applyChangeSets cs = (t.applyAll fun n => pairsFor n cs, none) := by
  induction cs generalizing t with
  | nil => simp [MultiTree.applyChangeSets, applyAll_nil]
  | cons c cs ih =>
    have hc := h.applyChangeSet c.changeset (hn c (by simp))
    have hrest : ∀ d ∈ cs, d.name ∈ (t.applyAll fun n => if n = c.name then c.changeset else []).names := by
      intro d hd
      rw [names_applyAll]
      exact hn d (by simp [hd])
    rw [MultiTree.applyChangeSets, hc]
    simp only [ih (h.applyAll _) hrest, applyAll_applyAll, pairsFor_cons, eq_comm]

/-- A change set of an unknown tree is an error. -/
theorem Coherent.applyChangeSets_unknown {t : MultiTree N} (h : t.Coherent)
    {cs : List (NamedChangeSet N)} (hn : ∃ c ∈ cs, c.name ∉ t.names) :
    (t.applyChangeSets cs).2.isSome := by
  induction cs generalizing t with
  | nil => simp at hn
  | cons c cs ih =>
    by_cases hc : c.name ∈ t.names
    · obtain ⟨d, hd, hdn⟩ := hn
      have hd' : d ∈ cs := by
        rcases List.mem_cons.mp hd with rfl | hd
        · exact absurd hc hdn
        · exact hd
      rw [MultiTree.applyChangeSets, h.applyChangeSet c.changeset hc]
      exact ih (h.applyAll _) ⟨d, hd', by rwa [names_applyAll]⟩
    · simp [MultiTree.applyChangeSets, h.applyChangeSet_unknown c.changeset hc]

/-- Whether or not they all succeed, change sets only apply pairs to trees they name. -/
theorem Coherent.applyChangeSets_fst {t : MultiTree N} (h : t.Coherent) (cs : List (NamedChangeSet N)) :
    ∃ f, (∀ n, n ∉ cs.map NamedChangeSet.name → f n = []) ∧ (t.applyChangeSets cs).1 = t.applyAll f := by
  induction cs generalizing t with
  | nil => exact ⟨fun _ => [], fun _ _ => rfl, (applyAll_nil t).symm⟩
  | cons c cs ih =>
    by_cases hc : c.name ∈ t.names
    · obtain ⟨f, hf, heq⟩ := ih (h.applyAll fun n => if n = c.name then c.changeset else [])
      rw [MultiTree.applyChangeSets, h.applyChangeSet c.changeset hc]
      refine ⟨_, fun n hn => ?_, heq.trans (applyAll_applyAll _ _ t)⟩
      rw [List.map_cons, List.mem_cons, not_or] at hn
      rw [if_neg hn.1, hf n hn.2, List.append_nil]
    · exact ⟨fun _ => [], fun _ _ => rfl, by
        simp [MultiTree.applyChangeSets, h.applyChangeSet_unknown c.changeset hc, applyAll_nil]⟩

/-- Change sets keep the commit info and the initial version, whether or not they succeed. -/
theorem applyChangeSets_fields (cs : List (NamedChangeSet N)) (t : MultiTree N) :
    (t.applyChangeSets cs).1.lastCommitInfo = t.lastCommitInfo ∧
      (t.applyChangeSets cs).1.initialVersion = t.initialVersion := by
  induction cs generalizing t with
  | nil => exact ⟨rfl, rfl⟩
  | cons c cs ih =>
    rw [applyChangeSets, applyChangeSet]
    rcases lookupPair c.name t.treesByName with _ | i
    · exact ⟨rfl, rfl⟩
    · exact ih _

/-! ### Upgrades and saving keep the order -/

theorem pairwise_sortTrees (trees : List (NamedTree N)) :
    (sortTrees trees).Pairwise fun a b => a.name ≤ b.name := by
  have := List.pairwise_insertionSort (fun a b : NamedTree N => a.name ≤ b.name) trees
  exact this

theorem Coherent.applyUpgrades {t t' : MultiTree N} (h : t.Coherent) {us : List (TreeNameUpgrade N)}
    (hu : t.applyUpgrades us = (t', none)) : t'.Coherent := by
  unfold MultiTree.applyUpgrades at hu
  split_ifs at hu with hnil
  · rw [← (Prod.mk.inj hu).1]; exact h
  · rcases hl : upgradeLoop (nextVersion t.version t.initialVersion) us t.trees with ⟨trees, _ | e⟩
    · rw [hl] at hu
      obtain ⟨rfl, he⟩ := Prod.mk.inj hu
      obtain ⟨hnd, -⟩ := nodup_of_indexTrees he
      have hsort : ((sortTrees trees).map NamedTree.name).Pairwise (· ≤ ·) :=
        List.pairwise_map.mpr (pairwise_sortTrees trees)
      exact ⟨hsort.imp₂ (fun _ _ hle hne => lt_of_le_of_ne hle hne) hnd,
        by rw [indexTrees_eq hnd (by simp)]; rfl⟩
    · rw [hl] at hu
      exact absurd (Prod.mk.inj hu).2 (by simp)

omit [LinearOrder N] in
theorem map_name_saveTrees {trees trees' : List (NamedTree N)} (h : saveTrees trees = .ok trees') :
    trees'.map NamedTree.name = trees.map NamedTree.name := by
  induction trees generalizing trees' with
  | nil => obtain rfl := Except.ok.inj h; rfl
  | cons e es ih =>
    rw [saveTrees] at h
    rcases hs : e.tree.saveVersion with _ | tree
    · rw [hs] at h; exact nomatch h
    · rw [hs] at h
      rcases hr : saveTrees es with err | rest
      · rw [hr] at h; exact nomatch h
      · rw [hr] at h
        obtain rfl := Except.ok.inj h
        simp [ih hr]

omit [LinearOrder N] in
/-- What a successful save returns. -/
theorem saveVersion_eq_ok {sha256 : Bytes → Bytes} {update : Bool} {t t' : MultiTree N}
    (h : t.saveVersion sha256 update = .ok t') :
    ∃ trees, saveTrees t.trees = .ok trees ∧
      let saved := { t with trees := trees, lastCommitInfo := ⟨nextVersion t.version t.initialVersion, []⟩ }
      t' = if update then saved.updateCommitInfo sha256 else saved := by
  unfold saveVersion at h
  rcases hs : saveTrees t.trees with err | trees
  · rw [hs] at h; exact nomatch h
  · rw [hs] at h
    exact ⟨trees, rfl, (Except.ok.inj h).symm⟩

omit [LinearOrder N] in
theorem saveVersion_fields {sha256 : Bytes → Bytes} {update : Bool} {t t' : MultiTree N}
    (h : t.saveVersion sha256 update = .ok t') :
    t'.version = nextVersion t.version t.initialVersion ∧ t'.initialVersion = t.initialVersion := by
  obtain ⟨trees, -, rfl⟩ := saveVersion_eq_ok h
  cases update <;> exact ⟨rfl, rfl⟩

theorem Coherent.saveVersion {sha256 : Bytes → Bytes} {update : Bool} {t t' : MultiTree N}
    (hc : t.Coherent) (h : t.saveVersion sha256 update = .ok t') : t'.Coherent := by
  obtain ⟨trees, hs, rfl⟩ := saveVersion_eq_ok h
  have hn := map_name_saveTrees hs
  have hnames : ∀ u : CommitInfo N, MultiTree.Coherent { t with trees := trees, lastCommitInfo := u } :=
    fun u => ⟨by simpa only [names, hn] using hc.sorted, by rw [positions, hn]; exact hc.index⟩
  cases update
  · exact hnames _
  · exact hnames _

end MultiTree

end IavlStore.Multi
