import IavlStore.Multi.Upgrades

/-! Upgrades of one block in several calls. Every call leaves the trees in the order of
their names, while the replay of the block runs all its upgrades before it sorts. The
order does not matter as long as every upgrade finds at most one tree of the name it looks
for. Upgrades commute with changes of trees that they do not name. -/

namespace IavlStore.Multi

open IavlStore.Base.Encoding IavlStore.Base.SortedPairs

variable {N : Type} [LinearOrder N]

/-- The name an upgrade looks for. -/
def TreeNameUpgrade.target (u : TreeNameUpgrade N) : Option N :=
  if u.delete then some u.name else u.renameFrom

namespace MultiTree

/-- Every upgrade finds at most one tree where it is applied. -/
def Unambiguous (version : ℕ) : List (TreeNameUpgrade N) → List (NamedTree N) → Prop
  | [], _ => True
  | u :: us, trees =>
    (∀ name ∈ u.target, (trees.map NamedTree.name).count name ≤ 1) ∧
      ∀ trees' ∈ (upgradeTrees version u trees).toOption, Unambiguous version us trees'

def decidableUnambiguous (version : ℕ) : (us : List (TreeNameUpgrade N)) → (trees : List (NamedTree N)) →
    Decidable (Unambiguous version us trees)
  | [], _ => .isTrue trivial
  | u :: us, trees =>
    have (trees' : List (NamedTree N)) : Decidable (Unambiguous version us trees') :=
      decidableUnambiguous version us trees'
    inferInstanceAs (Decidable ((∀ name ∈ u.target, (trees.map NamedTree.name).count name ≤ 1) ∧
      ∀ trees' ∈ (upgradeTrees version u trees).toOption, Unambiguous version us trees'))

instance (version : ℕ) (us : List (TreeNameUpgrade N)) (trees : List (NamedTree N)) :
    Decidable (Unambiguous version us trees) := decidableUnambiguous version us trees

/-! ### Trees in another order -/

theorem swapDelete_perm {α : Type} (l₁ l₂ : List α) (x : α) :
    (swapDelete (l₁ ++ x :: l₂) l₁.length).Perm (l₁ ++ l₂) := by
  rcases List.eq_nil_or_concat l₂ with rfl | ⟨l₃, y, rfl⟩
  · simp [swapDelete]
  · have hlast : (l₁ ++ x :: l₃.concat y).getLast? = some y := by
      simp only [List.concat_eq_append, ← List.cons_append, ← List.append_assoc, List.getLast?_concat]
    have hset : ((l₁ ++ x :: l₃.concat y).set l₁.length y).dropLast = l₁ ++ y :: l₃ := by
      simp [List.dropLast_cons_of_ne_nil]
    rw [swapDelete, hlast]
    simp only [hset]
    rw [List.concat_eq_append]
    exact List.Perm.append_left l₁ (List.perm_append_singleton y l₃).symm

theorem modify_length_append {α : Type} (f : α → α) (l₁ l₂ : List α) (x : α) :
    (l₁ ++ x :: l₂).modify l₁.length f = l₁ ++ f x :: l₂ := by
  induction l₁ with
  | nil => rfl
  | cons y l₁ ih => rw [List.cons_append, List.length_cons, List.modify_succ_cons, ih, List.cons_append]

/-- Where the first tree of a name is. -/
theorem split_of_findIdx {name : N} {trees : List (NamedTree N)} {i : ℕ}
    (h : trees.findIdx? (fun e => e.name = name) = some i) :
    ∃ l₁ e l₂, trees = l₁ ++ e :: l₂ ∧ l₁.length = i ∧ e.name = name := by
  obtain ⟨hlt, hname, -⟩ := List.findIdx?_eq_some_iff_getElem.mp h
  refine ⟨trees.take i, trees[i], trees.drop (i + 1), ?_, ?_, of_decide_eq_true hname⟩
  · rw [List.getElem_cons_drop, List.take_append_drop]
  · rw [List.length_take]
    omega

theorem count_one_of_split {name : N} {l₁ l₂ : List (NamedTree N)} {e d : NamedTree N}
    (he : e.name = name) (hcount : ((l₁ ++ e :: l₂).map NamedTree.name).count name ≤ 1)
    (hd : d ∈ l₁ ++ e :: l₂) (hdn : d.name = name) : d = e := by
  have hrest : name ∉ (l₁ ++ l₂).map NamedTree.name := by
    have hmid : (l₁ ++ e :: l₂).Perm (e :: (l₁ ++ l₂)) := List.perm_middle
    have hperm := (hmid.map NamedTree.name).count_eq name
    rw [hperm, List.map_cons, he, List.count_cons_self] at hcount
    exact List.count_eq_zero.mp (by omega)
  rcases List.mem_cons.mp (List.perm_middle.mem_iff.mp hd) with rfl | hd
  · rfl
  · exact absurd (List.mem_map.mpr ⟨d, hd, hdn⟩) hrest

/-- Both lists split at the one tree of a name, with the same trees around it. -/
theorem splits_of_perm {name : N} {trees trees' : List (NamedTree N)} {i : ℕ} (hp : trees.Perm trees')
    (hcount : (trees.map NamedTree.name).count name ≤ 1)
    (h : trees.findIdx? (fun e => e.name = name) = some i) :
    ∃ e l₁ l₂ l₁' l₂', trees = l₁ ++ e :: l₂ ∧ l₁.length = i ∧ trees' = l₁' ++ e :: l₂' ∧
      trees'.findIdx? (fun e => e.name = name) = some l₁'.length ∧ (l₁ ++ l₂).Perm (l₁' ++ l₂') := by
  obtain ⟨l₁, e, l₂, rfl, hi, he⟩ := split_of_findIdx h
  have hmem : e ∈ trees' := hp.mem_iff.mp (by simp)
  obtain ⟨i', hi'⟩ : ∃ i', trees'.findIdx? (fun e => e.name = name) = some i' := by
    apply Option.isSome_iff_exists.mp
    rw [List.findIdx?_isSome]
    exact List.any_eq_true.mpr ⟨e, hmem, decide_eq_true he⟩
  obtain ⟨l₁', e', l₂', rfl, rfl, he'⟩ := split_of_findIdx hi'
  obtain rfl : e' = e := count_one_of_split he hcount (hp.mem_iff.mpr (by simp)) he'
  refine ⟨e', l₁, l₂, l₁', l₂', rfl, hi, rfl, hi', ?_⟩
  have hcons := (List.perm_middle.symm.trans hp).trans List.perm_middle
  exact (List.perm_cons e').mp hcons

/-- An unambiguous upgrade does the same in another order. -/
theorem upgradeTrees_perm {version : ℕ} {u : TreeNameUpgrade N} {trees trees' t : List (NamedTree N)}
    (hp : trees.Perm trees') (hcount : ∀ name ∈ u.target, (trees.map NamedTree.name).count name ≤ 1)
    (h : upgradeTrees version u trees = .ok t) :
    ∃ t', upgradeTrees version u trees' = .ok t' ∧ t.Perm t' := by
  unfold upgradeTrees at h ⊢
  unfold TreeNameUpgrade.target at hcount
  by_cases hdel : u.delete = true
  · rw [if_pos hdel] at h hcount ⊢
    rcases hi : trees.findIdx? (fun e => e.name = u.name) with _ | i
    · rw [hi] at h
      cases h
    · rw [hi] at h
      obtain rfl := Except.ok.inj h
      obtain ⟨e, l₁, l₂, l₁', l₂', rfl, rfl, rfl, hi', hrest⟩ := splits_of_perm hp (hcount _ rfl) hi
      rw [hi']
      exact ⟨_, rfl, ((swapDelete_perm l₁ l₂ e).trans hrest).trans (swapDelete_perm l₁' l₂' e).symm⟩
  · rw [if_neg hdel] at h hcount ⊢
    rcases hr : u.renameFrom with _ | old
    · rw [hr] at h
      obtain rfl := Except.ok.inj h
      exact ⟨_, rfl, hp.append_right _⟩
    · simp only [hr] at h ⊢
      rcases hi : trees.findIdx? (fun e => e.name = old) with _ | i
      · rw [hi] at h
        cases h
      · rw [hi] at h
        obtain rfl := Except.ok.inj h
        obtain ⟨e, l₁, l₂, l₁', l₂', rfl, rfl, rfl, hi', hrest⟩ := splits_of_perm hp (hcount old hr) hi
        rw [hi']
        refine ⟨_, rfl, ?_⟩
        rw [modify_length_append, modify_length_append]
        exact (List.perm_middle.trans (hrest.cons _)).trans List.perm_middle.symm

theorem upgradeLoop_perm {version : ℕ} {us : List (TreeNameUpgrade N)} {trees trees' t : List (NamedTree N)}
    (hp : trees.Perm trees') (hu : Unambiguous version us trees)
    (h : upgradeLoop version us trees = (t, none)) :
    ∃ t', upgradeLoop version us trees' = (t', none) ∧ t.Perm t' := by
  induction us generalizing trees trees' with
  | nil =>
    obtain ⟨rfl, -⟩ := Prod.mk.inj h
    exact ⟨trees', rfl, hp⟩
  | cons u us ih =>
    rw [upgradeLoop] at h
    rcases hs : upgradeTrees version u trees with e | trees₁
    · rw [hs] at h
      cases (Prod.mk.inj h).2
    · rw [hs] at h
      obtain ⟨trees₁', hs', hp'⟩ := upgradeTrees_perm hp hu.1 hs
      rw [upgradeLoop, hs']
      exact ih hp' (hu.2 trees₁ (by rw [hs]; rfl)) h

theorem sortTrees_eq_of_perm {trees trees' : List (NamedTree N)} (hp : trees.Perm trees')
    (hnd : (trees.map NamedTree.name).Nodup) : sortTrees trees = sortTrees trees' := by
  have hperm : (sortTrees trees).Perm (sortTrees trees') :=
    ((List.perm_insertionSort _ trees).trans hp).trans (List.perm_insertionSort _ trees').symm
  refine hperm.eq_of_pairwise ?_ (pairwise_sortTrees trees) (pairwise_sortTrees trees')
  intro a b ha hb hab hba
  have hname : a.name = b.name := le_antisymm hab hba
  have ha' : a ∈ trees := (List.mem_insertionSort _).mp ha
  have hb' : b ∈ trees := hp.mem_iff.mpr ((List.mem_insertionSort _).mp hb)
  exact List.inj_on_of_nodup_map hnd ha' hb' hname

/-- Upgrades in two calls are one call when the second one is unambiguous. -/
theorem applyUpgrades_append_of_unambiguous {t t₁ t₂ : MultiTree N} {us vs : List (TreeNameUpgrade N)}
    (h₁ : t.applyUpgrades us = (t₁, none)) (h₂ : t₁.applyUpgrades vs = (t₂, none))
    (hu : Unambiguous (nextVersion t₁.version t₁.initialVersion) vs t₁.trees) :
    t.applyUpgrades (us ++ vs) = (t₂, none) := by
  by_cases husnil : us = []
  · subst husnil
    obtain ⟨rfl, -⟩ := Prod.mk.inj h₁
    exact h₂
  by_cases hvsnil : vs = []
  · subst hvsnil
    obtain ⟨rfl, -⟩ := Prod.mk.inj h₂
    rwa [List.append_nil]
  obtain ⟨hci, hiv⟩ := applyUpgrades_fields h₁
  have hver : t₁.version = t.version := congrArg CommitInfo.version hci
  rw [hver, hiv] at hu
  unfold applyUpgrades at h₁ h₂ ⊢
  rw [if_neg husnil] at h₁
  rw [if_neg hvsnil, hver, hiv] at h₂
  rw [if_neg (by simp [husnil]), upgradeLoop_append]
  rcases hl : upgradeLoop (nextVersion t.version t.initialVersion) us t.trees with ⟨trees, _ | e⟩
  · rw [hl] at h₁
    simp only at h₁ ⊢
    have htrees : t₁.trees = sortTrees trees := by rw [← (Prod.mk.inj h₁).1]
    rcases hl₂ : upgradeLoop (nextVersion t.version t.initialVersion) vs t₁.trees with ⟨trees₂, _ | e⟩
    · have hperm : t₁.trees.Perm trees := htrees ▸ List.perm_insertionSort _ trees
      obtain ⟨trees₂', hl₂', hperm₂⟩ := upgradeLoop_perm hperm hu hl₂
      rw [hl₂] at h₂
      have hnd : (trees₂.map NamedTree.name).Nodup := by
        have hidx := (nodup_of_indexTrees (Prod.mk.inj h₂).2).1
        exact ((List.perm_insertionSort _ trees₂).map NamedTree.name).nodup_iff.mp hidx
      rw [hl₂']
      simp only [← sortTrees_eq_of_perm hperm₂ hnd]
      rw [← h₂, ← (Prod.mk.inj h₁).1]
    · rw [hl₂] at h₂
      exact absurd (Prod.mk.inj h₂).2 (by simp)
  · rw [hl] at h₁
    exact absurd (Prod.mk.inj h₁).2 (by simp)

/-! ### Changed trees -/

/-- An upgrade concerns the trees it names. -/
theorem mem_names_upgradeTrees {version : ℕ} {u : TreeNameUpgrade N} {trees trees' : List (NamedTree N)}
    {n : N} (hn : n ≠ u.name) (hold : n ∉ u.renameFrom) (h : upgradeTrees version u trees = .ok trees') :
    n ∈ trees'.map NamedTree.name ↔ n ∈ trees.map NamedTree.name := by
  unfold upgradeTrees at h
  split_ifs at h with hdel
  · rcases hi : trees.findIdx? (fun e => e.name = u.name) with _ | i
    · rw [hi] at h
      cases h
    · rw [hi] at h
      obtain rfl := Except.ok.inj h
      obtain ⟨l₁, e, l₂, rfl, rfl, he⟩ := split_of_findIdx hi
      rw [((swapDelete_perm l₁ l₂ e).map NamedTree.name).mem_iff]
      simp [he, hn]
  · rcases hr : u.renameFrom with _ | old
    · rw [hr] at h
      obtain rfl := Except.ok.inj h
      simp [hn]
    · simp only [hr] at h
      rcases hi : trees.findIdx? (fun e => e.name = old) with _ | i
      · rw [hi] at h
        cases h
      · rw [hi] at h
        obtain rfl := Except.ok.inj h
        obtain ⟨l₁, e, l₂, rfl, rfl, he⟩ := split_of_findIdx hi
        have hne : n ≠ old := fun heq => hold (by rw [hr, heq]; rfl)
        rw [modify_length_append]
        simp [he, hn, hne]

theorem mem_names_upgradeLoop {version : ℕ} {us : List (TreeNameUpgrade N)}
    {trees trees' : List (NamedTree N)} {n : N} (hn : ∀ u ∈ us, n ≠ u.name ∧ n ∉ u.renameFrom)
    (h : upgradeLoop version us trees = (trees', none)) :
    n ∈ trees'.map NamedTree.name ↔ n ∈ trees.map NamedTree.name := by
  induction us generalizing trees with
  | nil =>
    obtain ⟨rfl, -⟩ := Prod.mk.inj h
    rfl
  | cons u us ih =>
    rw [upgradeLoop] at h
    rcases hs : upgradeTrees version u trees with e | trees₁
    · rw [hs] at h
      cases (Prod.mk.inj h).2
    · rw [hs] at h
      obtain ⟨hne, hold⟩ := hn u (by simp)
      rw [ih (fun u hu => hn u (by simp [hu])) h, mem_names_upgradeTrees hne hold hs]

theorem mem_names_applyUpgrades {us : List (TreeNameUpgrade N)} {t t' : MultiTree N} {n : N}
    (hn : ∀ u ∈ us, n ≠ u.name ∧ n ∉ u.renameFrom) (h : t.applyUpgrades us = (t', none)) :
    n ∈ t'.names ↔ n ∈ t.names := by
  unfold applyUpgrades at h
  split_ifs at h
  · rw [(Prod.mk.inj h).1]
  · rcases hl : upgradeLoop (nextVersion t.version t.initialVersion) us t.trees with ⟨trees, _ | e⟩
    · rw [hl] at h
      rw [← (Prod.mk.inj h).1, names, names, ← mem_names_upgradeLoop hn hl]
      exact ((List.perm_insertionSort _ trees).map NamedTree.name).mem_iff
    · rw [hl] at h
      exact absurd (Prod.mk.inj h).2 (by simp)

/-- Whether an upgrade is ambiguous depends on the names only. -/
theorem Unambiguous.of_applyAll {f : N → ChangeSet} {version : ℕ} {us : List (TreeNameUpgrade N)}
    (hf : ∀ u ∈ us, f u.name = [] ∧ ∀ old ∈ u.renameFrom, f old = []) {trees : List (NamedTree N)}
    (h : Unambiguous version us
      (trees.map fun e => { e with tree := e.tree.applyChangeSet (f e.name) })) :
    Unambiguous version us trees := by
  induction us generalizing trees with
  | nil => trivial
  | cons u us ih =>
    obtain ⟨hcount, hrest⟩ := h
    have hu := hf u (by simp)
    refine ⟨?_, ?_⟩
    · rw [List.map_map] at hcount
      exact hcount
    · intro trees' htrees'
      apply ih fun u hu => hf u (by simp [hu])
      apply hrest
      have hmap := upgradeTrees_map (N := N) (u := u)
        (g := fun e => { e with tree := e.tree.applyChangeSet (f e.name) }) (fun _ => rfl) (v := version)
        (w := version) trees (fun e he => by simp only [hu.1, hu.2 e.name he])
        (by simp [hu.1, Tree.applyChangeSet])
      rw [hmap]
      rcases hs : upgradeTrees version u trees with e | t
      · rw [hs] at htrees'
        cases htrees'
      · rw [hs] at htrees'
        cases htrees'
        rfl

/-- Upgrades that name no changed tree commute with the changes. -/
theorem applyUpgrades_applyAll {f : N → ChangeSet} {us : List (TreeNameUpgrade N)}
    (hf : ∀ u ∈ us, f u.name = [] ∧ ∀ old ∈ u.renameFrom, f old = []) (t : MultiTree N) :
    (t.applyAll f).applyUpgrades us = ((t.applyUpgrades us).1.applyAll f, (t.applyUpgrades us).2) := by
  have hloop := upgradeLoop_map (N := N)
    (g := fun e => { e with tree := e.tree.applyChangeSet (f e.name) }) (fun _ => rfl)
    (v := nextVersion t.version t.initialVersion) (w := nextVersion t.version t.initialVersion) us t.trees
    (fun u hu e he => by simp only [(hf u hu).1, (hf u hu).2 e.name he])
    (fun u hu => by simp [(hf u hu).1, Tree.applyChangeSet])
  simp only [applyUpgrades]
  split_ifs
  · rfl
  · rw [version_applyAll, initialVersion_applyAll, applyAll, hloop]
    rcases upgradeLoop (nextVersion t.version t.initialVersion) us t.trees with ⟨trees, _ | e⟩
    · have hname : ∀ e : NamedTree N,
        ({ e with tree := e.tree.applyChangeSet (f e.name) } : NamedTree N).name = e.name := fun _ => rfl
      simp only [sortTrees_map hname, indexTrees_map hname]
      rfl
    · rfl

end MultiTree

end IavlStore.Multi
