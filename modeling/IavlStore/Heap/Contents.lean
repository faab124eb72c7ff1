import IavlStore.Heap.Simulation

/-! What a tree on the heap holds. Its reads answer with the last value set for a key
that was not removed since, whatever the cache evicts, and its leaves list exactly the
live pairs in key order. Every branch keeps the AVL and search-tree invariants, an update
of a present key changes no shape, and a removal of an absent key changes nothing. -/

namespace IavlStore.Tree.Node

open IavlStore.Base.SortedPairs

variable {K V : Type*}

/-- Every node of a tree. -/
def subtrees : Node K V → List (Node K V)
  | leaf v k x => [leaf v k x]
  | branch h s v k l r => branch h s v k l r :: (l.subtrees ++ r.subtrees)

/-- Heights, sizes and keys, without versions and values. -/
def skeleton : Node K V → Node K Unit
  | leaf _ k _ => leaf 0 k ()
  | branch h s _ k l r => branch h s 0 k l.skeleton r.skeleton

variable [LinearOrder K]

/-- The representation invariant at a branch. -/
def BranchOk : Node K V → Prop
  | leaf _ _ _ => True
  | branch h s v k l r =>
    h = 1 + max l.height r.height ∧ s = l.size + r.size ∧
      l.height ≤ r.height + 1 ∧ r.height ≤ l.height + 1 ∧
      (∃ x, (k, x) ∈ r.toList) ∧ (∀ p ∈ r.toList, k ≤ p.1) ∧ (∀ p ∈ l.toList, p.1 < k) ∧
      l.version ≤ v ∧ r.version ≤ v

theorem branchOk_of_invariants {t : Node K V} (hb : t.Balanced) (ho : t.Ordered) (hs : t.Stamped) :
    ∀ u ∈ t.subtrees, u.BranchOk := by
  induction t with
  | leaf => simp [subtrees, BranchOk]
  | branch h s v k l r ihl ihr =>
    have ha := ho.atLeast
    obtain ⟨he, hsz, h1, h2, hbl, hbr⟩ := hb
    obtain ⟨hbelow, hk, hol, hor⟩ := ho
    obtain ⟨hv1, hv2, hsl, hsr⟩ := hs
    intro u hu
    rcases List.mem_cons.mp hu with rfl | hu
    · exact ⟨by omega, hsz, h1, h2, hk ▸ r.minKey_mem, ha, hbelow, hv1, hv2⟩
    · exact (List.mem_append.mp hu).elim (ihl hbl hol hsl u) (ihr hbr hor hsr u)

/-- An update of a present key keeps heights, sizes and keys. -/
theorem skeleton_setRecursive {key : K} {value : V} {n : ℕ} {t : Node K V}
    (h : (t.setRecursive key value n).2 = true) :
    (t.setRecursive key value n).1.skeleton = t.skeleton := by
  induction t with
  | leaf v k x =>
    simp only [setRecursive] at h ⊢
    split_ifs at h ⊢
    rfl
  | branch ht s v k l r ihl ihr =>
    simp only [setRecursive] at h ⊢
    split_ifs at h ⊢ with hk hu hu
    · simp [skeleton, ihl hu]
    · simp [skeleton, ihr hu]

end IavlStore.Tree.Node

namespace IavlStore.Heap

open IavlStore.Base.Encoding IavlStore.Base.SortedPairs IavlStore.Base.Runs IavlStore.Tree

variable {C : Type} {K : Cache C} {sha256 : Bytes → Bytes}

/-- A run of the tree machine succeeds and ends in the tree the changes lead to. -/
theorem exec_simulates (es : List Event) {s : HTree C × Mem} {t : Tree}
    (h : Simulates K sha256 s t) :
    ∃ s', exec (step K sha256) s es = some (s', (total (valueStep sha256) t es).2) ∧
      Simulates K sha256 s' (total (valueStep sha256) t es).1 :=
  (step_refines K sha256).exec es h

/-! ### The tree as a map -/

/-- The value of a key after one change of it or of another. -/
def pairAfter (key : Bytes) (old : Option Bytes) (p : KVPair) : Option Bytes :=
  if p.key = key then (if p.delete then none else some (p.value.getD [])) else old

/-- The value of a key after a call. -/
def Event.valueAfter (key : Bytes) (old : Option Bytes) : Event → Option Bytes
  | .set k value => pairAfter key old ⟨false, k, value⟩
  | .remove k => pairAfter key old ⟨true, k, none⟩
  | .applyChangeSet cs => cs.foldl (pairAfter key) old
  | _ => old

/-- The value of the last set of a key that no removal follows; a nil value counts as
the empty one. -/
def lastValue (key : Bytes) (old : Option Bytes) (es : List Event) : Option Bytes :=
  es.foldl (Event.valueAfter key) old

theorem lookupPair_applyPair {t : Tree} (h : t.Inv) (p : KVPair) (key : Bytes) :
    lookupPair key (t.applyPair p).pairs = pairAfter key (lookupPair key t.pairs) p := by
  unfold applyPair pairAfter
  by_cases hd : p.delete
  · rw [if_pos hd, if_pos hd, pairs_remove h, lookupPair_erasePair]
    by_cases hk : p.key = key
    · rw [if_pos hk.symm, if_pos hk]
    · rw [if_neg (Ne.symm hk), if_neg hk]
  · rw [if_neg hd, if_neg hd, pairs_set h, lookupPair_insertPair]
    by_cases hk : p.key = key
    · rw [if_pos hk.symm, if_pos hk]
    · rw [if_neg (Ne.symm hk), if_neg hk]

theorem lookupPair_applyChangeSet {t : Tree} (h : t.Inv) (cs : ChangeSet) (key : Bytes) :
    lookupPair key (t.applyChangeSet cs).pairs =
      cs.foldl (pairAfter key) (lookupPair key t.pairs) := by
  induction cs generalizing t with
  | nil => rfl
  | cons p cs ih =>
    rw [List.foldl_cons, ← lookupPair_applyPair h]
    exact ih (h.applyPair p)

theorem valueStep_lookup (sha256 : Bytes → Bytes) {t : Tree} (h : t.Inv) (e : Event) (key : Bytes) :
    (valueStep sha256 t e).1.Inv ∧
      lookupPair key (valueStep sha256 t e).1.pairs = e.valueAfter key (lookupPair key t.pairs) := by
  cases e with
  | set k value => exact ⟨h.set k value, lookupPair_applyPair h ⟨false, k, value⟩ key⟩
  | remove k => exact ⟨h.remove k, lookupPair_applyPair h ⟨true, k, none⟩ key⟩
  | applyChangeSet cs => exact ⟨h.applyChangeSet cs, lookupPair_applyChangeSet h cs key⟩
  | saveVersion updateHash =>
    simp only [valueStep, Event.valueAfter]
    rcases hs : t.saveVersion with _ | t'
    · exact ⟨h, rfl⟩
    · obtain ⟨-, rfl⟩ := saveVersion_eq_some hs
      exact ⟨(h.saveVersion hs).1, rfl⟩
  | _ => exact ⟨h, rfl⟩

theorem total_lookup (sha256 : Bytes → Bytes) (es : List Event) {t : Tree} (h : t.Inv) (key : Bytes) :
    (total (valueStep sha256) t es).1.Inv ∧
      lookupPair key (total (valueStep sha256) t es).1.pairs =
        lastValue key (lookupPair key t.pairs) es := by
  induction es generalizing t with
  | nil => exact ⟨h, rfl⟩
  | cons e es ih =>
    obtain ⟨hi, hl⟩ := valueStep_lookup sha256 h e key
    obtain ⟨hi', hl'⟩ := ih hi
    exact ⟨hi', by rw [lastValue, List.foldl_cons, ← hl]; exact hl'⟩

/-- A tree over the snapshot of a tree value. -/
def openTree (K : Cache C) (sha256 : Bytes → Bytes) (t : Tree) (cacheSize : ℤ) : HTree C :=
  .newFromSnapshot K t.version (t.root.map (Node.stored sha256)) cacheSize

theorem openTree_simulates (K : Cache C) (sha256 : Bytes → Bytes) {t : Tree} (h : t.Inv)
    (cacheSize : ℤ) (m : Mem) : Simulates K sha256 (openTree K sha256 t cacheSize, m) t := by
  rcases t with ⟨v, _ | n⟩
  · exact ⟨[], .newEmptyTree m v cacheSize⟩
  · have hi := h n rfl
    have hto := Node.toNode_stored sha256 hi.ordered
    have hs := Sim.newFromSnapshot (K := K) (v := v) (Node.hashOk_stored sha256 hi.ordered)
      (by rw [hto]; exact hi) m cacheSize
    rw [hto] at hs
    exact ⟨[], hs⟩

/-- From an empty tree or the snapshot of a well-formed one, after any calls and with
any cache: `Get` answers with the last value set and not removed, `Has` agrees, and the
leaves are the live pairs in strict key order. -/
theorem tree_refines_map (K : Cache C) (sha256 : Bytes → Bytes) (t₀ : Tree) (h₀ : t₀.Inv)
    (cacheSize : ℤ) (m : Mem) (es : List Event) :
    ∃ s outputs, exec (step K sha256) (openTree K sha256 t₀ cacheSize, m) es = some (s, outputs) ∧
      (∀ key, (s.1.get K key s.2).map Prod.fst =
        some (lastValue key (lookupPair key t₀.pairs) es)) ∧
      (∀ key, (s.1.has K key s.2).map Prod.fst =
        some (lastValue key (lookupPair key t₀.pairs) es).isSome) ∧
      ∃ t, s.1.load s.2 = some t ∧ Sorted t.pairs ∧
        ∀ key value, (key, value) ∈ t.pairs ↔
          lastValue key (lookupPair key t₀.pairs) es = some value := by
  obtain ⟨s, he, L, hs⟩ := exec_simulates es (openTree_simulates K sha256 h₀ cacheSize m)
  have hlook (key : Bytes) := (total_lookup sha256 es h₀ key).2
  refine ⟨s, _, he, fun key => ?_, fun key => ?_, _, hs.load, hs.inv.sorted, fun key value => ?_⟩
  · obtain ⟨ht', e, -⟩ := hs.get key
    rw [e, ← hlook key]
    rfl
  · obtain ⟨ht', e, -⟩ := hs.get key
    simp [HTree.has, e, hlook key]
  · rw [mem_iff_lookupPair hs.inv.sorted, hlook key]

/-- A nil value is present after the set and gone after the removal. -/
theorem tree_refines_map_nil_value :
    let sha256 : Bytes → Bytes := fun bytes => bytes
    ∃ s outputs, exec (step lruCache sha256)
        (openTree lruCache sha256 (Tree.newEmptyTree 4) 1, ([] : Mem)) [.set [1] none, .get [1]] =
        some (s, outputs) ∧
      (∀ key, (s.1.get lruCache key s.2).map Prod.fst =
        some (lastValue key (lookupPair key (Tree.newEmptyTree 4).pairs)
          [.set [1] none, .get [1]])) ∧
      (∀ key, (s.1.has lruCache key s.2).map Prod.fst =
        some (lastValue key (lookupPair key (Tree.newEmptyTree 4).pairs)
          [.set [1] none, .get [1]]).isSome) ∧
      ∃ t, s.1.load s.2 = some t ∧ Sorted t.pairs ∧
        ∀ key value, (key, value) ∈ t.pairs ↔
          lastValue key (lookupPair key (Tree.newEmptyTree 4).pairs) [.set [1] none, .get [1]] =
            some value :=
  tree_refines_map lruCache (fun bytes => bytes) (Tree.newEmptyTree 4) (newEmptyTree_inv 4) 1 [] _

/-! ### The representation invariant -/

/-- In every tree that calls lead to from an empty one, directly or through snapshots,
every branch keeps the invariant; setting a present key changes no height, size or key;
removing an absent key leaves root and heap as they were. -/
theorem tree_keeps_avl_invariant (K : Cache C) (sha256 : Bytes → Bytes) (version : ℕ)
    (cacheSize : ℤ) (m : Mem) (es : List Event) :
    ∃ s outputs t, exec (step K sha256) (HTree.newEmptyTree K version cacheSize, m) es =
        some (s, outputs) ∧ s.1.load s.2 = some t ∧
      (∀ n ∈ t.root, ∀ u ∈ n.subtrees, u.BranchOk) ∧
      (∀ key value, (lookupPair key t.pairs).isSome →
        ∃ ht' m' t', s.1.set K key value s.2 = some (ht', m') ∧ ht'.load m' = some t' ∧
          t'.root.map Node.skeleton = t.root.map Node.skeleton) ∧
      (∀ key, lookupPair key t.pairs = none →
        ∃ ht', s.1.remove K key s.2 = some (ht', s.2) ∧ ht'.root = s.1.root) := by
  have init : Simulates K sha256 (HTree.newEmptyTree K version cacheSize, m)
      (Tree.newEmptyTree version) := ⟨[], .newEmptyTree m version cacheSize⟩
  obtain ⟨s, he, L, hs⟩ := exec_simulates es init
  generalize (total (valueStep sha256) (Tree.newEmptyTree version) es).1 = t at hs
  refine ⟨s, _, t, he, hs.load, fun n hn => ?_, fun key value hk => ?_, fun key hk => ?_⟩
  · have hi := hs.inv n hn
    exact Node.branchOk_of_invariants hi.balanced hi.ordered hi.stamped
  · obtain ⟨ht', m', L', e, hs', -⟩ := hs.set key value
    refine ⟨ht', m', _, e, hs'.load, ?_⟩
    rcases hr : t.root with _ | n
    · simp [pairs, hr] at hk
    · have hi := hs.inv n hr
      have ho := n.setRecursive_order key (value.getD []) _ hi.ordered hi.stamped hi.version_le
      have hu : (n.setRecursive key (value.getD []) (next t.version)).2 = true := by
        rw [ho.updated]
        simpa only [pairs, hr] using hk
      simp only [Tree.set, hr, Option.map_some, Node.skeleton_setRecursive hu]
  · obtain ⟨ht', m', L', e, -, -, -, hsame⟩ := hs.remove key
    obtain ⟨hroot, rfl⟩ := hsame hk
    exact ⟨ht', e, hroot⟩

end IavlStore.Heap
