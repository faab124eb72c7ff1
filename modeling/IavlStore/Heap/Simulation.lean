import IavlStore.Heap.Trees

/-! Every call on a tree over the heap does to the tree read off the heap what the call
does to the tree as a value. `Frames` adds what other trees on the same heap may rely
on: a tree that shares with the worked-on tree only nodes at or below its copy-on-write
version is read as before. -/

namespace IavlStore.Heap

open IavlStore.Base.Encoding IavlStore.Base.SortedPairs IavlStore.Base.Runs IavlStore.Tree Rep

variable {C : Type} {K : Cache C} {sha256 : Bytes → Bytes}
variable {m m' m'' : Mem} {L L' L'' : List ℕ} {c : ℕ}

/-- The node at an address is at or below version `c`. -/
def Frozen (m : Mem) (c a : ℕ) : Prop := ∀ n, m[a]? = some n → n.version ≤ c

/-- The effect on the rest of the heap of working on the tree at `L` with copy-on-write
version `c`. -/
structure Frames (sha256 : Bytes → Bytes) (c : ℕ) (m : Mem) (L : List ℕ) (m' : Mem) (L' : List ℕ) :
    Prop where
  length_le : m.length ≤ m'.length
  rep : ∀ r t L₀, Rep sha256 m r t L₀ → (∀ a ∈ L₀, a ∈ L → Frozen m c a) → Rep sha256 m' r t L₀
  frozen : ∀ a < m.length, (a ∈ L → Frozen m c a) → ∀ c', Frozen m c' a → Frozen m' c' a
  subset : ∀ a ∈ L', a ∈ L ∨ m.length ≤ a

theorem Frames.refl (m : Mem) (L : List ℕ) : Frames sha256 c m L m L :=
  ⟨le_rfl, fun _ _ _ h _ => h, fun _ _ _ _ h => h, fun _ h => .inl h⟩

theorem Frames.trans (h : Frames sha256 c m L m' L') (h' : Frames sha256 c m' L' m'' L'') :
    Frames sha256 c m L m'' L'' := by
  have keep (a : ℕ) (ha : a < m.length) (hf : a ∈ L → Frozen m c a) : a ∈ L' → Frozen m' c a := by
    intro haL'
    have haL := (h.subset a haL').resolve_right (by omega)
    exact h.frozen a ha hf c (hf haL)
  refine ⟨h.length_le.trans h'.length_le, fun r t L₀ hr hf => ?_, fun a ha hf c' hc => ?_,
    fun a ha => ?_⟩
  · exact h'.rep r t L₀ (h.rep r t L₀ hr hf) fun a ha => keep a (hr.lt_length a ha) (hf a ha)
  · exact h'.frozen a (ha.trans_le h.length_le) (keep a ha hf) c' (h.frozen a ha hf c' hc)
  · rcases h'.subset a ha with h₁ | h₁
    · exact h.subset a h₁
    · exact .inr (h.length_le.trans h₁)

theorem Frames.of_rehashed (h : Rehashed sha256 m m') : Frames sha256 c m L m' L := by
  refine ⟨h.length.ge, fun r t L₀ hr _ => h.rep r t L₀ hr, fun a ha _ c' hc n' hn' => ?_,
    fun _ h => .inl h⟩
  obtain ⟨x, hx⟩ := h.cell a _ (List.getElem?_eq_getElem ha)
  obtain rfl := Option.some.inj (hx.symm.trans hn')
  have hle := hc _ (List.getElem?_eq_getElem ha)
  exact hle

/-- The addresses that work on a tree may write: fresh ones and its own above `c`. -/
def Writable (c : ℕ) (m : Mem) (L : List ℕ) (a : ℕ) : Prop :=
  m.length ≤ a ∨ a ∈ L ∧ ¬ Frozen m c a

theorem own_writable (hn : L.Nodup) (hlt : ∀ a ∈ L, a < m.length) :
    Own (Writable c m L) c m L :=
  ⟨hn, hlt, fun _ hb => .inl hb, fun _ hb n hbn hc => .inr ⟨hb, fun hf => (hf n hbn).not_gt hc⟩⟩

theorem Frames.of_step (h : Step (Writable c m L) c m L m' L') : Frames sha256 c m L m' L' := by
  have keep (a : ℕ) (ha : a < m.length) (hf : a ∈ L → Frozen m c a) : m'[a]? = m[a]? := by
    refine h.moves.frame a ha (or_iff_not_imp_left.mpr fun hL hw => ?_)
    rcases hw with hw | hw
    · omega
    · exact hw.2 (hf hw.1)
  refine ⟨h.moves.length_le, fun r t L₀ hr hf => ?_, fun a ha hf c' hc n hn => ?_, h.moves.subset⟩
  · exact hr.congr fun a ha => keep a (hr.lt_length a ha) (hf a ha)
  · exact hc n ((keep a ha hf).symm.trans hn)

/-- The tree over the heap stands for a tree value, with a coherent cache. -/
structure Sim (K : Cache C) (sha256 : Bytes → Bytes) (m : Mem) (ht : HTree C) (t : Tree)
    (L : List ℕ) : Prop where
  version : ht.version = t.version
  rep : RepOpt sha256 m ht.root t.root L
  nodup : L.Nodup
  inv : t.Inv
  cache : ∀ c ∈ ht.cache, ∀ key x, (K.get c key).1 = some x → lookupPair key t.pairs = some x

variable {ht : HTree C} {t : Tree}

namespace Sim

theorem lt_length (h : Sim K sha256 m ht t L) : ∀ a ∈ L, a < m.length := by
  have hr := h.rep
  rcases hh : ht.root with _ | r <;> rcases ht' : t.root with _ | n <;>
    simp only [hh, ht', RepOpt] at hr
  · subst hr; simp
  · exact hr.lt_length

/-- Either both trees are empty, or both roots are there and match. -/
theorem root_cases (h : Sim K sha256 m ht t L) :
    (ht.root = none ∧ t.root = none ∧ L = []) ∨
      ∃ r n, ht.root = some r ∧ t.root = some n ∧ Rep sha256 m r n L ∧ n.Inv (next t.version) := by
  have hr := h.rep
  rcases hh : ht.root with _ | r <;> rcases hn : t.root with _ | n <;>
    simp only [hh, hn, RepOpt] at hr
  · exact .inl ⟨rfl, rfl, hr⟩
  · exact .inr ⟨r, n, rfl, rfl, hr, h.inv n hn⟩

theorem set (h : Sim K sha256 m ht t L) (key : Bytes) (value : Option Bytes) :
    ∃ ht' m' L', ht.set K key value m = some (ht', m') ∧
      Sim K sha256 m' ht' (t.set key value) L' ∧ Frames sha256 ht.cowVersion m L m' L' ∧
      ht'.cowVersion = ht.cowVersion := by
  have hown : Own (Writable ht.cowVersion m L) ht.cowVersion m L :=
    own_writable h.nodup h.lt_length
  -- the root is set on the heap as it is on values
  obtain ⟨a, m', L', e, hrep, s⟩ : ∃ a m' L',
      setRoot key (value.getD []) (next ht.version) ht.cowVersion ht.root m = some (a, m') ∧
      RepOpt sha256 m' (some (.mem a)) (t.set key value).root L' ∧
      Step (Writable ht.cowVersion m L) ht.cowVersion m L m' L' := by
    rcases h.root_cases with ⟨hr, hn, rfl⟩ | ⟨r, n, hr, hn, rep, hi⟩
    · refine ⟨m.length, m ++ [newLeafNode key (value.getD []) (next ht.version)], [m.length],
        by rw [hr, setRoot], ?_, .alloc _ hown⟩
      simp only [Tree.set, hn, h.version, RepOpt]
      exact .leaf _ (newLeafNode key (value.getD []) (next t.version)) _ (by simp) rfl rfl rfl
        (by simp [newLeafNode])
    · obtain ⟨nv, hview, hheight, -⟩ := rep.view_eq
      obtain ⟨a, m', L', e, rep', s⟩ := setRecursive_step (v := next ht.version) key (value.getD [])
        rep hown hi.balanced (show n.height < nv.height + 1 by omega)
      refine ⟨a, m', L', by simp [hr, setRoot, hview, e], ?_, s⟩
      simpa only [Tree.set, hn, RepOpt, h.version] using rep'
  refine ⟨{ ht with root := some (.mem a), cache := ht.cache.map (K.add · key (value.getD [])) }, m', L',
    by simp only [HTree.set, e, Option.bind_eq_bind, Option.bind_some], ⟨h.version, hrep, s.own.nodup, h.inv.set key value, ?_⟩, .of_step s, rfl⟩
  intro c hc key' x hx
  obtain ⟨c₀, hc₀, rfl⟩ := Option.map_eq_some_iff.mp hc
  have := K.get_add c₀ key (value.getD []) key' x hx
  rw [pairs_set h.inv, lookupPair_insertPair]
  split_ifs at this ⊢ with hk
  · rw [this]
  · exact h.cache c₀ hc₀ key' x this

theorem remove (h : Sim K sha256 m ht t L) (key : Bytes) :
    ∃ ht' m' L', ht.remove K key m = some (ht', m') ∧
      Sim K sha256 m' ht' (t.remove key) L' ∧ Frames sha256 ht.cowVersion m L m' L' ∧
      ht'.cowVersion = ht.cowVersion ∧
      (lookupPair key t.pairs = none → ht'.root = ht.root ∧ m' = m) := by
  have hown : Own (Writable ht.cowVersion m L) ht.cowVersion m L :=
    own_writable h.nodup h.lt_length
  obtain ⟨root, m', L', e, hrep, s, hsame⟩ : ∃ root m' L',
      removeRoot key (next ht.version) ht.cowVersion ht.root m = some (root, m') ∧
      RepOpt sha256 m' root (t.remove key).root L' ∧
      Step (Writable ht.cowVersion m L) ht.cowVersion m L m' L' ∧
      (lookupPair key t.pairs = none → root = ht.root ∧ m' = m) := by
    rcases h.root_cases with ⟨hr, hn, rfl⟩ | ⟨r, n, hr, hn, rep, hi⟩
    · exact ⟨none, m, [], by rw [hr, removeRoot], by simp [Tree.remove, hn, RepOpt], .refl hown,
        fun _ => ⟨hr.symm, rfl⟩⟩
    · obtain ⟨nv, hview, hheight, -⟩ := rep.view_eq
      obtain ⟨new, m', L', e, rm⟩ := removeRecursive_step (v := next ht.version) key rep hown
        hi.balanced (show n.height < nv.height + 1 by omega)
      refine ⟨new.node, m', L', by simp [hr, removeRoot, hview, e], ?_, rm.step, fun hk => ?_⟩
      · simpa only [Tree.remove, hn, Option.bind_some, h.version] using rm.rep
      · have hv : new.value = none := by
          rw [rm.value, h.version, (n.removeRecursive_order key _ hi.ordered hi.stamped
            hi.version_le).value]
          simpa only [pairs, hn] using hk
        obtain ⟨h1, h2, -⟩ := rm.same hv
        exact ⟨h1.trans hr.symm, h2⟩
  refine ⟨{ ht with root := root, cache := ht.cache.map (K.remove · key) }, m', L',
    by simp only [HTree.remove, e, Option.bind_eq_bind, Option.bind_some], ⟨h.version, hrep, s.own.nodup, h.inv.remove key, ?_⟩, .of_step s, rfl, hsame⟩
  intro c hc key' x hx
  obtain ⟨c₀, hc₀, rfl⟩ := Option.map_eq_some_iff.mp hc
  obtain ⟨hk, hx⟩ := K.get_remove c₀ key key' x hx
  rw [pairs_remove h.inv, lookupPair_erasePair, if_neg hk]
  exact h.cache c₀ hc₀ key' x hx

theorem applyPair (h : Sim K sha256 m ht t L) (p : KVPair) :
    ∃ ht' m' L', ht.applyPair K p m = some (ht', m') ∧ Sim K sha256 m' ht' (t.applyPair p) L' ∧
      Frames sha256 ht.cowVersion m L m' L' ∧ ht'.cowVersion = ht.cowVersion := by
  unfold HTree.applyPair Tree.applyPair
  split_ifs
  · obtain ⟨ht₁, m₁, L₁, e₁, h₁, f₁, hc₁, -⟩ := h.remove p.key
    exact ⟨ht₁, m₁, L₁, e₁, h₁, f₁, hc₁⟩
  · exact h.set p.key p.value

theorem applyChangeSet (h : Sim K sha256 m ht t L) (cs : ChangeSet) :
    ∃ ht' m' L', ht.applyChangeSet K cs m = some (ht', m') ∧
      Sim K sha256 m' ht' (t.applyChangeSet cs) L' ∧ Frames sha256 ht.cowVersion m L m' L' ∧
      ht'.cowVersion = ht.cowVersion := by
  induction cs generalizing m ht t L with
  | nil => exact ⟨ht, m, L, rfl, h, .refl m L, rfl⟩
  | cons p cs ih =>
    obtain ⟨ht₁, m₁, L₁, e₁, h₁, f₁, hc₁⟩ := h.applyPair p
    obtain ⟨ht₂, m₂, L₂, e₂, h₂, f₂, hc₂⟩ := ih h₁
    rw [hc₁] at f₂ hc₂
    exact ⟨ht₂, m₂, L₂, by simp [HTree.applyChangeSet, e₁, e₂], h₂, f₁.trans f₂, hc₂⟩

theorem rehashed (h : Sim K sha256 m ht t L) (hm : Rehashed sha256 m m') :
    Sim K sha256 m' ht t L := by
  refine ⟨h.version, ?_, h.nodup, h.inv, h.cache⟩
  rcases h.root_cases with ⟨hr, hn, hL⟩ | ⟨r, n, hr, hn, rep, -⟩
  · simpa only [hr, hn, RepOpt] using hL
  · simpa only [hr, hn, RepOpt] using hm.rep r n L rep

theorem rootHash (h : Sim K sha256 m ht t L) :
    ∃ m', ht.rootHash sha256 m = some (t.rootHash sha256, m') ∧ Rehashed sha256 m m' := by
  rcases h.root_cases with ⟨hr, hn, -⟩ | ⟨r, n, hr, hn, rep, hi⟩
  · exact ⟨m, by simp only [HTree.rootHash, hr, Tree.rootHash, hn], .refl m⟩
  · obtain ⟨nv, hview, hheight, -⟩ := rep.view_eq
    obtain ⟨m', e, hm⟩ := hash_step rep hi.balanced (show n.height < nv.height + 1 by omega)
    exact ⟨m', by simp [HTree.rootHash, hr, Tree.rootHash, hn, hview, e], hm⟩

theorem load (h : Sim K sha256 m ht t L) : ht.load m = some t := by
  obtain ⟨v, root⟩ := t
  rcases h.root_cases with ⟨hr, hn, -⟩ | ⟨r, n, hr, hn, rep, hi⟩
  · have hn : root = none := hn
    simp [HTree.load, hr, hn, h.version]
  · have hn : root = some n := hn
    obtain ⟨nv, hview, hheight, -⟩ := rep.view_eq
    simp [HTree.load, hr, hview, hn, h.version,
      load_eq rep hi.balanced (show n.height < nv.height + 1 by omega)]

/-- Saving fails exactly when the version overflows, and changes the version only. -/
theorem saveVersion (h : Sim K sha256 m ht t L) (updateHash : Bool) :
    ∃ ht' m' result, ht.saveVersion sha256 updateHash m = some (result, ht', m') ∧
      valueStep sha256 t (.saveVersion updateHash) =
        ((valueStep sha256 t (.saveVersion updateHash)).1, .saved result) ∧
      Sim K sha256 m' ht' (valueStep sha256 t (.saveVersion updateHash)).1 L ∧
      Rehashed sha256 m m' ∧ ht'.cowVersion = ht.cowVersion ∧ ht'.root = ht.root := by
  by_cases hv : maxInt64 < next ht.version
  · have hs : t.saveVersion = none := by rw [Tree.saveVersion, if_pos (h.version ▸ hv)]
    exact ⟨ht, m, none, by simp [HTree.saveVersion, hv], by simp [valueStep, hs],
      by simpa [valueStep, hs] using h, .refl m, rfl, rfl⟩
  · have hs : t.saveVersion = some { t with version := next t.version } := by
      rw [Tree.saveVersion, if_neg (h.version ▸ hv)]
    obtain ⟨m₁, e, hm⟩ := h.rootHash
    have hsim (m' : Mem) (hm' : Rehashed sha256 m m') :
        Sim K sha256 m' { ht with version := next ht.version } { t with version := next t.version } L :=
      ⟨congrArg next h.version, (h.rehashed hm').rep, h.nodup, (h.inv.saveVersion hs).1, h.cache⟩
    cases updateHash with
    | false => exact ⟨{ ht with version := next ht.version }, m, some (none, next ht.version), by simp [HTree.saveVersion, hv],
        by simp [valueStep, hs, h.version], by simpa [valueStep, hs] using hsim m (.refl m), .refl m,
        rfl, rfl⟩
    | true => exact ⟨{ ht with version := next ht.version }, m₁, some (some (t.rootHash sha256), next ht.version),
        by simp [HTree.saveVersion, hv, e], by simp [valueStep, hs, h.version],
        by simpa [valueStep, hs] using hsim m₁ hm, hm, rfl, rfl⟩

theorem getWithIndex (h : Sim K sha256 m ht t L) (key : Bytes) :
    ht.getWithIndex key m =
      some (UInt32.ofNat (rank key t.pairs), lookupPair key t.pairs) := by
  rcases h.root_cases with ⟨hr, hn, -⟩ | ⟨r, n, hr, hn, rep, hi⟩
  · simp [HTree.getWithIndex, hr, pairs, hn, rank]
  · obtain ⟨nv, hview, hheight, -⟩ := rep.view_eq
    simp [HTree.getWithIndex, hr, pairs, hn, hview,
      get_eq key rep hi.balanced hi.ordered (show n.height < nv.height + 1 by omega)]

/-- A cached value is the tree's, and a miss is looked up in the tree. -/
theorem get (h : Sim K sha256 m ht t L) (key : Bytes) :
    ∃ ht', ht.get K key m = some (lookupPair key t.pairs, ht') ∧ Sim K sha256 m ht' t L ∧
      ht'.cowVersion = ht.cowVersion := by
  -- reading the cache may reorder it
  have hread : Sim K sha256 m { ht with cache := (ht.cache.map (K.get · key)).map Prod.snd } t L := by
    refine ⟨h.version, h.rep, h.nodup, h.inv, fun c hc key' x hx => ?_⟩
    obtain ⟨q, hq, rfl⟩ := Option.map_eq_some_iff.mp hc
    obtain ⟨c₀, hc₀, rfl⟩ := Option.map_eq_some_iff.mp hq
    exact h.cache c₀ hc₀ key' x (K.get_get c₀ key key' x hx)
  simp only [HTree.get]
  rcases hhit : (ht.cache.map (K.get · key)).bind Prod.fst with _ | x
  · simp only [hread.getWithIndex key, Option.bind_eq_bind, Option.bind_some]
    rcases hlook : lookupPair key t.pairs with _ | x
    · exact ⟨_, rfl, hread, rfl⟩
    · refine ⟨_, rfl, ⟨hread.version, hread.rep, hread.nodup, hread.inv, fun c hc key' y hy => ?_⟩, rfl⟩
      obtain ⟨c₀, hc₀, rfl⟩ := Option.map_eq_some_iff.mp hc
      have := K.get_add c₀ key x key' y hy
      split_ifs at this with hk
      · rw [hk, hlook, this]
      · exact hread.cache c₀ hc₀ key' y this
  · obtain ⟨q, hq, hx⟩ := Option.bind_eq_some_iff.mp hhit
    obtain ⟨c₀, hc₀, rfl⟩ := Option.map_eq_some_iff.mp hq
    exact ⟨_, by rw [h.cache c₀ hc₀ key x hx], hread, rfl⟩

theorem newCache_get (size : ℤ) {x : Bytes} {key : Bytes} :
    ∀ c ∈ HTree.newCache K size, (K.get c key).1 ≠ some x := by
  intro c hc
  unfold HTree.newCache at hc
  split_ifs at hc
  · cases hc
  · obtain rfl := Option.some.inj hc
    simp [K.get_new]

theorem copy (h : Sim K sha256 m ht t L) (cacheSize : ℤ) :
    Sim K sha256 m (ht.copy K cacheSize).1 t L ∧ Sim K sha256 m (ht.copy K cacheSize).2 t L := by
  have hold : Sim K sha256 m (ht.copy K cacheSize).1 t L := by
    unfold HTree.copy
    split
    · exact ⟨h.version, h.rep, h.nodup, h.inv, h.cache⟩
    · exact h
  exact ⟨hold, hold.version, hold.rep, hold.nodup, hold.inv,
    fun c hc _ _ hx => absurd hx (newCache_get cacheSize c hc)⟩

/-- A tree over a stored value. -/
theorem newFromSnapshot {p : StoredNode} {v : ℕ} (hp : p.HashOk sha256)
    (hi : p.toNode.Inv (next v)) (m : Mem) (cacheSize : ℤ) :
    Sim K sha256 m (HTree.newFromSnapshot K v (some p) cacheSize) ⟨v, some p.toNode⟩ [] :=
  ⟨rfl, .persisted p hp, List.nodup_nil, by simpa [Tree.Inv] using hi,
    fun c hc _ _ hx => absurd hx (newCache_get cacheSize c hc)⟩

theorem newEmptyTree (m : Mem) (v : ℕ) (cacheSize : ℤ) :
    Sim K sha256 m (HTree.newEmptyTree K v cacheSize) (Tree.newEmptyTree v) [] :=
  ⟨rfl, rfl, List.nodup_nil, newEmptyTree_inv v,
    fun c hc _ _ hx => absurd hx (newCache_get cacheSize c hc)⟩

theorem reload (h : Sim K sha256 m ht t L) (cacheSize : ℤ) :
    ∃ ht' m', ht.reload K sha256 cacheSize m = some (ht', m') ∧ Sim K sha256 m' ht' t [] ∧
      Rehashed sha256 m m' := by
  obtain ⟨v, root⟩ := t
  rcases h.root_cases with ⟨hr, hn, -⟩ | ⟨r, n, hr, hn, rep, hi⟩
  · obtain rfl : root = none := hn
    obtain rfl : ht.version = v := h.version
    exact ⟨HTree.newEmptyTree K ht.version cacheSize, m, by simp only [HTree.reload, hr]; rfl,
      newEmptyTree m _ cacheSize, .refl m⟩
  · obtain rfl : root = some n := hn
    obtain rfl : ht.version = v := h.version
    obtain ⟨nv, hview, hheight, -⟩ := rep.view_eq
    obtain ⟨m', e, hm⟩ := writeRecursive_step rep hi.balanced (show n.height < nv.height + 1 by omega)
    refine ⟨HTree.newFromSnapshot K ht.version (some (n.stored sha256)) cacheSize, m',
      by simp [HTree.reload, hr, hview, e], ?_, hm⟩
    have hsim := newFromSnapshot (K := K) (v := ht.version) (Node.hashOk_stored sha256 hi.ordered)
      (by rw [Node.toNode_stored sha256 hi.ordered]; exact hi) m' cacheSize
    rwa [Node.toNode_stored sha256 hi.ordered] at hsim

end Sim

/-- One call: the tree value changes as on values, and other trees on the heap are
framed. Only copying raises the copy-on-write version, and only reloading resets it,
which leaves no in-memory node. -/
theorem Sim.step (h : Sim K sha256 m ht t L) (e : Event) :
    ∃ ht' m' L', step K sha256 (ht, m) e = some ((ht', m'), (valueStep sha256 t e).2) ∧
      Sim K sha256 m' ht' (valueStep sha256 t e).1 L' ∧ Frames sha256 ht.cowVersion m L m' L' ∧
      ((∀ size follow, e ≠ .copy size follow) → ht'.cowVersion = ht.cowVersion ∨ L' = []) := by
  cases e with
  | set key value =>
    obtain ⟨ht', m', L', e, h', f, hc⟩ := h.set key value
    exact ⟨ht', m', L', by simp [Heap.step, e, valueStep], h', f, fun _ => .inl hc⟩
  | remove key =>
    obtain ⟨ht', m', L', e, h', f, hc, -⟩ := h.remove key
    exact ⟨ht', m', L', by simp [Heap.step, e, valueStep], h', f, fun _ => .inl hc⟩
  | applyChangeSet cs =>
    obtain ⟨ht', m', L', e, h', f, hc⟩ := h.applyChangeSet cs
    exact ⟨ht', m', L', by simp [Heap.step, e, valueStep], h', f, fun _ => .inl hc⟩
  | saveVersion updateHash =>
    obtain ⟨ht', m', result, e, hv, h', hm, hc, -⟩ := h.saveVersion updateHash
    exact ⟨ht', m', L, by rw [hv]; simp [Heap.step, e], h', .of_rehashed hm, fun _ => .inl hc⟩
  | rootHash =>
    obtain ⟨m', e, hm⟩ := h.rootHash
    exact ⟨ht, m', L, by simp [Heap.step, e, valueStep], h.rehashed hm, .of_rehashed hm,
      fun _ => .inl rfl⟩
  | copy cacheSize follow =>
    refine ⟨_, m, L, rfl, ?_, .refl m L, fun h => absurd rfl (h cacheSize follow)⟩
    cases follow
    · exact (h.copy cacheSize).1
    · exact (h.copy cacheSize).2
  | get key =>
    obtain ⟨ht', e, h', hc⟩ := h.get key
    exact ⟨ht', m, L, by simp [Heap.step, e, valueStep], h', .refl m L, fun _ => .inl hc⟩
  | has key =>
    obtain ⟨ht', e, h', hc⟩ := h.get key
    exact ⟨ht', m, L, by simp [Heap.step, HTree.has, e, valueStep], h', .refl m L, fun _ => .inl hc⟩
  | reload cacheSize =>
    obtain ⟨ht', m', e, h', hm⟩ := h.reload cacheSize
    have hf : Frames sha256 ht.cowVersion m L m' L := .of_rehashed hm
    exact ⟨ht', m', [], by simp [Heap.step, e, valueStep], h',
      ⟨hf.length_le, hf.rep, hf.frozen, by simp⟩, fun _ => .inr rfl⟩

/-- The state of the heap machine stands for a tree value. -/
def Simulates (K : Cache C) (sha256 : Bytes → Bytes) (s : HTree C × Mem) (t : Tree) : Prop :=
  ∃ L, Sim K sha256 s.2 s.1 t L

/-- The heap machine refines the machine on values, for every call. -/
theorem step_refines (K : Cache C) (sha256 : Bytes → Bytes) :
    Refines (step K sha256) (valueStep sha256) (Simulates K sha256) := by
  rintro ⟨ht, m⟩ t e ⟨L, h⟩
  obtain ⟨ht', m', L', he, h', -⟩ := h.step e
  exact ⟨(ht', m'), he, L', h'⟩

end IavlStore.Heap
