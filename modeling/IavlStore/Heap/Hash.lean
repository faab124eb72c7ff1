import IavlStore.Heap.Update

/-! Reading trees on the heap. A hash call returns the hash recomputed over the whole
tree and writes nothing but correct hashes, so every tree on the heap is read as
before. The snapshot writer stores the tree, and a lookup finds the value and the
rank of a key, in memory and in a snapshot alike. -/

namespace IavlStore.Heap

open IavlStore.Base.Encoding IavlStore.Base.SortedPairs IavlStore.Base.Search IavlStore.Tree Rep

variable {sha256 : Bytes → Bytes} {m m' m'' : Mem} {ref : Ref} {t : Node Bytes Bytes} {L : List ℕ}
  {fuel : ℕ}

/-- The heaps differ in cached hashes only, and what a reference stands for has not
changed. -/
structure Rehashed (sha256 : Bytes → Bytes) (m m' : Mem) : Prop where
  length : m'.length = m.length
  cell : ∀ (a : ℕ) (n : MemNode), m[a]? = some n → ∃ h, m'[a]? = some { n with hash := h }
  rep : ∀ r t L, Rep sha256 m r t L → Rep sha256 m' r t L

theorem Rehashed.refl (m : Mem) : Rehashed sha256 m m :=
  ⟨rfl, fun _ n h => ⟨n.hash, h⟩, fun _ _ _ h => h⟩

theorem Rehashed.trans (h : Rehashed sha256 m m') (h' : Rehashed sha256 m' m'') :
    Rehashed sha256 m m'' := by
  refine ⟨h'.length.trans h.length, fun a n hn => ?_, fun r t L hr => h'.rep r t L (h.rep r t L hr)⟩
  obtain ⟨x, hx⟩ := h.cell a n hn
  obtain ⟨y, hy⟩ := h'.cell a _ hx
  exact ⟨y, hy⟩

/-- Caching the hash of the tree a node stands for. -/
theorem Rehashed.set {a : ℕ} {n : MemNode} (hrep : Rep sha256 m (.mem a) t L)
    (hn : m[a]? = some n) :
    Rehashed sha256 m (m.set a { n with hash := some (t.hashNode sha256) }) := by
  obtain ⟨ha, -⟩ := List.getElem?_eq_some_iff.mp hn
  have hcell (b : ℕ) (nb : MemNode) (hb : m[b]? = some nb) :
      (m.set a { n with hash := some (t.hashNode sha256) })[b]? =
        some { nb with hash := if b = a then some (t.hashNode sha256) else nb.hash } := by
    by_cases hba : b = a
    · subst hba
      obtain rfl : nb = n := Option.some.inj (hb.symm.trans hn)
      simp [ha]
    · rw [List.getElem?_set_ne (Ne.symm hba), if_neg hba, hb]
  refine ⟨by simp, fun b nb hb => ⟨_, hcell b nb hb⟩, fun r t' L' hr => ?_⟩
  induction hr with
  | persisted p ok => exact .persisted p ok
  | leaf b nb x cell height size value ok =>
    refine .leaf b { nb with hash := if b = a then some (t.hashNode sha256) else nb.hash } x
      (hcell b nb cell) height size value ?_
    by_cases hba : b = a
    · subst hba
      obtain ⟨rfl, -⟩ := (Rep.leaf b nb x cell height size value ok).unique hrep
      simp
    · simpa [hba] using ok
  | branch b nb l r tl tr Ll Lr cell height left right ok repl repr ihl ihr =>
    refine .branch b { nb with hash := if b = a then some (t.hashNode sha256) else nb.hash } l r tl tr
      Ll Lr (hcell b nb cell) height left right ?_ ihl ihr
    by_cases hba : b = a
    · subst hba
      obtain ⟨rfl, -⟩ := (Rep.branch b nb l r tl tr Ll Lr cell height left right ok repl repr).unique
        hrep
      simp
    · simpa [hba] using ok

/-- A hash call returns the hash recomputed from scratch. -/
theorem hash_step (hrep : Rep sha256 m ref t L) (hb : t.Balanced) (hfuel : t.height < fuel) :
    ∃ m', hash sha256 fuel ref m = some (t.hashNode sha256, m') ∧ Rehashed sha256 m m' := by
  induction fuel generalizing m ref t L with
  | zero => omega
  | succ fuel ih =>
    have hself := hrep
    cases hrep with
    | persisted p ok => exact ⟨m, by rw [hash, ok.hash_eq], .refl m⟩
    | leaf a n x cell height size value ok =>
      simp only [hash, cell, Option.bind_eq_bind, Option.bind_some]
      rcases hh : n.hash with _ | h
      · refine ⟨_, ?_, .set hself cell⟩
        simp [height, size, value, modify, cell, Node.hashNode]
      · exact ⟨m, by rw [ok h (by simp [hh])], .refl m⟩
    | branch a n l r tl tr Ll Lr cell height left right ok repl repr =>
      obtain ⟨he, -, -, -, hbl, hbr⟩ := hb
      simp only [Node.height_branch] at hfuel
      simp only [hash, cell, Option.bind_eq_bind, Option.bind_some]
      rcases hh : n.hash with _ | h
      · obtain ⟨m₁, e₁, rh₁⟩ := ih repl hbl (by omega)
        obtain ⟨m₂, e₂, rh₂⟩ := ih (rh₁.rep _ _ _ repr) hbr (by omega)
        have rh := rh₁.trans rh₂
        obtain ⟨h', cell'⟩ := rh.cell a n cell
        refine ⟨_, ?_, rh.trans (.set (rh.rep _ _ _ hself) cell')⟩
        simp [height.ne', left, right, e₁, e₂, modify, cell', Node.hashNode]
      · exact ⟨m, by rw [ok h (by simp [hh])], .refl m⟩

/-- The snapshot writer stores the tree with its hashes. -/
theorem writeRecursive_step (hrep : Rep sha256 m ref t L) (hb : t.Balanced)
    (hfuel : t.height < fuel) :
    ∃ m', writeRecursive sha256 fuel ref m = some (t.stored sha256, m') ∧ Rehashed sha256 m m' := by
  induction t generalizing fuel m ref L with
  | leaf w k x =>
    obtain ⟨fuel, rfl⟩ : ∃ f, fuel = f + 1 := ⟨fuel - 1, by omega⟩
    obtain ⟨m₁, e₁, rh₁⟩ := hash_step hrep hb hfuel
    obtain ⟨n, hview, hleaf, -, -, rfl, rfl, hval, -⟩ := hrep.leaf_view
    exact ⟨m₁, by simp [writeRecursive, hview, hleaf, e₁, hval, Node.stored], rh₁⟩
  | branch h s w k tl tr ihl ihr =>
    obtain ⟨fuel, rfl⟩ : ∃ f, fuel = f + 1 := ⟨fuel - 1, by omega⟩
    obtain ⟨n, l, r, Ll, Lr, hview, hleaf, rfl, rfl, rfl, rfl, hl, hr, repl, repr, -⟩ :=
      hrep.branch_view
    have hbb := hb
    obtain ⟨he, -, -, -, hbl, hbr⟩ := hb
    simp only [Node.height_branch] at hfuel
    obtain ⟨m₁, e₁, rh₁⟩ := ihl repl hbl (show tl.height < fuel by omega)
    obtain ⟨m₂, e₂, rh₂⟩ := ihr (rh₁.rep _ _ _ repr) hbr (show tr.height < fuel by omega)
    obtain ⟨m₃, e₃, rh₃⟩ := hash_step (rh₂.rep _ _ _ (rh₁.rep _ _ _ hrep)) hbb
      (show n.height < fuel + 1 from hfuel)
    exact ⟨m₃, by simp [writeRecursive, hview, hleaf, hl, hr, e₁, e₂, e₃, Node.stored],
      (rh₁.trans rh₂).trans rh₃⟩

theorem load_eq (hrep : Rep sha256 m ref t L) (hb : t.Balanced) (hfuel : t.height < fuel) :
    load fuel ref m = some t := by
  induction fuel generalizing ref t L with
  | zero => omega
  | succ fuel ih =>
    cases hrep with
    | persisted => rfl
    | leaf a n x cell height size value => simp [load, cell, height, value]
    | branch a n l r tl tr Ll Lr cell height left right ok repl repr =>
      obtain ⟨he, -, -, -, hbl, hbr⟩ := hb
      simp only [Node.height_branch] at hfuel
      simp [load, cell, height.ne', left, right, ih repl hbl (by omega), ih repr hbr (by omega)]

/-- A lookup returns the value of the key, if any, and the number of smaller keys. -/
theorem get_eq (key : Bytes) (hrep : Rep sha256 m ref t L) (hb : t.Balanced) (ho : t.Ordered)
    (hfuel : t.height < fuel) :
    get key fuel ref m =
      some (lookupPair key t.toList, UInt32.ofNat (rank key t.toList)) := by
  induction fuel generalizing ref t L with
  | zero => omega
  | succ fuel ih =>
    cases hrep with
    | persisted p ok => simp only [get, StoredNode.leaves, searchPair_eq ho.sorted]
    | leaf a n x cell height size value =>
      simp only [get, cell, Option.bind_eq_bind, Option.bind_some, height, ↓reduceIte, Node.toList,
        lookupPair_cons, lookupPair_nil, value]
      rcases lt_trichotomy n.key key with h | h | h
      · rw [if_pos h, if_neg h.ne']
        simp [rank, h]
      · rw [if_neg (by simp [h]), if_neg (by simp [h]), if_pos h.symm]
        simp [rank, h]
      · rw [if_neg (not_lt.mpr h.le), if_pos h, if_neg h.ne]
        simp [rank, h.le]
    | branch a n l r tl tr Ll Lr cell height left right ok repl repr =>
      have ha := ho.atLeast
      obtain ⟨he, hs, -, -, hbl, hbr⟩ := hb
      obtain ⟨hbelow, -, hol, hor⟩ := ho
      simp only [Node.height_branch] at hfuel
      obtain ⟨nr, hvr, -, hsr, -⟩ := repr.view_eq
      simp only [get, cell, Option.bind_eq_bind, Option.bind_some, height.ne', ↓reduceIte, left, right,
        Node.toList]
      by_cases hk : key < n.key
      · rw [if_pos hk, ih repl hbl hol (by omega),
          lookupPair_append_left fun p hp => (hk.trans_le (ha p hp)).ne',
          rank_append_left fun p hp => hk.le.trans (ha p hp)]
      · have hkb : Below tl.toList key := hbelow.mono (not_lt.mp hk)
        rw [if_neg hk, ih repr hbr hor (by omega), lookupPair_append_right fun p hp => (hkb p hp).ne,
          rank_append_right hkb]
        simp only [Option.bind_some, hvr, hsr, hs, hbl.size_eq, Option.some.injEq, Prod.mk.injEq,
          true_and]
        rw [UInt32.ofNat_add, UInt32.ofNat_add, ← UInt32.add_assoc, UInt32.add_sub_cancel,
          UInt32.add_comm]

end IavlStore.Heap
