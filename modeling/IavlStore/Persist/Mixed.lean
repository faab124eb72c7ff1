import IavlStore.Persist.RoundTrip

/-! Trees partly in memory and partly in snapshots. A lookup descends through the nodes in
memory, adding up sizes in 32-bit arithmetic, and ends in a leaf or in a search of the leaf
array of a snapshot. It finds the value and the rank of a key wherever the snapshots begin.
The lookup by index finds the pair at a rank. Beyond the last pair it may run into leaves of
a snapshot that lie before the subtree, and exactly then it fails to return nil. -/

namespace IavlStore.Persist

open IavlStore.Base.Encoding IavlStore.Base.SortedPairs IavlStore.Base.Search IavlStore.Tree

/-- A node in memory or a node of a snapshot. -/
inductive MixedNode where
  | leaf (version : ℕ) (key value : Bytes)
  | branch (height size version : ℕ) (key : Bytes) (left right : MixedNode)
  | persisted (snapshot : Snapshot) (node : PersistedNode)

namespace MixedNode

def size : MixedNode → Option ℕ
  | leaf .. => some 1
  | branch _ size _ _ _ _ => some size
  | persisted s n => n.size s

/-- The value of a key, nil for an absent one, and the number of smaller keys. -/
def get (key : Bytes) : MixedNode → Option (Option Bytes × ℕ)
  | leaf _ k x =>
    if k < key then some (none, 1)
    else if key < k then some (none, 0)
    else some (some x, 0)
  | branch _ size _ k left right =>
    if key < k then left.get key
    else do
      let (value, index) ← right.get key
      some (value, u32 ((index : ℤ) + u32 size - u32 (← right.size)))
  | persisted s n => n.get s key

def getByIndex : MixedNode → ℕ → Option (Option Bytes × Option Bytes)
  | leaf _ k x, index => if index = 0 then some (some k, some x) else some (none, none)
  | branch _ _ _ _ left right, index => do
    let leftSize := u32 (← left.size)
    if index < leftSize then left.getByIndex index
    else right.getByIndex (u32 ((index : ℤ) - leftSize))
  | persisted s n, index => n.getByIndex s index

/-- The same tree with all nodes in memory. -/
def inMemory : Node Bytes Bytes → MixedNode
  | .leaf v k x => leaf v k x
  | .branch h s v k l r => branch h s v k (inMemory l) (inMemory r)

end MixedNode

/-- Rank and value of a key in a tree. -/
def getWithIndex (root : Option MixedNode) (key : Bytes) : Option (ℕ × Option Bytes) :=
  match root with
  | none => some (0, none)
  | some root => (root.get key).map fun found => (found.2, found.1)

/-- The pair at a position of a tree. Only large numbers are refused before the conversion. -/
def getByIndex (root : Option MixedNode) (index : ℤ) : Option (Option Bytes × Option Bytes) :=
  if 2 ^ 32 - 1 < index then some (none, none)
  else
    match root with
    | none => some (none, none)
    | some root => root.getByIndex (u32 index)

/-! ### The tree that is read -/

section

variable {sha256 : Bytes → Bytes} {s : Snapshot} {n : PersistedNode} {t : Node Bytes Bytes} {key : Bytes}

variable (sha256 s) in
/-- A subtree of an opened snapshot that was written from a well-formed tree. -/
inductive InSnapshot : PersistedNode → Node Bytes Bytes → Prop where
  | root {v version : ℕ} {t : Node Bytes Bytes} {f : Files} {n : PersistedNode} (inv : t.Inv v) (hv : v < 2 ^ 64)
    (hversion : version < 2 ^ 64) (fits : Fits t) (size : t.toList.length < 2 ^ 32)
    (write : writeSnapshot version (some (t.stored sha256)) = some f) (opened : openSnapshot f = .ok s)
    (hroot : s.root = some n) : InSnapshot n t
  | left {h sz v : ℕ} {k : Bytes} {l r : Node Bytes Bytes} {n m : PersistedNode}
    (parent : InSnapshot n (.branch h sz v k l r)) (child : n.left s = some m) : InSnapshot m l
  | right {h sz v : ℕ} {k : Bytes} {l r : Node Bytes Bytes} {n m : PersistedNode}
    (parent : InSnapshot n (.branch h sz v k l r)) (child : n.right s = some m) : InSnapshot m r

variable (sha256) in
/-- Reading a mixed node shows this tree. -/
inductive Reads : MixedNode → Node Bytes Bytes → Prop where
  | leaf {v : ℕ} {k x : Bytes} : Reads (.leaf v k x) (.leaf v k x)
  | branch {h sz v : ℕ} {k : Bytes} {l r : MixedNode} {tl tr : Node Bytes Bytes} (left : Reads l tl)
    (right : Reads r tr) : Reads (.branch h sz v k l r) (.branch h sz v k tl tr)
  | persisted {s : Snapshot} {n : PersistedNode} {t : Node Bytes Bytes} (part : InSnapshot sha256 s n t) :
    Reads (.persisted s n) t

theorem reads_inMemory (t : Node Bytes Bytes) : Reads sha256 (.inMemory t) t := by
  induction t with
  | leaf v k x => exact .leaf
  | branch h sz v k l r ihl ihr => exact .branch ihl ihr

/-- Every subtree of a snapshot occupies a part of its files. -/
theorem InSnapshot.written (hsha : ∀ b, (sha256 b).length = sizeHash) (h : InSnapshot sha256 s n t) :
    ∃ v B L off, n = rootAt B L (t.stored sha256) ∧ Written sha256 s v B L off t := by
  induction h with
  | @root v version t f n inv hv hversion fits size write opened hroot =>
    obtain ⟨s', hopen, -, hroot', hw⟩ := openSnapshot_of_write hv hversion inv fits size hsha write
    obtain rfl : s' = s := Except.ok.inj (hopen.symm.trans opened)
    exact ⟨v, 0, 0, 0, Option.some.inj (hroot.symm.trans hroot'), hw⟩
  | @left h sz v k l r n m _ child ih =>
    obtain ⟨v', B, L, off, rfl, hw⟩ := ih
    rw [hw.rootAt_eq, Node.size_branch, if_neg (by have := hw.two_le_size; omega), hw.left_rootAt] at child
    exact ⟨v', B, L, off, (Option.some.inj child).symm, hw.left⟩
  | @right h sz v k l r n m _ child ih =>
    obtain ⟨v', B, L, off, rfl, hw⟩ := ih
    rw [hw.rootAt_eq, Node.size_branch, if_neg (by have := hw.two_le_size; omega), hw.right_rootAt] at child
    exact ⟨v', _, _, _, (Option.some.inj child).symm, hw.right⟩

/-! ### Rank -/

theorem Written.size_rootAt {v B L off : ℕ} (hw : Written sha256 s v B L off t) :
    (rootAt B L (t.stored sha256)).size s = some t.size := by
  have hshow := hw.shows
  cases t with
  | leaf => exact hshow.2.size
  | branch => exact hshow.2.1.size

theorem Reads.size {x : MixedNode} (hsha : ∀ b, (sha256 b).length = sizeHash) (h : Reads sha256 x t) :
    x.size = some t.size := by
  cases h with
  | leaf => rfl
  | branch => rfl
  | persisted part =>
    obtain ⟨v, B, L, off, rfl, hw⟩ := part.written hsha
    exact hw.size_rootAt

/-- A lookup finds the value of the key and the number of smaller keys, wherever the parts of
the tree are. -/
theorem Reads.get {x : MixedNode} (hsha : ∀ b, (sha256 b).length = sizeHash) (h : Reads sha256 x t)
    (hb : t.Balanced) (ho : t.Ordered) (hlt : t.toList.length < 2 ^ 32) (key : Bytes) :
    x.get key = some (lookupPair key t.toList, rank key t.toList) := by
  induction h with
  | @leaf v k x =>
    simp only [MixedNode.get, Node.toList, lookupPair_cons, lookupPair_nil]
    rcases lt_trichotomy k key with h | h | h
    · rw [if_pos h, if_neg h.ne']
      simp [rank, h]
    · rw [if_neg (by simp [h]), if_neg (by simp [h]), if_pos h.symm]
      simp [rank, h]
    · rw [if_neg (not_lt.mpr h.le), if_pos h, if_neg h.ne]
      simp [rank, h.le]
  | @branch ht sz v k l r tl tr hl hr ihl ihr =>
    have hge := ho.atLeast
    obtain ⟨-, hs, -, -, hbl, hbr⟩ := hb
    obtain ⟨hbelow, -, hol, hor⟩ := ho
    simp only [Node.toList, List.length_append] at hlt
    simp only [MixedNode.get, Node.toList]
    by_cases hk : key < k
    · rw [if_pos hk, ihl hbl hol (by omega), lookupPair_append_left fun p hp => (hk.trans_le (hge p hp)).ne',
        rank_append_left fun p hp => hk.le.trans (hge p hp)]
    · have hkb : Below tl.toList key := hbelow.mono (not_lt.mp hk)
      have hrank : rank key tr.toList ≤ tr.toList.length := List.countP_le_length
      have hadd : u32 ((rank key tr.toList : ℤ) + u32 sz - u32 tr.size) = tl.toList.length + rank key tr.toList := by
        rw [hs, hbl.size_eq, hbr.size_eq]
        simp only [u32]
        omega
      rw [if_neg hk, ihr hbr hor (by omega), lookupPair_append_right fun p hp => (hkb p hp).ne, rank_append_right hkb]
      simp only [Option.bind_eq_bind, Option.bind_some, hr.size hsha, hadd]
  | persisted part =>
    obtain ⟨v, B, L, off, rfl, hw⟩ := part.written hsha
    rw [MixedNode.get, hw.get_eq key, searchPair_eq ho.sorted]

/-- The pairs of a tree that may be empty. -/
def treePairs (t : Option (Node Bytes Bytes)) : List (Bytes × Bytes) := t.elim [] Node.toList

/-- The rank and the value of a key do not depend on which parts of the tree are in memory, and
the search in the leaves of a subtree of a snapshot finds what the descent in memory finds. -/
theorem getWithIndex_eq_rank (hsha : ∀ b, (sha256 b).length = sizeHash) {root : Option MixedNode}
    {t : Option (Node Bytes Bytes)} (hr : Option.Rel (Reads sha256) root t)
    (ht : ∀ u ∈ t, u.Balanced ∧ u.Ordered ∧ u.toList.length < 2 ^ 32) (key : Bytes) :
    getWithIndex root key = some (rank key (treePairs t), lookupPair key (treePairs t)) ∧
      ∀ s n u, InSnapshot sha256 s n u → n.get s key = (MixedNode.inMemory u).get key := by
  refine ⟨?_, fun s n u part => ?_⟩
  · cases hr with
    | none => rfl
    | some hr =>
      obtain ⟨hb, ho, hlt⟩ := ht _ rfl
      simp only [getWithIndex, hr.get hsha hb ho hlt, Option.map_some]
      rfl
  · obtain ⟨v, B, L, off, rfl, hw⟩ := part.written hsha
    have hlt := hw.leaves_lt
    rw [hw.inv.balanced.size_eq] at hlt
    rw [hw.get_eq key, searchPair_eq hw.inv.ordered.sorted,
      (reads_inMemory u).get hsha hw.inv.balanced hw.inv.ordered (by omega)]

theorem exists_inSnapshot (hsha : ∀ b, (sha256 b).length = sizeHash) {v : ℕ} (hv : v < 2 ^ 64) (hi : t.Inv v)
    (hf : Fits t) (ht : t.toList.length < 2 ^ 32) (hsize : kvsSize t < maxFileSize) :
    ∃ s, InSnapshot sha256 s (rootAt 0 0 (t.stored sha256)) t ∧ Written sha256 s v 0 0 0 t := by
  have hwrite := (writeSnapshot_eq_some_iff v hi.balanced ht hsha).mpr ⟨hsize, rfl⟩
  obtain ⟨s, hopen, -, hroot, hw⟩ := openSnapshot_of_write hv hv hi hf ht hsha hwrite
  exact ⟨s, .root hi hv hv hf ht hwrite hopen hroot, hw⟩

theorem Written.inSnapshot_right {B L off h sz v v' : ℕ} {k : Bytes} {l r : Node Bytes Bytes}
    (hw : Written sha256 s v' B L off (.branch h sz v k l r))
    (part : InSnapshot sha256 s (rootAt B L (Node.stored sha256 (.branch h sz v k l r))) (.branch h sz v k l r)) :
    InSnapshot sha256 s (rootAt (B + (l.size - 1)) (L + l.size) (r.stored sha256)) r := by
  have hright := hw.right_rootAt
  rw [hw.rootAt_eq, Node.size_branch, if_neg (by have := hw.two_le_size; omega)] at part
  exact part.right hright

/-- The branch of `threeLeaves` in a snapshot, below a branch and beside a leaf in memory. -/
theorem getWithIndex_mixed :
    let sha256 : Bytes → Bytes := fun _ => List.replicate 32 0
    ∃ s n, InSnapshot sha256 s n (.branch 1 2 5 [3] (.leaf 5 [2] []) (.leaf 3 [3] [7])) ∧
      getWithIndex (some (.branch 2 3 9 [2] (.leaf 9 [1] [11]) (.persisted s n))) [3] = some (2, some [7]) := by
  intro sha256
  have hsha : ∀ b, (sha256 b).length = sizeHash := fun _ => rfl
  obtain ⟨s, hpart, hw⟩ := exists_inSnapshot hsha (by decide) threeLeaves_inv
    (by simp [Fits, threeLeaves, Node.toList]) (by decide) (by decide)
  have hn := hw.inSnapshot_right hpart
  let t : Node Bytes Bytes :=
    .branch 2 3 9 [2] (.leaf 9 [1] [11]) (.branch 1 2 5 [3] (.leaf 5 [2] []) (.leaf 3 [3] [7]))
  have hb : ∀ u ∈ some t, u.Balanced ∧ u.Ordered ∧ u.toList.length < 2 ^ 32 := by
    rintro u ⟨⟩
    refine ⟨by simp [t, Node.Balanced, Node.size], ?_, by decide⟩
    refine ⟨?_, rfl, trivial, ?_, rfl, trivial, trivial⟩ <;> simp only [Below, Node.toList] <;> decide
  have hreads : Option.Rel (Reads sha256) (some (.branch 2 3 9 [2] (.leaf 9 [1] [11]) (.persisted s _))) (some t) :=
    .some (.branch .leaf (.persisted hn))
  exact ⟨s, _, hn, (getWithIndex_eq_rank hsha hreads hb [3]).1⟩

/-! ### Selection by index -/

/-- By how much the first leaf of the last part of a tree is further into its snapshot than into
the tree, when that part is a branch of a snapshot. -/
def lastShift : MixedNode → Option ℤ
  | .leaf .. => none
  | .branch _ _ _ _ left right => do
    let shift ← lastShift right
    some (shift - (← left.size))
  | .persisted s n =>
    if n.isLeaf then none
    else (n.leafRange s).map fun range => (range.1 : ℤ)

/-- The answer for a pair that may be missing. -/
def pairAnswer (p : Option (Bytes × Bytes)) : Option (Option Bytes × Option Bytes) :=
  some (p.map Prod.fst, p.map Prod.snd)

/-- In a snapshot an index finds its leaf, and nil beyond the last one unless the sum wraps
around. -/
theorem Written.getByIndex_eq {v B L off : ℕ} (hw : Written sha256 s v B L off t) {i : ℕ}
    (hi : t.size = 1 ∨ L + i < 2 ^ 32) :
    (rootAt B L (t.stored sha256)).getByIndex s i = pairAnswer t.toList[i]? := by
  have hsize := hw.inv.balanced.size_eq
  cases t with
  | leaf v k x =>
    have hroot : rootAt B L (Node.stored sha256 (.leaf v k x)) = ⟨true, L⟩ := rfl
    rw [hroot]
    rcases i with _ | i
    · simp [PersistedNode.getByIndex, hw.leafKeyValue.2, Node.toList, pairAnswer]
    · simp [PersistedNode.getByIndex, Node.toList, pairAnswer]
  | branch h sz v k l r =>
    obtain ⟨d, hd, -, fp, -, fs, -, -⟩ := hw.node
    have hpos := hw.two_le_size
    rw [Node.size_branch] at hsize hi
    have hu : u32 ((L : ℤ) + i) = L + i := by simp only [u32]; omega
    rw [hw.rootAt_eq, Node.size_branch, if_neg (by omega)]
    simp only [PersistedNode.getByIndex, hd, Option.bind_eq_bind, Option.bind_some, fs, fp,
      getStartLeaf_eq hw.branches_le hpos hw.leaves_lt, getEndLeaf_eq hw.branches_le hpos hw.leaves_lt, hu,
      Bool.false_eq_true, if_false]
    rcases lt_or_ge i (Node.branch h sz v k l r).toList.length with hlt | hge
    · rw [if_neg (by omega), (hw.leafKeyValue_toList hlt).2, List.getElem?_eq_getElem hlt]
      rfl
    · rw [if_pos (by omega), List.getElem?_eq_none hge]
      rfl

/-- Where the sum wraps around, a leaf before the subtree is read. -/
theorem Written.getByIndex_ne {v B L off : ℕ} (hw : Written sha256 s v B L off t) (ht : t.size ≠ 1) {i : ℕ}
    (hi : i < 2 ^ 32) (hwrap : 2 ^ 32 ≤ L + i) :
    (rootAt B L (t.stored sha256)).getByIndex s i ≠ pairAnswer none := by
  cases t with
  | leaf v k x => exact absurd rfl ht
  | branch h sz v k l r =>
    obtain ⟨d, hd, -, fp, -, fs, -, -⟩ := hw.node
    have hpos := hw.two_le_size
    have hlt := hw.leaves_lt
    have hu : u32 ((L : ℤ) + i) = L + i - 2 ^ 32 := by simp only [u32]; omega
    rw [hw.rootAt_eq, Node.size_branch, if_neg (by omega)]
    simp only [PersistedNode.getByIndex, hd, Option.bind_eq_bind, Option.bind_some, fs, fp,
      getStartLeaf_eq hw.branches_le hpos hw.leaves_lt, getEndLeaf_eq hw.branches_le hpos hw.leaves_lt, hu,
      Bool.false_eq_true, if_false]
    rw [if_neg (by omega)]
    rcases s.leafKeyValue (L + i - 2 ^ 32) with _ | p <;> simp [pairAnswer]

theorem Written.lastShift_eq {v B L off : ℕ} (hw : Written sha256 s v B L off t) :
    lastShift (.persisted s (rootAt B L (t.stored sha256))) = if t.size = 1 then none else some (L : ℤ) := by
  rw [lastShift, hw.leafRange, hw.rootAt_eq]
  split_ifs <;> simp_all

/-- An index finds its pair, and nil beyond the last pair unless a sum wraps around. -/
theorem Reads.getByIndex {x : MixedNode} (hsha : ∀ b, (sha256 b).length = sizeHash) (h : Reads sha256 x t)
    (hb : t.Balanced) (hlt : t.toList.length < 2 ^ 32) {i : ℕ} (hi : i < 2 ^ 32)
    (hshift : i < t.toList.length ∨ ∀ d ∈ lastShift x, d + i < 2 ^ 32) :
    x.getByIndex i = pairAnswer t.toList[i]? := by
  induction h generalizing i with
  | @leaf v k x =>
    rcases i with _ | i
    · rfl
    · rfl
  | @branch ht sz v k l r tl tr hl hr ihl ihr =>
    obtain ⟨-, hs, -, -, hbl, hbr⟩ := hb
    simp only [Node.toList, List.length_append] at hlt hshift
    have hsize : u32 tl.size = tl.toList.length := by rw [hbl.size_eq]; simp only [u32]; omega
    simp only [MixedNode.getByIndex, hl.size hsha, Option.bind_eq_bind, Option.bind_some, hsize, Node.toList]
    by_cases hil : i < tl.toList.length
    · rw [if_pos hil, ihl hbl (by omega) hi (.inl hil), List.getElem?_append_left hil]
    · have hsub : u32 ((i : ℤ) - tl.toList.length) = i - tl.toList.length := by simp only [u32]; omega
      rw [if_neg hil, hsub, ihr hbr (by omega) (by omega), List.getElem?_append_right (not_lt.mp hil)]
      rcases hshift with hshift | hshift
      · exact .inl (by omega)
      · refine .inr fun d hd => ?_
        have hd' := hshift (d - tl.size) (by simp [lastShift, hl.size hsha, Option.mem_def.mp hd])
        rw [hbl.size_eq] at hd'
        omega
  | @persisted s n t part =>
    obtain ⟨v, B, L, off, rfl, hw⟩ := part.written hsha
    refine hw.getByIndex_eq ?_
    have hL := hw.leaves_lt
    rw [hw.lastShift_eq] at hshift
    rw [← hw.inv.balanced.size_eq] at hshift
    rcases hshift with hshift | hshift
    · exact .inr (by omega)
    · by_cases h1 : t.size = 1
      · exact .inl h1
      · rw [if_neg h1] at hshift
        have := hshift L rfl
        exact .inr (by omega)

/-- Beyond the last pair, a sum that wraps around leads to some other leaf. -/
theorem Reads.getByIndex_ne {x : MixedNode} (hsha : ∀ b, (sha256 b).length = sizeHash) (h : Reads sha256 x t)
    (hb : t.Balanced) (hlt : t.toList.length < 2 ^ 32) {i : ℕ} (hi : i < 2 ^ 32) (hge : t.toList.length ≤ i) {d : ℤ}
    (hd : d ∈ lastShift x) (hwrap : 2 ^ 32 ≤ d + i) : x.getByIndex i ≠ pairAnswer none := by
  induction h generalizing i d with
  | leaf => cases hd
  | @branch ht sz v k l r tl tr hl hr ihl ihr =>
    obtain ⟨-, hs, -, -, hbl, hbr⟩ := hb
    simp only [Node.toList, List.length_append] at hlt hge
    obtain ⟨d', hd', hsum⟩ := Option.bind_eq_some_iff.mp hd
    simp only [hl.size hsha, Option.bind_some, Option.some.injEq, Option.bind_eq_bind] at hsum
    have hsize : u32 tl.size = tl.toList.length := by rw [hbl.size_eq]; simp only [u32]; omega
    have hsub : u32 ((i : ℤ) - tl.toList.length) = i - tl.toList.length := by simp only [u32]; omega
    simp only [MixedNode.getByIndex, hl.size hsha, Option.bind_eq_bind, Option.bind_some, hsize]
    rw [hbl.size_eq] at hsum
    rw [if_neg (by omega), hsub]
    exact ihr hbr (by omega) (by omega) (by omega) hd' (by omega)
  | @persisted s n t part =>
    obtain ⟨v, B, L, off, rfl, hw⟩ := part.written hsha
    rw [hw.lastShift_eq] at hd
    by_cases h1 : t.size = 1
    · rw [if_pos h1] at hd
      cases hd
    · rw [if_neg h1] at hd
      cases hd
      exact hw.getByIndex_ne h1 hi (by omega)

/-- The pair at a position that may be negative. -/
def pairAt (l : List (Bytes × Bytes)) (index : ℤ) : Option (Bytes × Bytes) :=
  if 0 ≤ index then l[index.toNat]? else none

/-- A lookup by index answers with the pair at that position and with nil outside, exactly if
the tree is empty, the position is one of the tree or too large for 32 bits, or its lower 32
bits are beyond the tree and, added to the first leaf of the last snapshot part, do not wrap
around. -/
theorem getByIndex_eq_pairAt_iff (hsha : ∀ b, (sha256 b).length = sizeHash) {root : Option MixedNode}
    {t : Option (Node Bytes Bytes)} (hr : Option.Rel (Reads sha256) root t)
    (ht : ∀ u ∈ t, u.Balanced ∧ u.Ordered ∧ u.toList.length < 2 ^ 31) (index : ℤ) :
    getByIndex root index = pairAnswer (pairAt (treePairs t) index) ↔
      t = none ∨ 0 ≤ index ∧ index < (treePairs t).length ∨ 2 ^ 32 ≤ index ∨
        (treePairs t).length ≤ u32 index ∧ ∀ x ∈ root, ∀ d ∈ lastShift x, d + u32 index < 2 ^ 32 := by
  have hu : u32 index < 2 ^ 32 := by simp only [u32]; omega
  cases hr with
  | none =>
    simp only [true_or, iff_true, getByIndex, treePairs, pairAt, pairAnswer]
    split_ifs <;> simp
  | @some x u hr =>
    obtain ⟨hb, -, hlt⟩ := ht u rfl
    simp only [treePairs, Option.elim_some, reduceCtorEq, false_or, Option.mem_some_iff, forall_eq', getByIndex]
    rcases lt_or_ge (2 ^ 32 - 1) index with hlarge | hsmall
    · have hnone : pairAt u.toList index = none := by
        rw [pairAt, if_pos (by omega), List.getElem?_eq_none (by omega)]
      rw [if_pos hlarge, hnone]
      exact iff_of_true rfl (.inr (.inl (by omega)))
    · rw [if_neg (by omega)]
      by_cases hin : 0 ≤ index ∧ index < u.toList.length
      · have hui : u32 index = index.toNat := by simp only [u32]; omega
        rw [hr.getByIndex hsha hb (by omega) hu (.inl (by omega)), pairAt, if_pos hin.1, hui]
        exact iff_of_true rfl (.inl hin)
      · have hnone : pairAt u.toList index = none := by
          rw [pairAt]
          split_ifs with h0
          · exact List.getElem?_eq_none (by omega)
          · rfl
        rw [hnone]
        simp only [hin, false_or, show ¬ 2 ^ 32 ≤ index by omega]
        constructor
        · intro heq
          by_contra hcon
          by_cases hge : u.toList.length ≤ u32 index
          · obtain ⟨d, hd, hwrap⟩ : ∃ d ∈ lastShift x, 2 ^ 32 ≤ d + u32 index := by
              by_contra hno
              push Not at hno
              exact hcon ⟨hge, hno⟩
            exact hr.getByIndex_ne hsha hb (by omega) hu hge hd hwrap heq
          · rw [hr.getByIndex hsha hb (by omega) hu (.inl (by omega)), List.getElem?_eq_getElem (by omega)] at heq
            simp [pairAnswer] at heq
        · rintro ⟨hge, hshift⟩
          rw [hr.getByIndex hsha hb (by omega) hu (.inr hshift), List.getElem?_eq_none hge]

theorem getByIndex_threeLeaves :
    getByIndex (some (.inMemory threeLeaves)) 1 = some (some [2], some []) := by
  have ht : ∀ u ∈ some threeLeaves, u.Balanced ∧ u.Ordered ∧ u.toList.length < 2 ^ 31 := by
    rintro u ⟨⟩
    exact ⟨threeLeaves_inv.balanced, threeLeaves_inv.ordered, by decide⟩
  let sha256 : Bytes → Bytes := fun _ => List.replicate 32 0
  have hr : Option.Rel (Reads sha256) _ (some threeLeaves) := .some (reads_inMemory threeLeaves)
  exact (getByIndex_eq_pairAt_iff (fun _ => rfl) hr ht 1).mpr (.inr (.inl (by decide)))

/-- The position `-2^32` is taken for the first one, and in the branch of `threeLeaves` that is
left in its snapshot when the first leaf is removed the positions `-1` and `2^32 - 1` are not
answered with nil. -/
theorem getByIndex_wraps_around :
    let sha256 : Bytes → Bytes := fun _ => List.replicate 32 0
    getByIndex (some (.inMemory threeLeaves)) (-2 ^ 32) = some (some [1], some [10]) ∧
      ∃ s n, InSnapshot sha256 s n (.branch 1 2 5 [3] (.leaf 5 [2] []) (.leaf 3 [3] [7])) ∧
        getByIndex (some (.persisted s n)) (-1) ≠ some (none, none) ∧
        getByIndex (some (.persisted s n)) (2 ^ 32 - 1) ≠ some (none, none) := by
  intro sha256
  have hsha : ∀ b, (sha256 b).length = sizeHash := fun _ => rfl
  obtain ⟨s, hpart, hw⟩ := exists_inSnapshot hsha (by decide) threeLeaves_inv
    (by simp [Fits, threeLeaves, Node.toList]) (by decide) (by decide)
  have hne := hw.right.getByIndex_ne (by decide) (show 2 ^ 32 - 1 < 2 ^ 32 by decide) (by decide)
  exact ⟨by decide, s, _, hw.inSnapshot_right hpart, hne, hne⟩

end

end IavlStore.Persist
