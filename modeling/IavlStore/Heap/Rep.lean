import IavlStore.Heap.Model

/-! When a reference stands for a tree, and what an operation may write.
`Rep m r t L` reads the tree `t` off the heap `m` at `r`, with correct cached hashes,
and lists the in-memory addresses it passes. An operation is given a set `W` of
addresses it may write: the fresh ones, and those of the tree that are above the
copy-on-write version. `Step` says that nothing else was written and that the
addresses of the new tree are old ones or fresh. -/

namespace IavlStore.Heap

open IavlStore.Base.Encoding IavlStore.Tree

/-- The tree a reference stands for and the addresses of its in-memory nodes. -/
inductive Rep (sha256 : Bytes → Bytes) (m : Mem) : Ref → Node Bytes Bytes → List ℕ → Prop
  | persisted (p : StoredNode) (ok : p.HashOk sha256) : Rep sha256 m (.persisted p) p.toNode []
  | leaf (a : ℕ) (n : MemNode) (x : Bytes) (cell : m[a]? = some n) (height : n.height = 0)
    (size : n.size = 1) (value : n.value = some x)
    (ok : ∀ h ∈ n.hash, h = Node.hashNode sha256 (.leaf n.version n.key x)) :
    Rep sha256 m (.mem a) (.leaf n.version n.key x) [a]
  | branch (a : ℕ) (n : MemNode) (l r : Ref) (tl tr : Node Bytes Bytes) (Ll Lr : List ℕ)
    (cell : m[a]? = some n) (height : 0 < n.height) (left : n.left = some l)
    (right : n.right = some r)
    (ok : ∀ h ∈ n.hash, h = Node.hashNode sha256 (.branch n.height n.size n.version n.key tl tr))
    (repLeft : Rep sha256 m l tl Ll) (repRight : Rep sha256 m r tr Lr) :
    Rep sha256 m (.mem a) (.branch n.height n.size n.version n.key tl tr) (a :: (Ll ++ Lr))

variable {sha256 : Bytes → Bytes} {m m' : Mem} {r : Ref} {t : Node Bytes Bytes} {L : List ℕ}

namespace Rep

theorem lt_length (h : Rep sha256 m r t L) : ∀ a ∈ L, a < m.length := by
  induction h with
  | persisted => simp
  | leaf a n x cell =>
    obtain ⟨ha, -⟩ := List.getElem?_eq_some_iff.mp cell
    simpa using ha
  | branch a n l r tl tr Ll Lr cell _ _ _ _ _ _ ihl ihr =>
    obtain ⟨ha, -⟩ := List.getElem?_eq_some_iff.mp cell
    intro b hb
    rcases List.mem_cons.mp hb with rfl | hb
    · exact ha
    · exact (List.mem_append.mp hb).elim (ihl b) (ihr b)

/-- A tree is read off the cells of its own addresses only. -/
theorem congr (h : Rep sha256 m r t L) (hm : ∀ a ∈ L, m'[a]? = m[a]?) : Rep sha256 m' r t L := by
  induction h with
  | persisted p ok => exact .persisted p ok
  | leaf a n x cell height size value ok =>
    exact .leaf a n x ((hm a (by simp)).trans cell) height size value ok
  | branch a n l r tl tr Ll Lr cell height left right ok _ _ ihl ihr =>
    exact .branch a n l r tl tr Ll Lr ((hm a (by simp)).trans cell) height left right ok
      (ihl fun b hb => hm b (by simp [hb])) (ihr fun b hb => hm b (by simp [hb]))

/-- A reference stands for one tree. -/
theorem unique {t' : Node Bytes Bytes} {L' : List ℕ} (h : Rep sha256 m r t L)
    (h' : Rep sha256 m r t' L') : t' = t ∧ L' = L := by
  induction h generalizing t' L' with
  | persisted => cases h'; exact ⟨rfl, rfl⟩
  | leaf a n x cell height size value =>
    cases h' with
    | leaf _ n' x' cell' _ _ value' =>
      obtain rfl : n' = n := Option.some.inj (cell'.symm.trans cell)
      obtain rfl : x' = x := Option.some.inj (value'.symm.trans value)
      exact ⟨rfl, rfl⟩
    | branch _ n' _ _ _ _ _ _ cell' height' =>
      obtain rfl : n' = n := Option.some.inj (cell'.symm.trans cell)
      omega
  | branch a n l r tl tr Ll Lr cell height left right _ _ _ ihl ihr =>
    cases h' with
    | leaf _ n' _ cell' height' =>
      obtain rfl : n' = n := Option.some.inj (cell'.symm.trans cell)
      omega
    | branch _ n' l' r' tl' tr' Ll' Lr' cell' _ left' right' _ hl' hr' =>
      obtain rfl : n' = n := Option.some.inj (cell'.symm.trans cell)
      obtain rfl : l' = l := Option.some.inj (left'.symm.trans left)
      obtain rfl : r' = r := Option.some.inj (right'.symm.trans right)
      obtain ⟨rfl, rfl⟩ := ihl hl'
      obtain ⟨rfl, rfl⟩ := ihr hr'
      exact ⟨rfl, rfl⟩

/-- The accessors of a reference read the root of its tree. -/
theorem view_eq (h : Rep sha256 m r t L) :
    ∃ n, r.view m = some n ∧ n.height = t.height ∧ n.size = t.size ∧ n.version = t.version ∧
      n.key = t.key := by
  cases h with
  | persisted p => cases p <;> exact ⟨_, rfl, rfl, rfl, rfl, rfl⟩
  | leaf a n x cell height size => exact ⟨n, cell, height, size, rfl, rfl⟩
  | branch a n _ _ _ _ _ _ cell => exact ⟨n, cell, rfl, rfl, rfl, rfl⟩

/-- The addresses of a reference itself: one for an in-memory node. -/
def selfAddr : Ref → List ℕ
  | .mem a => [a]
  | .persisted _ => []

/-- What a reference to a leaf shows. -/
theorem leaf_view {v : ℕ} {k x : Bytes} (h : Rep sha256 m r (.leaf v k x) L) :
    ∃ n, r.view m = some n ∧ r.isLeaf m = some true ∧ n.height = 0 ∧ n.size = 1 ∧ n.version = v ∧
      n.key = k ∧ n.value = some x ∧ L = selfAddr r := by
  generalize ht : Node.leaf v k x = t at h
  cases h with
  | persisted p =>
    cases p with
    | leaf =>
      cases ht
      exact ⟨_, rfl, rfl, rfl, rfl, rfl, rfl, rfl, rfl⟩
    | branch => cases ht
  | leaf a n x' cell height size value =>
    cases ht
    exact ⟨n, cell, by simp [Ref.isLeaf, cell, height], height, size, rfl, rfl, value, rfl⟩
  | branch => cases ht

/-- What a reference to a branch shows. -/
theorem branch_view {h s v : ℕ} {k : Bytes} {tl tr : Node Bytes Bytes}
    (hrep : Rep sha256 m r (.branch h s v k tl tr) L) :
    ∃ n left right Ll Lr, r.view m = some n ∧ r.isLeaf m = some false ∧ n.height = h ∧ n.size = s ∧
      n.version = v ∧ n.key = k ∧ n.left = some left ∧ n.right = some right ∧
      Rep sha256 m left tl Ll ∧ Rep sha256 m right tr Lr ∧ L = selfAddr r ++ (Ll ++ Lr) := by
  generalize ht : Node.branch h s v k tl tr = t at hrep
  cases hrep with
  | persisted p ok =>
    cases p with
    | leaf => cases ht
    | branch ph ps pv hash pl pr =>
      cases ht
      exact ⟨_, .persisted pl, .persisted pr, [], [], rfl, rfl, rfl, rfl, rfl, rfl, rfl, rfl,
        .persisted pl ok.2.1, .persisted pr ok.2.2, rfl⟩
  | leaf => cases ht
  | branch a n left right _ _ Ll Lr cell height hl hr _ repl repr =>
    cases ht
    exact ⟨n, left, right, Ll, Lr, cell, by simp [Ref.isLeaf, cell, height.ne'], rfl, rfl, rfl, rfl,
      hl, hr, repl, repr, rfl⟩

end Rep

/-- An optional reference and the optional tree it stands for. -/
def RepOpt (sha256 : Bytes → Bytes) (m : Mem) : Option Ref → Option (Node Bytes Bytes) → List ℕ → Prop
  | none, none, L => L = []
  | some r, some t, L => Rep sha256 m r t L
  | _, _, _ => False

/-! ### Writing -/

/-- The heaps differ at address `a` at most, and at addresses that are new. -/
structure Only (a : ℕ) (m m' : Mem) : Prop where
  length_le : m.length ≤ m'.length
  same : ∀ b < m.length, b ≠ a → m'[b]? = m[b]?

theorem Only.set (a : ℕ) (n : MemNode) : Only a m (m.set a n) :=
  ⟨by simp, fun b _ hb => by rw [List.getElem?_set_ne hb.symm]⟩

theorem Only.alloc (n : MemNode) : Only m.length m (m ++ [n]) :=
  ⟨by simp, fun b hb _ => by rw [List.getElem?_append_left hb]⟩

theorem Rep.only {a : ℕ} (h : Rep sha256 m r t L) (ho : Only a m m') (ha : a ∉ L) :
    Rep sha256 m' r t L :=
  h.congr fun b hb => ho.same b (h.lt_length b hb) fun hba => ha (hba ▸ hb)

/-- The addresses `L` of a tree, of which those above the version `c` and all fresh
ones may be written. -/
structure Own (W : ℕ → Prop) (c : ℕ) (m : Mem) (L : List ℕ) : Prop where
  nodup : L.Nodup
  lt : ∀ b ∈ L, b < m.length
  fresh : ∀ b, m.length ≤ b → W b
  owned : ∀ b ∈ L, ∀ n, m[b]? = some n → c < n.version → W b

/-- Only addresses of `L` that may be written were, and `L'` is taken from `L` and the
fresh addresses. -/
structure Moves (W : ℕ → Prop) (m : Mem) (L : List ℕ) (m' : Mem) (L' : List ℕ) : Prop where
  length_le : m.length ≤ m'.length
  frame : ∀ b < m.length, b ∉ L ∨ ¬ W b → m'[b]? = m[b]?
  subset : ∀ b ∈ L', b ∈ L ∨ m.length ≤ b

/-- An operation that turns the tree at `L` into one at `L'`. -/
structure Step (W : ℕ → Prop) (c : ℕ) (m : Mem) (L : List ℕ) (m' : Mem) (L' : List ℕ) : Prop where
  own : Own W c m' L'
  moves : Moves W m L m' L'

section
variable {W : ℕ → Prop} {c a : ℕ} {L' L₁ L₂ : List ℕ} {m₁ m₂ : Mem}

theorem Own.sublist (h : Own W c m L) (hs : L'.Sublist L) : Own W c m L' :=
  ⟨h.nodup.sublist hs, fun b hb => h.lt b (hs.subset hb), h.fresh,
    fun b hb => h.owned b (hs.subset hb)⟩

theorem Step.refl (h : Own W c m L) : Step W c m L m L :=
  ⟨h, le_rfl, fun _ _ _ => rfl, fun _ hb => .inl hb⟩

theorem Moves.trans (h₁ : Moves W m L m₁ L₁) (h₂ : Moves W m₁ L₁ m₂ L₂) : Moves W m L m₂ L₂ := by
  refine ⟨h₁.length_le.trans h₂.length_le, fun b hb hw => ?_, fun b hb => ?_⟩
  · rw [h₂.frame b (hb.trans_le h₁.length_le) ?_, h₁.frame b hb hw]
    refine hw.imp_left fun hL hL₁ => ?_
    rcases h₁.subset b hL₁ with h | h
    · exact hL h
    · omega
  · rcases h₂.subset b hb with h | h
    · exact h₁.subset b h
    · exact .inr (h₁.length_le.trans h)

theorem Step.trans (h₁ : Step W c m L m₁ L₁) (h₂ : Step W c m₁ L₁ m₂ L₂) : Step W c m L m₂ L₂ :=
  ⟨h₂.own, h₁.moves.trans h₂.moves⟩

/-- One write, to an address of the tree or a fresh one. -/
theorem Step.write (h : Own W c m L) (hw : W a) (ha : a ∈ L ∨ m.length ≤ a) (ho : Only a m m')
    (ha' : a < m'.length) (hn : L'.Nodup) (hs : ∀ b ∈ L', b ∈ L ∨ b = a) :
    Step W c m L m' L' := by
  refine ⟨⟨hn, fun b hb => ?_, fun b hb => h.fresh b (ho.length_le.trans hb),
    fun b hb n hbn hc => ?_⟩, ho.length_le, fun b hb hw' => ho.same b hb ?_, fun b hb => ?_⟩
  · rcases hs b hb with h' | rfl
    · exact (h.lt b h').trans_le ho.length_le
    · exact ha'
  · by_cases hba : b = a
    · exact hba ▸ hw
    · have hL := (hs b hb).resolve_right hba
      exact h.owned b hL n ((ho.same b (h.lt b hL) hba).symm.trans hbn) hc
  · rintro rfl
    rcases hw' with h' | h'
    · exact ha.elim h' (by omega)
    · exact h' hw
  · rcases hs b hb with h' | rfl
    · exact .inl h'
    · exact ha

theorem Step.set (n : MemNode) (h : Own W c m L) (hw : W a) (ha : a ∈ L) :
    Step W c m L (m.set a n) L :=
  Step.write h hw (.inl ha) (.set a n) (by simpa using h.lt a ha) h.nodup fun _ hb => .inl hb

theorem Step.alloc (n : MemNode) (h : Own W c m L) : Step W c m L (m ++ [n]) (m.length :: L) := by
  refine .write h (h.fresh _ le_rfl) (.inr le_rfl) (.alloc n) (by simp)
    (List.nodup_cons.mpr ⟨fun hm => (h.lt _ hm).false, h.nodup⟩) fun b hb => ?_
  exact (List.mem_cons.mp hb).symm

/-- A tree with no address in the part that was worked on is still there. -/
theorem Rep.moves (h : Rep sha256 m r t L) (hm : Moves W m L₁ m' L₂) (hd : ∀ b ∈ L, b ∉ L₁) :
    Rep sha256 m' r t L :=
  h.congr fun b hb => hm.frame b (h.lt_length b hb) (.inl (hd b hb))

/-- Work on one part of a tree, with the addresses `C` of the rest around it. -/
theorem Step.frame {C : List ℕ} (h : Step W c m L₁ m' L₂) (hown : Own W c m L)
    (hC : ∀ b ∈ C, b ∈ L ∧ b ∉ L₁) (hL : ∀ b ∈ L₁, b ∈ L) (hn : L'.Nodup)
    (hs : ∀ b ∈ L', b ∈ C ∨ b ∈ L₂) : Step W c m L m' L' := by
  refine ⟨⟨hn, fun b hb => ?_, h.own.fresh, fun b hb n hbn hc => ?_⟩, h.moves.length_le,
    fun b hb hw => ?_, fun b hb => ?_⟩
  · rcases hs b hb with h' | h'
    · exact (hown.lt b (hC b h').1).trans_le h.moves.length_le
    · exact h.own.lt b h'
  · rcases hs b hb with h' | h'
    · obtain ⟨h1, h2⟩ := hC b h'
      exact hown.owned b h1 n ((h.moves.frame b (hown.lt b h1) (.inl h2)).symm.trans hbn) hc
    · exact h.own.owned b h' n hbn hc
  · exact h.moves.frame b hb (hw.imp_left fun h' h'' => h' (hL b h''))
  · rcases hs b hb with h' | h'
    · exact .inl (hC b h').1
    · exact (h.moves.subset b h').imp_left (hL b)

/-- What is worked on keeps apart from the rest. -/
theorem Step.nodup_append {C : List ℕ} (h : Step W c m L₁ m' L₂) (hown : Own W c m (C ++ L₁)) :
    (C ++ L₂).Nodup := by
  obtain ⟨hC, -, hd⟩ := List.nodup_append.mp hown.nodup
  refine List.nodup_append.mpr ⟨hC, h.own.nodup, fun x hx y hy hxy => ?_⟩
  subst hxy
  rcases h.moves.subset x hy with h' | h'
  · exact hd x hx x h' rfl
  · exact absurd (hown.lt x (by simp [hx])) (not_lt.mpr h')

/-- Work on the left child of a node whose own addresses are `S`. -/
theorem Step.left {S Ll Lr Ll' : List ℕ} (h : Step W c m Ll m' Ll')
    (hown : Own W c m (S ++ (Ll ++ Lr))) :
    Step W c m (S ++ (Ll ++ Lr)) m' (S ++ (Ll' ++ Lr)) := by
  have hp : (S ++ (Ll ++ Lr)).Perm ((S ++ Lr) ++ Ll) := by grind
  have hown' : Own W c m ((S ++ Lr) ++ Ll) :=
    ⟨hp.nodup hown.nodup, fun b hb => hown.lt b (hp.mem_iff.mpr hb), hown.fresh,
      fun b hb => hown.owned b (hp.mem_iff.mpr hb)⟩
  have hd := (List.nodup_append.mp hown'.nodup).2.2
  refine h.frame (C := S ++ Lr) hown (fun b hb => ⟨by grind, fun hb' => hd b hb b hb' rfl⟩)
    (by simp +contextual) ?_ (by grind)
  exact (show ((S ++ Lr) ++ Ll').Perm (S ++ (Ll' ++ Lr)) by grind).nodup (h.nodup_append hown')

theorem Step.right {S Ll Lr Lr' : List ℕ} (h : Step W c m Lr m' Lr')
    (hown : Own W c m (S ++ (Ll ++ Lr))) :
    Step W c m (S ++ (Ll ++ Lr)) m' (S ++ (Ll ++ Lr')) := by
  have hown' : Own W c m ((S ++ Ll) ++ Lr) := by rwa [List.append_assoc]
  have hd := (List.nodup_append.mp hown'.nodup).2.2
  refine h.frame (C := S ++ Ll) hown (fun b hb => ⟨by grind, fun hb' => hd b hb b hb' rfl⟩)
    (by simp +contextual) ?_ (by grind)
  rw [← List.append_assoc]
  exact h.nodup_append hown'

end

end IavlStore.Heap
