import IavlStore.Heap.Rep

/-! Rotations on the heap. A node that `mutate` returned is opened: its cell is known,
it has no cached hash, and its children stand for trees. Each rotation and the
rebalancing of an opened node produce the node that the functions on trees do. -/

namespace IavlStore.Heap

open IavlStore.Base.Encoding IavlStore.Tree Rep

variable {sha256 : Bytes → Bytes} {m m' : Mem} {W : ℕ → Prop} {c v : ℕ} {L : List ℕ}

/-- Cloning or taking a node for writing touches one address that may be written,
and leaves there the node with the new version and no hash. -/
theorem mutate_step {r : Ref} {n : MemNode} (hv : r.view m = some n) (hown : Own W c m L)
    (hsub : ∀ a ∈ selfAddr r, a ∈ L) :
    ∃ a m', r.mutate v c m = some (a, m') ∧ Only a m m' ∧
      m'[a]? = some { n with version := v, hash := none } ∧ W a ∧
      (a = m.length ∨ a ∈ selfAddr r) ∧
      ∃ n', r.view m' = some n' ∧ n'.left = n.left ∧ n'.right = n.right := by
  cases r with
  | mem b =>
    simp only [Ref.view] at hv
    obtain ⟨hb, -⟩ := List.getElem?_eq_some_iff.mp hv
    by_cases hc : n.version ≤ c
    · refine ⟨m.length, m ++ [{ n with version := v, hash := none }],
        by simp [Ref.mutate, Ref.view, hv, hc], .alloc _, by simp, hown.fresh _ le_rfl, .inl rfl, n,
        ?_, rfl, rfl⟩
      simp only [Ref.view]
      rw [List.getElem?_append_left hb, hv]
    · exact ⟨b, m.set b { n with version := v, hash := none },
        by simp [Ref.mutate, Ref.view, hv, hc], .set b _, by simp [hb],
        hown.owned b (hsub b (by simp [selfAddr])) n hv (not_le.mp hc), .inr (by simp [selfAddr]),
        { n with version := v, hash := none }, by simp [Ref.view, hb], rfl, rfl⟩
  | persisted p =>
    exact ⟨m.length, m ++ [{ n with version := v, hash := none }],
      by simp [Ref.mutate, hv], .alloc _, by simp, hown.fresh _ le_rfl, .inl rfl, n, hv, rfl, rfl⟩

/-- A branch cell without a hash whose children stand for trees. -/
structure Opened (sha256 : Bytes → Bytes) (m : Mem) (a : ℕ) (n : MemNode) (tl tr : Node Bytes Bytes)
    (Ll Lr : List ℕ) : Prop where
  cell : m[a]? = some n
  hash : n.hash = none
  children : ∃ l r, n.left = some l ∧ n.right = some r ∧ Rep sha256 m l tl Ll ∧ Rep sha256 m r tr Lr
  nodup : (a :: (Ll ++ Lr)).Nodup

variable {a : ℕ} {n : MemNode} {tl tr : Node Bytes Bytes} {Ll Lr : List ℕ}

theorem Opened.close (h : Opened sha256 m a n tl tr Ll Lr) (hpos : 0 < n.height) :
    Rep sha256 m (.mem a) (.branch n.height n.size n.version n.key tl tr) (a :: (Ll ++ Lr)) := by
  obtain ⟨l, r, hl, hr, repl, repr⟩ := h.children
  exact .branch a n l r tl tr Ll Lr h.cell hpos hl hr (by simp [h.hash]) repl repr

/-- Linking children into a cell opens it. -/
theorem modify_opened {f : MemNode → MemNode} {l r : Ref} (hn : m[a]? = some n)
    (hh : (f n).hash = none) (hl : (f n).left = some l) (hr : (f n).right = some r)
    (repl : Rep sha256 m l tl Ll) (repr : Rep sha256 m r tr Lr) (hd : (a :: (Ll ++ Lr)).Nodup) :
    modify a f m = some (m.set a (f n)) ∧ Opened sha256 (m.set a (f n)) a (f n) tl tr Ll Lr := by
  obtain ⟨ha, -⟩ := List.getElem?_eq_some_iff.mp hn
  obtain ⟨hal, har⟩ : a ∉ Ll ∧ a ∉ Lr := by simpa using (List.nodup_cons.mp hd).1
  exact ⟨by simp [modify, hn], by simp [ha], hh,
    ⟨l, r, hl, hr, repl.only (.set a _) hal, repr.only (.set a _) har⟩, hd⟩

/-- The cell after its height and size are recomputed. -/
def resized (n : MemNode) (tl tr : Node Bytes Bytes) : MemNode :=
  { n with height := max tl.height tr.height + 1, size := tl.size + tr.size }

theorem updateHeightSize_opened (h : Opened sha256 m a n tl tr Ll Lr) :
    updateHeightSize a m = some (m.set a (resized n tl tr)) ∧
      Opened sha256 (m.set a (resized n tl tr)) a (resized n tl tr) tl tr Ll Lr := by
  obtain ⟨l, r, hl, hr, repl, repr⟩ := h.children
  obtain ⟨nl, hvl, hhl, hsl, -⟩ := repl.view_eq
  obtain ⟨nr, hvr, hhr, hsr, -⟩ := repr.view_eq
  have hm := modify_opened (f := fun n => resized n tl tr) h.cell h.hash hl hr repl repr h.nodup
  refine ⟨?_, hm.2⟩
  simp only [updateHeightSize, h.cell, hl, hr, hvl, hvr, hhl, hhr, hsl, hsr, Option.bind_eq_bind,
    Option.bind_some]
  exact hm.1

/-- With its height and size recomputed the node stands for the join of its children. -/
theorem Opened.close_resized {n' : MemNode} (h : Opened sha256 m a n' tl tr Ll Lr)
    (hn : n' = resized n tl tr) :
    Rep sha256 m (.mem a) (.join n.version n.key tl tr) (a :: (Ll ++ Lr)) := by
  subst hn
  exact h.close (Nat.succ_pos _)

theorem Opened.only {b : ℕ} (h : Opened sha256 m a n tl tr Ll Lr) (ho : Only b m m')
    (hb : b ∉ a :: (Ll ++ Lr)) : Opened sha256 m' a n tl tr Ll Lr := by
  obtain ⟨l, r, hl, hr, repl, repr⟩ := h.children
  obtain ⟨ha, -⟩ := List.getElem?_eq_some_iff.mp h.cell
  simp only [List.mem_cons, List.mem_append, not_or] at hb
  exact ⟨(ho.same a ha (Ne.symm hb.1)).trans h.cell, h.hash,
    ⟨l, r, hl, hr, repl.only ho hb.2.1, repr.only ho hb.2.2⟩, h.nodup⟩

/-- Of distinct addresses `S` and `X`, those of `X` are distinct from one of `S` or a
fresh one. -/
theorem nodup_moved {S X : List ℕ} {b : ℕ} (hown : Own W c m L) (hp : L.Perm (S ++ X))
    (hb : b = m.length ∨ b ∈ S) : (b :: X).Nodup := by
  obtain ⟨-, hX, hd⟩ := List.nodup_append.mp (hp.nodup hown.nodup)
  refine List.nodup_cons.mpr ⟨fun hbX => ?_, hX⟩
  rcases hb with rfl | hb
  · exact absurd (hown.lt _ (hp.mem_iff.mpr (by simp [hbX]))) (lt_irrefl _)
  · exact hd b hb b hbX rfl

/-- The second half of a rotation up to the new root: the old root `a` is opened with
its new children, the cell of the new root `b` is written and `a` is resized. -/
theorem lower_step {b : ℕ} {nb : MemNode} {x : Ref} {tx : Node Bytes Bytes} {X : List ℕ}
    {f : MemNode → MemNode} (o : Opened sha256 m a n tl tr Ll Lr) (hcell : m[b]? = some nb)
    (repx : Rep sha256 m x tx X) (hb : b ∉ a :: (Ll ++ Lr)) (hbX : b ∉ X) (haX : a ∉ X)
    (hown : Own W c m L) (hwa : W a) (hwb : W b) (ha : a ∈ L) (hbL : b ∈ L) :
    ∃ m₁ m', modify b f m = some m₁ ∧ updateHeightSize a m₁ = some m' ∧
      Rep sha256 m' (.mem a) (.join n.version n.key tl tr) (a :: (Ll ++ Lr)) ∧
      Rep sha256 m' x tx X ∧ m'[b]? = some (f nb) ∧ Step W c m L m' L := by
  have hba : b ≠ a := fun h => hb (h ▸ List.mem_cons_self)
  obtain ⟨hblt, -⟩ := List.getElem?_eq_some_iff.mp hcell
  have s₁ := Step.set (f nb) hown hwb hbL
  have s₂ := s₁.trans (.set (resized n tl tr) s₁.own hwa ha)
  obtain ⟨e₂, o₂⟩ := updateHeightSize_opened (o.only (.set b (f nb)) hb)
  refine ⟨_, _, by simp [modify, hcell], e₂, o₂.close_resized rfl,
    (repx.only (.set b _) hbX).only (.set a _) haX, ?_, s₂⟩
  rw [List.getElem?_set_ne hba.symm, List.getElem?_set_self hblt]

theorem rotateRight_step {lh ls lv : ℕ} {lk : Bytes} {tll tlr : Node Bytes Bytes}
    (h : Opened sha256 m a n (.branch lh ls lv lk tll tlr) tr Ll Lr) (hw : W a)
    (hown : Own W c m (a :: (Ll ++ Lr))) :
    ∃ b m' L', rotateRight v c a m = some (b, m') ∧
      Rep sha256 m' (.mem b) (.join v lk tll (.join n.version n.key tlr tr)) L' ∧
      Step W c m (a :: (Ll ++ Lr)) m' L' := by
  obtain ⟨l, r, hl, hr, repl, repr⟩ := h.children
  obtain ⟨nl, ll, lr, Lll, Llr, hview, -, -, -, -, rfl, hll, hlr, repll, replr, rfl⟩ :=
    repl.branch_view
  obtain ⟨b, m₁, hmut, honly, hcellb, hwb, hb, nl', hview', -, hright'⟩ :=
    mutate_step (v := v) hview hown (by simp +contextual)
  have hnd : (b :: (Lll ++ (a :: (Llr ++ Lr)))).Nodup :=
    nodup_moved (S := selfAddr l) hown (by grind) hb
  have hb' : b ∉ Lll ∧ b ≠ a ∧ b ∉ Llr ∧ b ∉ Lr := by simpa using (List.nodup_cons.mp hnd).1
  have haX : a ∉ Lll := by grind
  have s₁ : Step W c m (a :: (selfAddr l ++ (Lll ++ Llr) ++ Lr)) m₁
      (b :: (Lll ++ (a :: (Llr ++ Lr)))) :=
    .write hown hwb (by grind) honly (List.getElem?_eq_some_iff.mp hcellb).1 hnd (by grind)
  have hcella : m₁[a]? = some n := by
    rw [honly.same a (hown.lt a (by simp)) hb'.2.1.symm, h.cell]
  -- the right grandchild moves under the old root
  obtain ⟨e₂, o₂⟩ := modify_opened (f := fun n => { n with left := nl'.right }) hcella h.hash
    (hright'.trans hlr) hr (replr.only honly hb'.2.2.1) (repr.only honly hb'.2.2.2)
    (List.nodup_append.mp (List.nodup_cons.mp hnd).2).2.1
  have s₂ := s₁.trans (.set { n with left := nl'.right } s₁.own hw (by simp))
  obtain ⟨m₃, m₄, e₃, e₄, rep₄, repll₄, hcell₄, s₄⟩ := lower_step
    (f := fun n => { n with right := some (.mem a) }) o₂
    ((List.getElem?_set_ne hb'.2.1.symm).trans hcellb)
    ((repll.only honly hb'.1).only (.set a _) haX) (by simp [hb']) hb'.1 haX s₂.own hw hwb
    (by simp) (by simp)
  -- and the old root under the new one
  have o₄ : Opened sha256 m₄ b { nl with version := v, hash := none, right := some (.mem a) } tll
      (.join n.version n.key tlr tr) Lll (a :: (Llr ++ Lr)) :=
    ⟨hcell₄, rfl, ⟨ll, .mem a, hll, rfl, repll₄, rep₄⟩, hnd⟩
  obtain ⟨e₅, o₅⟩ := updateHeightSize_opened o₄
  refine ⟨b, _, _, ?_, o₅.close_resized rfl, (s₂.trans s₄).trans (.set _ s₄.own hwb (by simp))⟩
  simp [rotateRight, h.cell, hl, hmut, hview', e₂, e₃, e₄, e₅]

theorem rotateLeft_step {rh rs rv : ℕ} {rk : Bytes} {trl trr : Node Bytes Bytes}
    (h : Opened sha256 m a n tl (.branch rh rs rv rk trl trr) Ll Lr) (hw : W a)
    (hown : Own W c m (a :: (Ll ++ Lr))) :
    ∃ b m' L', rotateLeft v c a m = some (b, m') ∧
      Rep sha256 m' (.mem b) (.join v rk (.join n.version n.key tl trl) trr) L' ∧
      Step W c m (a :: (Ll ++ Lr)) m' L' := by
  obtain ⟨l, r, hl, hr, repl, repr⟩ := h.children
  obtain ⟨nr, rl, rr, Lrl, Lrr, hview, -, -, -, -, rfl, hrl, hrr, reprl, reprr, rfl⟩ :=
    repr.branch_view
  obtain ⟨b, m₁, hmut, honly, hcellb, hwb, hb, nr', hview', hleft', -⟩ :=
    mutate_step (v := v) hview hown (by simp +contextual)
  have hnd : (b :: ((a :: (Ll ++ Lrl)) ++ Lrr)).Nodup :=
    nodup_moved (S := selfAddr r) hown (by grind) hb
  have hb' : b ≠ a ∧ b ∉ Ll ∧ b ∉ Lrl ∧ b ∉ Lrr := by
    simpa [and_assoc] using (List.nodup_cons.mp hnd).1
  have haX : a ∉ Lrr := by grind
  have s₁ : Step W c m (a :: (Ll ++ (selfAddr r ++ (Lrl ++ Lrr)))) m₁
      (b :: ((a :: (Ll ++ Lrl)) ++ Lrr)) :=
    .write hown hwb (by grind) honly (List.getElem?_eq_some_iff.mp hcellb).1 hnd (by grind)
  have hcella : m₁[a]? = some n := by
    rw [honly.same a (hown.lt a (by simp)) hb'.1.symm, h.cell]
  obtain ⟨e₂, o₂⟩ := modify_opened (f := fun n => { n with right := nr'.left }) hcella h.hash hl
    (hleft'.trans hrl) (repl.only honly hb'.2.1) (reprl.only honly hb'.2.2.1)
    (List.nodup_append.mp (List.nodup_cons.mp hnd).2).1
  have s₂ := s₁.trans (.set { n with right := nr'.left } s₁.own hw (by simp))
  obtain ⟨m₃, m₄, e₃, e₄, rep₄, reprr₄, hcell₄, s₄⟩ := lower_step
    (f := fun n => { n with left := some (.mem a) }) o₂
    ((List.getElem?_set_ne hb'.1.symm).trans hcellb)
    ((reprr.only honly hb'.2.2.2).only (.set a _) haX) (by simp [hb']) hb'.2.2.2 haX s₂.own hw hwb
    (by simp) (by simp)
  have o₄ : Opened sha256 m₄ b { nr with version := v, hash := none, left := some (.mem a) }
      (.join n.version n.key tl trl) trr (a :: (Ll ++ Lrl)) Lrr :=
    ⟨hcell₄, rfl, ⟨.mem a, rr, rfl, hrr, rep₄, reprr₄⟩, hnd⟩
  obtain ⟨e₅, o₅⟩ := updateHeightSize_opened o₄
  refine ⟨b, _, _, ?_, o₅.close_resized rfl, (s₂.trans s₄).trans (.set _ s₄.own hwb (by simp))⟩
  simp [rotateLeft, h.cell, hr, hmut, hview', e₂, e₃, e₄, e₅]

theorem calcBalance_eq {r : Ref} {h s w : ℕ} {k : Bytes}
    (hrep : Rep sha256 m r (.branch h s w k tl tr) L) :
    calcBalance r m = some ((tl.height : ℤ) - tr.height) := by
  obtain ⟨n, left, right, Ll, Lr, hv, -, -, -, -, -, hl, hr, repl, repr, -⟩ := hrep.branch_view
  obtain ⟨nl, hvl, hhl, -⟩ := repl.view_eq
  obtain ⟨nr, hvr, hhr, -⟩ := repr.view_eq
  simp [calcBalance, hv, hl, hr, hvl, hvr, hhl, hhr]

/-- Taking a branch for writing opens it. -/
theorem mutate_opened {r : Ref} {h s w : ℕ} {k : Bytes}
    (hrep : Rep sha256 m r (.branch h s w k tl tr) L) (hown : Own W c m L) :
    ∃ a m' n Ll Lr, r.mutate v c m = some (a, m') ∧ W a ∧ Opened sha256 m' a n tl tr Ll Lr ∧
      n.version = v ∧ n.key = k ∧ Step W c m L m' (a :: (Ll ++ Lr)) := by
  obtain ⟨n, left, right, Ll, Lr, hv, -, -, -, -, hk, hl, hr, repl, repr, rfl⟩ := hrep.branch_view
  obtain ⟨a, m', hmut, honly, hcell, hw, ha, -⟩ :=
    mutate_step (v := v) hv hown (by simp +contextual)
  have hnd : (a :: (Ll ++ Lr)).Nodup := nodup_moved (S := selfAddr r) hown (by grind) ha
  obtain ⟨hal, har⟩ : a ∉ Ll ∧ a ∉ Lr := by simpa using (List.nodup_cons.mp hnd).1
  refine ⟨a, m', _, Ll, Lr, hmut, hw, ⟨hcell, rfl, ⟨left, right, hl, hr, repl.only honly hal,
    repr.only honly har⟩, hnd⟩, rfl, hk, ?_⟩
  exact .write hown hw (by grind) honly (List.getElem?_eq_some_iff.mp hcell).1 hnd (by grind)

/-- New left children are linked into an opened node after work on the old ones. -/
theorem Opened.modify_left {b : ℕ} {tl' : Node Bytes Bytes} {Ll' : List ℕ}
    (h : Opened sha256 m a n tl tr Ll Lr) (hw : W a) (hown : Own W c m (a :: (Ll ++ Lr)))
    (s : Step W c m Ll m' Ll') (rep : Rep sha256 m' (.mem b) tl' Ll') :
    ∃ m₁ n₁, modify a (fun n => { n with left := some (.mem b) }) m' = some m₁ ∧
      Opened sha256 m₁ a n₁ tl' tr Ll' Lr ∧ n₁.version = n.version ∧ n₁.key = n.key ∧
      Step W c m (a :: (Ll ++ Lr)) m₁ (a :: (Ll' ++ Lr)) := by
  obtain ⟨l, r, -, hr, -, repr⟩ := h.children
  have hL : Step W c m (a :: (Ll ++ Lr)) m' (a :: (Ll' ++ Lr)) := s.left (S := [a]) hown
  obtain ⟨haL, -⟩ : a ∉ Ll ∧ a ∉ Lr := by simpa using (List.nodup_cons.mp h.nodup).1
  have hd := (List.nodup_append.mp (List.nodup_cons.mp h.nodup).2).2.2
  have hcell : m'[a]? = some n := (s.moves.frame a (hown.lt a (by simp)) (.inl haL)).trans h.cell
  obtain ⟨e, o⟩ := modify_opened (f := fun n => { n with left := some (.mem b) }) hcell h.hash rfl hr
    rep (repr.moves s.moves fun x hx hx' => hd x hx' x hx rfl) hL.own.nodup
  exact ⟨_, _, e, o, rfl, rfl, hL.trans (.set _ hL.own hw (by simp))⟩

theorem Opened.modify_right {b : ℕ} {tr' : Node Bytes Bytes} {Lr' : List ℕ}
    (h : Opened sha256 m a n tl tr Ll Lr) (hw : W a) (hown : Own W c m (a :: (Ll ++ Lr)))
    (s : Step W c m Lr m' Lr') (rep : Rep sha256 m' (.mem b) tr' Lr') :
    ∃ m₁ n₁, modify a (fun n => { n with right := some (.mem b) }) m' = some m₁ ∧
      Opened sha256 m₁ a n₁ tl tr' Ll Lr' ∧ n₁.version = n.version ∧ n₁.key = n.key ∧
      Step W c m (a :: (Ll ++ Lr)) m₁ (a :: (Ll ++ Lr')) := by
  obtain ⟨l, r, hl, -, repl, -⟩ := h.children
  have hL : Step W c m (a :: (Ll ++ Lr)) m' (a :: (Ll ++ Lr')) := s.right (S := [a]) hown
  obtain ⟨-, haR⟩ : a ∉ Ll ∧ a ∉ Lr := by simpa using (List.nodup_cons.mp h.nodup).1
  have hd := (List.nodup_append.mp (List.nodup_cons.mp h.nodup).2).2.2
  have hcell : m'[a]? = some n := (s.moves.frame a (hown.lt a (by simp)) (.inl haR)).trans h.cell
  obtain ⟨e, o⟩ := modify_opened (f := fun n => { n with right := some (.mem b) }) hcell h.hash hl rfl
    (repl.moves s.moves fun x hx hx' => hd x hx x hx' rfl) rep hL.own.nodup
  exact ⟨_, _, e, o, rfl, rfl, hL.trans (.set _ hL.own hw (by simp))⟩

/-- Rebalancing a resized node that was taken for writing. -/
theorem reBalance_step {n₀ : MemNode} (h : Opened sha256 m a (resized n₀ tl tr) tl tr Ll Lr) (hw : W a)
    (hown : Own W c m (a :: (Ll ++ Lr))) :
    ∃ b m' L', reBalance v c a m = some (b, m') ∧
      Rep sha256 m' (.mem b) (Node.reBalance v (.join n₀.version n₀.key tl tr)) L' ∧
      Step W c m (a :: (Ll ++ Lr)) m' L' := by
  obtain ⟨l, r, hl, hr, repl, repr⟩ := h.children
  have hnd := h.nodup
  have hbal := calcBalance_eq (h.close_resized rfl)
  have ownl : Own W c m Ll := hown.sublist (by simp)
  have ownr : Own W c m Lr := hown.sublist (by simp)
  rw [Node.join, Node.reBalance_branch]
  by_cases h1 : (1 : ℤ) < (tl.height : ℤ) - tr.height
  · obtain ⟨lh, ls, lv, lk, tll, tlr, rfl⟩ := Node.Balanced.branch_of_height (t := tl) (by omega)
    have hball := calcBalance_eq repl
    rw [if_pos h1, Node.calcBalance_branch]
    by_cases h2 : (0 : ℤ) ≤ (tll.height : ℤ) - tlr.height
    · obtain ⟨b, m', L', e, rep, s⟩ := rotateRight_step (v := v) h hw hown
      refine ⟨b, m', L', ?_, by rw [if_pos h2]; exact rep, s⟩
      simp only [reBalance, h.cell, hl, hr, hbal, hball, e, if_pos h1, if_pos h2, Option.bind_eq_bind,
        Option.bind_some]
    · obtain ⟨ch, cs, cv, ck, cl, cr, rfl⟩ := Node.Balanced.branch_of_height (t := tlr) (by omega)
      obtain ⟨b, m₁, nb, Lll, Llr, e₁, hwb, o₁, hv₁, hk₁, s₁⟩ := mutate_opened (v := v) repl ownl
      obtain ⟨b₂, m₂, L₂, e₂, rep₂, s₂⟩ := rotateLeft_step (v := v) o₁ hwb s₁.own
      obtain ⟨m₃, n₃, e₃, o₃, hv₃, hk₃, s₃⟩ := h.modify_left hw hown (s₁.trans s₂) rep₂
      obtain ⟨b₄, m₄, L₄, e₄, rep₄, s₄⟩ := rotateRight_step (v := v) o₃ hw s₃.own
      refine ⟨b₄, m₄, L₄, ?_, ?_, s₃.trans s₄⟩
      · simp only [reBalance, h.cell, hl, hr, hbal, hball, e₁, e₂, e₃, e₄, if_pos h1, if_neg h2,
          Option.bind_eq_bind, Option.bind_some]
      · rw [if_neg h2]
        rw [hv₃, hk₃, hv₁, hk₁] at rep₄
        exact rep₄
  · rw [if_neg h1]
    by_cases h1' : (tl.height : ℤ) - tr.height < -1
    · obtain ⟨rh, rs, rv, rk, trl, trr, rfl⟩ := Node.Balanced.branch_of_height (t := tr) (by omega)
      have hbalr := calcBalance_eq repr
      rw [if_pos h1', Node.calcBalance_branch]
      by_cases h2 : (trl.height : ℤ) - trr.height ≤ 0
      · obtain ⟨b, m', L', e, rep, s⟩ := rotateLeft_step (v := v) h hw hown
        refine ⟨b, m', L', ?_, by rw [if_pos h2]; exact rep, s⟩
        simp only [reBalance, h.cell, hl, hr, hbal, hbalr, e, if_neg h1, if_pos h1', if_pos h2,
          Option.bind_eq_bind, Option.bind_some]
      · obtain ⟨ch, cs, cv, ck, cl, cr, rfl⟩ := Node.Balanced.branch_of_height (t := trl) (by omega)
        obtain ⟨b, m₁, nb, Lrl, Lrr, e₁, hwb, o₁, hv₁, hk₁, s₁⟩ := mutate_opened (v := v) repr ownr
        obtain ⟨b₂, m₂, L₂, e₂, rep₂, s₂⟩ := rotateRight_step (v := v) o₁ hwb s₁.own
        obtain ⟨m₃, n₃, e₃, o₃, hv₃, hk₃, s₃⟩ := h.modify_right hw hown (s₁.trans s₂) rep₂
        obtain ⟨b₄, m₄, L₄, e₄, rep₄, s₄⟩ := rotateLeft_step (v := v) o₃ hw s₃.own
        refine ⟨b₄, m₄, L₄, ?_, ?_, s₃.trans s₄⟩
        · simp only [reBalance, h.cell, hl, hr, hbal, hbalr, e₁, e₂, e₃, e₄, if_neg h1, if_pos h1',
            if_neg h2, Option.bind_eq_bind, Option.bind_some]
        · rw [if_neg h2]
          rw [hv₃, hk₃, hv₁, hk₁] at rep₄
          exact rep₄
    · rw [if_neg h1']
      refine ⟨a, m, _, ?_, h.close_resized rfl, .refl hown⟩
      simp only [reBalance, h.cell, hl, hr, hbal, if_neg h1, if_neg h1', Option.bind_eq_bind,
        Option.bind_some]

end IavlStore.Heap
