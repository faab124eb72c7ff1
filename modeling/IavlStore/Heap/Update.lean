import IavlStore.Heap.Balance

/-! Setting and removing keys on the heap. Both produce the tree that the functions on
trees do and write only what they may; a removal that finds nothing leaves the heap
and the reference as they were. -/

namespace IavlStore.Heap

open IavlStore.Base.Encoding IavlStore.Tree Rep

variable {sha256 : Bytes → Bytes} {m m₁ : Mem} {W : ℕ → Prop} {c v : ℕ} {L : List ℕ}
variable {ref l r child : Ref} {n : MemNode} {tl tr t' : Node Bytes Bytes} {Ll Lr L' : List ℕ}

theorem view_of_moves (hview : ref.view m = some n) (hm : Moves W m Ll m₁ Lr)
    (hd : ∀ a ∈ selfAddr ref, a ∉ Ll) : ref.view m₁ = some n := by
  cases ref with
  | mem a =>
    obtain ⟨ha, -⟩ := List.getElem?_eq_some_iff.mp hview
    exact (hm.frame a ha (.inl (hd a (by simp [selfAddr])))).trans hview
  | persisted => exact hview

/-- A node is taken for writing after work on its left child and linked to the
result. -/
theorem link_left {f : MemNode → MemNode} (hview : ref.view m = some n) (hr : n.right = some r)
    (repr : Rep sha256 m r tr Lr) (hown : Own W c m (selfAddr ref ++ (Ll ++ Lr)))
    (s : Step W c m Ll m₁ L') (rep : Rep sha256 m₁ child t' L')
    (hfl : (f { n with version := v, hash := none }).left = some child)
    (hfr : (f { n with version := v, hash := none }).right = n.right)
    (hfh : (f { n with version := v, hash := none }).hash = none) :
    ∃ a m₂ m₃, ref.mutate v c m₁ = some (a, m₂) ∧ modify a f m₂ = some m₃ ∧ W a ∧
      Opened sha256 m₃ a (f { n with version := v, hash := none }) t' tr L' Lr ∧
      Step W c m (selfAddr ref ++ (Ll ++ Lr)) m₃ (a :: (L' ++ Lr)) := by
  have hp : (selfAddr ref ++ (Ll ++ Lr)).Perm ((selfAddr ref ++ Lr) ++ Ll) := by grind
  have hd := (List.nodup_append.mp (hp.nodup hown.nodup)).2.2
  have s₁ := s.left hown
  have hview₁ := view_of_moves hview s.moves fun a ha ha' => hd a (by simp [ha]) a ha' rfl
  have repr₁ := repr.moves s.moves fun a ha ha' => hd a (by simp [ha]) a ha' rfl
  obtain ⟨a, m₂, hmut, honly, hcell, hw, ha, -⟩ :=
    mutate_step (v := v) hview₁ s₁.own (by simp +contextual)
  have hnd : (a :: (L' ++ Lr)).Nodup := nodup_moved (S := selfAddr ref) s₁.own (by simp) ha
  obtain ⟨hal, har⟩ : a ∉ L' ∧ a ∉ Lr := by simpa using (List.nodup_cons.mp hnd).1
  obtain ⟨e, o⟩ := modify_opened hcell hfh hfl (hfr.trans hr) (rep.only honly hal)
    (repr₁.only honly har) hnd
  have s₂ : Step W c m₁ (selfAddr ref ++ (L' ++ Lr)) m₂ (a :: (L' ++ Lr)) :=
    .write s₁.own hw (by grind) honly (List.getElem?_eq_some_iff.mp hcell).1 hnd (by grind)
  exact ⟨a, m₂, _, hmut, e, hw, o, (s₁.trans s₂).trans (.set _ s₂.own hw (by simp))⟩

theorem link_right {f : MemNode → MemNode} (hview : ref.view m = some n) (hl : n.left = some l)
    (repl : Rep sha256 m l tl Ll) (hown : Own W c m (selfAddr ref ++ (Ll ++ Lr)))
    (s : Step W c m Lr m₁ L') (rep : Rep sha256 m₁ child t' L')
    (hfl : (f { n with version := v, hash := none }).left = n.left)
    (hfr : (f { n with version := v, hash := none }).right = some child)
    (hfh : (f { n with version := v, hash := none }).hash = none) :
    ∃ a m₂ m₃, ref.mutate v c m₁ = some (a, m₂) ∧ modify a f m₂ = some m₃ ∧ W a ∧
      Opened sha256 m₃ a (f { n with version := v, hash := none }) tl t' Ll L' ∧
      Step W c m (selfAddr ref ++ (Ll ++ Lr)) m₃ (a :: (Ll ++ L')) := by
  have hd := (List.nodup_append.mp ((List.append_assoc _ _ _).symm ▸ hown.nodup :
    ((selfAddr ref ++ Ll) ++ Lr).Nodup)).2.2
  have s₁ := s.right hown
  have hview₁ := view_of_moves hview s.moves fun a ha ha' => hd a (by simp [ha]) a ha' rfl
  have repl₁ := repl.moves s.moves fun a ha ha' => hd a (by simp [ha]) a ha' rfl
  obtain ⟨a, m₂, hmut, honly, hcell, hw, ha, -⟩ :=
    mutate_step (v := v) hview₁ s₁.own (by simp +contextual)
  have hnd : (a :: (Ll ++ L')).Nodup := nodup_moved (S := selfAddr ref) s₁.own (by simp) ha
  obtain ⟨hal, har⟩ : a ∉ Ll ∧ a ∉ L' := by simpa using (List.nodup_cons.mp hnd).1
  obtain ⟨e, o⟩ := modify_opened hcell hfh (hfl.trans hl) hfr (repl₁.only honly hal)
    (rep.only honly har) hnd
  have s₂ : Step W c m₁ (selfAddr ref ++ (Ll ++ L')) m₂ (a :: (Ll ++ L')) :=
    .write s₁.own hw (by grind) honly (List.getElem?_eq_some_iff.mp hcell).1 hnd (by grind)
  exact ⟨a, m₂, _, hmut, e, hw, o, (s₁.trans s₂).trans (.set _ s₂.own hw (by simp))⟩

/-- Resizing and rebalancing an opened node. -/
theorem resize_reBalance {a : ℕ} (o : Opened sha256 m a n tl tr Ll Lr) (hw : W a)
    (hown : Own W c m (a :: (Ll ++ Lr))) :
    ∃ m₁ b m₂ L₂, updateHeightSize a m = some m₁ ∧ reBalance v c a m₁ = some (b, m₂) ∧
      Rep sha256 m₂ (.mem b) (Node.reBalance v (.join n.version n.key tl tr)) L₂ ∧
      Step W c m (a :: (Ll ++ Lr)) m₂ L₂ := by
  obtain ⟨e₁, o₁⟩ := updateHeightSize_opened o
  have s₁ := Step.set (resized n tl tr) hown hw (by simp)
  obtain ⟨b, m₂, L₂, e₂, rep, s₂⟩ := reBalance_step (v := v) o₁ hw s₁.own
  exact ⟨_, b, m₂, L₂, e₁, e₂, rep, s₁.trans s₂⟩

/-- A new branch over two nodes. -/
theorem alloc_branch (repl : Rep sha256 m l tl Ll) (repr : Rep sha256 m r tr Lr)
    (hpos : 0 < n.height) (hl : n.left = some l) (hr : n.right = some r) (hh : n.hash = none)
    (hown : Own W c m L) (hp : L.Perm (Ll ++ Lr)) :
    Rep sha256 (m ++ [n]) (.mem m.length) (.branch n.height n.size n.version n.key tl tr)
        (m.length :: (Ll ++ Lr)) ∧
      Step W c m L (m ++ [n]) (m.length :: (Ll ++ Lr)) := by
  have hlt : m.length ∉ Ll ++ Lr := fun h => (hown.lt _ (hp.mem_iff.mpr h)).false
  obtain ⟨hnl, hnr⟩ : m.length ∉ Ll ∧ m.length ∉ Lr := by simpa using hlt
  refine ⟨.branch _ n l r tl tr Ll Lr (by simp) hpos hl hr (by simp [hh])
    (repl.only (.alloc n) hnl) (repr.only (.alloc n) hnr), ?_⟩
  refine .write hown (hown.fresh _ le_rfl) (.inr le_rfl) (.alloc n) (by simp)
    (List.nodup_cons.mpr ⟨hlt, hp.nodup hown.nodup⟩) fun b hb => ?_
  exact (List.mem_cons.mp hb).symm.imp_left hp.mem_iff.mpr

theorem setRecursive_step (key value : Bytes) {t : Node Bytes Bytes} {fuel : ℕ}
    (hrep : Rep sha256 m ref t L) (hown : Own W c m L) (hb : t.Balanced) (hfuel : t.height < fuel) :
    ∃ a m' L', setRecursive key value v c fuel ref m =
        some ((a, (t.setRecursive key value v).2), m') ∧
      Rep sha256 m' (.mem a) (t.setRecursive key value v).1 L' ∧ Step W c m L m' L' := by
  induction t generalizing fuel m ref L with
  | leaf w k x =>
    obtain ⟨fuel, rfl⟩ := Nat.exists_eq_add_of_lt hfuel
    obtain ⟨n, hview, hleaf, hh, hs, -, rfl, hval, rfl⟩ := hrep.leaf_view
    simp only [Nat.zero_add, Node.height_leaf, setRecursive, Node.setRecursive, hview, hleaf,
      Option.bind_eq_bind, Option.bind_some, ↓reduceIte]
    -- a new leaf goes to either side of the present one
    have s₁ := Step.alloc (newLeafNode key value v) hown
    have new : Rep sha256 (m ++ [newLeafNode key value v]) (.mem m.length) (.leaf v key value)
        [m.length] :=
      .leaf _ (newLeafNode key value v) value (by simp) rfl rfl rfl (by simp [newLeafNode])
    have old : Rep sha256 (m ++ [newLeafNode key value v]) ref (.leaf w n.key x) (selfAddr ref) :=
      hrep.only (.alloc _) fun hm => (hown.lt _ hm).false
    have hlen : (m ++ [newLeafNode key value v]).length - 1 = m.length := by simp
    split_ifs with h1 h2
    · obtain ⟨rep₂, s₂⟩ := alloc_branch (n := ⟨1, 2, v, n.key, none, some (.mem m.length), some ref,
        none⟩) new old Nat.one_pos rfl rfl rfl s₁.own (by simp)
      exact ⟨_, _, _, by rw [hlen], rep₂, s₁.trans s₂⟩
    · obtain ⟨rep₂, s₂⟩ := alloc_branch (n := ⟨1, 2, v, key, none, some ref, some (.mem m.length),
        none⟩) old new Nat.one_pos rfl rfl rfl s₁.own (by grind)
      exact ⟨_, _, _, by rw [hlen], rep₂, s₁.trans s₂⟩
    · obtain ⟨a, m₁, hmut, honly, hcell, hw, ha, -⟩ :=
        mutate_step (v := v) hview hown (by simp)
      obtain ⟨halt, -⟩ := List.getElem?_eq_some_iff.mp hcell
      have s₁ : Step W c m (selfAddr ref) m₁ [a] :=
        .write hown hw (by grind) honly halt (by simp) (by simp)
      refine ⟨a, m₁.set a { n with version := v, hash := none, value := some value }, [a],
        by simp [hmut, modify, hcell], ?_, s₁.trans (.set _ s₁.own hw (by simp))⟩
      exact .leaf a { n with version := v, hash := none, value := some value } value (by simp [halt])
        hh hs rfl (by simp)
  | branch h s w k tl tr ihl ihr =>
    obtain ⟨fuel, rfl⟩ : ∃ f, fuel = f + 1 := ⟨fuel - 1, by omega⟩
    obtain ⟨n, l, r, Ll, Lr, hview, hleaf, rfl, rfl, -, rfl, hl, hr, repl, repr, rfl⟩ :=
      hrep.branch_view
    have hpos : 0 < n.height := hb.height_pos
    obtain ⟨he, -, -, -, hbl, hbr⟩ := hb
    simp only [Node.height_branch] at hfuel
    simp only [setRecursive, Node.setRecursive, hview, hleaf, hl, hr, Option.bind_eq_bind,
      Option.bind_some, Bool.false_eq_true, ↓reduceIte, Node.updateHeightSize_branch]
    by_cases hk : key < n.key
    · obtain ⟨b, m₁, L₁, e₁, rep₁, s₁⟩ := ihl repl (hown.sublist (by simp)) hbl
        (show tl.height < fuel by omega)
      obtain ⟨a, m₂, m₃, e₂, e₃, hw, o₃, s₃⟩ := link_left (v := v)
        (f := fun n => { n with left := some (.mem b) }) hview hr repr hown s₁ rep₁ rfl rfl rfl
      simp only [if_pos hk, e₁, e₂, e₃, Option.bind_some]
      by_cases hu : (tl.setRecursive key value v).2
      · exact ⟨a, m₃, _, by simp [hu], by simpa [hu] using o₃.close hpos, s₃⟩
      · obtain ⟨m₄, a', m₅, L₅, e₄, e₅, rep₅, s₅⟩ := resize_reBalance (v := v) o₃ hw s₃.own
        exact ⟨a', m₅, L₅, by simp [hu, e₄, e₅], by simpa [hu] using rep₅, s₃.trans s₅⟩
    · obtain ⟨b, m₁, L₁, e₁, rep₁, s₁⟩ := ihr repr
        (hown.sublist (by rw [← List.append_assoc]; exact List.sublist_append_right _ _)) hbr
        (show tr.height < fuel by omega)
      obtain ⟨a, m₂, m₃, e₂, e₃, hw, o₃, s₃⟩ := link_right (v := v)
        (f := fun n => { n with right := some (.mem b) }) hview hl repl hown s₁ rep₁ rfl rfl rfl
      simp only [if_neg hk, e₁, e₂, e₃, Option.bind_some]
      by_cases hu : (tr.setRecursive key value v).2
      · exact ⟨a, m₃, _, by simp [hu], by simpa [hu] using o₃.close hpos, s₃⟩
      · obtain ⟨m₄, a', m₅, L₅, e₄, e₅, rep₅, s₅⟩ := resize_reBalance (v := v) o₃ hw s₃.own
        exact ⟨a', m₅, L₅, by simp [hu, e₄, e₅], by simpa [hu] using rep₅, s₃.trans s₅⟩

/-- What a removal on the heap returns, against the removal on trees. -/
structure RemoveStep (sha256 : Bytes → Bytes) (W : ℕ → Prop) (c : ℕ) (m : Mem) (L : List ℕ) (ref : Ref)
    (pure : Node.Removed Bytes Bytes) (new : Removed) (m' : Mem) (L' : List ℕ) : Prop where
  value : new.value = pure.value
  newKey : new.newKey = pure.newKey
  rep : RepOpt sha256 m' new.node pure.node L'
  step : Step W c m L m' L'
  /-- Nothing removed, nothing written. -/
  same : new.value = none → new.node = some ref ∧ m' = m ∧ L' = L

/-- The heap result at a node when nothing was removed below it. -/
theorem removeStep_same {t : Node Bytes Bytes} (hrep : Rep sha256 m ref t L) (hown : Own W c m L) :
    RemoveStep sha256 W c m L ref ⟨none, some t, none⟩ ⟨none, some ref, none⟩ m L :=
  ⟨rfl, rfl, hrep, .refl hown, fun _ => ⟨rfl, rfl, rfl⟩⟩

theorem removeRecursive_step (key : Bytes) {t : Node Bytes Bytes} {fuel : ℕ}
    (hrep : Rep sha256 m ref t L) (hown : Own W c m L) (hb : t.Balanced) (hfuel : t.height < fuel) :
    ∃ new m' L', removeRecursive key v c fuel ref m = some (new, m') ∧
      RemoveStep sha256 W c m L ref (t.removeRecursive key v) new m' L' := by
  induction t generalizing fuel m ref L with
  | leaf w k x =>
    obtain ⟨fuel, rfl⟩ := Nat.exists_eq_add_of_lt hfuel
    have hrep' := hrep
    obtain ⟨n, hview, hleaf, -, -, -, rfl, hval, rfl⟩ := hrep.leaf_view
    simp only [Nat.zero_add, Node.height_leaf, removeRecursive, Node.removeRecursive, hview, hleaf,
      Option.bind_eq_bind, Option.bind_some, ↓reduceIte]
    by_cases hk : n.key = key
    · rw [if_pos hk, if_pos hk]
      refine ⟨_, m, [], rfl, hval, rfl, rfl, ?_, by simp [hval]⟩
      exact ⟨hown.sublist (by simp), le_rfl, fun _ _ _ => rfl, by simp⟩
    · rw [if_neg hk, if_neg hk]
      exact ⟨_, m, _, rfl, removeStep_same hrep' hown⟩
  | branch h s w k tl tr ihl ihr =>
    obtain ⟨fuel, rfl⟩ : ∃ f, fuel = f + 1 := ⟨fuel - 1, by omega⟩
    have hrep' := hrep
    obtain ⟨n, l, r, Ll, Lr, hview, hleaf, rfl, rfl, -, rfl, hl, hr, repl, repr, rfl⟩ :=
      hrep.branch_view
    obtain ⟨he, -, -, -, hbl, hbr⟩ := hb
    simp only [Node.height_branch] at hfuel
    simp only [removeRecursive, Node.removeRecursive, hview, hleaf, hl, hr, Option.bind_eq_bind,
      Option.bind_some, Bool.false_eq_true, ↓reduceIte, Node.updateHeightSize_branch]
    have hp : (selfAddr ref ++ (Ll ++ Lr)).Perm ((selfAddr ref ++ Lr) ++ Ll) := by grind
    by_cases hk : key < n.key
    · obtain ⟨new, m₁, L₁, e₁, rm⟩ := ihl repl (hown.sublist (by simp)) hbl
        (show tl.height < fuel by omega)
      have hd := (List.nodup_append.mp (hp.nodup hown.nodup)).2.2
      simp only [if_pos hk, e₁, Option.bind_some]
      rcases hnv : new.value with _ | x
      · obtain ⟨-, rfl, -⟩ := rm.same hnv
        rw [← rm.value, hnv]
        exact ⟨_, _, _, rfl, removeStep_same hrep' hown⟩
      · have hrepo := rm.rep
        rw [← rm.value, hnv]
        rcases hnn : new.node with _ | child <;>
          rcases hpn : (tl.removeRecursive key v).node with _ | tl' <;>
          simp only [hnn, hpn, RepOpt] at hrepo
        · -- the left leaf is gone: the right child takes the place of the node
          subst hrepo
          have hview₁ := view_of_moves hview rm.step.moves
            fun a ha ha' => hd a (by simp [ha]) a ha' rfl
          have repr₁ := repr.moves rm.step.moves fun a ha ha' => hd a (by simp [ha]) a ha' rfl
          have s₁ := rm.step.left hown
          refine ⟨_, m₁, Lr, by simp only [hview₁, Option.bind_some]; rfl, rfl, rfl,
            by simpa only [hr, RepOpt] using repr₁, ?_, by simp⟩
          exact ⟨s₁.own.sublist (by simp), s₁.moves.length_le, s₁.moves.frame, by simp +contextual⟩
        · obtain ⟨a, m₂, m₃, e₂, e₃, hw, o₃, s₃⟩ := link_left (v := v)
            (f := fun n => { n with left := some child }) hview hr repr hown rm.step hrepo rfl rfl rfl
          obtain ⟨m₄, a', m₅, L₅, e₄, e₅, rep₅, s₅⟩ := resize_reBalance (v := v) o₃ hw s₃.own
          exact ⟨⟨some x, some (.mem a'), new.newKey⟩, m₅, L₅,
            by simp only [e₂, e₃, e₄, e₅, Option.bind_some], rfl, rm.newKey, rep₅, s₃.trans s₅,
            by simp⟩
    · obtain ⟨new, m₁, L₁, e₁, rm⟩ := ihr repr
        (hown.sublist (by rw [← List.append_assoc]; exact List.sublist_append_right _ _)) hbr
        (show tr.height < fuel by omega)
      have hd := (List.nodup_append.mp ((List.append_assoc _ _ _).symm ▸ hown.nodup :
        ((selfAddr ref ++ Ll) ++ Lr).Nodup)).2.2
      simp only [if_neg hk, e₁, Option.bind_some]
      rcases hnv : new.value with _ | x
      · obtain ⟨-, rfl, -⟩ := rm.same hnv
        rw [← rm.value, hnv]
        exact ⟨_, _, _, rfl, removeStep_same hrep' hown⟩
      · have hrepo := rm.rep
        rw [← rm.value, hnv]
        rcases hnn : new.node with _ | child <;>
          rcases hpn : (tr.removeRecursive key v).node with _ | tr' <;>
          simp only [hnn, hpn, RepOpt] at hrepo
        · subst hrepo
          have hview₁ := view_of_moves hview rm.step.moves
            fun a ha ha' => hd a (by simp [ha]) a ha' rfl
          have repl₁ := repl.moves rm.step.moves fun a ha ha' => hd a (by simp [ha]) a ha' rfl
          have s₁ := rm.step.right hown
          refine ⟨_, m₁, Ll, by simp only [hview₁, Option.bind_some]; rfl, rfl, rfl,
            by simpa only [hl, RepOpt] using repl₁, ?_, by simp⟩
          exact ⟨s₁.own.sublist (by simp), s₁.moves.length_le, s₁.moves.frame, by simp +contextual⟩
        · obtain ⟨a, m₂, m₃, e₂, e₃, hw, o₃, s₃⟩ := link_right (v := v)
            (f := fun n => { n with right := some child, key := new.newKey.getD n.key }) hview hl repl
            hown rm.step hrepo rfl rfl rfl
          obtain ⟨m₄, a', m₅, L₅, e₄, e₅, rep₅, s₅⟩ := resize_reBalance (v := v) o₃ hw s₃.own
          rw [rm.newKey] at rep₅
          exact ⟨⟨some x, some (.mem a'), none⟩, m₅, L₅,
            by simp only [e₂, e₃, e₄, e₅, Option.bind_some], rfl, rfl, rep₅, s₃.trans s₅, by simp⟩

end IavlStore.Heap
