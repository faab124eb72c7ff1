import IavlStore.Base.Search
import IavlStore.Tree.Proofs

/-! Non-existence proofs of a tree as a value. The leaves around an absent key are
consecutive, and the paths of consecutive leaves part at one branch: below it the first
keeps to the right border and the second to the left border. The first and the last leaf
have the paths along the outer borders. -/

namespace IavlStore.Tree

open IavlStore.Base.Encoding IavlStore.Base.Ics23 IavlStore.Base.Search IavlStore.Base.SortedPairs

/-- The operation of the left child of a node with the header. -/
def LeftStep (op : InnerOp) : Prop :=
  ∃ header right, op.pre = header ++ [lengthByte] ∧ op.suffix = lengthByte :: right ∧
    right.length = 32

def RightStep (op : InnerOp) : Prop :=
  ∃ header left, op.pre = header ++ [lengthByte] ++ left ++ [lengthByte] ∧ op.suffix = [] ∧
    left.length = 32

/-- Paths of two leaves stay neighbours below a common branch. -/
theorem neighbours_snoc {p q : List InnerOp} (h : Neighbours LeftStep RightStep p q) (op : InnerOp) :
    Neighbours LeftStep RightStep (p ++ [op]) (q ++ [op]) := by
  obtain ⟨below₁, below₂, step₁, step₂, common, rfl, rfl, hrest⟩ := h
  exact ⟨below₁, below₂, step₁, step₂, common ++ [op], by simp, by simp, hrest⟩

/-- Consecutive leaves lie in the same child of a branch, or they are the last of the
left child and the first of the right child. -/
theorem consecutive_cases {α : Type*} {l r a b : List α} {p q : α}
    (h : l ++ r = a ++ p :: q :: b) :
    (∃ c, l = a ++ p :: q :: c) ∨ (∃ c, r = c ++ p :: q :: b) ∨ (l = a ++ [p] ∧ r = q :: b) := by
  rcases List.append_eq_append_iff.mp h with ⟨c, -, hr⟩ | ⟨c, hl, hc⟩
  · exact .inr (.inl ⟨c, hr⟩)
  · rcases c with _ | ⟨p', _ | ⟨q', c⟩⟩
    · exact .inr (.inl ⟨[], hc.symm⟩)
    · obtain ⟨rfl, hr⟩ := List.cons.inj hc
      exact .inr (.inr ⟨hl, hr.symm⟩)
    · simp only [List.cons_append, List.cons.injEq] at hc
      obtain ⟨rfl, rfl, -⟩ := hc
      exact .inl ⟨c, hl⟩

namespace Node

variable {sha256 : Bytes → Bytes} (hlen : ∀ bytes, (sha256 bytes).length = 32)
  {t : Node Bytes Bytes} {a b : List (Bytes × Bytes)} {p q : Bytes × Bytes}
include hlen

theorem leftStep (h : ℤ) (s : ℕ) (v : ℤ) (r : Node Bytes Bytes) :
    LeftStep (convertInnerOp ⟨h, s, v, [], r.hashNode sha256⟩) :=
  ⟨_, _, rfl, rfl, hashNode_length hlen r⟩

theorem rightStep (h : ℤ) (s : ℕ) (v : ℤ) (l : Node Bytes Bytes) :
    RightStep (convertInnerOp ⟨h, s, v, l.hashNode sha256, []⟩) := by
  rw [convertInnerOp_right _ _ _ (by simp [hashNode_length hlen])]
  exact ⟨_, _, rfl, rfl, hashNode_length hlen l⟩

/-- The first leaf is reached along the left border. -/
theorem leftStep_of_first (ho : t.Ordered) (h : t.toList = q :: b) :
    ∀ op ∈ convertInnerOps (t.pathTo sha256 q.1), LeftStep op := by
  induction t generalizing b with
  | leaf => simp [pathTo, convertInnerOps]
  | branch ht s v k l r ihl ihr =>
    obtain ⟨hb, -, hol, -⟩ := ho
    obtain ⟨b', hl⟩ : ∃ b', l.toList = q :: b' := by
      rcases hl : l.toList with _ | ⟨q', b'⟩
      · exact absurd hl l.toList_ne_nil
      · rw [toList, hl, List.cons_append] at h
        exact ⟨b', by rw [(List.cons.inj h).1]⟩
    have hq : q.1 < k := hb q (by simp [hl])
    rw [pathTo, if_pos hq, convertInnerOps_cons]
    intro op hop
    rcases List.mem_append.mp hop with hop | hop
    · exact ihl hol hl op hop
    · rw [List.mem_singleton.mp hop]
      exact leftStep hlen _ _ _ r

/-- The last leaf is reached along the right border. -/
theorem rightStep_of_last (ho : t.Ordered) (h : t.toList = a ++ [p]) :
    ∀ op ∈ convertInnerOps (t.pathTo sha256 p.1), RightStep op := by
  induction t generalizing a with
  | leaf => simp [pathTo, convertInnerOps]
  | branch ht s v k l r ihl ihr =>
    have ha := ho.atLeast
    obtain ⟨-, -, -, hor⟩ := ho
    obtain ⟨a', hr⟩ : ∃ a', r.toList = a' ++ [p] := by
      rcases List.eq_nil_or_concat r.toList with hr | ⟨a', p', hr⟩
      · exact absurd hr r.toList_ne_nil
      · rw [toList, hr, List.concat_eq_append, ← List.append_assoc] at h
        exact ⟨a', by rw [hr, List.concat_eq_append, (List.append_inj' h rfl).2]⟩
    have hp : ¬ p.1 < k := not_lt.mpr (ha p (by simp [hr]))
    rw [pathTo, if_neg hp, convertInnerOps_cons]
    intro op hop
    rcases List.mem_append.mp hop with hop | hop
    · exact ihr hor hr op hop
    · rw [List.mem_singleton.mp hop]
      exact rightStep hlen _ _ _ l

/-- Consecutive leaves have neighbouring paths. -/
theorem neighbours_of_consecutive (ho : t.Ordered) (h : t.toList = a ++ p :: q :: b) :
    Neighbours LeftStep RightStep (convertInnerOps (t.pathTo sha256 p.1))
      (convertInnerOps (t.pathTo sha256 q.1)) := by
  induction t generalizing a b with
  | leaf =>
    have := congrArg List.length h
    simp only [toList, List.length_cons, List.length_nil, List.length_append] at this
    omega
  | branch ht s v k l r ihl ihr =>
    have ha := ho.atLeast
    obtain ⟨hb, -, hol, hor⟩ := ho
    rcases consecutive_cases h with ⟨c, hl⟩ | ⟨c, hr⟩ | ⟨hl, hr⟩
    · have hp : p.1 < k := hb p (by simp [hl])
      have hq : q.1 < k := hb q (by simp [hl])
      rw [pathTo, pathTo, if_pos hp, if_pos hq, convertInnerOps_cons, convertInnerOps_cons]
      exact neighbours_snoc (ihl hol hl) _
    · have hp : ¬ p.1 < k := not_lt.mpr (ha p (by simp [hr]))
      have hq : ¬ q.1 < k := not_lt.mpr (ha q (by simp [hr]))
      rw [pathTo, pathTo, if_neg hp, if_neg hq, convertInnerOps_cons, convertInnerOps_cons]
      exact neighbours_snoc (ihr hor hr) _
    · have hp : p.1 < k := hb p (by simp [hl])
      have hq : ¬ q.1 < k := not_lt.mpr (ha q (by simp [hr]))
      rw [pathTo, pathTo, if_pos hp, if_neg hq, convertInnerOps_cons, convertInnerOps_cons]
      exact ⟨_, _, _, _, [], rfl, rfl, leftStep hlen _ _ _ r, rightStep hlen _ _ _ l,
        rightStep_of_last hlen hol hl, leftStep_of_first hlen hor hr⟩

end Node

/-! ### The leaves around an absent key -/

/-- A proof that an absent key lies between two consecutive leaves, or beyond the first
or the last one. -/
structure Brackets (sha256 : Bytes → Bytes) (t : Node Bytes Bytes) (proof : NonExistenceProof) : Prop where
  left_none : proof.left = none ↔ ∀ p ∈ t.toList, ¬ p.1 < proof.key
  left_evaluate : ∀ e ∈ proof.left, e.evaluate sha256 = t.hashNode sha256
  left_mem : ∀ e ∈ proof.left, (e.key, e.value) ∈ t.toList ∧ e.key < proof.key
  left_greatest : ∀ e ∈ proof.left, ∀ p ∈ t.toList, p.1 < proof.key → p.1 ≤ e.key
  right_none : proof.right = none ↔ ∀ p ∈ t.toList, ¬ proof.key < p.1
  right_evaluate : ∀ e ∈ proof.right, e.evaluate sha256 = t.hashNode sha256
  right_mem : ∀ e ∈ proof.right, (e.key, e.value) ∈ t.toList ∧ proof.key < e.key
  right_least : ∀ e ∈ proof.right, ∀ p ∈ t.toList, proof.key < p.1 → e.key ≤ p.1
  neighbours : ∀ e ∈ proof.left, ∀ e' ∈ proof.right, Neighbours LeftStep RightStep e.path e'.path
  rightMost : proof.right = none → ∀ e ∈ proof.left, ∀ op ∈ e.path, RightStep op
  leftMost : proof.left = none → ∀ e ∈ proof.right, ∀ op ∈ e.path, LeftStep op

namespace Node

/-- The proof from the leaves before and after the place of the key. -/
def nonExistenceProof (sha256 : Bytes → Bytes) (key : Bytes) (t : Node Bytes Bytes) :
    NonExistenceProof :=
  let i := rank key t.toList
  ⟨key, if 1 ≤ i then t.toList[i - 1]?.map fun p => t.existenceProof sha256 p.1 else none,
    t.toList[i]?.map fun p => t.existenceProof sha256 p.1⟩

/-- A sorted list splits at an absent key. -/
theorem split_at_rank {l : List (Bytes × Bytes)} {key : Bytes} (hs : Sorted l)
    (hk : lookupPair key l = none) :
    ∃ a b, l = a ++ b ∧ a.length = rank key l ∧ Below a key ∧ ∀ p ∈ b, key < p.1 := by
  refine ⟨l.take (searchIndex key l), l.drop (searchIndex key l), by simp, ?_,
    take_searchIndex key hs, fun p hp => ?_⟩
  · rw [rank_eq_searchIndex hs, List.length_take, min_eq_left (searchIndex_least key hs).le]
  · refine lt_of_le_of_ne (drop_searchIndex key hs p hp) fun he => ?_
    obtain ⟨v, hv⟩ := exists_lookupPair_of_mem (List.mem_map_of_mem (List.mem_of_mem_drop hp))
    rw [← he, hk] at hv
    cases hv

/-- What the proof of a leaf's key shows. -/
theorem existenceProof_of_mem (sha256 : Bytes → Bytes) {t : Node Bytes Bytes} (ho : t.Ordered)
    {p : Bytes × Bytes} (hp : p ∈ t.toList) :
    (t.existenceProof sha256 p.1).key = p.1 ∧ (t.existenceProof sha256 p.1).value = p.2 := by
  have hl := (mem_iff_lookupPair ho.sorted p.1 p.2).mp hp
  rw [lookupPair_eq_leafFor p.1 ho] at hl
  split_ifs at hl with hk
  exact ⟨hk, Option.some.inj hl⟩

/-- The two parts are the proofs of the last smaller and the first greater leaf. -/
theorem nonExistenceProof_eq (sha256 : Bytes → Bytes) {t : Node Bytes Bytes} {key : Bytes}
    {a b : List (Bytes × Bytes)} (hl : t.toList = a ++ b) (hi : a.length = rank key t.toList) :
    t.nonExistenceProof sha256 key =
      ⟨key, a.getLast?.map fun p => t.existenceProof sha256 p.1,
        b.head?.map fun p => t.existenceProof sha256 p.1⟩ := by
  have hright : t.toList[rank key t.toList]? = b.head? := by
    rw [← hi, hl, List.getElem?_append_right le_rfl, Nat.sub_self, List.head?_eq_getElem?]
  rw [nonExistenceProof, hright]
  rcases List.eq_nil_or_concat a with rfl | ⟨a', p, rfl⟩
  · rw [if_neg (by rw [← hi]; simp)]
    rfl
  · rw [List.concat_eq_append] at hl hi ⊢
    have hleft : t.toList[rank key t.toList - 1]? = some p := by
      rw [← hi, hl]
      simp
    rw [if_pos (by rw [← hi]; simp), hleft]
    simp

/-- The proof of an absent key brackets it. -/
theorem brackets_nonExistenceProof {sha256 : Bytes → Bytes}
    (hlen : ∀ bytes, (sha256 bytes).length = 32) {t : Node Bytes Bytes} (hb : t.Balanced)
    (ho : t.Ordered) (hs : t.size < 2 ^ 63) {key : Bytes} (hk : lookupPair key t.toList = none) :
    Brackets sha256 t (t.nonExistenceProof sha256 key) := by
  obtain ⟨a, b, hl, hi, hlt, hgt⟩ := split_at_rank ho.sorted hk
  rw [nonExistenceProof_eq sha256 hl hi]
  have hsorted := ho.sorted
  rw [hl] at hsorted
  obtain ⟨hsa, hsb, hab⟩ := Sorted.append_iff.mp hsorted
  -- each part, where it is there, is the proof of a leaf next to the split
  have hleft : ∀ e ∈ a.getLast?.map fun p => t.existenceProof sha256 p.1,
      ∃ a' p, a = a' ++ [p] ∧ e = t.existenceProof sha256 p.1 ∧ e.key = p.1 ∧ e.value = p.2 := by
    intro e he
    obtain ⟨p, hp, rfl⟩ := Option.map_eq_some_iff.mp he
    obtain ⟨a', rfl⟩ := List.getLast?_eq_some_iff.mp hp
    exact ⟨a', p, rfl, rfl, existenceProof_of_mem sha256 ho (by simp [hl])⟩
  have hright : ∀ e ∈ b.head?.map fun p => t.existenceProof sha256 p.1,
      ∃ q b', b = q :: b' ∧ e = t.existenceProof sha256 q.1 ∧ e.key = q.1 ∧ e.value = q.2 := by
    intro e he
    obtain ⟨q, hq, rfl⟩ := Option.map_eq_some_iff.mp he
    obtain ⟨b', rfl⟩ := List.head?_eq_some_iff.mp hq
    exact ⟨q, b', rfl, rfl, existenceProof_of_mem sha256 ho (by simp [hl])⟩
  have below {p : Bytes × Bytes} (hp : p ∈ t.toList) (h : p.1 < key) : p ∈ a :=
    (List.mem_append.mp (hl ▸ hp)).resolve_right fun hb => (hgt p hb).not_gt h
  have above {p : Bytes × Bytes} (hp : p ∈ t.toList) (h : key < p.1) : p ∈ b :=
    (List.mem_append.mp (hl ▸ hp)).resolve_left fun ha => (hlt p ha).not_gt h
  constructor
  case left_none =>
    rw [Option.map_eq_none_iff, List.getLast?_eq_none_iff]
    constructor
    · rintro rfl p hp h
      exact absurd (below hp h) List.not_mem_nil
    · refine fun h => List.eq_nil_iff_forall_not_mem.mpr fun p hp => ?_
      exact h p (by simp [hl, hp]) (hlt p hp)
  case left_evaluate =>
    intro e he
    obtain ⟨a', p, -, rfl, -⟩ := hleft e he
    exact evaluate_existenceProof hlen p.1 hb hs
  case left_mem =>
    intro e he
    obtain ⟨a', p, rfl, -, hkey, hval⟩ := hleft e he
    rw [hkey, hval]
    exact ⟨by simp [hl], hlt p (by simp)⟩
  case left_greatest =>
    intro e he p' hp' h
    obtain ⟨a', p, rfl, -, hkey, -⟩ := hleft e he
    rw [hkey]
    rcases List.mem_append.mp (below hp' h) with hm | hm
    · exact ((Sorted.append_iff.mp hsa).2.2 p' hm p (by simp)).le
    · rw [List.mem_singleton.mp hm]
  case right_none =>
    rw [Option.map_eq_none_iff, List.head?_eq_none_iff]
    constructor
    · rintro rfl p hp h
      exact absurd (above hp h) List.not_mem_nil
    · refine fun h => List.eq_nil_iff_forall_not_mem.mpr fun p hp => ?_
      exact h p (by simp [hl, hp]) (hgt p hp)
  case right_evaluate =>
    intro e he
    obtain ⟨q, b', -, rfl, -⟩ := hright e he
    exact evaluate_existenceProof hlen q.1 hb hs
  case right_mem =>
    intro e he
    obtain ⟨q, b', rfl, -, hkey, hval⟩ := hright e he
    rw [hkey, hval]
    exact ⟨by simp [hl], hgt q (by simp)⟩
  case right_least =>
    intro e he p' hp' h
    obtain ⟨q, b', rfl, -, hkey, -⟩ := hright e he
    rw [hkey]
    rcases List.mem_cons.mp (above hp' h) with rfl | hm
    · exact le_rfl
    · exact ((List.pairwise_cons.mp hsb).1 p' hm).le
  case neighbours =>
    intro e he e' he'
    obtain ⟨a', p, rfl, rfl, -⟩ := hleft e he
    obtain ⟨q, b', rfl, rfl, -⟩ := hright e' he'
    exact neighbours_of_consecutive hlen ho (by rw [hl, List.append_assoc]; rfl)
  case rightMost =>
    intro hnone e he
    obtain ⟨a', p, rfl, rfl, -⟩ := hleft e he
    obtain rfl : b = [] := by simpa using hnone
    exact rightStep_of_last hlen ho (by rw [hl, List.append_nil])
  case leftMost =>
    intro hnone e he
    obtain ⟨q, b', rfl, rfl, -⟩ := hright e he
    obtain rfl : a = [] := by simpa using hnone
    exact leftStep_of_first hlen ho hl

/-! ### The lengths light clients check -/

/-- The numbers of every branch take few enough bytes for the window of a format. -/
def HeadersFit (spec : InnerSpec) : Node Bytes Bytes → Prop
  | leaf _ _ _ => True
  | branch h s v _ l r =>
    spec.minPrefixLength ≤ (opHeader (int8 h) s (int64 v)).length + 1 ∧
      (opHeader (int8 h) s (int64 v)).length + 1 ≤ spec.maxPrefixLength ∧
      l.HeadersFit spec ∧ r.HeadersFit spec

/-- The steps of a path have the lengths of their sides. -/
theorem hasPadding_of_mem {sha256 : Bytes → Bytes} (hlen : ∀ bytes, (sha256 bytes).length = 32)
    {spec : InnerSpec} (hspec : spec.childSize = 33) {t : Node Bytes Bytes} (hf : t.HeadersFit spec)
    (key : Bytes) : ∀ op ∈ convertInnerOps (t.pathTo sha256 key),
      (LeftStep op → spec.hasPadding 0 op = true) ∧ (RightStep op → spec.hasPadding 1 op = true) := by
  induction t with
  | leaf => simp [pathTo, convertInnerOps]
  | branch h s v k l r ihl ihr =>
    obtain ⟨hmin, hmax, hfl, hfr⟩ := hf
    intro op hop
    rw [pathTo] at hop
    split_ifs at hop <;> rw [convertInnerOps_cons] at hop <;>
      rcases List.mem_append.mp hop with hop | hop
    · exact ihl hfl op hop
    · rw [List.mem_singleton.mp hop, convertInnerOp_left]
      have hr := hashNode_length hlen r
      refine ⟨fun _ => by simp [InnerSpec.hasPadding, hspec, hr, hmin, hmax], fun hright => ?_⟩
      obtain ⟨_, _, _, hsuf, _⟩ := hright
      cases hsuf
    · exact ihr hfr op hop
    · have hl := hashNode_length hlen l
      rw [List.mem_singleton.mp hop, convertInnerOp_right _ _ _ (by omega)]
      refine ⟨fun hleft => ?_, fun _ => ?_⟩
      · obtain ⟨_, _, _, hsuf, _⟩ := hleft
        cases hsuf
      · simp [InnerSpec.hasPadding, hspec, hl]
        omega

/-- Every part of the proof is the proof of some key. -/
theorem exists_of_mem_nonExistenceProof {sha256 : Bytes → Bytes} {t : Node Bytes Bytes} {key : Bytes}
    {e : ExistenceProof} (he : e ∈ (t.nonExistenceProof sha256 key).left ∨
      e ∈ (t.nonExistenceProof sha256 key).right) :
    ∃ k, e.path = convertInnerOps (t.pathTo sha256 k) := by
  rw [nonExistenceProof] at he
  rcases he with he | he
  · dsimp only at he
    split_ifs at he
    · obtain ⟨p, -, rfl⟩ := Option.map_eq_some_iff.mp he
      exact ⟨p.1, rfl⟩
    · cases he
  · obtain ⟨p, -, rfl⟩ := Option.map_eq_some_iff.mp he
    exact ⟨p.1, rfl⟩

/-- Where the numbers fit the format, the check of the lengths accepts the proof. -/
theorem checkPaths_nonExistenceProof {sha256 : Bytes → Bytes}
    (hlen : ∀ bytes, (sha256 bytes).length = 32) {spec : InnerSpec} (hspec : spec.childSize = 33)
    {t : Node Bytes Bytes} (hf : t.HeadersFit spec) {key : Bytes}
    (hk : lookupPair key t.toList = none) (h : Brackets sha256 t (t.nonExistenceProof sha256 key)) :
    spec.checkPaths (t.nonExistenceProof sha256 key) = true := by
  have hpad {e : ExistenceProof} (he : e ∈ (t.nonExistenceProof sha256 key).left ∨
      e ∈ (t.nonExistenceProof sha256 key).right) : ∀ op ∈ e.path,
      (LeftStep op → spec.hasPadding 0 op = true) ∧ (RightStep op → spec.hasPadding 1 op = true) := by
    obtain ⟨k, hpath⟩ := exists_of_mem_nonExistenceProof he
    rw [hpath]
    exact hasPadding_of_mem hlen hspec hf k
  rcases hleft : (t.nonExistenceProof sha256 key).left with _ | l <;>
    rcases hright : (t.nonExistenceProof sha256 key).right with _ | r <;>
    simp only [InnerSpec.checkPaths, hleft, hright]
  · -- some leaf is there, and its key is not the absent one
    obtain ⟨x, hx⟩ := t.minKey_mem
    have hle := not_lt.mp (h.left_none.mp hleft _ hx)
    have hge := not_lt.mp (h.right_none.mp hright _ hx)
    obtain ⟨v, hv⟩ := exists_lookupPair_of_mem (List.mem_map_of_mem hx)
    rw [show t.minKey = key from le_antisymm hge hle, hk] at hv
    cases hv
  · exact List.all_eq_true.mpr fun op hop =>
      (hpad (.inr hright) op hop).1 (h.leftMost hleft r hright op hop)
  · exact List.all_eq_true.mpr fun op hop =>
      (hpad (.inl hleft) op hop).2 (h.rightMost hright l hleft op hop)
  · have hall (op : InnerOp) (hop : op ∈ l.path ++ r.path) :
        (LeftStep op → spec.hasPadding 0 op = true) ∧ (RightStep op → spec.hasPadding 1 op = true) :=
      (List.mem_append.mp hop).elim (hpad (.inl hleft) op) (hpad (.inr hright) op)
    exact InnerSpec.isLeftNeighbor_of_neighbours (h.neighbours l hleft r hright)
      (fun op hop => (hall op hop).1) (fun op hop => (hall op hop).2) (by omega)

end Node

end IavlStore.Tree
