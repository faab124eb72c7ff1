import Mathlib.Tactic
import Mathlib.Data.List.Lex
import Mathlib.Data.List.Sort

/-! Finite maps as association lists with strictly increasing keys. Insertion
replaces the value of a present key, erasure drops a key, and a lookup in a
concatenation of two separated lists goes to the side its key belongs to. -/

namespace IavlStore.Base.SortedPairs

variable {K V : Type*} [LinearOrder K]

/-- Keys strictly increasing from left to right. -/
def Sorted (l : List (K × V)) : Prop := l.Pairwise (fun a b => a.1 < b.1)

/-- Insert at the place of the key, replacing the value of an equal key. -/
def insertPair (k : K) (v : V) : List (K × V) → List (K × V)
  | [] => [(k, v)]
  | (k', v') :: l =>
    if k < k' then (k, v) :: (k', v') :: l
    else if k' < k then (k', v') :: insertPair k v l
    else (k', v) :: l

/-- Drop the pairs of a key. -/
def erasePair (k : K) (l : List (K × V)) : List (K × V) := l.filter (fun p => p.1 ≠ k)

/-- The value of the first pair of a key. -/
def lookupPair (k : K) : List (K × V) → Option V
  | [] => none
  | (a, b) :: l => if k = a then some b else lookupPair k l

/-- Every key of the list is below `k`. -/
def Below (l : List (K × V)) (k : K) : Prop := ∀ p ∈ l, p.1 < k

/-- Every key of the list is `k` or above. -/
def AtLeast (l : List (K × V)) (k : K) : Prop := ∀ p ∈ l, k ≤ p.1

/-- The number of keys below `k`. -/
def rank (k : K) (l : List (K × V)) : ℕ := l.countP (fun p => p.1 < k)

theorem Below.append {l r : List (K × V)} {k : K} (hl : Below l k) (hr : Below r k) :
    Below (l ++ r) k := by
  intro p hp
  rcases List.mem_append.mp hp with hp | hp
  · exact hl p hp
  · exact hr p hp

theorem Below.mono {l : List (K × V)} {k k' : K} (h : Below l k) (hk : k ≤ k') : Below l k' :=
  fun p hp => (h p hp).trans_le hk

theorem Sorted.append_iff {l r : List (K × V)} :
    Sorted (l ++ r) ↔ Sorted l ∧ Sorted r ∧ ∀ a ∈ l, ∀ b ∈ r, a.1 < b.1 :=
  List.pairwise_append

theorem Sorted.of_split {l r : List (K × V)} {k : K} (hl : Sorted l) (hr : Sorted r)
    (hb : Below l k) (ha : AtLeast r k) : Sorted (l ++ r) :=
  Sorted.append_iff.mpr ⟨hl, hr, fun a h b h' => (hb a h).trans_le (ha b h')⟩

/-! ### Membership -/

theorem mem_insertPair {k : K} {v : V} {l : List (K × V)} {p : K × V}
    (h : p ∈ insertPair k v l) : p = (k, v) ∨ p ∈ l := by
  induction l with
  | nil => simpa [insertPair] using h
  | cons q l ih =>
    obtain ⟨k', v'⟩ := q
    simp only [insertPair] at h
    split_ifs at h with h1 h2
    · simpa using h
    · rcases List.mem_cons.mp h with h | h
      · simp [h]
      · rcases ih h with h | h <;> simp [h]
    · have hk : k = k' := le_antisymm (not_lt.mp h2) (not_lt.mp h1)
      rcases List.mem_cons.mp h with h | h
      · left; rw [h, hk]
      · simp [h]

theorem insertPair_sorted {k : K} {v : V} {l : List (K × V)} (h : Sorted l) :
    Sorted (insertPair k v l) := by
  induction l with
  | nil => simp [insertPair, Sorted]
  | cons q l ih =>
    obtain ⟨k', v'⟩ := q
    obtain ⟨hq, hl⟩ := List.pairwise_cons.mp h
    simp only [insertPair]
    split_ifs with h1 h2
    · refine List.pairwise_cons.mpr ⟨fun p hp => ?_, h⟩
      rcases List.mem_cons.mp hp with rfl | hp
      · exact h1
      · exact h1.trans (hq p hp)
    · refine List.pairwise_cons.mpr ⟨fun p hp => ?_, ih hl⟩
      rcases mem_insertPair hp with rfl | hp
      · exact h2
      · exact hq p hp
    · exact List.pairwise_cons.mpr ⟨fun p hp => hq p hp, hl⟩

theorem erasePair_sorted {k : K} {l : List (K × V)} (h : Sorted l) : Sorted (erasePair k l) :=
  h.filter _

theorem erasePair_eq_self {k : K} {l : List (K × V)} (h : ∀ p ∈ l, p.1 ≠ k) :
    erasePair k l = l := List.filter_eq_self.mpr (by simpa using h)

/-! ### Separated concatenations -/

theorem insertPair_append_left {k : K} {v : V} {l r : List (K × V)}
    (h : ∀ p ∈ r, k < p.1) : insertPair k v (l ++ r) = insertPair k v l ++ r := by
  induction l with
  | nil =>
    rcases r with _ | ⟨⟨k', v'⟩, r⟩
    · rfl
    · have hk : k < k' := h (k', v') (by simp)
      simp [insertPair, hk]
  | cons q l ih =>
    obtain ⟨k', v'⟩ := q
    simp only [List.cons_append, insertPair, ih]
    split_ifs <;> rfl

theorem insertPair_append_right {k : K} {v : V} {l r : List (K × V)} (h : Below l k) :
    insertPair k v (l ++ r) = l ++ insertPair k v r := by
  induction l with
  | nil => rfl
  | cons q l ih =>
    obtain ⟨k', v'⟩ := q
    have hk : k' < k := h (k', v') (by simp)
    simp only [List.cons_append, insertPair, hk, not_lt.mpr hk.le, ↓reduceIte]
    rw [ih fun p hp => h p (by simp [hp])]

@[simp] theorem erasePair_append (k : K) (l r : List (K × V)) :
    erasePair k (l ++ r) = erasePair k l ++ erasePair k r := List.filter_append _ _

/-! ### Rank -/

theorem rank_append_left {k : K} {l r : List (K × V)} (h : AtLeast r k) :
    rank k (l ++ r) = rank k l := by
  have : r.countP (fun p => decide (p.1 < k)) = 0 :=
    List.countP_eq_zero.mpr fun p hp => by simpa using h p hp
  rw [rank, List.countP_append, this, Nat.add_zero, rank]

theorem rank_append_right {k : K} {l r : List (K × V)} (h : Below l k) :
    rank k (l ++ r) = l.length + rank k r := by
  have : l.countP (fun p => decide (p.1 < k)) = l.length :=
    List.countP_eq_length.mpr fun p hp => by simpa using h p hp
  rw [rank, List.countP_append, this, rank]

/-! ### Lookup -/

@[simp] theorem lookupPair_nil (k : K) : lookupPair k ([] : List (K × V)) = none := rfl

theorem lookupPair_cons (k a : K) (b : V) (l : List (K × V)) :
    lookupPair k ((a, b) :: l) = if k = a then some b else lookupPair k l := rfl

theorem lookupPair_append (k : K) (l r : List (K × V)) :
    lookupPair k (l ++ r) = (lookupPair k l).or (lookupPair k r) := by
  induction l with
  | nil => rfl
  | cons q l ih =>
    obtain ⟨a, b⟩ := q
    rw [List.cons_append, lookupPair_cons, lookupPair_cons, ih]
    split_ifs <;> rfl

theorem lookupPair_insertPair (k k' : K) (v : V) (l : List (K × V)) :
    lookupPair k' (insertPair k v l) = if k' = k then some v else lookupPair k' l := by
  induction l with
  | nil => rw [insertPair, lookupPair_cons]
  | cons q l ih =>
    obtain ⟨a, b⟩ := q
    simp only [insertPair]
    split_ifs with h1 h2 h2 h3 h3
    · rw [lookupPair_cons, if_pos h2]
    · rw [lookupPair_cons, if_neg h2]
    · rw [lookupPair_cons, ih, if_pos h3, if_neg (h3.trans_ne h2.ne')]
    · rw [lookupPair_cons, lookupPair_cons, ih, if_neg h3]
    · have ha : a = k := le_antisymm (not_lt.mp h1) (not_lt.mp h2)
      rw [lookupPair_cons, if_pos (h3.trans ha.symm)]
    · have ha : a = k := le_antisymm (not_lt.mp h1) (not_lt.mp h2)
      rw [lookupPair_cons, lookupPair_cons, if_neg (ha ▸ h3), if_neg (ha ▸ h3)]

/-- Pairs of other keys may be left out. -/
theorem lookupPair_filter {p : K → Bool} {k : K} (hk : p k = true) (l : List (K × V)) :
    lookupPair k (l.filter fun q => p q.1) = lookupPair k l := by
  induction l with
  | nil => rfl
  | cons q l ih =>
    obtain ⟨a, b⟩ := q
    by_cases ha : p a = true
    · rw [List.filter_cons_of_pos (by exact ha), lookupPair_cons, lookupPair_cons, ih]
    · rw [List.filter_cons_of_neg (by exact ha), lookupPair_cons, ih, if_neg]
      rintro rfl
      exact ha hk

theorem lookupPair_erasePair (k k' : K) (l : List (K × V)) :
    lookupPair k' (erasePair k l) = if k' = k then none else lookupPair k' l := by
  induction l with
  | nil => simp [erasePair]
  | cons q l ih =>
    obtain ⟨a, b⟩ := q
    by_cases ha : a = k
    · subst ha
      have : erasePair a ((a, b) :: l) = erasePair a l := by simp [erasePair]
      rw [this, ih, lookupPair_cons]
      split_ifs <;> rfl
    · have : erasePair k ((a, b) :: l) = (a, b) :: erasePair k l := by simp [erasePair, ha]
      rw [this, lookupPair_cons, lookupPair_cons, ih]
      by_cases hk : k' = a
      · subst hk; simp [ha]
      · simp [hk]

theorem lookupPair_eq_none {k : K} {l : List (K × V)} (h : ∀ p ∈ l, p.1 ≠ k) :
    lookupPair k l = none := by
  induction l with
  | nil => rfl
  | cons q l ih =>
    rw [lookupPair_cons, if_neg (h q (by simp)).symm]
    exact ih fun p hp => h p (by simp [hp])

theorem pair_mem_of_lookupPair {k : K} {v : V} {l : List (K × V)} (h : lookupPair k l = some v) :
    (k, v) ∈ l := by
  induction l with
  | nil => exact nomatch h
  | cons p l ih =>
    rw [lookupPair_cons] at h
    split_ifs at h with hk
    · obtain rfl := Option.some.inj h
      simp [hk]
    · exact List.mem_cons_of_mem _ (ih h)

theorem mem_of_lookupPair {k : K} {v : V} {l : List (K × V)} (h : lookupPair k l = some v) :
    k ∈ l.map Prod.fst := List.mem_map_of_mem (pair_mem_of_lookupPair h)

theorem exists_lookupPair_of_mem {k : K} {l : List (K × V)} (h : k ∈ l.map Prod.fst) :
    ∃ v, lookupPair k l = some v := by
  induction l with
  | nil => cases h
  | cons p l ih =>
    rw [lookupPair_cons]
    split_ifs with hk
    · exact ⟨p.2, rfl⟩
    · exact ih ((List.mem_cons.mp h).resolve_left hk)

theorem lookupPair_append_left {k : K} {l r : List (K × V)} (h : ∀ p ∈ r, p.1 ≠ k) :
    lookupPair k (l ++ r) = lookupPair k l := by
  rw [lookupPair_append, lookupPair_eq_none h, Option.or_none]

theorem lookupPair_append_right {k : K} {l r : List (K × V)} (h : ∀ p ∈ l, p.1 ≠ k) :
    lookupPair k (l ++ r) = lookupPair k r := by
  rw [lookupPair_append, lookupPair_eq_none h, Option.none_or]

/-- What a prefix finds, the list finds. -/
theorem lookupPair_of_take {k : K} {v : V} {n : ℕ} {l : List (K × V)}
    (h : lookupPair k (l.take n) = some v) : lookupPair k l = some v := by
  rw [← List.take_append_drop n l, lookupPair_append, h, Option.some_or]

/-- In a sorted list a pair is listed exactly when its key looks its value up. -/
theorem mem_iff_lookupPair {l : List (K × V)} (h : Sorted l) (k : K) (v : V) :
    (k, v) ∈ l ↔ lookupPair k l = some v := by
  induction l with
  | nil => simp
  | cons q l ih =>
    obtain ⟨a, b⟩ := q
    obtain ⟨hq, hl⟩ := List.pairwise_cons.mp h
    rw [lookupPair_cons, List.mem_cons, ih hl]
    by_cases hk : k = a
    · subst hk
      have : lookupPair k l = none := lookupPair_eq_none fun p hp => (hq p hp).ne'
      simp [this, eq_comm]
    · simp [hk]

/-! ### Several pairs -/

/-- Insert pairs one after the other. -/
def insertPairs (ps l : List (K × V)) : List (K × V) := ps.foldl (fun l p => insertPair p.1 p.2 l) l

theorem insertPairs_sorted {ps l : List (K × V)} (h : Sorted l) : Sorted (insertPairs ps l) := by
  induction ps generalizing l with
  | nil => exact h
  | cons p ps ih => exact ih (insertPair_sorted h)

theorem insertPair_perm {k : K} {v : V} {l : List (K × V)} (h : ∀ p ∈ l, p.1 ≠ k) :
    (insertPair k v l).Perm ((k, v) :: l) := by
  induction l with
  | nil => exact .refl _
  | cons q l ih =>
    obtain ⟨k', v'⟩ := q
    have hk : k' ≠ k := h (k', v') (by simp)
    simp only [insertPair]
    split_ifs with h1 h2
    · exact .refl _
    · exact ((ih fun p hp => h p (by simp [hp])).cons _).trans (.swap _ _ _)
    · exact absurd (le_antisymm (not_lt.mp h1) (not_lt.mp h2)) hk

/-- Pairs of new and different keys are all added. -/
theorem insertPairs_perm {ps l : List (K × V)} (hps : (ps.map Prod.fst).Nodup)
    (h : ∀ p ∈ ps, ∀ q ∈ l, q.1 ≠ p.1) : (insertPairs ps l).Perm (ps ++ l) := by
  induction ps generalizing l with
  | nil => exact .refl _
  | cons p ps ih =>
    obtain ⟨hp, hps⟩ := List.nodup_cons.mp hps
    have hnew : ∀ q ∈ l, q.1 ≠ p.1 := h p (by simp)
    have hperm := insertPair_perm (v := p.2) hnew
    refine (ih hps fun p' hp' q hq => ?_).trans ?_
    · rcases List.mem_cons.mp (hperm.mem_iff.mp hq) with rfl | hq
      · exact fun heq => hp (heq ▸ List.mem_map_of_mem hp')
      · exact h p' (by simp [hp']) q hq
    · exact (hperm.append_left ps).trans List.perm_middle

/-- What was inserted is found before what was there. -/
theorem lookupPair_insertPairs {ps : List (K × V)} (hps : (ps.map Prod.fst).Nodup) (k : K) (l : List (K × V)) :
    lookupPair k (insertPairs ps l) = (lookupPair k ps).or (lookupPair k l) := by
  induction ps generalizing l with
  | nil => rfl
  | cons p ps ih =>
    obtain ⟨hp, hps⟩ := List.nodup_cons.mp hps
    have hrest := ih hps (insertPair p.1 p.2 l)
    rw [insertPairs] at hrest ⊢
    rw [List.foldl_cons, hrest, lookupPair_insertPair, lookupPair_cons]
    split_ifs with hk
    · have hnone : lookupPair k ps = none := lookupPair_eq_none fun q hq heq => by
        rw [hk] at heq
        exact hp (heq ▸ List.mem_map_of_mem hq)
      rw [hnone]
      rfl
    · rfl

theorem lookupPair_map {V' : Type*} (f : V → V') (k : K) (l : List (K × V)) :
    lookupPair k (l.map fun p => (p.1, f p.2)) = (lookupPair k l).map f := by
  induction l with
  | nil => rfl
  | cons p l ih =>
    rw [List.map_cons, lookupPair_cons, lookupPair_cons, ih]
    split_ifs <;> rfl

/-- Sorted lists that find the same values are equal. -/
theorem Sorted.ext {l l' : List (K × V)} (h : Sorted l) (h' : Sorted l')
    (hsame : ∀ k, lookupPair k l = lookupPair k l') : l = l' := by
  have hmem : ∀ p, p ∈ l ↔ p ∈ l' := fun p => by
    rw [mem_iff_lookupPair h p.1 p.2, mem_iff_lookupPair h' p.1 p.2, hsame]
  have hnodup : ∀ {m : List (K × V)}, Sorted m → m.Nodup := fun hm => hm.imp fun hlt heq => hlt.ne (congrArg Prod.fst heq)
  have hperm := (List.perm_ext_iff_of_nodup (hnodup h) (hnodup h')).mpr hmem
  exact hperm.eq_of_pairwise (fun a b _ _ hab hba => absurd hba hab.not_gt) h h'

end IavlStore.Base.SortedPairs
