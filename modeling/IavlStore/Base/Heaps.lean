import Mathlib.Data.List.Sort
import Mathlib.Order.RelClasses
import Mathlib.Tactic

/-! Binary heaps in lists for a strict weak order: no entry is lesser than its parent, so none is
lesser than the first. The contract of a heap says what becomes of a list whose first entry was
changed or is removed; sifting entries down keeps it. -/

namespace IavlStore.Base.Heaps

variable {A : Type*}

/-- No later item is lesser than an earlier one. -/
def Ascending (lesser : A → A → Bool) (l : List A) : Prop := l.Pairwise fun a b => lesser b a = false

section
variable {K : Type*} [LinearOrder K] (key : A → K)

/-- Comparing by a key. -/
def byKey (a b : A) : Bool := decide (key a < key b)

theorem byKey_eq_true {a b : A} : byKey key a b = true ↔ key a < key b := decide_eq_true_iff

theorem byKey_eq_false {a b : A} : byKey key a b = false ↔ key b ≤ key a := decide_eq_false_iff_not.trans not_lt

theorem insertionSort_ascending (l : List A) : (l.insertionSort fun a b => key a ≤ key b).Perm l ∧
    Ascending (byKey key) (l.insertionSort fun a b => key a ≤ key b) := by
  have htotal : Std.Total fun a b => key a ≤ key b := ⟨fun a b => le_total _ _⟩
  have htrans : IsTrans A fun a b => key a ≤ key b := ⟨fun a b c => le_trans⟩
  refine ⟨List.perm_insertionSort _ l, (List.pairwise_insertionSort _ l).imp fun h => ?_⟩
  exact (byKey_eq_false key).mpr h

/-- What has the same key is not told apart. -/
theorem strictWeakOrder_byKey : IsStrictWeakOrder A fun a b => byKey key a b = true where
  irrefl a := by simp [byKey]
  trans a b c := by
    simp only [byKey_eq_true]
    exact lt_trans
  incomp_trans a b c := by
    simp only [byKey_eq_true, not_lt]
    exact fun hab hbc => ⟨hbc.1.trans hab.1, hab.2.trans hbc.2⟩

end

/-- A permutation of images is the image of a permutation. -/
theorem exists_perm_map {B : Type*} {f : A → B} {l : List B} {m : List A} (h : l.Perm (m.map f)) :
    ∃ m' : List A, m'.Perm m ∧ l = m'.map f := by
  have hcomp : Relation.Comp (· = List.map f ·) List.Perm l m := by
    rw [List.eq_map_comp_perm]
    exact h
  obtain ⟨m', hl, hm⟩ := hcomp
  exact ⟨m', hm, hl⟩

def Child (i j : ℕ) : Prop := j = 2 * i + 1 ∨ j = 2 * i + 2

/-- No entry is lesser than its parent, for parents from position `k` on. -/
def HeapFrom (lesser : A → A → Bool) (k : ℕ) (l : List A) : Prop :=
  ∀ i j a b, k ≤ i → Child i j → l[i]? = some a → l[j]? = some b → lesser b a = false

/-- What a heap does: make a heap of any list, and of a heap whose first entry was changed, with
this entry or without it. -/
structure HeapContract (lesser : A → A → Bool) where
  init : List A → List A
  fix : List A → List A
  remove : List A → List A
  init_spec : ∀ l, (init l).Perm l ∧ HeapFrom lesser 0 (init l)
  fix_spec : ∀ l, HeapFrom lesser 1 l → (fix l).Perm l ∧ HeapFrom lesser 0 (fix l)
  remove_spec : ∀ l, HeapFrom lesser 1 l → (remove l).Perm l.tail ∧ HeapFrom lesser 0 (remove l)

variable {lesser : A → A → Bool} {l : List A} {x y : A} {k i : ℕ}

/-- Only the first entry may be changed without harm to what is below. -/
theorem HeapFrom.changed_head (h : HeapFrom lesser 0 (x :: l)) : HeapFrom lesser 1 (y :: l) := by
  intro i j a b hi hj ha hb
  obtain ⟨i, rfl⟩ := Nat.exists_eq_add_of_le' hi
  obtain ⟨j, rfl⟩ : ∃ j', j = j' + 1 := by rcases hj with rfl | rfl <;> exact ⟨_, rfl⟩
  exact h (i + 1) (j + 1) a b (Nat.zero_le _) hj ha hb

variable [IsStrictWeakOrder A fun a b => lesser a b = true]

theorem not_lesser_trans {a b c : A} (hab : lesser a b = false) (hbc : lesser b c = false) :
    lesser a c = false := by
  by_contra hac
  rw [Bool.not_eq_false] at hac
  -- neither `b` and `a` nor `c` and `b` are comparable, so `a` and `c` are not
  have hba : lesser b a ≠ true := fun h => by simp [trans_of (lesser · · = true) h hac] at hbc
  have hcb : lesser c b ≠ true := fun h => by simp [trans_of (lesser · · = true) hac h] at hab
  have hincomp := @IsStrictWeakOrder.incomp_trans A (lesser · · = true) _ a b c
  exact (hincomp ⟨by simp [hab], hba⟩ ⟨by simp [hbc], hcb⟩).1 hac

theorem not_lesser_of_lesser {a b : A} (h : lesser a b = true) : lesser b a = false :=
  Bool.eq_false_iff.mpr (asymm_of (lesser · · = true) h)

/-- The first entry of a heap is a least one. -/
theorem HeapFrom.head_least (h : HeapFrom lesser 0 (x :: l)) : ∀ y ∈ x :: l, lesser y x = false := by
  have hall : ∀ (i : ℕ) y, (x :: l)[i]? = some y → lesser y x = false := by
    intro i
    induction i using Nat.strong_induction_on with
    | _ i ih =>
      intro y hy
      rcases Nat.eq_zero_or_pos i with rfl | hi
      · obtain rfl : x = y := by simpa using hy
        exact Bool.eq_false_iff.mpr (irrefl_of (lesser · · = true) x)
      · have hchild : Child ((i - 1) / 2) i := by unfold Child; omega
        have hlt : i < (x :: l).length := (List.getElem?_eq_some_iff.mp hy).1
        have hparent : (x :: l)[(i - 1) / 2]? = some ((x :: l)[(i - 1) / 2]) := List.getElem?_eq_getElem (by omega)
        exact not_lesser_trans (h _ i _ y (Nat.zero_le _) hchild hparent hy) (ih _ (by omega) _ hparent)
  intro y hy
  obtain ⟨i, hi⟩ := List.mem_iff_getElem?.mp hy
  exact hall i y hi

/-! ### Sifting down -/

/-- The lesser child of a position, the left one unless the right one is lesser. -/
def lesserChild (lesser : A → A → Bool) (l : List A) (i : ℕ) : Option (ℕ × A) :=
  match l[2 * i + 1]?, l[2 * i + 2]? with
  | none, _ => none
  | some b, none => some (2 * i + 1, b)
  | some b, some c => if lesser c b then some (2 * i + 2, c) else some (2 * i + 1, b)

/-- Exchange an entry with its lesser child as long as the child is lesser. -/
def down (lesser : A → A → Bool) : ℕ → List A → ℕ → List A
  | 0, l, _ => l
  | fuel + 1, l, i =>
    match l[i]?, lesserChild lesser l i with
    | some a, some (j, c) => if lesser c a then down lesser fuel ((l.set i c).set j a) j else l
    | _, _ => l

/-- Sift all parents down, the last one first. -/
def initFrom (lesser : A → A → Bool) : ℕ → List A → List A
  | 0, l => l
  | i + 1, l => initFrom lesser i (down lesser l.length l i)

def init (lesser : A → A → Bool) (l : List A) : List A := initFrom lesser (l.length / 2) l

def fix (lesser : A → A → Bool) (l : List A) : List A := down lesser l.length l 0

/-- The first entry is exchanged with the last one, which is sifted down, and popped. -/
def remove (lesser : A → A → Bool) : List A → List A
  | [] => []
  | _ :: l => 
    match l.getLast? with
    | none => []
    | some y => down lesser l.length (y :: l.dropLast) 0

/-- Parents from `k` on are in order, except that the entry at `i` may be too large; its children
are not lesser than its parent. -/
structure HeapBut (lesser : A → A → Bool) (k i : ℕ) (l : List A) : Prop where
  order : ∀ p j a b, k ≤ p → p ≠ i → Child p j → l[p]? = some a → l[j]? = some b → lesser b a = false
  skip : ∀ p j a b, k ≤ p → Child p i → Child i j → l[p]? = some a → l[j]? = some b → lesser b a = false

theorem lesserChild_eq_some {j : ℕ} {c : A} (h : lesserChild lesser l i = some (j, c)) :
    Child i j ∧ l[j]? = some c ∧ ∀ (j' : ℕ) b, Child i j' → l[j']? = some b → lesser b c = false := by
  have hrefl (a : A) : lesser a a = false := Bool.eq_false_iff.mpr (irrefl_of (lesser · · = true) a)
  unfold lesserChild at h
  rcases h₁ : l[2 * i + 1]? with _ | b <;> rcases h₂ : l[2 * i + 2]? with _ | c' <;> simp only [h₁, h₂] at h
  · cases h
  · cases h
  · obtain ⟨rfl, rfl⟩ := Prod.mk.inj (Option.some.inj h)
    refine ⟨.inl rfl, h₁, ?_⟩
    rintro j' b' (rfl | rfl) hb
    · exact Option.some.inj (h₁.symm.trans hb) ▸ hrefl _
    · cases h₂.symm.trans hb
  · split_ifs at h with hlt
    · obtain ⟨rfl, rfl⟩ := Prod.mk.inj (Option.some.inj h)
      refine ⟨.inr rfl, h₂, ?_⟩
      rintro j' b' (rfl | rfl) hb
      · exact Option.some.inj (h₁.symm.trans hb) ▸ not_lesser_of_lesser hlt
      · exact Option.some.inj (h₂.symm.trans hb) ▸ hrefl _
    · obtain ⟨rfl, rfl⟩ := Prod.mk.inj (Option.some.inj h)
      refine ⟨.inl rfl, h₁, ?_⟩
      rintro j' b' (rfl | rfl) hb
      · exact Option.some.inj (h₁.symm.trans hb) ▸ hrefl _
      · exact Option.some.inj (h₂.symm.trans hb) ▸ Bool.eq_false_iff.mpr hlt

omit [IsStrictWeakOrder A fun a b => lesser a b = true] in
theorem lesserChild_eq_none (h : lesserChild lesser l i = none) {j : ℕ} (hj : Child i j) : l[j]? = none := by
  have hleft : l[2 * i + 1]? = none := by
    unfold lesserChild at h
    rcases h₁ : l[2 * i + 1]? with _ | b
    · rfl
    · rcases h₂ : l[2 * i + 2]? with _ | c <;> simp only [h₁, h₂] at h
      · cases h
      · split_ifs at h
  rw [List.getElem?_eq_none_iff] at hleft ⊢
  unfold Child at hj
  omega

variable {j : ℕ} {a c : A}

omit [IsStrictWeakOrder A fun a b => lesser a b = true] in
theorem getElem?_exchange (hi : i < l.length) (hj : j < l.length) (p : ℕ) :
    ((l.set i c).set j a)[p]? = if p = j then some a else if p = i then some c else l[p]? := by
  rw [List.getElem?_set, List.getElem?_set, List.length_set, if_pos hi, if_pos hj]
  simp only [eq_comm]

/-- After the exchange the entry may be too large at its new place only. -/
theorem HeapBut.exchange (h : HeapBut lesser k i l) (hk : k ≤ i) (ha : l[i]? = some a)
    (hchild : lesserChild lesser l i = some (j, c)) (hlt : lesser c a = true) :
    HeapBut lesser k j ((l.set i c).set j a) := by
  obtain ⟨hij, hc, hleast⟩ := lesserChild_eq_some hchild
  have hi := (List.getElem?_eq_some_iff.mp ha).1
  have hj := (List.getElem?_eq_some_iff.mp hc).1
  have hne : i < j := by unfold Child at hij; omega
  refine ⟨?_, ?_⟩
  · intro p q x y hp hpj hq hx hy
    rw [getElem?_exchange hi hj] at hx hy
    rw [if_neg hpj] at hx
    by_cases hpi : p = i
    · subst hpi
      rw [if_pos rfl] at hx
      obtain rfl := Option.some.inj hx
      split_ifs at hy with hqj hqi
      · exact Option.some.inj hy ▸ not_lesser_of_lesser hlt
      · unfold Child at hq
        omega
      · exact hleast q y hq hy
    · rw [if_neg hpi] at hx
      have hqj : q ≠ j := by unfold Child at hij hq; omega
      rw [if_neg hqj] at hy
      split_ifs at hy with hqi
      · subst hqi
        exact Option.some.inj hy ▸ h.skip p j x c hp hq hij hx hc
      · exact h.order p q x y hp hpi hq hx hy
  · intro p q x y hp hpj hq hx hy
    obtain rfl : p = i := by unfold Child at hij hpj; omega
    have hqj : q ≠ j := by unfold Child at hq; omega
    have hqi : q ≠ p := by unfold Child at hq; omega
    rw [getElem?_exchange hi hj] at hx hy
    rw [if_neg hne.ne, if_pos rfl] at hx
    rw [if_neg hqj, if_neg hqi] at hy
    obtain rfl := Option.some.inj hx
    exact h.order j q c y (by omega) hne.ne' hq hc hy

omit [IsStrictWeakOrder A fun a b => lesser a b = true] in
/-- An entry that no child is lesser than is in its place. -/
theorem HeapBut.heapFrom (h : HeapBut lesser k i l)
    (hplace : ∀ (j : ℕ) a b, Child i j → l[i]? = some a → l[j]? = some b → lesser b a = false) :
    HeapFrom lesser k l := by
  intro p j a b hp hj ha hb
  by_cases hpi : p = i
  · exact hplace j a b (hpi ▸ hj) (hpi ▸ ha) hb
  · exact h.order p j a b hp hpi hj ha hb

omit [IsStrictWeakOrder A fun a b => lesser a b = true] in
theorem HeapFrom.heapBut (h : HeapFrom lesser (i + 1) l) : HeapBut lesser i i l where
  order p j a b hp hpi := h p j a b (by omega)
  skip p j a b hp hpi := by unfold Child at hpi; omega

theorem down_spec {fuel : ℕ} (hfuel : l.length ≤ fuel + i) (hk : k ≤ i) (h : HeapBut lesser k i l) :
    (down lesser fuel l i).Perm l ∧ HeapFrom lesser k (down lesser fuel l i) := by
  induction fuel generalizing l i with
  | zero =>
    refine ⟨.refl l, h.heapFrom fun j a b _ ha _ => ?_⟩
    rw [List.getElem?_eq_none (by omega)] at ha
    cases ha
  | succ fuel ih =>
    rcases ha : l[i]? with _ | a
    · simp only [down, ha]
      exact ⟨.refl l, h.heapFrom fun j a b _ ha' _ => by cases ha.symm.trans ha'⟩
    · rcases hchild : lesserChild lesser l i with _ | ⟨j, c⟩
      · simp only [down, ha, hchild]
        exact ⟨.refl l, h.heapFrom fun j a b hj _ hb => by cases (lesserChild_eq_none hchild hj).symm.trans hb⟩
      · obtain ⟨hij, hc, hleast⟩ := lesserChild_eq_some hchild
        simp only [down, ha, hchild]
        split_ifs with hlt
        · obtain ⟨hi, rfl⟩ := List.getElem?_eq_some_iff.mp ha
          obtain ⟨hj, rfl⟩ := List.getElem?_eq_some_iff.mp hc
          have hlt' : i < j := by unfold Child at hij; omega
          obtain ⟨hperm, hheap⟩ := ih (by rw [List.length_set, List.length_set]; omega) (by omega)
            (h.exchange hk ha hchild hlt)
          exact ⟨hperm.trans (List.set_set_perm hi hj), hheap⟩
        · refine ⟨.refl l, h.heapFrom fun j' x b hj' hx hb => ?_⟩
          rw [← Option.some.inj (ha.symm.trans hx)]
          exact not_lesser_trans (hleast j' b hj' hb) (Bool.eq_false_iff.mpr hlt)

theorem initFrom_spec (h : HeapFrom lesser i l) :
    (initFrom lesser i l).Perm l ∧ HeapFrom lesser 0 (initFrom lesser i l) := by
  induction i generalizing l with
  | zero => exact ⟨.refl l, h⟩
  | succ i ih =>
    obtain ⟨hperm, hheap⟩ := down_spec (Nat.le_add_right _ _) le_rfl h.heapBut
    obtain ⟨hperm', hheap'⟩ := ih hheap
    exact ⟨hperm'.trans hperm, hheap'⟩

theorem init_spec (lesser : A → A → Bool) [IsStrictWeakOrder A fun a b => lesser a b = true] (l : List A) :
    (init lesser l).Perm l ∧ HeapFrom lesser 0 (init lesser l) := by
  refine initFrom_spec fun i j a b hi hj _ hb => ?_
  -- from the middle on there are no children
  have hlen := (List.getElem?_eq_some_iff.mp hb).1
  unfold Child at hj
  omega

theorem fix_spec (h : HeapFrom lesser 1 l) : (fix lesser l).Perm l ∧ HeapFrom lesser 0 (fix lesser l) :=
  down_spec (Nat.le_add_right _ _) le_rfl h.heapBut

theorem remove_spec (h : HeapFrom lesser 1 l) :
    (remove lesser l).Perm l.tail ∧ HeapFrom lesser 0 (remove lesser l) := by
  rcases l with _ | ⟨x, l⟩
  · exact ⟨.refl _, h.heapBut.heapFrom fun j a b _ ha _ => by cases ha⟩
  · rcases hlast : l.getLast? with _ | y
    · obtain rfl := List.getLast?_eq_none_iff.mp hlast
      exact ⟨.refl _, fun i j a b _ _ ha _ => by cases ha⟩
    · have hconcat := List.dropLast_append_getLast? y hlast
      have hsame : ∀ (p : ℕ) a, (y :: l.dropLast)[p + 1]? = some a → (x :: l)[p + 1]? = some a := by
        intro p a ha
        rw [List.getElem?_cons_succ, List.getElem?_dropLast] at ha
        split_ifs at ha
        exact ha
      have hheap : HeapFrom lesser 1 (y :: l.dropLast) := by
        intro i j a b hi hj ha hb
        obtain ⟨i, rfl⟩ := Nat.exists_eq_add_of_le' hi
        obtain ⟨j, rfl⟩ : ∃ j', j = j' + 1 := by rcases hj with rfl | rfl <;> exact ⟨_, rfl⟩
        exact h (i + 1) (j + 1) a b hi hj (hsame i a ha) (hsame j b hb)
      have hperm : (y :: l.dropLast).Perm l := by
        have hswap : (y :: l.dropLast).Perm (l.dropLast ++ [y]) := (List.perm_append_singleton y _).symm
        rwa [hconcat] at hswap
      simp only [remove, hlast]
      obtain ⟨hperm', hheap'⟩ := down_spec (hperm.length_eq.le.trans (Nat.le_add_right _ 0)) le_rfl hheap.heapBut
      exact ⟨hperm'.trans hperm, hheap'⟩

/-- Sifting down keeps the contract. -/
def binaryHeap (lesser : A → A → Bool) [IsStrictWeakOrder A fun a b => lesser a b = true] : HeapContract lesser where
  init := init lesser
  fix := fix lesser
  remove := remove lesser
  init_spec := init_spec lesser
  fix_spec _ := fix_spec
  remove_spec _ := remove_spec

end IavlStore.Base.Heaps
