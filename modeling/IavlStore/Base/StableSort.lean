import Mathlib.Data.List.Sort
import Mathlib.Tactic

/-! Sorting by a key. Elements with the same key keep their order, and these orders decide the
result. -/

namespace IavlStore.Base.StableSort

variable {α K : Type*} [LinearOrder K] (f : α → K) [DecidableRel fun a b : α => f a ≤ f b]

theorem filter_insertionSort (k : K) [DecidablePred fun a : α => f a = k] (l : List α) :
    (l.insertionSort (f · ≤ f ·)).filter (f · = k) = l.filter (f · = k) := by
  have hsub : List.Sublist (l.filter (f · = k)) (l.insertionSort (f · ≤ f ·)) := by
    apply List.sublist_insertionSort _ List.filter_sublist
    apply List.pairwise_of_forall_mem_list
    intro a ha b hb
    simp only [List.mem_filter, decide_eq_true_eq] at ha hb
    exact (ha.2.trans hb.2.symm).le
  have hsub' := hsub.filter (f · = k)
  simp only [List.filter_filter, Bool.and_self] at hsub'
  exact (hsub'.eq_of_length ((List.perm_insertionSort _ l).filter _).length_eq.symm).symm

variable {f}

omit [DecidableRel fun a b : α => f a ≤ f b] in
/-- The head of a sorted list has the least key. -/
theorem head_le [∀ k, DecidablePred fun a : α => f a = k] {a : α} {l l' : List α} (hl : l'.Pairwise (f · ≤ f ·)) {b : α} (hb : l'.head? = some b)
    (hfilter : (a :: l).filter (f · = f a) = l'.filter (f · = f a)) : f b ≤ f a := by
  have hmem : a ∈ l' := by
    apply List.mem_of_mem_filter (p := (f · = f a))
    rw [← hfilter]
    simp
  cases l' with
  | nil => cases hb
  | cons c l' =>
    obtain rfl : c = b := by simpa using hb
    rcases List.mem_cons.mp hmem with rfl | hmem
    · exact le_rfl
    · exact (List.pairwise_cons.mp hl).1 a hmem

omit [DecidableRel fun a b : α => f a ≤ f b] in
/-- Sorted lists are equal when they have the same elements of each key in the same order. -/
theorem eq_of_pairwise_of_filter [∀ k, DecidablePred fun a : α => f a = k] {l l' : List α} (hl : l.Pairwise (f · ≤ f ·)) (hl' : l'.Pairwise (f · ≤ f ·))
    (h : ∀ k, l.filter (f · = k) = l'.filter (f · = k)) : l = l' := by
  induction l generalizing l' with
  | nil =>
    cases l' with
    | nil => rfl
    | cons b l' => simpa using h (f b)
  | cons a l ih =>
    cases l' with
    | nil => simpa using h (f a)
    | cons b l' =>
      have hab : f a = f b := le_antisymm (head_le hl rfl (h (f b)).symm) (head_le hl' rfl (h (f a)))
      have hhead := h (f a)
      simp only [List.filter_cons, decide_true, if_true, hab, List.cons.injEq] at hhead
      obtain ⟨rfl, -⟩ := hhead
      congr 1
      apply ih (List.pairwise_cons.mp hl).2 (List.pairwise_cons.mp hl').2
      intro k
      have hk := h k
      by_cases ha : f a = k
      · simpa [ha] using hk
      · simpa [ha] using hk

theorem insertionSort_congr [∀ k, DecidablePred fun a : α => f a = k] {l l' : List α} (h : ∀ k, l.filter (f · = k) = l'.filter (f · = k)) :
    l.insertionSort (f · ≤ f ·) = l'.insertionSort (f · ≤ f ·) := by
  have : IsTrans α fun a b => f a ≤ f b := ⟨fun _ _ _ => le_trans⟩
  have : Std.Total fun a b : α => f a ≤ f b := ⟨fun _ _ => le_total _ _⟩
  apply eq_of_pairwise_of_filter (List.pairwise_insertionSort _ l) (List.pairwise_insertionSort _ l')
  intro k
  rw [filter_insertionSort, filter_insertionSort, h]

omit [LinearOrder K] [DecidableRel fun a b : α => f a ≤ f b] in
/-- With distinct keys, at most one element has a given key. -/
theorem filter_of_perm {l l' : List α} (hp : l.Perm l') (hnd : (l.map f).Nodup) (k : K)
    [DecidablePred fun a : α => f a = k] : l.filter (f · = k) = l'.filter (f · = k) := by
  induction hp with
  | nil => rfl
  | cons a _ ih =>
    rw [List.filter_cons, List.filter_cons, ih (List.nodup_cons.mp hnd).2]
  | swap a b l =>
    have hne : f b ≠ f a := by
      intro heq
      simp [heq] at hnd
    by_cases ha : f a = k
    · have hb : f b ≠ k := fun hb => hne (hb.trans ha.symm)
      simp [ha, hb]
    · simp [List.filter_cons, ha]
  | trans h₁ _ ih₁ ih₂ => exact (ih₁ hnd).trans (ih₂ ((h₁.map f).nodup_iff.mp hnd))

theorem insertionSort_of_perm {l l' : List α} (hp : l.Perm l') (hnd : (l.map f).Nodup) :
    l.insertionSort (f · ≤ f ·) = l'.insertionSort (f · ≤ f ·) :=
  insertionSort_congr fun k => filter_of_perm hp hnd k

end IavlStore.Base.StableSort
