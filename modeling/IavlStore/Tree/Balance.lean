import IavlStore.Tree.Node

/-! Heights and sizes. A rebalanced node over two balanced children whose heights
differ by at most two is balanced and not more than one higher than its higher
child, so an insertion raises a tree by at most one level and a removal lowers it
by at most one. -/

namespace IavlStore.Tree.Node

open Base.SortedPairs

variable {K V : Type*}

/-- Every height is one more than the higher child, every size is the sum of the
children, and the heights of two children differ by at most one. -/
def Balanced : Node K V → Prop
  | leaf _ _ _ => True
  | branch h s _ _ l r =>
    h = max l.height r.height + 1 ∧ s = l.size + r.size ∧
      l.height ≤ r.height + 1 ∧ r.height ≤ l.height + 1 ∧ l.Balanced ∧ r.Balanced

@[simp] theorem height_mutate (n : ℕ) (t : Node K V) : (t.mutate n).height = t.height := by
  cases t <;> rfl

theorem balanced_join {v : ℕ} {k : K} {l r : Node K V} (hl : l.Balanced) (hr : r.Balanced)
    (h1 : l.height ≤ r.height + 1) (h2 : r.height ≤ l.height + 1) : (join v k l r).Balanced :=
  ⟨rfl, rfl, h1, h2, hl, hr⟩

theorem Balanced.branch_of_height {t : Node K V} (h : 0 < t.height) :
    ∃ ht s v k l r, t = branch ht s v k l r := by
  cases t with
  | leaf v k x => simp [height] at h
  | branch ht s v k l r => exact ⟨ht, s, v, k, l, r, rfl⟩

theorem Balanced.height_pos {h s v : ℕ} {k : K} {l r : Node K V}
    (hb : (branch h s v k l r).Balanced) : 0 < h := by
  rw [hb.1]; omega

/-- The outcome of rebalancing over children that differ by at most two. -/
structure Rebalanced (l r t : Node K V) : Prop where
  balanced : t.Balanced
  lower : max l.height r.height ≤ t.height
  upper : t.height ≤ max l.height r.height + 1

theorem rebalanced_leftLeft {n h s v : ℕ} {k : K} {l r : Node K V} (hl : l.Balanced)
    (hr : r.Balanced) (hh : l.height = r.height + 2) (hb : 0 ≤ l.calcBalance) :
    Rebalanced l r (rotateRight n (branch h s v k l r)) := by
  obtain ⟨lh, ls, lv, lk, ll, lr, rfl⟩ := Balanced.branch_of_height (t := l) (by omega)
  obtain ⟨e, -, b1, b2, bll, blr⟩ := hl
  simp only [height_branch] at hh
  simp only [calcBalance_branch] at hb
  have hin : (join v k lr r).Balanced := balanced_join blr hr (by omega) (by omega)
  rw [rotateRight_branch]
  refine ⟨balanced_join bll hin ?_ ?_, ?_, ?_⟩ <;> simp only [height_join, height_branch] <;> omega

theorem rebalanced_rightRight {n h s v : ℕ} {k : K} {l r : Node K V} (hl : l.Balanced)
    (hr : r.Balanced) (hh : r.height = l.height + 2) (hb : r.calcBalance ≤ 0) :
    Rebalanced l r (rotateLeft n (branch h s v k l r)) := by
  obtain ⟨rh, rs, rv, rk, rl, rr, rfl⟩ := Balanced.branch_of_height (t := r) (by omega)
  obtain ⟨e, -, b1, b2, brl, brr⟩ := hr
  simp only [height_branch] at hh
  simp only [calcBalance_branch] at hb
  have hin : (join v k l rl).Balanced := balanced_join hl brl (by omega) (by omega)
  rw [rotateLeft_branch]
  refine ⟨balanced_join hin brr ?_ ?_, ?_, ?_⟩ <;> simp only [height_join, height_branch] <;> omega

theorem rebalanced_leftRight {n h s v : ℕ} {k : K} {l r : Node K V} (hl : l.Balanced)
    (hr : r.Balanced) (hh : l.height = r.height + 2) (hb : ¬ 0 ≤ l.calcBalance) :
    Rebalanced l r (rotateRight n (branch h s v k (rotateLeft n (l.mutate n)) r)) := by
  obtain ⟨lh, ls, lv, lk, ll, lr, rfl⟩ := Balanced.branch_of_height (t := l) (by omega)
  obtain ⟨e, -, b1, b2, bll, blr⟩ := hl
  simp only [height_branch] at hh
  simp only [calcBalance_branch] at hb
  -- the inner node that comes to the top is the right child of the left child
  obtain ⟨ch, cs, cv, ck, cl, cr, rfl⟩ := Balanced.branch_of_height (t := lr) (by omega)
  obtain ⟨ce, -, c1, c2, bcl, bcr⟩ := blr
  simp only [height_branch] at b1 b2 e hb
  have hleft : (join n lk ll cl).Balanced := balanced_join bll bcl (by omega) (by omega)
  have hright : (join v k cr r).Balanced := balanced_join bcr hr (by omega) (by omega)
  rw [mutate, rotateLeft_branch, join, rotateRight_branch]
  refine ⟨balanced_join hleft hright ?_ ?_, ?_, ?_⟩ <;>
    simp only [height_join, height_branch] <;> omega

theorem rebalanced_rightLeft {n h s v : ℕ} {k : K} {l r : Node K V} (hl : l.Balanced)
    (hr : r.Balanced) (hh : r.height = l.height + 2) (hb : ¬ r.calcBalance ≤ 0) :
    Rebalanced l r (rotateLeft n (branch h s v k l (rotateRight n (r.mutate n)))) := by
  obtain ⟨rh, rs, rv, rk, rl, rr, rfl⟩ := Balanced.branch_of_height (t := r) (by omega)
  obtain ⟨e, -, b1, b2, brl, brr⟩ := hr
  simp only [height_branch] at hh
  simp only [calcBalance_branch] at hb
  obtain ⟨ch, cs, cv, ck, cl, cr, rfl⟩ := Balanced.branch_of_height (t := rl) (by omega)
  obtain ⟨ce, -, c1, c2, bcl, bcr⟩ := brl
  simp only [height_branch] at b1 b2 e hb
  have hleft : (join v k l cl).Balanced := balanced_join hl bcl (by omega) (by omega)
  have hright : (join n rk cr rr).Balanced := balanced_join bcr brr (by omega) (by omega)
  rw [mutate, rotateRight_branch, join, rotateLeft_branch]
  refine ⟨balanced_join hleft hright ?_ ?_, ?_, ?_⟩ <;>
    simp only [height_join, height_branch] <;> omega

/-- Children one level apart need no rotation. -/
theorem reBalance_of_close {n v : ℕ} {k : K} {l r : Node K V} (h1 : l.height ≤ r.height + 1)
    (h2 : r.height ≤ l.height + 1) : reBalance n (join v k l r) = join v k l r := by
  have hb : ¬ (1 : ℤ) < (l.height : ℤ) - r.height := by omega
  have hb' : ¬ (l.height : ℤ) - r.height < -1 := by omega
  rw [join, reBalance_branch, if_neg hb, if_neg hb']

theorem reBalance_rebalanced (n : ℕ) {v : ℕ} {k : K} {l r : Node K V} (hl : l.Balanced)
    (hr : r.Balanced) (h1 : l.height ≤ r.height + 2) (h2 : r.height ≤ l.height + 2) :
    Rebalanced l r (reBalance n (join v k l r)) := by
  by_cases hc : l.height ≤ r.height + 1 ∧ r.height ≤ l.height + 1
  · rw [reBalance_of_close hc.1 hc.2]
    exact ⟨balanced_join hl hr hc.1 hc.2, by simp only [height_join]; omega,
      by simp only [height_join]; omega⟩
  · rw [join, reBalance_branch]
    by_cases hlr : r.height < l.height
    · rw [if_pos (by omega)]
      split_ifs with hb
      · exact rebalanced_leftLeft hl hr (by omega) hb
      · exact rebalanced_leftRight hl hr (by omega) hb
    · rw [if_neg (by omega), if_pos (by omega)]
      split_ifs with hb
      · exact rebalanced_rightRight hl hr (by omega) hb
      · exact rebalanced_rightLeft hl hr (by omega) hb

/-! ### The size is the number of leaves -/

theorem Balanced.size_eq {t : Node K V} (h : t.Balanced) : t.size = t.toList.length := by
  induction t with
  | leaf => rfl
  | branch ht s v k l r ihl ihr =>
    obtain ⟨-, hs, -, -, hl, hr⟩ := h
    rw [size_branch, toList, List.length_append, hs, ihl hl, ihr hr]

section Update
variable [LinearOrder K]

/-- An insertion keeps the tree balanced and raises it by at most one level; an
update of a present key keeps its height and size. -/
structure SetShape (t : Node K V) (new : Node K V × Bool) : Prop where
  balanced : new.1.Balanced
  lower : t.height ≤ new.1.height
  upper : new.1.height ≤ t.height + 1
  updated : new.2 = true → new.1.height = t.height ∧ new.1.size = t.size

omit [LinearOrder K] in
/-- One changed child: the rebalanced parent is as high as the unchanged parent or
one level higher, when the child is. -/
theorem reBalance_grown (n : ℕ) {v : ℕ} {k : K} {l r l' r' : Node K V} (hl : l'.Balanced)
    (hr : r'.Balanced) (h1 : l.height ≤ r.height + 1) (h2 : r.height ≤ l.height + 1)
    (hl1 : l.height ≤ l'.height) (hl2 : l'.height ≤ l.height + 1) (hr1 : r.height ≤ r'.height)
    (hr2 : r'.height ≤ r.height + 1) :
    (reBalance n (join v k l' r')).Balanced ∧
      max l.height r.height + 1 ≤ (reBalance n (join v k l' r')).height ∧
      (reBalance n (join v k l' r')).height ≤ max l.height r.height + 2 := by
  have hb := reBalance_rebalanced n (v := v) (k := k) hl hr (by omega) (by omega)
  have hlow := hb.lower
  have hup := hb.upper
  refine ⟨hb.balanced, ?_, by omega⟩
  by_cases hc : l'.height ≤ r'.height + 1 ∧ r'.height ≤ l'.height + 1
  · rw [reBalance_of_close hc.1 hc.2, height_join]; omega
  · omega

theorem setRecursive_shape (key : K) (value : V) (n : ℕ) {t : Node K V} (h : t.Balanced) :
    SetShape t (t.setRecursive key value n) := by
  induction t with
  | leaf v k x =>
    simp only [setRecursive]
    split_ifs
    · exact ⟨⟨rfl, rfl, Nat.zero_le _, Nat.zero_le _, trivial, trivial⟩, Nat.zero_le _, le_rfl, by simp⟩
    · exact ⟨⟨rfl, rfl, Nat.zero_le _, Nat.zero_le _, trivial, trivial⟩, Nat.zero_le _, le_rfl, by simp⟩
    · exact ⟨trivial, le_rfl, Nat.zero_le _, fun _ => ⟨rfl, rfl⟩⟩
  | branch ht s v k l r ihl ihr =>
    obtain ⟨he, hs, h1, h2, hl, hr⟩ := h
    simp only [setRecursive, updateHeightSize_branch]
    split_ifs with hk hu hu
    · have sl := ihl hl
      obtain ⟨e1, e2⟩ := sl.updated hu
      refine ⟨⟨?_, ?_, ?_, ?_, sl.balanced, hr⟩, le_rfl, Nat.le_succ _, fun _ => ⟨rfl, rfl⟩⟩ <;> omega
    · have sl := ihl hl
      obtain ⟨hb, hlow, hup⟩ := reBalance_grown n (v := n) (k := k) sl.balanced hr h1 h2 sl.lower
        sl.upper le_rfl (Nat.le_succ _)
      exact ⟨hb, by simpa [he] using hlow, by simpa [he] using hup, by simp⟩
    · have sr := ihr hr
      obtain ⟨e1, e2⟩ := sr.updated hu
      refine ⟨⟨?_, ?_, ?_, ?_, hl, sr.balanced⟩, le_rfl, Nat.le_succ _, fun _ => ⟨rfl, rfl⟩⟩ <;> omega
    · have sr := ihr hr
      obtain ⟨hb, hlow, hup⟩ := reBalance_grown n (v := n) (k := k) hl sr.balanced h1 h2 le_rfl
        (Nat.le_succ _) sr.lower sr.upper
      exact ⟨hb, by simpa [he] using hlow, by simpa [he] using hup, by simp⟩

/-- A removal keeps what remains balanced and lowers it by at most one level; only
the removal of a leaf leaves nothing. -/
structure RemoveShape (t : Node K V) (new : Removed K V) : Prop where
  balanced : ∀ t' ∈ new.node, t'.Balanced
  lower : ∀ t' ∈ new.node, t.height ≤ t'.height + 1
  upper : ∀ t' ∈ new.node, t'.height ≤ t.height
  gone : new.node = none → t.height = 0

omit [LinearOrder K] in
theorem reBalance_shrunk (n : ℕ) {v : ℕ} {k : K} {l r l' r' : Node K V} (hl : l'.Balanced)
    (hr : r'.Balanced) (h1 : l.height ≤ r.height + 1) (h2 : r.height ≤ l.height + 1)
    (hl1 : l.height ≤ l'.height + 1) (hl2 : l'.height ≤ l.height) (hr1 : r.height ≤ r'.height + 1)
    (hr2 : r'.height ≤ r.height) :
    (reBalance n (join v k l' r')).Balanced ∧
      max l.height r.height ≤ (reBalance n (join v k l' r')).height ∧
      (reBalance n (join v k l' r')).height ≤ max l.height r.height + 1 := by
  have hb := reBalance_rebalanced n (v := v) (k := k) hl hr (by omega) (by omega)
  have hlow := hb.lower
  have hup := hb.upper
  refine ⟨hb.balanced, ?_, by omega⟩
  by_cases hc : l'.height ≤ r'.height + 1 ∧ r'.height ≤ l'.height + 1
  · rw [reBalance_of_close hc.1 hc.2, height_join]; omega
  · omega

theorem removeRecursive_shape (key : K) (n : ℕ) {t : Node K V} (h : t.Balanced) :
    RemoveShape t (t.removeRecursive key n) := by
  induction t with
  | leaf v k x =>
    simp only [removeRecursive]
    split_ifs
    · exact ⟨by simp, by simp, by simp, fun _ => rfl⟩
    · exact ⟨by simp [Balanced], by simp, by simp, by simp⟩
  | branch ht s v k l r ihl ihr =>
    have hb := h
    obtain ⟨he, hs, h1, h2, hl, hr⟩ := h
    have same : RemoveShape (branch ht s v k l r) ⟨none, some (branch ht s v k l r), none⟩ :=
      ⟨by simpa using hb, by simp, by simp, by simp⟩
    simp only [removeRecursive, updateHeightSize_branch]
    split_ifs with hk
    · have sl := ihl hl
      split
      · exact same
      · next hn =>
        have := sl.gone hn
        refine ⟨by simpa using hr, ?_, ?_, by simp⟩ <;> simp only [Option.mem_def, Option.some.injEq,
          forall_eq', height_branch] <;> omega
      · next l' _ hn =>
        obtain ⟨hb, hlow, hup⟩ := reBalance_shrunk n (v := n) (k := k) (sl.balanced l' hn) hr h1 h2
          (sl.lower l' hn) (sl.upper l' hn) (Nat.le_succ _) le_rfl
        exact ⟨by simpa using hb, by simpa [he] using hlow, by simpa [he] using hup, by simp⟩
    · have sr := ihr hr
      split
      · exact same
      · next hn =>
        have := sr.gone hn
        refine ⟨by simpa using hl, ?_, ?_, by simp⟩ <;> simp only [Option.mem_def, Option.some.injEq,
          forall_eq', height_branch] <;> omega
      · next r' _ hn =>
        obtain ⟨hb, hlow, hup⟩ := reBalance_shrunk n (v := n)
          (k := (r.removeRecursive key n).newKey.getD k) hl (sr.balanced r' hn) h1 h2 (Nat.le_succ _)
          le_rfl (sr.lower r' hn) (sr.upper r' hn)
        exact ⟨by simpa using hb, by simpa [he] using hlow, by simpa [he] using hup, by simp⟩

end Update

end IavlStore.Tree.Node
