import IavlStore.Base.SortedPairs
import IavlStore.Tree.Balance

/-! Search order and node versions. A branch key is the smallest key of the right
subtree and above every key on the left, so the leaves are listed in key order.
A branch is stamped no earlier than its children. A rotation keeps both, an
insertion acts on the leaf list as an insertion into a sorted list, and a removal
as an erasure that also reports the new smallest key of the subtree. -/

namespace IavlStore.Tree.Node

open IavlStore.Base.SortedPairs

variable {K V : Type*}

/-! ### Rotations -/

/-- What rebalancing a branch can return. -/
inductive Rotation (n : ℕ) : Node K V → Node K V → Prop
  | stay (t : Node K V) : Rotation n t t
  | right (h s v lh ls lv : ℕ) (k lk : K) (ll lr r : Node K V) :
    Rotation n (branch h s v k (branch lh ls lv lk ll lr) r) (join n lk ll (join v k lr r))
  | leftRight (h s v lh ls lv ch cs cv : ℕ) (k lk ck : K) (ll cl cr r : Node K V) :
    Rotation n (branch h s v k (branch lh ls lv lk ll (branch ch cs cv ck cl cr)) r)
      (join n ck (join n lk ll cl) (join v k cr r))
  | left (h s v rh rs rv : ℕ) (k rk : K) (l rl rr : Node K V) :
    Rotation n (branch h s v k l (branch rh rs rv rk rl rr)) (join n rk (join v k l rl) rr)
  | rightLeft (h s v rh rs rv ch cs cv : ℕ) (k rk ck : K) (l cl cr rr : Node K V) :
    Rotation n (branch h s v k l (branch rh rs rv rk (branch ch cs cv ck cl cr) rr))
      (join n ck (join v k l cl) (join n rk cr rr))

/-- Rebalancing never meets a leaf where it needs a branch: the higher side is not
a leaf, and neither is the higher grandchild of an inner rotation. -/
theorem reBalance_rotation (n : ℕ) (t : Node K V) : Rotation n t (reBalance n t) := by
  rcases t with _ | ⟨h, s, v, k, l, r⟩
  · exact .stay _
  rw [reBalance_branch]
  by_cases hl : (1 : ℤ) < (l.height : ℤ) - r.height
  · rw [if_pos hl]
    obtain ⟨lh, ls, lv, lk, ll, lr, rfl⟩ := Balanced.branch_of_height (t := l) (by omega)
    split_ifs with hb
    · exact .right ..
    · simp only [calcBalance_branch] at hb
      obtain ⟨ch, cs, cv, ck, cl, cr, rfl⟩ := Balanced.branch_of_height (t := lr) (by omega)
      exact .leftRight ..
  · rw [if_neg hl]
    by_cases hr : (l.height : ℤ) - r.height < -1
    · rw [if_pos hr]
      obtain ⟨rh, rs, rv, rk, rl, rr, rfl⟩ := Balanced.branch_of_height (t := r) (by omega)
      split_ifs with hb
      · exact .left ..
      · simp only [calcBalance_branch] at hb
        obtain ⟨ch, cs, cv, ck, cl, cr, rfl⟩ := Balanced.branch_of_height (t := rl) (by omega)
        exact .rightLeft ..
    · rw [if_neg hr]
      exact .stay _

@[simp] theorem toList_reBalance (n : ℕ) (t : Node K V) : (reBalance n t).toList = t.toList := by
  have hrot := reBalance_rotation n t
  generalize reBalance n t = t' at hrot ⊢
  cases hrot <;> simp [toList]

@[simp] theorem minKey_reBalance (n : ℕ) (t : Node K V) : (reBalance n t).minKey = t.minKey := by
  have hrot := reBalance_rotation n t
  generalize reBalance n t = t' at hrot ⊢
  cases hrot <;> simp [minKey]

/-! ### Versions -/

/-- Every branch is at least as recent as its children. -/
def Stamped : Node K V → Prop
  | leaf _ _ _ => True
  | branch _ _ v _ l r => l.version ≤ v ∧ r.version ≤ v ∧ l.Stamped ∧ r.Stamped

theorem Stamped.join {n : ℕ} {k : K} {l r : Node K V} (hl : l.Stamped) (hr : r.Stamped)
    (h1 : l.version ≤ n) (h2 : r.version ≤ n) : (join n k l r).Stamped := ⟨h1, h2, hl, hr⟩

/-- A branch written at version `n` is rebalanced with nodes written at `n`. -/
theorem stamped_reBalance {n : ℕ} {k : K} {l r : Node K V} (h : (join n k l r).Stamped) :
    (reBalance n (join n k l r)).Stamped ∧ (reBalance n (join n k l r)).version = n := by
  generalize ht : join n k l r = t at h
  have hrot := reBalance_rotation n t
  generalize reBalance n t = t' at hrot
  cases hrot with
  | stay => exact ⟨h, by rw [← ht, version_join]⟩
  | right h' s v lh ls lv k lk ll lr r =>
    cases ht
    obtain ⟨h1, h2, ⟨h3, h4, hll, hlr⟩, hr⟩ := h
    exact ⟨hll.join (hlr.join hr (h4.trans h1) h2) (h3.trans h1) le_rfl, rfl⟩
  | leftRight h' s v lh ls lv ch cs cv k lk ck ll cl cr r =>
    cases ht
    obtain ⟨h1, h2, ⟨h3, h4, hll, h5, h6, hcl, hcr⟩, hr⟩ := h
    simp only [version_branch] at h1 h4
    exact ⟨(hll.join hcl (h3.trans h1) (by omega)).join (hcr.join hr (by omega) h2) le_rfl le_rfl,
      rfl⟩
  | left h' s v rh rs rv k rk l rl rr =>
    cases ht
    obtain ⟨h1, h2, hl, h3, h4, hrl, hrr⟩ := h
    exact ⟨(hl.join hrl h1 (h3.trans h2)).join hrr le_rfl (h4.trans h2), rfl⟩
  | rightLeft h' s v rh rs rv ch cs cv k rk ck l cl cr rr =>
    cases ht
    obtain ⟨h1, h2, hl, h3, h4, ⟨h5, h6, hcl, hcr⟩, hrr⟩ := h
    simp only [version_branch] at h2 h3
    exact ⟨(hl.join hcl h1 (by omega)).join (hcr.join hrr (by omega) (h4.trans h2)) le_rfl le_rfl,
      rfl⟩

section Ordered
variable [LinearOrder K]

/-- Every branch key is the smallest key on its right and above every key on its
left. -/
def Ordered : Node K V → Prop
  | leaf _ _ _ => True
  | branch _ _ _ k l r => Below l.toList k ∧ k = r.minKey ∧ l.Ordered ∧ r.Ordered

omit [LinearOrder K] in
theorem minKey_mem (t : Node K V) : ∃ x, (t.minKey, x) ∈ t.toList := by
  induction t with
  | leaf v k x => exact ⟨x, by simp [minKey, toList]⟩
  | branch h s v k l r ihl _ =>
    obtain ⟨x, hx⟩ := ihl
    exact ⟨x, by simp [minKey, toList, hx]⟩

theorem minKey_lt_of_below {t : Node K V} {k : K} (h : Below t.toList k) : t.minKey < k := by
  obtain ⟨x, hx⟩ := t.minKey_mem
  exact h _ hx

theorem Ordered.minKey_le {t : Node K V} (h : t.Ordered) : AtLeast t.toList t.minKey := by
  induction t with
  | leaf v k x => simp [toList, minKey, AtLeast]
  | branch ht s v k l r ihl ihr =>
    obtain ⟨hb, hk, hl, hr⟩ := h
    intro p hp
    rcases List.mem_append.mp hp with hp | hp
    · exact ihl hl p hp
    · exact (minKey_lt_of_below hb).le.trans (hk ▸ ihr hr p hp)

theorem Ordered.atLeast {h s v : ℕ} {k : K} {l r : Node K V} (ho : (branch h s v k l r).Ordered) :
    AtLeast r.toList k := by
  obtain ⟨-, hk, -, hr⟩ := ho
  exact hk ▸ hr.minKey_le

theorem Ordered.sorted {t : Node K V} (h : t.Ordered) : Sorted t.toList := by
  induction t with
  | leaf v k x => simp [toList, Sorted]
  | branch ht s v k l r ihl ihr =>
    have ha := h.atLeast
    obtain ⟨hb, -, hl, hr⟩ := h
    exact (ihl hl).of_split (ihr hr) hb ha

theorem Ordered.join {v : ℕ} {k : K} {l r : Node K V} (hl : l.Ordered) (hr : r.Ordered)
    (hb : Below l.toList k) (hk : k = r.minKey) : (join v k l r).Ordered := ⟨hb, hk, hl, hr⟩

theorem Ordered.reBalance (n : ℕ) {t : Node K V} (h : t.Ordered) : (reBalance n t).Ordered := by
  have hrot := reBalance_rotation n t
  generalize t.reBalance n = t' at hrot
  cases hrot with
  | stay => exact h
  | right =>
    obtain ⟨hb, hk, ⟨hbl, hkl, hll, hlr⟩, hr⟩ := h
    refine hll.join (hlr.join hr (fun p hp => hb p (by simp [toList, hp])) hk) hbl ?_
    rwa [minKey_join]
  | leftRight =>
    obtain ⟨hb, hk, ⟨hbl, hkl, hll, hbc, hkc, hcl, hcr⟩, hr⟩ := h
    refine (hll.join hcl hbl hkl).join (hcr.join hr (fun p hp => hb p (by simp [toList, hp])) hk)
      (Below.append (hbl.mono (hkl ▸ (minKey_lt_of_below hbc).le)) hbc) ?_
    rwa [minKey_join]
  | left =>
    obtain ⟨hb, hk, hl, hbr, hkr, hrl, hrr⟩ := h
    exact (hl.join hrl hb hk).join hrr
      (Below.append (hb.mono (hk ▸ (minKey_lt_of_below hbr).le)) hbr) hkr
  | rightLeft =>
    obtain ⟨hb, hk, hl, hbr, hkr, ⟨hbc, hkc, hcl, hcr⟩, hrr⟩ := h
    refine (hl.join hcl hb hk).join
      (hcr.join hrr (fun p hp => hbr p (by simp [toList, hp])) hkr)
      (Below.append (hb.mono (hk ▸ (minKey_lt_of_below hbc).le)) hbc) ?_
    rwa [minKey_join]

/-! ### Insertion -/

/-- The effect of setting `key` on order, leaves and versions. -/
structure SetOrder (key : K) (value : V) (n : ℕ) (t : Node K V) (new : Node K V × Bool) : Prop where
  ordered : new.1.Ordered
  toList : new.1.toList = insertPair key value t.toList
  minKey : new.1.minKey = min key t.minKey
  updated : new.2 = (lookupPair key t.toList).isSome
  stamped : new.1.Stamped
  version : new.1.version = n

theorem setRecursive_order (key : K) (value : V) (n : ℕ) {t : Node K V} (ho : t.Ordered)
    (hs : t.Stamped) (hn : t.version ≤ n) :
    SetOrder key value n t (t.setRecursive key value n) := by
  induction t with
  | leaf v k x =>
    simp only [setRecursive]
    split_ifs with h1 h2
    · exact ⟨⟨by simpa [Below, toList] using h1, rfl, trivial, trivial⟩, by simp [toList, insertPair, h1],
        (min_eq_left h1.le).symm, by simp [toList, lookupPair_cons, h1.ne],
        ⟨le_rfl, hn, trivial, trivial⟩, rfl⟩
    · exact ⟨⟨by simpa [Below, toList] using h2, rfl, trivial, trivial⟩,
        by simp [toList, insertPair, h1, h2], (min_eq_right h2.le).symm,
        by simp [toList, lookupPair_cons, h2.ne'], ⟨hn, le_rfl, trivial, trivial⟩, rfl⟩
    · have hk : k = key := le_antisymm (not_lt.mp h1) (not_lt.mp h2)
      subst hk
      exact ⟨trivial, by simp [toList, insertPair], (min_self k).symm, by simp [toList, lookupPair_cons],
        trivial, rfl⟩
  | branch ht s v k l r ihl ihr =>
    have ha := ho.atLeast
    obtain ⟨hb, hk, hl, hr⟩ := ho
    obtain ⟨hv1, hv2, hsl, hsr⟩ := hs
    have hl1 : l.version ≤ n := hv1.trans hn
    have hr1 : r.version ≤ n := hv2.trans hn
    simp only [setRecursive, updateHeightSize_branch]
    by_cases hlt : key < k
    · have sl := ihl hl hsl hl1
      have hright : ∀ p ∈ r.toList, key < p.1 := fun p hp => hlt.trans_le (ha p hp)
      have hbelow : Below (l.setRecursive key value n).1.toList k := by
        intro p hp
        rw [sl.toList] at hp
        rcases mem_insertPair hp with rfl | hp
        · exact hlt
        · exact hb p hp
      have hlist : (l.setRecursive key value n).1.toList ++ r.toList =
          insertPair key value (l.toList ++ r.toList) := by
        rw [sl.toList, insertPair_append_left hright]
      have hup : (l.setRecursive key value n).2 = (lookupPair key (l.toList ++ r.toList)).isSome := by
        rw [sl.updated, lookupPair_append_left fun p hp => (hright p hp).ne']
      rw [if_pos hlt]
      split_ifs with hu
      · exact ⟨⟨hbelow, hk, sl.ordered, hr⟩, hlist, sl.minKey, hu ▸ hup,
          ⟨sl.version.le, hr1, sl.stamped, hsr⟩, rfl⟩
      · obtain ⟨hst, hve⟩ := stamped_reBalance (k := k) (sl.stamped.join hsr sl.version.le hr1)
        refine ⟨(sl.ordered.join hr hbelow hk).reBalance n, ?_, ?_, ?_, hst, hve⟩
        · simpa [toList] using hlist
        · simpa [minKey] using sl.minKey
        · simpa [hu, toList] using hup
    · have sr := ihr hr hsr hr1
      have hle : k ≤ key := not_lt.mp hlt
      have hleft : Below l.toList key := hb.mono hle
      have hkey : k = (r.setRecursive key value n).1.minKey := by
        rw [sr.minKey, ← hk, min_eq_right hle]
      have hmin : l.minKey = min key l.minKey := (min_eq_right (minKey_lt_of_below hleft).le).symm
      have hlist : l.toList ++ (r.setRecursive key value n).1.toList =
          insertPair key value (l.toList ++ r.toList) := by
        rw [sr.toList, insertPair_append_right hleft]
      have hup : (r.setRecursive key value n).2 = (lookupPair key (l.toList ++ r.toList)).isSome := by
        rw [sr.updated, lookupPair_append_right fun p hp => (hleft p hp).ne]
      rw [if_neg hlt]
      split_ifs with hu
      · exact ⟨⟨hb, hkey, hl, sr.ordered⟩, hlist, hmin, hu ▸ hup,
          ⟨hl1, sr.version.le, hsl, sr.stamped⟩, rfl⟩
      · obtain ⟨hst, hve⟩ := stamped_reBalance (k := k) (hsl.join sr.stamped hl1 sr.version.le)
        refine ⟨(hl.join sr.ordered hb hkey).reBalance n, ?_, ?_, ?_, hst, hve⟩
        · simpa [toList] using hlist
        · simpa [minKey] using hmin
        · simpa [hu, toList] using hup

/-! ### Removal -/

/-- The effect of removing `key`: what is left of the leaves, the new smallest key
when it changed, and the versions. -/
structure RemoveOrder (key : K) (n : ℕ) (t : Node K V) (new : Removed K V) : Prop where
  value : new.value = lookupPair key t.toList
  gone : new.node = none → erasePair key t.toList = []
  toList : ∀ t' ∈ new.node, t'.toList = erasePair key t.toList
  ordered : ∀ t' ∈ new.node, t'.Ordered
  minKey : ∀ t' ∈ new.node, t'.minKey = new.newKey.getD t.minKey
  stamped : ∀ t' ∈ new.node, t'.Stamped
  version : ∀ t' ∈ new.node, t'.version ≤ n

omit [LinearOrder K] in
private theorem forall_mem_some {t : Node K V} {p : Node K V → Prop} (h : p t) :
    ∀ t' ∈ some t, p t' := by simpa using h

/-- Removing an absent key hands back the tree itself. -/
theorem removeRecursive_of_value_none {key : K} {n : ℕ} {t : Node K V}
    (h : (t.removeRecursive key n).value = none) : t.removeRecursive key n = ⟨none, some t, none⟩ := by
  cases t with
  | leaf v k x =>
    simp only [removeRecursive] at h ⊢
    split_ifs at h ⊢
    rfl
  | branch ht s v k l r =>
    simp only [removeRecursive] at h ⊢
    split_ifs at h ⊢ <;> split at h <;> simp_all

theorem removeRecursive_order (key : K) (n : ℕ) {t : Node K V} (ho : t.Ordered) (hs : t.Stamped)
    (hn : t.version ≤ n) : RemoveOrder key n t (t.removeRecursive key n) := by
  induction t with
  | leaf v k x =>
    simp only [removeRecursive]
    split_ifs with hk
    · exact ⟨by simp [toList, lookupPair_cons, hk], fun _ => by simp [toList, erasePair, hk], by simp, by simp,
        by simp, by simp, by simp⟩
    · have : lookupPair key (leaf v k x).toList = none := by simp [toList, lookupPair_cons, Ne.symm hk]
      exact ⟨this.symm, by simp, forall_mem_some (by simp [toList, erasePair, hk]),
        forall_mem_some ho, forall_mem_some rfl, forall_mem_some hs, forall_mem_some hn⟩
  | branch ht s v k l r ihl ihr =>
    have ha := ho.atLeast
    have hob := ho
    obtain ⟨hb, hk, hl, hr⟩ := ho
    have hsb := hs
    obtain ⟨hv1, hv2, hsl, hsr⟩ := hs
    have hl1 : l.version ≤ n := hv1.trans hn
    have hr1 : r.version ≤ n := hv2.trans hn
    -- nothing removed: the branch itself is returned
    have same (hnone : lookupPair key (l.toList ++ r.toList) = none) :
        RemoveOrder key n (branch ht s v k l r) ⟨none, some (branch ht s v k l r), none⟩ := by
      refine ⟨hnone.symm, by simp, forall_mem_some ?_, forall_mem_some hob, forall_mem_some rfl,
        forall_mem_some hsb, forall_mem_some hn⟩
      refine (erasePair_eq_self fun p hp hpk => ?_).symm
      have := (mem_iff_lookupPair hob.sorted p.1 p.2).mp hp
      rw [hpk, toList, hnone] at this
      cases this
    simp only [removeRecursive, updateHeightSize_branch]
    by_cases hlt : key < k
    · have sl := ihl hl hsl hl1
      have hright : ∀ p ∈ r.toList, p.1 ≠ key := fun p hp => (hlt.trans_le (ha p hp)).ne'
      have hlook : lookupPair key (l.toList ++ r.toList) = lookupPair key l.toList :=
        lookupPair_append_left hright
      have herase : erasePair key (l.toList ++ r.toList) = erasePair key l.toList ++ r.toList := by
        rw [erasePair_append, erasePair_eq_self hright]
      rw [if_pos hlt]
      split
      · next hv => exact same (by rw [hlook, ← sl.value, hv])
      · next x hv hnode =>
        refine ⟨by simp only [toList]; rw [hlook, ← sl.value, hv], by simp, forall_mem_some ?_,
          forall_mem_some hr, forall_mem_some hk.symm, forall_mem_some hsr, forall_mem_some hr1⟩
        simp only [toList]
        rw [herase, sl.gone hnode, List.nil_append]
      · next x l' hv hnode =>
        have hbl : Below l'.toList k := by
          intro p hp
          rw [sl.toList l' hnode] at hp
          exact hb p (List.mem_filter.mp hp).1
        obtain ⟨hst, hve⟩ := stamped_reBalance (k := k)
          ((sl.stamped l' hnode).join hsr (sl.version l' hnode) hr1)
        refine ⟨by simp only [toList]; rw [hlook, ← sl.value, hv], by simp, forall_mem_some ?_,
          forall_mem_some (((sl.ordered l' hnode).join hr hbl hk).reBalance n), forall_mem_some ?_,
          forall_mem_some hst, forall_mem_some hve.le⟩
        · rw [toList_reBalance, toList_join, sl.toList l' hnode]
          exact herase.symm
        · rw [minKey_reBalance, minKey_join, sl.minKey l' hnode, minKey]
    · have sr := ihr hr hsr hr1
      have hleft : ∀ p ∈ l.toList, p.1 ≠ key := fun p hp => (hb.mono (not_lt.mp hlt) p hp).ne
      have hlook : lookupPair key (l.toList ++ r.toList) = lookupPair key r.toList :=
        lookupPair_append_right hleft
      have herase : erasePair key (l.toList ++ r.toList) = l.toList ++ erasePair key r.toList := by
        rw [erasePair_append, erasePair_eq_self hleft]
      rw [if_neg hlt]
      split
      · next hv => exact same (by rw [hlook, ← sr.value, hv])
      · next x hv hnode =>
        refine ⟨by simp only [toList]; rw [hlook, ← sr.value, hv], by simp, forall_mem_some ?_,
          forall_mem_some hl, forall_mem_some rfl, forall_mem_some hsl, forall_mem_some hl1⟩
        simp only [toList]
        rw [herase, sr.gone hnode, List.append_nil]
      · next x r' hv hnode =>
        have hkey : (r.removeRecursive key n).newKey.getD k = r'.minKey := by
          rw [sr.minKey r' hnode, hk]
        -- the new separator is not below the old one
        have hkk : k ≤ r'.minKey := by
          obtain ⟨y, hy⟩ := r'.minKey_mem
          rw [sr.toList r' hnode] at hy
          exact ha _ (List.mem_filter.mp hy).1
        obtain ⟨hst, hve⟩ := stamped_reBalance (k := (r.removeRecursive key n).newKey.getD k)
          (hsl.join (sr.stamped r' hnode) hl1 (sr.version r' hnode))
        refine ⟨by simp only [toList]; rw [hlook, ← sr.value, hv], by simp, forall_mem_some ?_,
          forall_mem_some ((hl.join (sr.ordered r' hnode) (hb.mono (hkey ▸ hkk)) hkey).reBalance n),
          forall_mem_some ?_, forall_mem_some hst, forall_mem_some hve.le⟩
        · rw [toList_reBalance, toList_join, sr.toList r' hnode]
          exact herase.symm
        · rw [minKey_reBalance, minKey_join]; rfl

end Ordered

end IavlStore.Tree.Node
