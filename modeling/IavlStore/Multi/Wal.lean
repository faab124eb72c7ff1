import Mathlib.Tactic

/-! Write-ahead logs. The log is that of another library and known by its laws:
consecutively numbered entries that are returned as they were written. Entries are dropped
at the front, and those after an index can be cut off. -/

namespace IavlStore.Multi

/-- A log of entries numbered from one. Entries are dropped at the front only, and a batch
is written when it continues the numbering. -/
structure WalLog (E : Type) where
  Log : Type
  new : Log
  lastIndex : Log → ℕ
  read : Log → ℕ → Option E
  writeBatch : Log → List (ℕ × E) → Option Log
  truncateFront : Log → ℕ → Option Log
  /-- How many entries were dropped. -/
  dropped : Log → ℕ
  entries : Log → List E
  new_eq : dropped new = 0 ∧ entries new = []
  lastIndex_eq : ∀ w, lastIndex w = dropped w + (entries w).length
  read_eq : ∀ w i, read w i = if dropped w < i then (entries w)[i - dropped w - 1]? else none
  writeBatch_eq : ∀ w b, b.map Prod.fst = List.range' (lastIndex w + 1) b.length →
    ∃ w', writeBatch w b = some w' ∧ dropped w' = dropped w ∧
      entries w' = entries w ++ b.map Prod.snd
  writeBatch_out_of_order : ∀ w b, b.map Prod.fst ≠ List.range' (lastIndex w + 1) b.length →
    writeBatch w b = none
  truncateFront_eq : ∀ w i, dropped w < i → i ≤ lastIndex w →
    ∃ w', truncateFront w i = some w' ∧ dropped w' = i - 1 ∧
      entries w' = (entries w).drop (i - 1 - dropped w)
  truncateFront_out_of_range : ∀ w i, ¬ (dropped w < i ∧ i ≤ lastIndex w) → truncateFront w i = none

/-- A log kept as a list. -/
def listLog (E : Type) : WalLog E where
  Log := ℕ × List E
  new := (0, [])
  lastIndex w := w.1 + w.2.length
  read w i := if w.1 < i then w.2[i - w.1 - 1]? else none
  writeBatch w b :=
    if b.map Prod.fst = List.range' (w.1 + w.2.length + 1) b.length then
      some (w.1, w.2 ++ b.map Prod.snd)
    else none
  truncateFront w i :=
    if w.1 < i ∧ i ≤ w.1 + w.2.length then some (i - 1, w.2.drop (i - 1 - w.1)) else none
  dropped := Prod.fst
  entries := Prod.snd
  new_eq := ⟨rfl, rfl⟩
  lastIndex_eq _ := rfl
  read_eq _ _ := rfl
  writeBatch_eq _ _ h := ⟨_, if_pos h, rfl, rfl⟩
  writeBatch_out_of_order _ _ h := if_neg h
  truncateFront_eq _ _ h h' := ⟨_, if_pos ⟨h, h'⟩, rfl, rfl⟩
  truncateFront_out_of_range _ _ h := if_neg h

/-- A log that can also be cut off after an index. -/
structure RollbackLog (E : Type) extends WalLog E where
  truncateBack : Log → ℕ → Option Log
  truncateBack_eq : ∀ w i, dropped w < i → i ≤ lastIndex w →
    ∃ w', truncateBack w i = some w' ∧ dropped w' = dropped w ∧ entries w' = (entries w).take (i - dropped w)
  truncateBack_out_of_range : ∀ w i, ¬ (dropped w < i ∧ i ≤ lastIndex w) → truncateBack w i = none

def listRollbackLog (E : Type) : RollbackLog E where
  toWalLog := listLog E
  truncateBack w i := if w.1 < i ∧ i ≤ w.1 + w.2.length then some (w.1, w.2.take (i - w.1)) else none
  truncateBack_eq _ _ h h' := ⟨_, if_pos ⟨h, h'⟩, rfl, rfl⟩
  truncateBack_out_of_range _ _ h := if_neg h

variable {E : Type} {W : WalLog E} {w w' : W.Log}

/-! ### Reading -/

theorem WalLog.read_eq_none_iff {i : ℕ} : W.read w i = none ↔ ¬ (W.dropped w < i ∧ i ≤ W.lastIndex w) := by
  rw [W.read_eq, W.lastIndex_eq]
  split_ifs with h
  · rw [List.getElem?_eq_none_iff]
    omega
  · exact iff_of_true rfl (by omega)

/-- What is before the index is gone. -/
theorem WalLog.read_truncateFront {i : ℕ} (h : W.truncateFront w i = some w') (j : ℕ) :
    W.read w' j = if j < i then none else W.read w j := by
  by_cases hrange : W.dropped w < i ∧ i ≤ W.lastIndex w
  · obtain ⟨w₁, heq, hdr, hes⟩ := W.truncateFront_eq w i hrange.1 hrange.2
    obtain rfl : w₁ = w' := Option.some.inj (heq.symm.trans h)
    split_ifs with hj
    · rw [WalLog.read_eq_none_iff, hdr]
      omega
    · rw [W.read_eq, W.read_eq, hdr, hes, List.getElem?_drop, if_pos (by omega), if_pos (by omega)]
      congr 1
      omega
  · rw [W.truncateFront_out_of_range w i hrange] at h
    exact nomatch h

theorem WalLog.lastIndex_truncateFront {i : ℕ} (h : W.truncateFront w i = some w') :
    W.lastIndex w' = W.lastIndex w := by
  by_cases hrange : W.dropped w < i ∧ i ≤ W.lastIndex w
  · obtain ⟨w₁, heq, hdr, hes⟩ := W.truncateFront_eq w i hrange.1 hrange.2
    obtain rfl : w₁ = w' := Option.some.inj (heq.symm.trans h)
    have hlast := W.lastIndex_eq w
    rw [W.lastIndex_eq, hdr, hes, List.length_drop]
    omega
  · rw [W.truncateFront_out_of_range w i hrange] at h
    exact nomatch h

theorem WalLog.lastIndex_writeBatch {b : List (ℕ × E)} (h : W.writeBatch w b = some w') :
    W.lastIndex w ≤ W.lastIndex w' := by
  by_cases hb : b.map Prod.fst = List.range' (W.lastIndex w + 1) b.length
  · obtain ⟨w₁, heq, hdr, hes⟩ := W.writeBatch_eq w b hb
    obtain rfl : w₁ = w' := Option.some.inj (heq.symm.trans h)
    rw [W.lastIndex_eq, W.lastIndex_eq w₁, hdr, hes, List.length_append]
    omega
  · rw [W.writeBatch_out_of_order w b hb] at h
    exact nomatch h

theorem RollbackLog.lastIndex_truncateBack {R : RollbackLog E} {w w' : R.Log} {i : ℕ}
    (h : R.truncateBack w i = some w') : R.dropped w < i ∧ i ≤ R.lastIndex w ∧ R.lastIndex w' = i := by
  by_cases hrange : R.dropped w < i ∧ i ≤ R.lastIndex w
  · obtain ⟨w₁, heq, hdr, hes⟩ := R.truncateBack_eq w i hrange.1 hrange.2
    obtain rfl : w₁ = w' := Option.some.inj (heq.symm.trans h)
    have hlast := R.lastIndex_eq w
    refine ⟨hrange.1, hrange.2, ?_⟩
    rw [R.lastIndex_eq, hdr, hes, List.length_take]
    omega
  · rw [R.truncateBack_out_of_range w i hrange] at h
    exact nomatch h

/-! ### Logs that hold a part of a list -/

/-- The log holds the entries from `dropped` on, up to its last index. -/
structure WalLog.Holds (W : WalLog E) (w : W.Log) (log : List E) : Prop where
  le : W.lastIndex w ≤ log.length
  entries : W.entries w = (log.take (W.lastIndex w)).drop (W.dropped w)

theorem WalLog.Holds.read {log : List E} (h : W.Holds w log)
    {i : ℕ} (hd : W.dropped w ≤ i) (hi : i < W.lastIndex w) : W.read w (i + 1) = log[i]? := by
  rw [W.read_eq, if_pos (by omega), h.entries, List.getElem?_drop, List.getElem?_take, if_pos (by omega)]
  congr 1
  omega

end IavlStore.Multi
