import IavlStore.Base.SortedPairs

/-! Binary search for the least index at which a monotone predicate holds, and the
search it gives in a list of pairs with increasing keys: the value of the key and
the number of smaller keys. -/

namespace IavlStore.Base.Search

open IavlStore.Base.SortedPairs

/-- Halve the interval `[i, j)` until it is empty. -/
def searchLoop (f : ℕ → Bool) : ℕ → ℕ → ℕ → ℕ
  | 0, i, _ => i
  | fuel + 1, i, j =>
    if i < j then
      let m := (i + j) / 2
      if f m then searchLoop f fuel i m else searchLoop f fuel (m + 1) j
    else i

/-- The least index in `[0, n)` at which `f` holds, or `n`. -/
def search (n : ℕ) (f : ℕ → Bool) : ℕ := searchLoop f n 0 n

/-- What a search over `[0, n)` must return. -/
structure Least (n : ℕ) (f : ℕ → Bool) (r : ℕ) : Prop where
  le : r ≤ n
  below : ∀ i < r, f i = false
  at_self : r < n → f r = true

theorem searchLoop_least {n : ℕ} {f : ℕ → Bool} (hf : ∀ i j, i ≤ j → f i = true → f j = true)
    (fuel : ℕ) {i j : ℕ} (hfuel : j - i ≤ fuel) (hij : i ≤ j) (hj : j ≤ n)
    (hlow : ∀ a < i, f a = false) (hup : j < n → f j = true) :
    Least n f (searchLoop f fuel i j) := by
  induction fuel generalizing i j with
  | zero =>
    obtain rfl : i = j := by omega
    exact ⟨hj, hlow, hup⟩
  | succ fuel ih =>
    simp only [searchLoop]
    split_ifs with hlt hm
    · exact ih (by omega) (by omega) (by omega) hlow fun _ => hm
    · refine ih (by omega) (by omega) hj (fun a ha => ?_) hup
      by_contra hc
      exact hm (hf a _ (by omega) (by simpa using hc))
    · obtain rfl : i = j := by omega
      exact ⟨hj, hlow, hup⟩

theorem search_least {n : ℕ} {f : ℕ → Bool} (hf : ∀ i j, i ≤ j → f i = true → f j = true) :
    Least n f (search n f) :=
  searchLoop_least hf n (by omega) (by omega) le_rfl (by simp) (by simp)

theorem searchLoop_congr {n : ℕ} {f g : ℕ → Bool} (h : ∀ i < n, f i = g i) (fuel : ℕ) {i j : ℕ}
    (hj : j ≤ n) : searchLoop f fuel i j = searchLoop g fuel i j := by
  induction fuel generalizing i j with
  | zero => rfl
  | succ fuel ih =>
    simp only [searchLoop]
    by_cases hlt : i < j
    · rw [if_pos hlt, if_pos hlt, h _ (by omega), ih (by omega), ih hj]
    · rw [if_neg hlt, if_neg hlt]

/-- A search looks at indices below `n` only. -/
theorem search_congr {n : ℕ} {f g : ℕ → Bool} (h : ∀ i < n, f i = g i) : search n f = search n g :=
  searchLoop_congr h n le_rfl

variable {K V : Type*} [LinearOrder K]

/-- The index of the first key that is not below `key`. -/
def searchIndex (key : K) (l : List (K × V)) : ℕ :=
  search l.length fun i => (l[i]?.map fun p => decide (key ≤ p.1)).getD true

/-- The value found at that index when it is the key's, and the index. -/
def searchPair (key : K) (l : List (K × V)) : Option V × ℕ :=
  let i := searchIndex key l
  match l[i]? with
  | some p => if p.1 = key then (some p.2, i) else (none, i)
  | none => (none, i)

theorem sorted_getElem_lt {l : List (K × V)} (h : Sorted l) {i j : ℕ} (hij : i < j)
    (hj : j < l.length) : (l.get ⟨i, hij.trans hj⟩).1 < (l.get ⟨j, hj⟩).1 :=
  List.pairwise_iff_getElem.mp h i j _ _ hij

theorem searchIndex_least (key : K) {l : List (K × V)} (h : Sorted l) :
    Least l.length (fun i => (l[i]?.map fun p => decide (key ≤ p.1)).getD true)
      (searchIndex key l) := by
  refine search_least fun i j hij hi => ?_
  by_cases hj : j < l.length
  · rcases hij.eq_or_lt with rfl | hij
    · exact hi
    · have hlt := sorted_getElem_lt h hij hj
      simp only [List.get_eq_getElem] at hlt
      simp only [List.getElem?_eq_getElem (hij.trans hj), Option.map_some, Option.getD_some,
        decide_eq_true_eq] at hi
      simpa [List.getElem?_eq_getElem hj] using hi.trans hlt.le
  · simp [List.getElem?_eq_none (not_lt.mp hj)]

/-- The keys before the index are below the key. -/
theorem take_searchIndex (key : K) {l : List (K × V)} (h : Sorted l) :
    Below (l.take (searchIndex key l)) key := by
  intro p hp
  obtain ⟨i, hi, rfl⟩ := List.mem_iff_getElem.mp hp
  have hi' : i < searchIndex key l ∧ i < l.length := by simpa using hi
  have := (searchIndex_least key h).below i hi'.1
  simpa [List.getElem?_eq_getElem hi'.2] using this

/-- The keys from the index on are not. -/
theorem drop_searchIndex (key : K) {l : List (K × V)} (h : Sorted l) :
    AtLeast (l.drop (searchIndex key l)) key := by
  intro p hp
  obtain ⟨i, hi, rfl⟩ := List.mem_iff_getElem.mp hp
  have hlen : searchIndex key l + i < l.length := by simp at hi; omega
  have hr := (searchIndex_least key h).at_self (by omega)
  rw [List.getElem?_eq_getElem (by omega)] at hr
  simp only [Option.map_some, Option.getD_some, decide_eq_true_eq] at hr
  rw [List.getElem_drop]
  rcases i with _ | i
  · exact hr
  · exact hr.trans (sorted_getElem_lt h (by omega) hlen).le

theorem rank_eq_searchIndex {key : K} {l : List (K × V)} (h : Sorted l) :
    rank key l = searchIndex key l := by
  have hle := (searchIndex_least key h).le
  conv_lhs => rw [← List.take_append_drop (searchIndex key l) l]
  rw [rank_append_left (drop_searchIndex key h), ← List.append_nil (l.take _),
    rank_append_right (take_searchIndex key h), List.length_take]
  exact min_eq_left hle

/-- In a sorted list the search finds the value of the key and its rank. -/
theorem searchPair_eq {key : K} {l : List (K × V)} (h : Sorted l) :
    searchPair key l = (lookupPair key l, rank key l) := by
  have hlook : lookupPair key l = lookupPair key (l.drop (searchIndex key l)) := by
    conv_lhs => rw [← List.take_append_drop (searchIndex key l) l]
    exact lookupPair_append_right fun p hp => (take_searchIndex key h p hp).ne
  have hdrop := drop_searchIndex key h
  have hsort : Sorted (l.drop (searchIndex key l)) := h.sublist (List.drop_sublist _ _)
  rw [hlook, rank_eq_searchIndex h, searchPair]
  have hhead : l[searchIndex key l]? = (l.drop (searchIndex key l)).head? := by
    rw [List.head?_drop]
  rw [hhead]
  rcases hd : l.drop (searchIndex key l) with _ | ⟨⟨k, v⟩, rest⟩
  · rfl
  · rw [hd] at hdrop hsort
    simp only [List.head?_cons]
    rw [lookupPair_cons]
    split_ifs with h1 h2 h2
    · rfl
    · exact absurd h1.symm h2
    · exact absurd h2.symm h1
    · have hlt : key < k := lt_of_le_of_ne (hdrop (k, v) (by simp)) h2
      have hrest : lookupPair key rest = none := lookupPair_eq_none fun p hp =>
        (hlt.trans ((List.pairwise_cons.mp hsort).1 p hp)).ne'
      rw [hrest]

end IavlStore.Base.Search
