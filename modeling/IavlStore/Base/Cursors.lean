import IavlStore.Base.SortedPairs

/-! Cursors over sorted pairs. A cursor has a fixed list of pairs in the order of their keys
and stands on one of them or nowhere. Moving it step by step from where a search has put it
shows the rest of the list in that direction. -/

namespace IavlStore.Base.Cursors

open IavlStore.Base.SortedPairs

/-- A cursor with what it does, in terms of the pairs it goes over. -/
structure SortedCursor (K V : Type) [LinearOrder K] where
  Cursor : Type
  seek : K → Cursor → Cursor
  seekToFirst : Cursor → Cursor
  seekToLast : Cursor → Cursor
  next : Cursor → Cursor
  prev : Cursor → Cursor
  /-- The pair the cursor stands on, if it is valid. -/
  entry : Cursor → Option (K × V)
  view : Cursor → List (K × V)
  sorted : ∀ c, Sorted (view c)
  view_seek : ∀ k c, view (seek k c) = view c
  view_seekToFirst : ∀ c, view (seekToFirst c) = view c
  view_seekToLast : ∀ c, view (seekToLast c) = view c
  view_next : ∀ c, view (next c) = view c
  view_prev : ∀ c, view (prev c) = view c
  entry_seek : ∀ k c, entry (seek k c) = (view c).find? fun p => k ≤ p.1
  entry_seekToFirst : ∀ c, entry (seekToFirst c) = (view c).head?
  entry_seekToLast : ∀ c, entry (seekToLast c) = (view c).getLast?
  entry_next : ∀ c e, entry c = some e → entry (next c) = (view c).find? fun p => e.1 < p.1
  entry_prev : ∀ c e, entry c = some e → entry (prev c) = (view c).reverse.find? fun p => p.1 < e.1

/-- A cursor kept as a list and the pair it stands on. -/
def listCursor (K V : Type) [LinearOrder K] : SortedCursor K V where
  Cursor := { l : List (K × V) // Sorted l } × Option (K × V)
  seek k c := (c.1, c.1.1.find? fun p => k ≤ p.1)
  seekToFirst c := (c.1, c.1.1.head?)
  seekToLast c := (c.1, c.1.1.getLast?)
  next c := (c.1, c.2.bind fun e => c.1.1.find? fun p => e.1 < p.1)
  prev c := (c.1, c.2.bind fun e => c.1.1.reverse.find? fun p => p.1 < e.1)
  entry c := c.2
  view c := c.1.1
  sorted c := c.1.2
  view_seek _ _ := rfl
  view_seekToFirst _ := rfl
  view_seekToLast _ := rfl
  view_next _ := rfl
  view_prev _ := rfl
  entry_seek _ _ := rfl
  entry_seekToFirst _ := rfl
  entry_seekToLast _ := rfl
  entry_next _ _ h := by rw [h]; rfl
  entry_prev _ _ h := by rw [h]; rfl

section Ahead
variable {C A : Type*} (entry : C → Option A) (move : C → C)

/-- The entries that the cursor shows when it is moved until it is invalid. -/
def Ahead : C → List A → Prop
  | c, [] => entry c = none
  | c, a :: l => entry c = some a ∧ Ahead (move c) l

variable {entry move}

/-- In a list that a relation orders, a move to the first entry after the current one shows
the entries one by one. -/
theorem ahead_of_find {R : A → A → Prop} [DecidableRel R] (hirr : ∀ a, ¬ R a a)
    (htrans : ∀ a b c, R a b → R b c → R a c) {L : List A} (hL : L.Pairwise R) (inv : C → Prop)
    (hmove : ∀ c a, inv c → entry c = some a → inv (move c) ∧ entry (move c) = L.find? fun b => R a b)
    {t : A → Bool} (hup : ∀ a b, t a = true → R a b → t b = true) {c : C} (hc : inv c)
    (h : entry c = L.find? t) : Ahead entry move c (L.filter t) := by
  induction hl : L.filter t generalizing c t with
  | nil =>
    rw [Ahead, h, ← List.head?_filter, hl]
    rfl
  | cons a l ih =>
    have ha : entry c = some a := by rw [h, ← List.head?_filter, hl]; rfl
    obtain ⟨hc', hnext⟩ := hmove c a hc ha
    have hsorted : (a :: l).Pairwise R := hl ▸ hL.filter t
    have hta : t a = true := (List.mem_filter.mp (hl ▸ List.mem_cons_self : a ∈ L.filter t)).2
    have hrest : L.filter (fun b => R a b) = l := by
      have hsub : L.filter (fun b => R a b) = (L.filter t).filter fun b => R a b := by
        rw [List.filter_filter]
        refine List.filter_congr fun b _ => ?_
        by_cases hab : R a b
        · simp [hab, hup a b hta hab]
        · simp [hab]
      rw [hsub, hl, List.filter_cons_of_neg (by simpa using hirr a)]
      exact List.filter_eq_self.mpr fun b hb => by simpa using (List.pairwise_cons.mp hsorted).1 b hb
    refine ⟨ha, ?_⟩
    exact ih (t := fun b => decide (R a b)) (fun b d hb hbd => by simpa using htrans a b d (by simpa using hb) hbd)
      hc' hnext hrest

end Ahead

namespace SortedCursor

variable {K V : Type} [LinearOrder K] (S : SortedCursor K V) {c : S.Cursor}

/-- Forwards from the first key that is not below a bound. -/
theorem ahead_seek (k : K) (c : S.Cursor) :
    Ahead S.entry S.next (S.seek k c) ((S.view c).filter fun p => k ≤ p.1) := by
  refine ahead_of_find (R := fun p q : K × V => p.1 < q.1) (fun a => lt_irrefl a.1) (fun _ _ _ => lt_trans) (S.sorted c)
    (fun d => S.view d = S.view c) ?_ ?_ (S.view_seek k c) (S.entry_seek k c)
  · intro d e hd he
    exact ⟨(S.view_next d).trans hd, hd ▸ S.entry_next d e he⟩
  · intro a b ha hab
    simp only [decide_eq_true_eq] at ha ⊢
    exact ha.trans hab.le

/-- Backwards from the last key below a bound. -/
theorem ahead_prev {k : K} (h : S.entry c = (S.view c).reverse.find? fun p => p.1 < k) :
    Ahead S.entry S.prev c ((S.view c).filter fun p => p.1 < k).reverse := by
  rw [← List.filter_reverse]
  refine ahead_of_find (R := fun p q : K × V => q.1 < p.1) (fun a => lt_irrefl a.1) (fun _ _ _ hab hbc => hbc.trans hab)
    (List.pairwise_reverse.mpr (S.sorted c)) (fun d => S.view d = S.view c) ?_ ?_ rfl h
  · intro d e hd he
    exact ⟨(S.view_prev d).trans hd, hd ▸ S.entry_prev d e he⟩
  · intro a b ha hab
    simp only [decide_eq_true_eq] at ha ⊢
    exact hab.trans ha

end SortedCursor

end IavlStore.Base.Cursors
