import IavlStore.Base.SortedPairs

/-! Half-open ranges of keys, with either bound missing, and the part of a list of pairs
that lies in a range. A part of the list that a separator key puts on one side of the
range contributes nothing. -/

namespace IavlStore.Base.Ranges

open IavlStore.Base.SortedPairs

variable {K V : Type*} [LinearOrder K]

/-- Not below the start and below the end, where these are given. -/
def InRange (start stop : Option K) (k : K) : Prop := (∀ s ∈ start, s ≤ k) ∧ ∀ e ∈ stop, k < e

instance decidableInRange (start stop : Option K) (k : K) : Decidable (InRange start stop k) :=
  inferInstanceAs (Decidable ((∀ s ∈ start, s ≤ k) ∧ ∀ e ∈ stop, k < e))

theorem inRange_some_none {s k : K} : InRange (some s) none k ↔ s ≤ k := by
  simp [InRange]

theorem inRange_some_some {s e k : K} : InRange (some s) (some e) k ↔ s ≤ k ∧ k < e := by
  simp [InRange]

/-- The pairs with a key in the range. -/
def rangePairs (start stop : Option K) (l : List (K × V)) : List (K × V) :=
  l.filter fun p => InRange start stop p.1

/-- A list as it is walked through, forwards or backwards. -/
def directed {α : Type*} (ascending : Bool) (l : List α) : List α :=
  if ascending then l else l.reverse

variable {start stop : Option K} {k : K} {l r : List (K × V)}

@[simp] theorem rangePairs_append :
    rangePairs start stop (l ++ r) = rangePairs start stop l ++ rangePairs start stop r :=
  List.filter_append ..

theorem rangePairs_of_below {s : K} (hl : Below l k) (hk : k ≤ s) :
    rangePairs (some s) stop l = [] := by
  refine List.filter_eq_nil_iff.mpr fun p hp hr => ?_
  have hs : s ≤ p.1 := (of_decide_eq_true hr).1 s rfl
  exact absurd (hk.trans hs) (not_le.mpr (hl p hp))

theorem rangePairs_of_atLeast {e : K} (hr : AtLeast r k) (hk : e ≤ k) :
    rangePairs start (some e) r = [] := by
  refine List.filter_eq_nil_iff.mpr fun p hp hin => ?_
  have he : p.1 < e := (of_decide_eq_true hin).2 e rfl
  exact absurd he (not_lt.mpr (hk.trans (hr p hp)))

/-- In a list in order, the entries up to the first that fails are all that pass. -/
theorem takeWhile_eq_filter {α : Type*} {R : α → α → Prop} {p : α → Bool} {l : List α} (h : l.Pairwise R)
    (hp : ∀ a b, R a b → p b = true → p a = true) : l.takeWhile p = l.filter p := by
  induction l with
  | nil => rfl
  | cons a l ih =>
    obtain ⟨ha, hl⟩ := List.pairwise_cons.mp h
    by_cases hpa : p a = true
    · rw [List.takeWhile_cons_of_pos hpa, List.filter_cons_of_pos hpa, ih hl]
    · rw [List.takeWhile_cons_of_neg hpa, List.filter_cons_of_neg hpa]
      exact (List.filter_eq_nil_iff.mpr fun b hb hpb => hpa (hp a b (ha b hb) hpb)).symm

end IavlStore.Base.Ranges
