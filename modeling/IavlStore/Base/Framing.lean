import Mathlib.Tactic

/-! Lists made of entries one after the other, where a function tells how long the first entry
is. Skipping entries as long as there are any ends after the longest part of the list that
consists of whole entries. -/

namespace IavlStore.Base.Framing

variable {A : Type*}

/-- The first entry is not empty, lies within the list, and what follows it does not matter. -/
structure Delimits (next : List A → Option ℕ) : Prop where
  pos : ∀ {l n}, next l = some n → 0 < n
  le : ∀ {l n}, next l = some n → n ≤ l.length
  take : ∀ {l n}, next l = some n → ∀ more, next (l.take n ++ more) = some n

/-- Whole entries and nothing else. -/
inductive Complete (next : List A → Option ℕ) : List A → Prop where
  | nil : Complete next []
  | cons {e l : List A} (entry : next e = some e.length) (rest : Complete next l) : Complete next (e ++ l)

/-- A longest part from the start that consists of whole entries. -/
structure LongestComplete (next : List A → Option ℕ) (l p : List A) : Prop where
  isPart : p <+: l
  complete : Complete next p
  longest : ∀ q, q <+: l → Complete next q → q.length ≤ p.length

/-- Skip entries until the list ends or no entry is found. The position counts what was skipped;
the result is `none` when the steps do not suffice. -/
def skipEntries (next : List A → Option ℕ) : ℕ → List A → ℕ → Option (List A × ℕ)
  | 0, _, _ => none
  | _ + 1, [], pos => some ([], pos)
  | fuel + 1, a :: l, pos =>
    match next (a :: l) with
    | none => some (a :: l, pos)
    | some n => skipEntries next fuel ((a :: l).drop n) (pos + n)

variable {next : List A → Option ℕ} {l p rest : List A}

theorem Delimits.next_append (hd : Delimits next) {e : List A} (he : next e = some e.length) (more : List A) :
    next (e ++ more) = some e.length := by
  have h := hd.take he more
  rwa [List.take_length] at h

theorem skipEntries_eq (hd : Delimits next) {fuel : ℕ} (hfuel : l.length < fuel) (pos : ℕ) :
    ∃ p rest, skipEntries next fuel l pos = some (rest, pos + p.length) ∧ l = p ++ rest ∧ Complete next p ∧
      (rest = [] ∨ next rest = none) := by
  induction fuel generalizing l pos with
  | zero => omega
  | succ fuel ih =>
    rcases l with _ | ⟨a, l⟩
    · exact ⟨[], [], rfl, rfl, .nil, .inl rfl⟩
    · rcases hn : next (a :: l) with _ | n
      · exact ⟨[], a :: l, by simp [skipEntries, hn], rfl, .nil, .inr hn⟩
      · have hpos := hd.pos hn
        have hle := hd.le hn
        have hentry := hd.take hn []
        rw [List.append_nil] at hentry
        have hlen : ((a :: l).take n).length = n := List.length_take_of_le hle
        have hshort : ((a :: l).drop n).length < fuel := by
          rw [List.length_drop]
          omega
        obtain ⟨p, rest, hskip, heq, hp, hrest⟩ := ih hshort (pos + n)
        refine ⟨(a :: l).take n ++ p, rest, ?_, ?_, .cons (by rw [hentry, hlen]) hp, hrest⟩
        · simp only [skipEntries, hn, hskip, List.length_append, hlen, Nat.add_assoc]
        · rw [List.append_assoc, ← heq, List.take_append_drop]

/-- Where no further entry is found, no longer part consists of whole entries. -/
theorem Complete.longest (hd : Delimits next) (hp : Complete next p) (hrest : rest = [] ∨ next rest = none)
    {q : List A} (hq : Complete next q) (hpart : q <+: p ++ rest) : q.length ≤ p.length := by
  induction hp generalizing q with
  | nil =>
    cases hq with
    | nil => simp
    | @cons e l entry tail =>
      have he := hd.pos entry
      obtain ⟨more, hmore⟩ := hpart
      rw [List.nil_append, List.append_assoc] at hmore
      rcases hrest with rfl | hnone
      · rw [(List.append_eq_nil_iff.mp hmore).1] at he
        simp at he
      · rw [← hmore, hd.next_append entry] at hnone
        cases hnone
  | @cons e p entry tail ih =>
    cases hq with
    | nil => simp
    | @cons e' q entry' tail' =>
      obtain ⟨more, hmore⟩ := hpart
      rw [List.append_assoc, List.append_assoc] at hmore
      have hsame : e'.length = e.length := by
        have h := hd.next_append entry' (q ++ more)
        rw [hmore, hd.next_append entry] at h
        exact (Option.some.inj h).symm
      obtain ⟨rfl, hmore'⟩ := List.append_inj hmore hsame
      have hle := ih tail' ⟨more, hmore'⟩
      simp only [List.length_append]
      omega

theorem longestComplete_of_skip (hd : Delimits next) (heq : l = p ++ rest) (hp : Complete next p)
    (hrest : rest = [] ∨ next rest = none) : LongestComplete next l p :=
  ⟨⟨rest, heq.symm⟩, hp, fun _ hpart hq => hp.longest hd hrest hq (heq ▸ hpart)⟩

theorem exists_longestComplete (hd : Delimits next) (l : List A) : ∃ p, LongestComplete next l p := by
  obtain ⟨p, rest, -, heq, hp, hrest⟩ := skipEntries_eq hd l.length.lt_succ_self 0
  exact ⟨p, longestComplete_of_skip hd heq hp hrest⟩

theorem Complete.longestComplete (hp : Complete next p) : LongestComplete next p p :=
  ⟨List.prefix_rfl, hp, fun _ hpart _ => hpart.length_le⟩

/-- Skipping ends after the longest part of whole entries. -/
theorem LongestComplete.skipEntries (hd : Delimits next) (h : LongestComplete next (p ++ rest) p) {fuel : ℕ}
    (hfuel : (p ++ rest).length < fuel) (pos : ℕ) :
    skipEntries next fuel (p ++ rest) pos = some (rest, pos + p.length) := by
  obtain ⟨p', rest', hskip, heq, hp', hrest'⟩ := skipEntries_eq hd hfuel pos
  have h' := longestComplete_of_skip hd heq hp' hrest'
  -- both parts start the list and neither is longer than the other
  have hlen : p.length = p'.length :=
    le_antisymm (h'.longest p h.isPart h.complete) (h.longest p' h'.isPart hp')
  obtain ⟨rfl, rfl⟩ := List.append_inj heq hlen
  exact hskip

end IavlStore.Base.Framing
