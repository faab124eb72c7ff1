import IavlStore.Base.Encoding
import IavlStore.Base.Ranges

/-! The order of byte strings: the first byte in which two strings differ decides, and a
proper beginning of a string comes before it. The strings with a given beginning are a range. -/

namespace IavlStore.Base.ByteOrder

open IavlStore.Base.Encoding IavlStore.Base.Ranges

theorem bytes_cons_lt_cons {a b : UInt8} {x y : Bytes} : a :: x < b :: y ↔ a < b ∨ a = b ∧ x < y :=
  List.cons_lt_cons_iff

/-- A common beginning does not matter. -/
theorem bytes_append_lt_append (p : Bytes) {x y : Bytes} : p ++ x < p ++ y ↔ x < y := by
  induction p with
  | nil => rfl
  | cons a p ih => simp [ih]

theorem bytes_append_le_append (p : Bytes) {x y : Bytes} : p ++ x ≤ p ++ y ↔ x ≤ y := by
  rw [← not_lt, ← not_lt, bytes_append_lt_append]

theorem bytes_nil_le (x : Bytes) : [] ≤ x := not_lt.mp (by simp)

/-- What lies between two strings with a common beginning has it too. -/
theorem exists_append_of_between {p a b x : Bytes} (ha : p ++ a ≤ x) (hb : x < p ++ b) :
    ∃ y, x = p ++ y := by
  induction p generalizing x with
  | nil => exact ⟨x, rfl⟩
  | cons c p ih =>
    rcases x with _ | ⟨d, x⟩
    · exact absurd ha (not_le.mpr (by simp))
    · rw [List.cons_append] at ha hb
      rcases bytes_cons_lt_cons.mp hb with hlt | ⟨rfl, hlt⟩
      · exact absurd ha (not_le.mpr (bytes_cons_lt_cons.mpr (.inl hlt)))
      · have ha' : p ++ a ≤ x := by
          by_contra hcon
          exact absurd ha (not_le.mpr (bytes_cons_lt_cons.mpr (.inr ⟨rfl, not_le.mp hcon⟩)))
        obtain ⟨y, rfl⟩ := ih ha' hlt
        exact ⟨y, rfl⟩

/-- The end of the strings that begin with `p`: the last byte of `p` below 255 is raised, and the
bytes after it are dropped. There is no end when there is no such byte. -/
def prefixEndBytes : Bytes → Option Bytes
  | [] => none
  | b :: p =>
    match prefixEndBytes p with
    | some e => some (b :: e)
    | none => if b = 255 then none else some [b + 1]

theorem uint8_lt_add_one {b c : UInt8} (hb : b ≠ 255) : c < b + 1 ↔ c ≤ b := by
  have hne : b.toNat ≠ 255 := fun h => hb (UInt8.toNat_inj.mp h)
  have hlt := b.toNat_lt
  rw [UInt8.lt_iff_toNat_lt, UInt8.le_iff_toNat_le, UInt8.toNat_add, show (1 : UInt8).toNat = 1 from rfl,
    Nat.mod_eq_of_lt (by omega)]
  omega

theorem inRange_prefixEndBytes {p k : Bytes} : InRange (some p) (prefixEndBytes p) k ↔ p <+: k := by
  induction p generalizing k with
  | nil => simp [prefixEndBytes, inRange_some_none, bytes_nil_le]
  | cons b p ih =>
    rcases k with _ | ⟨c, k⟩
    · simp [InRange]
    have hle : b :: p ≤ c :: k ↔ b < c ∨ b = c ∧ p ≤ k := by
      rw [← not_lt, ← not_lt, bytes_cons_lt_cons]
      by_cases hcb : c < b
      · simp [hcb, UInt8.lt_asymm hcb, (UInt8.ne_of_lt hcb).symm]
      · rcases UInt8.lt_or_eq_of_le (UInt8.not_lt.mp hcb) with hlt | rfl
        · simp [hlt, hcb, (UInt8.ne_of_lt hlt).symm]
        · simp [hcb]
    rw [List.cons_prefix_cons, ← ih, prefixEndBytes]
    rcases he : prefixEndBytes p with _ | e
    · rw [inRange_some_none]
      split_ifs with hb
      · have hlast : ¬ b < c := by
          rw [hb]
          exact UInt8.not_lt.mpr (UInt8.le_iff_toNat_le.mpr (Nat.le_of_lt_succ c.toNat_lt))
        rw [inRange_some_none, hle]
        simp [hlast]
      · have hc : c :: k < [b + 1] ↔ c ≤ b := by
          rw [bytes_cons_lt_cons, uint8_lt_add_one hb]
          simp
        rw [inRange_some_some, hle, hc]
        constructor
        · rintro ⟨hlt | heq, hcb⟩
          · exact absurd hlt (UInt8.not_lt.mpr hcb)
          · exact heq
        · rintro ⟨rfl, hp⟩
          exact ⟨.inr ⟨rfl, hp⟩, UInt8.le_refl _⟩
    · dsimp only
      rw [inRange_some_some, inRange_some_some, hle, bytes_cons_lt_cons]
      constructor
      · rintro ⟨hlt | ⟨rfl, hp⟩, hgt | ⟨heq, he⟩⟩
        · exact absurd hlt (UInt8.lt_asymm hgt)
        · exact absurd heq.symm (UInt8.ne_of_lt hlt)
        · exact absurd hgt (UInt8.lt_irrefl _)
        · exact ⟨rfl, hp, he⟩
      · rintro ⟨rfl, hp, he⟩
        exact ⟨.inr ⟨rfl, hp⟩, .inr ⟨rfl, he⟩⟩

end IavlStore.Base.ByteOrder
