import IavlStore.Base.Encoding

/-! Variable-length numbers can be told apart from what follows them: two encodings with
trailing bytes agree only if the numbers and the trailing bytes do. A number is read back from
its encoding, and nothing is read from a part of it. Other spellings of a number are longer. -/

namespace IavlStore.Base.Encoding

theorem putUvarintAux_append_inj {size a b : ℕ} {x y : Bytes} (ha : a < 128 ^ size)
    (hb : b < 128 ^ size) (h : putUvarintAux size a ++ x = putUvarintAux size b ++ y) :
    a = b ∧ x = y := by
  induction size generalizing a b with
  | zero =>
    rw [pow_zero] at ha hb
    exact ⟨by omega, h⟩
  | succ size ih =>
    have hdiv {n : ℕ} (hn : n < 128 ^ (size + 1)) : n / 128 < 128 ^ size :=
      Nat.div_lt_of_lt_mul (by rwa [pow_succ'] at hn)
    have hbyte {n k : ℕ} (he : UInt8.ofNat n = UInt8.ofNat k) : n % 256 = k % 256 := by
      have := congrArg UInt8.toNat he
      rwa [UInt8.toNat_ofNat', UInt8.toNat_ofNat'] at this
    -- the first byte tells whether another one follows
    unfold putUvarintAux at h
    split_ifs at h with h₁ h₂ h₂
    · obtain ⟨he, hx⟩ := List.cons.inj h
      exact ⟨by have := hbyte he; omega, hx⟩
    · have := hbyte (List.cons.inj h).1
      omega
    · have := hbyte (List.cons.inj h).1
      omega
    · obtain ⟨he, hrest⟩ := List.cons.inj h
      obtain ⟨hq, hx⟩ := ih (hdiv ha) (hdiv hb) hrest
      exact ⟨by have := hbyte he; omega, hx⟩

theorem putUvarint_append_inj {a b : ℕ} {x y : Bytes} (ha : a < 2 ^ 64) (hb : b < 2 ^ 64)
    (h : putUvarint a ++ x = putUvarint b ++ y) : a = b ∧ x = y :=
  putUvarintAux_append_inj (by omega) (by omega) h

theorem putVarint_append_inj {a b : ℤ} {x y : Bytes} (ha : -2 ^ 63 ≤ a ∧ a < 2 ^ 63)
    (hb : -2 ^ 63 ≤ b ∧ b < 2 ^ 63) (h : putVarint a ++ x = putVarint b ++ y) : a = b ∧ x = y := by
  obtain ⟨he, hx⟩ := putUvarint_append_inj (by split_ifs <;> omega) (by split_ifs <;> omega) h
  refine ⟨?_, hx⟩
  split_ifs at he <;> omega

theorem int64_range (n : ℕ) : -2 ^ 63 ≤ int64 n ∧ int64 n < 2 ^ 63 := by
  have h₁ := Int.le_bmod (x := n) (m := 2 ^ 64) (by norm_num)
  have h₂ := Int.bmod_lt (x := n) (m := 2 ^ 64) (by norm_num)
  unfold int64
  norm_num at h₁ h₂ ⊢
  omega

theorem int64_inj {a b : ℕ} (ha : a < 2 ^ 64) (hb : b < 2 ^ 64) (h : int64 a = int64 b) : a = b := by
  have hread {n : ℕ} (hn : n < 2 ^ 64) : int64 n % (2 ^ 64 : ℕ) = n :=
    Int.bmod_emod.trans (Int.emod_eq_of_lt (Int.natCast_nonneg n) (Int.ofNat_lt.mpr hn))
  have hmod := congrArg (fun n : ℤ => n % (2 ^ 64 : ℕ)) h
  simp only [hread ha, hread hb] at hmod
  exact Int.ofNat_inj.mp hmod

/-! ### Reading -/

inductive ReadError where
  | eof
  | unexpectedEOF
  | overflow
  deriving DecidableEq

/-- The number at the start of a byte string, in at most `size` bytes, and the bytes after it. The
last byte that is allowed has one bit. -/
def readUvarintAux : ℕ → Bytes → Except ReadError (ℕ × Bytes)
  | 0, _ => .error .overflow
  | _ + 1, [] => .error .unexpectedEOF
  | size + 1, b :: bs =>
    if b < 128 then
      if size = 0 ∧ 1 < b then .error .overflow else .ok (b.toNat, bs)
    else (readUvarintAux size bs).map fun r => (b.toNat % 128 + 128 * r.1, r.2)

def readUvarint (bs : Bytes) : Except ReadError (ℕ × Bytes) :=
  if bs = [] then .error .eof else readUvarintAux 10 bs

/-- The number and how many bytes it takes; `none` where the bytes end or the number is too large. -/
def uvarint (bs : Bytes) : Option (ℕ × ℕ) :=
  match readUvarintAux 10 bs with
  | .ok (n, rest) => some (n, bs.length - rest.length)
  | .error _ => none

theorem toNat_ofNat_of_lt {n : ℕ} (h : n < 256) : (UInt8.ofNat n).toNat = n := by
  rw [UInt8.toNat_ofNat', Nat.mod_eq_of_lt h]

theorem ofNat_lt_iff {n k : ℕ} (h : n < 256) (hk : k < 256) : UInt8.ofNat n < UInt8.ofNat k ↔ n < k := by
  rw [UInt8.lt_iff_toNat_lt, toNat_ofNat_of_lt h, toNat_ofNat_of_lt hk]

theorem readUvarintAux_put (size : ℕ) {n : ℕ} (hn : n < 2 * 128 ^ size) (rest : Bytes) :
    readUvarintAux (size + 1) (putUvarintAux (size + 1) n ++ rest) = .ok (n, rest) := by
  induction size generalizing n with
  | zero =>
    have hlt : n < 2 := by simpa using hn
    have h128 : UInt8.ofNat n < 128 := (ofNat_lt_iff (k := 128) (by omega) (by omega)).mpr (by omega)
    have h1 : ¬ 1 < UInt8.ofNat n := mt (ofNat_lt_iff (n := 1) (by omega) (by omega)).mp (by omega)
    rw [putUvarintAux, if_pos (by omega), List.singleton_append, readUvarintAux, if_pos h128, if_neg (fun h => h1 h.2),
      toNat_ofNat_of_lt (by omega)]
  | succ size ih =>
    by_cases hlt : n < 128
    · have h128 : UInt8.ofNat n < 128 := (ofNat_lt_iff (k := 128) (by omega) (by omega)).mpr hlt
      rw [putUvarintAux, if_pos hlt, List.singleton_append, readUvarintAux, if_pos h128, if_neg (fun h => by simp at h),
        toNat_ofNat_of_lt (by omega)]
    · have h128 : ¬ UInt8.ofNat (n % 128 + 128) < 128 :=
        mt (ofNat_lt_iff (k := 128) (by omega) (by omega)).mp (by omega)
      have hdiv : n / 128 < 2 * 128 ^ size := by
        rw [Nat.div_lt_iff_lt_mul (by omega), Nat.mul_assoc, ← pow_succ]
        exact hn
      rw [putUvarintAux, if_neg hlt, List.cons_append, readUvarintAux, if_neg h128, ih hdiv]
      simp only [Except.map, toNat_ofNat_of_lt (show n % 128 + 128 < 256 by omega), Except.ok.injEq, Prod.mk.injEq,
        and_true]
      omega

theorem readUvarint_put {n : ℕ} (hn : n < 2 ^ 64) (rest : Bytes) :
    readUvarint (putUvarint n ++ rest) = .ok (n, rest) := by
  have hne : putUvarint n ++ rest ≠ [] := by
    unfold putUvarint putUvarintAux
    split_ifs <;> simp
  rw [readUvarint, if_neg hne]
  exact readUvarintAux_put 9 (by omega) rest

/-- Whatever spells a number is no shorter than its encoding, and as short only if it is the
encoding. -/
theorem readUvarintAux_eq_ok {size n : ℕ} {bs rest : Bytes} (h : readUvarintAux size bs = .ok (n, rest)) :
    ∃ pre, bs = pre ++ rest ∧ 0 < pre.length ∧ (putUvarintAux size n).length ≤ pre.length ∧
      (pre.length = (putUvarintAux size n).length → pre = putUvarintAux size n) := by
  induction size generalizing bs n with
  | zero => cases h
  | succ size ih =>
    rcases bs with _ | ⟨b, bs⟩
    · cases h
    · rw [readUvarintAux] at h
      split_ifs at h with hb hover
      · obtain ⟨rfl, rfl⟩ := Prod.mk.inj (Except.ok.inj h)
        have hlt : b.toNat < 128 := UInt8.lt_iff_toNat_lt.mp hb
        exact ⟨[b], rfl, Nat.one_pos, by simp [putUvarintAux, hlt], fun _ => by simp [putUvarintAux, hlt]⟩
      · rcases hr : readUvarintAux size bs with e | ⟨m, rest'⟩
        · rw [hr] at h
          cases h
        · rw [hr] at h
          obtain ⟨rfl, rfl⟩ := Prod.mk.inj (Except.ok.inj h)
          obtain ⟨pre, rfl, hpos, hle, heq⟩ := ih hr
          have hge : 128 ≤ b.toNat := not_lt.mp fun hc => hb (UInt8.lt_iff_toNat_lt.mpr hc)
          have hb256 := b.toNat_lt
          refine ⟨b :: pre, rfl, by simp, ?_⟩
          by_cases hsmall : b.toNat % 128 + 128 * m < 128
          · rw [putUvarintAux, if_pos hsmall]
            refine ⟨by simp, fun hlen => absurd hlen ?_⟩
            simp only [List.length_cons, List.length_nil]
            omega
          · have hdiv : (b.toNat % 128 + 128 * m) / 128 = m := by omega
            have hmod : (b.toNat % 128 + 128 * m) % 128 + 128 = b.toNat := by omega
            rw [putUvarintAux, if_neg hsmall, hdiv, hmod]
            simp only [List.length_cons, Nat.add_le_add_iff_right, Nat.add_right_cancel_iff]
            exact ⟨hle, fun hlen => by rw [← heq hlen, UInt8.ofNat_toNat]⟩

theorem readUvarint_eq_ok {n : ℕ} {bs rest : Bytes} (h : readUvarint bs = .ok (n, rest)) :
    ∃ pre, bs = pre ++ rest ∧ 0 < pre.length ∧ (putUvarint n).length ≤ pre.length ∧
      (pre.length = (putUvarint n).length → pre = putUvarint n) := by
  unfold readUvarint at h
  split_ifs at h
  exact readUvarintAux_eq_ok h

/-- The bytes after a number do not matter. -/
theorem readUvarintAux_replace {size n : ℕ} {pre rest : Bytes} (h : readUvarintAux size (pre ++ rest) = .ok (n, rest))
    (more : Bytes) : readUvarintAux size (pre ++ more) = .ok (n, more) := by
  induction size generalizing pre n with
  | zero => cases h
  | succ size ih =>
    rcases pre with _ | ⟨b, pre⟩
    · obtain ⟨pre, heq, hpos, -⟩ := readUvarintAux_eq_ok h
      have hlen := congrArg List.length heq
      simp only [List.nil_append, List.length_append] at hlen
      omega
    · rw [List.cons_append, readUvarintAux] at h ⊢
      split_ifs at h ⊢ with hb hover
      · obtain ⟨rfl, hrest⟩ := Prod.mk.inj (Except.ok.inj h)
        rw [List.append_left_eq_self.mp hrest, List.nil_append]
      · rcases hr : readUvarintAux size (pre ++ rest) with e | ⟨m, rest'⟩
        · rw [hr] at h
          cases h
        · rw [hr] at h
          obtain ⟨rfl, rfl⟩ := Prod.mk.inj (Except.ok.inj h)
          rw [ih hr]
          rfl

/-- Part of an encoding is not a number. -/
theorem readUvarintAux_truncated {size n : ℕ} {pre suf : Bytes} (h : putUvarintAux size n = pre ++ suf)
    (hsuf : suf ≠ []) : readUvarintAux size pre = .error .unexpectedEOF := by
  induction size generalizing n pre with
  | zero =>
    have hnil : pre ++ suf = [] := h.symm
    exact absurd (List.append_eq_nil_iff.mp hnil).2 hsuf
  | succ size ih =>
    rcases pre with _ | ⟨b, pre⟩
    · rfl
    · rw [putUvarintAux] at h
      split_ifs at h with hlt
      · have htail := (List.cons.inj h).2
        exact absurd (List.append_eq_nil_iff.mp htail.symm).2 hsuf
      · obtain ⟨rfl, htail⟩ := List.cons.inj h
        have h128 : ¬ UInt8.ofNat (n % 128 + 128) < 128 :=
          mt (ofNat_lt_iff (k := 128) (by omega) (by omega)).mp (by omega)
        rw [readUvarintAux, if_neg h128, ih htail]
        rfl

end IavlStore.Base.Encoding
