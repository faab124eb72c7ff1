import Mathlib.Tactic
import Mathlib.Data.List.Lex

/-! Byte strings, compared lexicographically, with the little-endian encoding of
fixed-width integers and the base-128 variable-length encodings. A little-endian
read returns what was written modulo the width. -/

namespace IavlStore.Base.Encoding

/-- A byte string. -/
abbrev Bytes := List UInt8

instance linearOrderByte : LinearOrder UInt8 := LinearOrder.lift' UInt8.toNat fun _ _ h => UInt8.toNat_inj.mp h

/-- Byte strings are compared in the linear order, here and in code for any ordered
keys. -/
instance (priority := 1100) ltBytes : LT (List UInt8) := Preorder.toLT

instance (priority := 1100) leBytes : LE (List UInt8) := Preorder.toLE

/-! ### Fixed width, least significant byte first -/

/-- The low `w` bytes of `n`. -/
def putLE : ℕ → ℕ → Bytes
  | 0, _ => []
  | w + 1, n => UInt8.ofNat n :: putLE w (n / 256)

/-- The number a byte string spells. -/
def readLE : Bytes → ℕ
  | [] => 0
  | b :: bs => b.toNat + 256 * readLE bs

@[simp] theorem length_putLE (w n : ℕ) : (putLE w n).length = w := by
  induction w generalizing n with
  | zero => rfl
  | succ w ih => simp [putLE, ih]

theorem readLE_putLE (w n : ℕ) : readLE (putLE w n) = n % 256 ^ w := by
  induction w generalizing n with
  | zero => simp [putLE, readLE, Nat.mod_one]
  | succ w ih =>
    rw [putLE, readLE, ih, UInt8.toNat_ofNat', pow_succ' 256 w, Nat.mod_mul]

theorem readLE_lt (bs : Bytes) : readLE bs < 256 ^ bs.length := by
  induction bs with
  | nil => exact Nat.one_pos
  | cons b bs ih =>
    have hb := b.toNat_lt
    rw [readLE, List.length_cons, pow_succ]
    omega

theorem readLE_putLE_of_lt {w n : ℕ} (h : n < 256 ^ w) : readLE (putLE w n) = n := by
  rw [readLE_putLE, Nat.mod_eq_of_lt h]

theorem putLE_readLE (bs : Bytes) : putLE bs.length (readLE bs) = bs := by
  induction bs with
  | nil => rfl
  | cons b bs ih =>
    have hb := b.toNat_lt
    have hbyte : UInt8.ofNat (b.toNat + 256 * readLE bs) = b :=
      UInt8.toNat_inj.mp (by rw [UInt8.toNat_ofNat']; omega)
    rw [List.length_cons, readLE, putLE, hbyte, show (b.toNat + 256 * readLE bs) / 256 = readLE bs by omega, ih]

/-! ### Variable width -/

/-- Base-128 digits with a continuation bit, in a buffer of `size` bytes. -/
def putUvarintAux : ℕ → ℕ → Bytes
  | 0, _ => []
  | size + 1, n =>
    if n < 128 then [UInt8.ofNat n]
    else UInt8.ofNat (n % 128 + 128) :: putUvarintAux size (n / 128)

/-- An unsigned 64-bit number takes at most ten bytes. -/
def putUvarint (n : ℕ) : Bytes := putUvarintAux 10 n

/-- A signed number, with the sign in the lowest bit. -/
def putVarint (x : ℤ) : Bytes :=
  putUvarint (if x < 0 then (-2 * x - 1).toNat else (2 * x).toNat)

/-- An unsigned 64-bit number read as a signed one. -/
def int64 (n : ℕ) : ℤ := Int.bmod n (2 ^ 64)

theorem int64_of_lt {n : ℕ} (h : n < 2 ^ 63) : int64 n = n :=
  Int.bmod_eq_of_le (by norm_num) (by norm_num; exact_mod_cast h)

example : putVarint 150 = [172, 2] := by decide

end IavlStore.Base.Encoding
