import IavlStore.Base.Varint

/-! Parsers that fail or return a value and the rest of the input. A parser is exact for a value
and a word if it reads the value from the word whatever follows, and fails on every proper part
from the start of the word. What a parser accepts is described by a relation between the value
and the word that was consumed. Both compose along sequences of parsers. -/

namespace IavlStore.Base.Parsers

open IavlStore.Base.Encoding

abbrev Parser (T E A : Type) := StateT (List T) (Except E) A

variable {T E E' A B : Type} {p : Parser T E A} {q : A → Parser T E B} {a : A} {b : B} {l r u w : List T}

/-- The same parser with other errors. -/
def lift (err : E → E') (p : Parser T E A) : Parser T E' A := fun l => (p l).mapError err

theorem bind_ok (h : p l = .ok (a, r)) : (p >>= q) l = q a r := by
  change (p l >>= fun x => q x.1 x.2) = q a r
  rw [h]
  rfl

theorem bind_error {e : E} (h : p l = .error e) : (p >>= q) l = .error e := by
  change (p l >>= fun x => q x.1 x.2) = .error e
  rw [h]
  rfl

theorem bind_eq_ok (h : (p >>= q) l = .ok (b, r)) : ∃ a m, p l = .ok (a, m) ∧ q a m = .ok (b, r) := by
  rcases hp : p l with e | ⟨a, m⟩
  · rw [bind_error hp] at h
    cases h
  · rw [bind_ok hp] at h
    exact ⟨a, m, rfl, h⟩

/-! ### Exact parsers -/

structure Exact (p : Parser T E A) (a : A) (w : List T) : Prop where
  reads : ∀ rest, p (w ++ rest) = .ok (a, rest)
  cut : ∀ {pre suf}, w = pre ++ suf → suf ≠ [] → ∃ e, p pre = .error e

theorem Exact.pure (a : A) : Exact (pure a : Parser T E A) a [] where
  reads _ := rfl
  cut h hs := absurd (List.append_eq_nil_iff.mp h.symm).2 hs

theorem Exact.bind (hp : Exact p a u) (hq : Exact (q a) b w) : Exact (p >>= q) b (u ++ w) where
  reads rest := by
    rw [List.append_assoc, bind_ok (hp.reads _)]
    exact hq.reads rest
  cut {pre suf} h hs := by
    rcases List.append_eq_append_iff.mp h with ⟨v, rfl, hw⟩ | ⟨v, hu, rfl⟩
    · obtain ⟨e, he⟩ := hq.cut hw hs
      exact ⟨e, (bind_ok (hp.reads v)).trans he⟩
    · rcases eq_or_ne v [] with rfl | hv
      · have hread := hp.reads []
        rw [List.append_nil] at hu hread
        obtain ⟨e, he⟩ := hq.cut (List.nil_append w).symm hs
        exact ⟨e, by rw [← hu, bind_ok hread, he]⟩
      · obtain ⟨e, he⟩ := hp.cut hu hv
        exact ⟨e, bind_error he⟩

theorem Exact.bind_pure (hp : Exact p a u) (hq : q a = Pure.pure b) : Exact (p >>= q) b u := by
  have h : Exact (q a) b [] := hq ▸ .pure b
  rw [← List.append_nil u]
  exact hp.bind h

theorem Exact.lift {err : E → E'} (hp : Exact p a w) : Exact (lift err p) a w where
  reads rest := by rw [Parsers.lift, hp.reads]; rfl
  cut h hs := by
    obtain ⟨e, he⟩ := hp.cut h hs
    exact ⟨err e, by rw [Parsers.lift, he]; rfl⟩

/-! ### Accepted words -/

def Accepts (p : Parser T E A) (P : A → List T → Prop) : Prop :=
  ∀ l a r, p l = .ok (a, r) → ∃ w, l = w ++ r ∧ P a w

theorem Accepts.pure {P : A → List T → Prop} (h : P a []) : Accepts (pure a : Parser T E A) P := by
  rintro l a r ⟨⟩
  exact ⟨[], rfl, h⟩

theorem Accepts.throw {P : A → List T → Prop} (e : E) : Accepts (throw e : Parser T E A) P := by
  rintro l a r ⟨⟩

theorem Accepts.bind {P : A → List T → Prop} {Q : B → List T → Prop} (hp : Accepts p P)
    (hq : ∀ a u, P a u → Accepts (q a) fun b w => Q b (u ++ w)) : Accepts (p >>= q) Q := by
  intro l b r h
  obtain ⟨a, m, ha, hb⟩ := bind_eq_ok h
  obtain ⟨u, rfl, hu⟩ := hp l a m ha
  obtain ⟨w, rfl, hw⟩ := hq a u hu m b r hb
  exact ⟨u ++ w, (List.append_assoc u w r).symm, hw⟩

theorem Accepts.lift {P : A → List T → Prop} {err : E → E'} (hp : Accepts p P) : Accepts (lift err p) P := by
  intro l a r h
  rcases hl : p l with e | ⟨a', r'⟩
  · rw [Parsers.lift, hl] at h
    cases h
  · rw [Parsers.lift, hl] at h
    obtain ⟨rfl, rfl⟩ := Prod.mk.inj (Except.ok.inj h)
    exact hp l a' r' hl

/-! ### Bytes -/

def readByte : Parser UInt8 ReadError UInt8
  | [] => .error .eof
  | b :: bs => .ok (b, bs)

/-- So many bytes. Fewer are unexpected, unless there are none. -/
def readFull (n : ℕ) : Parser UInt8 ReadError Bytes := fun bs =>
  if n ≤ bs.length then .ok (bs.take n, bs.drop n)
  else .error (if bs = [] then .eof else .unexpectedEOF)

theorem exact_readByte (b : UInt8) : Exact readByte b [b] where
  reads _ := rfl
  cut {pre suf} h hs := by
    rcases pre with _ | ⟨c, pre⟩
    · exact ⟨.eof, rfl⟩
    · exact absurd (List.append_eq_nil_iff.mp (List.cons.inj h).2.symm).2 hs

theorem exact_readFull (w : Bytes) : Exact (readFull w.length) w w where
  reads rest := by simp [readFull]
  cut {pre suf} h hs := by
    have hpos := List.length_pos_iff.mpr hs
    have hlen := congrArg List.length h
    rw [List.length_append] at hlen
    exact ⟨_, if_neg (by omega)⟩

theorem exact_readUvarint {n : ℕ} (hn : n < 2 ^ 64) :
    Exact (readUvarint : Parser UInt8 ReadError ℕ) n (putUvarint n) where
  reads rest := readUvarint_put hn rest
  cut {pre suf} h hs := by
    by_cases hpre : pre = []
    · exact ⟨.eof, if_pos hpre⟩
    · exact ⟨.unexpectedEOF, (if_neg hpre).trans (readUvarintAux_truncated h hs)⟩

def readVarint : Parser UInt8 ReadError ℤ := do
  let n ← readUvarint
  pure (if n % 2 = 0 then (n / 2 : ℕ) else -((n / 2 : ℕ) : ℤ) - 1)

theorem exact_readVarint {x : ℤ} (h : -2 ^ 63 ≤ x ∧ x < 2 ^ 63) : Exact readVarint x (putVarint x) := by
  refine (exact_readUvarint (by split_ifs <;> omega)).bind_pure (congrArg Pure.pure ?_)
  split_ifs <;> omega

/-- Bytes after their length. -/
def readBytes : Parser UInt8 ReadError Bytes := do
  let n ← readUvarint
  readFull n

theorem exact_readBytes {bs : Bytes} (h : bs.length < 2 ^ 64) : Exact readBytes bs (putUvarint bs.length ++ bs) :=
  (exact_readUvarint h).bind (exact_readFull bs)

theorem accepts_readByte : Accepts readByte fun b w => w = [b] := by
  rintro (_ | ⟨b, bs⟩) a r h
  · cases h
  · obtain ⟨rfl, rfl⟩ := Prod.mk.inj (Except.ok.inj h)
    exact ⟨[b], rfl, rfl⟩

theorem accepts_readFull (n : ℕ) : Accepts (readFull n) fun bs w => w = bs ∧ bs.length = n := by
  intro l a r h
  unfold readFull at h
  split_ifs at h with hle
  obtain ⟨rfl, rfl⟩ := Prod.mk.inj (Except.ok.inj h)
  exact ⟨l.take n, (List.take_append_drop n l).symm, rfl, List.length_take_of_le hle⟩

/-- No number is spelled by fewer bytes than it is written with, nor by as many other ones. -/
theorem accepts_readUvarint : Accepts (readUvarint : Parser UInt8 ReadError ℕ) fun n w =>
    (putUvarint n).length ≤ w.length ∧ (w.length = (putUvarint n).length → w = putUvarint n) := by
  intro l n r h
  obtain ⟨w, hw, -, hle, heq⟩ := readUvarint_eq_ok h
  exact ⟨w, hw, hle, heq⟩

end IavlStore.Base.Parsers
