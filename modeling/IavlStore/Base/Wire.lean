import IavlStore.Base.Varint

/-! Messages in the protobuf wire format. A message is a sequence of fields with a number and a
wire type; unknown fields are skipped, nested groups included. What decoding does to a message is
a relation between byte strings and messages that composes along concatenation, so the encodings
of fields can be put together in any order.

Numbers are 64 bits wide, and the length of a byte string is below `2 ^ 63`. -/

namespace IavlStore.Base.Wire

open IavlStore.Base.Encoding

inductive DecodeError where
  | intOverflow
  | unexpectedEOF
  | invalidLength
  | endGroup
  | illegalTag
  | wrongWireType
  | unexpectedEndOfGroup
  | illegalWireType
  deriving DecidableEq

/-! ### Numbers -/

/-- The number at the start of a byte string, in at most `size` bytes, and the bytes after it. -/
def readVarintAux : ℕ → Bytes → Except DecodeError (ℕ × Bytes)
  | 0, _ => .error .intOverflow
  | _ + 1, [] => .error .unexpectedEOF
  | size + 1, b :: bs =>
    if b < 128 then .ok (b.toNat, bs)
    else (readVarintAux size bs).map fun r => (b.toNat % 128 + 128 * r.1, r.2)

/-- Bits beyond the sixty-fourth are lost. -/
def readVarint (bs : Bytes) : Except DecodeError (ℕ × Bytes) :=
  (readVarintAux 10 bs).map fun r => (r.1 % 2 ^ 64, r.2)

/-! ### Fields -/

/-- How a field changes a message, by its wire type. -/
inductive FieldDecoder (M : Type) where
  | varint (set : ℕ → M → M)
  | bytes (set : Bytes → M → Except DecodeError M)

/-- A length, and as many bytes. The place is counted from the start of a message of length `l`. -/
def readBytes (l : ℕ) (bs : Bytes) : Except DecodeError (Bytes × Bytes) := do
  let (len, rest) ← readVarint bs
  if 2 ^ 63 ≤ len then .error .invalidLength
  else if 2 ^ 63 ≤ l - rest.length + len then .error .invalidLength
  else if rest.length < len then .error .unexpectedEOF
  else .ok (rest.take len, rest.drop len)

/-- The next part of a field in a message of length `l`: how deep in groups it leads, and the place
after it, which may be past the end. -/
def skipPart (l depth : ℕ) (bs : Bytes) : Except DecodeError (ℕ × ℕ) := do
  let (wire, rest) ← readVarint bs
  match wire % 8 with
  | 0 => do
    let (_, rest) ← readVarint rest
    .ok (depth, l - rest.length)
  | 1 => .ok (depth, l - rest.length + 8)
  | 2 => do
    let (len, rest) ← readVarint rest
    if 2 ^ 63 ≤ len then .error .invalidLength else .ok (depth, l - rest.length + len)
  | 3 => .ok (depth + 1, l - rest.length)
  | 4 => if depth = 0 then .error .unexpectedEndOfGroup else .ok (depth - 1, l - rest.length)
  | 5 => .ok (depth, l - rest.length + 4)
  | _ => .error .illegalWireType

def skipLoop (l : ℕ) : ℕ → ℕ → Bytes → Except DecodeError ℕ
  | 0, _, _ => .error .unexpectedEOF
  | fuel + 1, depth, bs =>
    if bs = [] then .error .unexpectedEOF
    else do
      let (depth, i) ← skipPart l depth bs
      if 2 ^ 63 ≤ i then .error .invalidLength
      else if depth = 0 then .ok i
      else skipLoop l fuel depth (bs.drop (i - (l - bs.length)))

/-- The length of the field at the start of a byte string. -/
def skip (bs : Bytes) : Except DecodeError ℕ := skipLoop bs.length bs.length 0 bs

/-- An unsigned number read as a signed one of 32 bits. -/
def int32 (n : ℕ) : ℤ := Int.bmod n (2 ^ 32)

variable {M : Type} (fields : ℤ → Option (FieldDecoder M))

/-- One field of a message of length `l`, and the bytes after it. -/
def unmarshalField (l : ℕ) (bs : Bytes) (m : M) : Except DecodeError (M × Bytes) := do
  let (wire, rest) ← readVarint bs
  if wire % 8 = 4 then .error .endGroup
  else if int32 (wire / 8) ≤ 0 then .error .illegalTag
  else
    match fields (int32 (wire / 8)) with
    | some (.varint set) =>
      if wire % 8 ≠ 0 then .error .wrongWireType
      else do
        let (v, rest) ← readVarint rest
        .ok (set v m, rest)
    | some (.bytes set) =>
      if wire % 8 ≠ 2 then .error .wrongWireType
      else do
        let (data, rest) ← readBytes l rest
        let m ← set data m
        .ok (m, rest)
    | none => do
      let n ← skip bs
      if 2 ^ 63 ≤ l - bs.length + n then .error .invalidLength
      else if bs.length < n then .error .unexpectedEOF
      else .ok (m, bs.drop n)

def unmarshalLoop (l : ℕ) : ℕ → Bytes → M → Except DecodeError M
  | 0, _, m => .ok m
  | fuel + 1, bs, m =>
    if bs = [] then .ok m
    else do
      let (m, rest) ← unmarshalField fields l bs m
      unmarshalLoop l fuel rest m

/-- Decode into a message. Every field takes a byte at least. -/
def unmarshal (bs : Bytes) (m : M) : Except DecodeError M := unmarshalLoop fields bs.length bs.length bs m

/-! ### Reading what was written -/

theorem readVarintAux_put (size : ℕ) {n : ℕ} (hn : n < 128 ^ (size + 1)) (rest : Bytes) :
    readVarintAux (size + 1) (putUvarintAux (size + 1) n ++ rest) = .ok (n, rest) := by
  induction size generalizing n with
  | zero =>
    have hlt : n < 128 := by simpa using hn
    have h128 : UInt8.ofNat n < 128 := (ofNat_lt_iff (k := 128) (by omega) (by omega)).mpr hlt
    rw [putUvarintAux, if_pos hlt, List.singleton_append, readVarintAux, if_pos h128, toNat_ofNat_of_lt (by omega)]
  | succ size ih =>
    by_cases hlt : n < 128
    · have h128 : UInt8.ofNat n < 128 := (ofNat_lt_iff (k := 128) (by omega) (by omega)).mpr hlt
      rw [putUvarintAux, if_pos hlt, List.singleton_append, readVarintAux, if_pos h128, toNat_ofNat_of_lt (by omega)]
    · have h128 : ¬ UInt8.ofNat (n % 128 + 128) < 128 :=
        mt (ofNat_lt_iff (k := 128) (by omega) (by omega)).mp (by omega)
      have hdiv : n / 128 < 128 ^ (size + 1) := Nat.div_lt_of_lt_mul (by rwa [pow_succ'] at hn)
      rw [putUvarintAux, if_neg hlt, List.cons_append, readVarintAux, if_neg h128, ih hdiv]
      simp only [Except.map, toNat_ofNat_of_lt (show n % 128 + 128 < 256 by omega), Except.ok.injEq, Prod.mk.injEq,
        and_true]
      omega

theorem readVarint_put {n : ℕ} (hn : n < 2 ^ 64) (rest : Bytes) : readVarint (putUvarint n ++ rest) = .ok (n, rest) := by
  rw [readVarint, putUvarint, readVarintAux_put 9 (by omega)]
  exact congrArg (fun k => Except.ok (k, rest)) (Nat.mod_eq_of_lt hn)

theorem readVarint_byte {n : ℕ} (hn : n < 128) (rest : Bytes) : readVarint (UInt8.ofNat n :: rest) = .ok (n, rest) := by
  have hput : putUvarint n = [UInt8.ofNat n] := if_pos hn
  have hread := readVarint_put (n := n) (by omega) rest
  rwa [hput] at hread

/-- What is left after a number is shorter. -/
theorem length_of_readVarintAux {size n : ℕ} {bs rest : Bytes} (h : readVarintAux size bs = .ok (n, rest)) :
    rest.length < bs.length := by
  induction size generalizing bs n with
  | zero => cases h
  | succ size ih =>
    cases bs with
    | nil => cases h
    | cons b bs =>
      rw [readVarintAux] at h
      split_ifs at h with hb
      · cases h
        simp
      · rcases hr : readVarintAux size bs with e | ⟨v, rest'⟩ <;> rw [hr] at h <;> cases h
        exact (ih hr).trans (by simp)

theorem length_of_readVarint {n : ℕ} {bs rest : Bytes} (h : readVarint bs = .ok (n, rest)) :
    rest.length < bs.length := by
  unfold readVarint at h
  rcases hr : readVarintAux 10 bs with e | ⟨v, rest'⟩ <;> rw [hr] at h <;> cases h
  exact length_of_readVarintAux hr

theorem readBytes_put {l : ℕ} {data rest : Bytes} (hlen : data.length < 2 ^ 63)
    (hl : (putUvarint data.length ++ (data ++ rest)).length ≤ l) (hmax : l < 2 ^ 63) :
    readBytes l (putUvarint data.length ++ (data ++ rest)) = .ok (data, rest) := by
  have hread := readVarint_put (n := data.length) (by omega) (data ++ rest)
  simp only [List.length_append] at hl
  simp only [readBytes, hread, bind, Except.bind]
  rw [if_neg (by omega), if_neg (by simp only [List.length_append]; omega), if_neg (by simp),
    List.take_left, List.drop_left]

/-! ### What follows does not matter -/

theorem readVarintAux_append {size n : ℕ} {bs rest : Bytes} (h : readVarintAux size bs = .ok (n, rest)) (suf : Bytes) :
    readVarintAux size (bs ++ suf) = .ok (n, rest ++ suf) := by
  induction size generalizing bs n with
  | zero => cases h
  | succ size ih =>
    cases bs with
    | nil => cases h
    | cons b bs =>
      rw [readVarintAux] at h
      rw [List.cons_append, readVarintAux]
      split_ifs at h ⊢ with hb
      · cases h
        rfl
      · rcases hr : readVarintAux size bs with e | ⟨v, rest'⟩ <;> rw [hr] at h <;> cases h
        rw [ih hr]
        rfl

theorem readVarint_append {n : ℕ} {bs rest : Bytes} (h : readVarint bs = .ok (n, rest)) (suf : Bytes) :
    readVarint (bs ++ suf) = .ok (n, rest ++ suf) := by
  unfold readVarint at h ⊢
  rcases hr : readVarintAux 10 bs with e | ⟨v, rest'⟩ <;> rw [hr] at h <;> cases h
  rw [readVarintAux_append hr]
  rfl

theorem readBytes_eq_ok {l : ℕ} {bs data rest : Bytes} (h : readBytes l bs = .ok (data, rest)) :
    ∃ len rest', readVarint bs = .ok (len, rest') ∧ len < 2 ^ 63 ∧ len ≤ rest'.length ∧ data = rest'.take len ∧
      rest = rest'.drop len := by
  unfold readBytes at h
  rcases hr : readVarint bs with e | ⟨len, rest'⟩ <;> simp only [hr, bind, Except.bind, reduceCtorEq] at h
  split_ifs at h with h₁ h₂ h₃
  cases h
  exact ⟨len, rest', rfl, by omega, by omega, rfl, rfl⟩

theorem readBytes_append {l l' : ℕ} {bs data rest : Bytes} (h : readBytes l bs = .ok (data, rest)) (suf : Bytes)
    (hl : (bs ++ suf).length ≤ l') (hmax : l' < 2 ^ 63) : readBytes l' (bs ++ suf) = .ok (data, rest ++ suf) := by
  obtain ⟨len, rest', hr, hlen, hle, rfl, rfl⟩ := readBytes_eq_ok h
  have hlt := length_of_readVarint hr
  rw [List.length_append] at hl
  simp only [readBytes, readVarint_append hr, bind, Except.bind, List.length_append]
  rw [if_neg (by omega), if_neg (by omega), if_neg (by omega), List.take_append_of_le_length hle,
    List.drop_append_of_le_length hle]

theorem skipPart_append {l depth depth' i : ℕ} {bs : Bytes} (hl : bs.length ≤ l)
    (h : skipPart l depth bs = .ok (depth', i)) (suf : Bytes) :
    skipPart (l + suf.length) depth (bs ++ suf) = .ok (depth', i) ∧ l - bs.length < i := by
  have hpos : ∀ rest : Bytes, rest.length < bs.length →
      l + suf.length - (rest ++ suf).length = l - rest.length ∧ l - bs.length < l - rest.length := by
    intro rest hrest
    rw [List.length_append]
    omega
  unfold skipPart at h ⊢
  rcases hr : readVarint bs with e | ⟨wire, rest⟩ <;> simp only [hr, bind, Except.bind, reduceCtorEq] at h
  have hrest := length_of_readVarint hr
  obtain ⟨hp, hlt⟩ := hpos rest hrest
  simp only [readVarint_append hr, bind, Except.bind, hp]
  split at h
  · rcases hv : readVarint rest with e | ⟨v, rest₁⟩ <;> simp only [hv, reduceCtorEq] at h
    obtain ⟨hp₁, hlt₁⟩ := hpos rest₁ ((length_of_readVarint hv).trans hrest)
    cases h
    rw [readVarint_append hv, ← hp₁]
    exact ⟨rfl, by omega⟩
  · cases h
    exact ⟨rfl, by omega⟩
  · rcases hv : readVarint rest with e | ⟨len, rest₁⟩ <;> simp only [hv, reduceCtorEq] at h
    obtain ⟨hp₁, hlt₁⟩ := hpos rest₁ ((length_of_readVarint hv).trans hrest)
    simp only [readVarint_append hv, hp₁]
    split_ifs at h ⊢
    cases h
    exact ⟨rfl, by omega⟩
  · cases h
    exact ⟨rfl, hlt⟩
  · split_ifs at h ⊢
    cases h
    exact ⟨rfl, hlt⟩
  · cases h
    exact ⟨rfl, by omega⟩
  · cases h

theorem skipLoop_append {l fuel fuel' depth n : ℕ} {bs : Bytes} (hl : bs.length ≤ l)
    (h : skipLoop l fuel depth bs = .ok n) (suf : Bytes) (hfuel : fuel ≤ fuel') :
    skipLoop (l + suf.length) fuel' depth (bs ++ suf) = .ok n ∧ l - bs.length < n := by
  induction fuel generalizing fuel' depth bs with
  | zero => cases h
  | succ fuel ih =>
    obtain ⟨fuel', rfl⟩ := Nat.exists_eq_add_of_le' (Nat.one_le_of_lt hfuel)
    rw [skipLoop] at h
    split_ifs at h with hbs
    rcases hp : skipPart l depth bs with e | ⟨depth', i⟩ <;> simp only [hp, bind, Except.bind, reduceCtorEq] at h
    obtain ⟨hpart, hi⟩ := skipPart_append hl hp suf
    rw [skipLoop, if_neg (by simp [hbs]), hpart]
    simp only [bind, Except.bind]
    split_ifs at h ⊢ with hmax hdepth
    · cases h
      exact ⟨rfl, hi⟩
    · -- A part that reaches past the end leaves nothing to read, and then the loop has failed.
      have hin : i - (l - bs.length) ≤ bs.length := by
        by_contra hgt
        rw [List.drop_eq_nil_of_le (by omega)] at h
        cases fuel <;> simp [skipLoop] at h
      have hlen : (bs.drop (i - (l - bs.length))).length = l - i := by
        rw [List.length_drop]
        omega
      have hpos : l + suf.length - (bs ++ suf).length = l - bs.length := by
        rw [List.length_append]
        omega
      obtain ⟨hloop, hn⟩ := ih (by omega) h (show fuel ≤ fuel' by omega)
      rw [hpos, List.drop_append_of_le_length hin]
      exact ⟨hloop, by omega⟩

theorem skip_append {n : ℕ} {bs : Bytes} (h : skip bs = .ok n) (suf : Bytes) :
    skip (bs ++ suf) = .ok n ∧ 0 < n := by
  have hfuel : bs.length ≤ (bs ++ suf).length := by simp
  obtain ⟨hloop, hn⟩ := skipLoop_append le_rfl h suf hfuel
  rw [← List.length_append] at hloop
  exact ⟨hloop, by omega⟩

variable {fields} {m m' m₁ m₂ : M}

/-- A field that has been read is read the same whatever follows it and wherever it stands. -/
theorem unmarshalField_append {l l' : ℕ} {bs rest : Bytes} (h : unmarshalField fields l bs m = .ok (m', rest))
    (suf : Bytes) (hl : (bs ++ suf).length ≤ l') (hmax : l' < 2 ^ 63) :
    unmarshalField fields l' (bs ++ suf) m = .ok (m', rest ++ suf) ∧ rest.length < bs.length := by
  unfold unmarshalField at h ⊢
  rcases hr : readVarint bs with e | ⟨wire, rest₁⟩ <;> simp only [hr, bind, Except.bind, reduceCtorEq] at h
  have hlt := length_of_readVarint hr
  rw [List.length_append] at hl
  simp only [readVarint_append hr, bind, Except.bind]
  by_cases hend : wire % 8 = 4
  · simp [hend] at h
  by_cases htag : int32 (wire / 8) ≤ 0
  · simp [hend, htag] at h
  rw [if_neg hend, if_neg htag] at h ⊢
  rcases hf : fields (int32 (wire / 8)) with _ | set | set <;> simp only [hf] at h ⊢
  · rcases hs : skip bs with e | n <;> simp only [hs, reduceCtorEq] at h
    obtain ⟨hs', hn⟩ := skip_append hs suf
    split_ifs at h with h₁ h₂
    cases h
    simp only [hs', List.length_append]
    rw [if_neg (by omega), if_neg (by omega), List.drop_append_of_le_length (by omega)]
    exact ⟨rfl, by rw [List.length_drop]; omega⟩
  · split_ifs at h ⊢ with hw
    rcases hv : readVarint rest₁ with e | ⟨v, rest₂⟩ <;> simp only [hv, reduceCtorEq] at h
    cases h
    rw [readVarint_append hv]
    exact ⟨rfl, (length_of_readVarint hv).trans hlt⟩
  · split_ifs at h ⊢ with hw
    rcases hb : readBytes l rest₁ with e | ⟨data, rest₂⟩ <;> simp only [hb, reduceCtorEq] at h
    rcases hs : set data m with e | m₁ <;> simp only [hs, reduceCtorEq] at h
    cases h
    have hb' := readBytes_append hb suf (by rw [List.length_append]; omega) hmax
    obtain ⟨len, rest₃, hv, -, -, -, rfl⟩ := readBytes_eq_ok hb
    have hlt₃ := length_of_readVarint hv
    refine ⟨by simp only [hb', hs], ?_⟩
    rw [List.length_drop]
    omega

theorem unmarshalLoop_append {l l' fuel fuel' : ℕ} {bs : Bytes} (h : unmarshalLoop fields l fuel bs m = .ok m')
    (hfuel : bs.length ≤ fuel) (suf : Bytes) (hl : (bs ++ suf).length ≤ l') (hmax : l' < 2 ^ 63)
    (hfuel' : (bs ++ suf).length ≤ fuel') :
    ∃ fuel'', suf.length ≤ fuel'' ∧ unmarshalLoop fields l' fuel' (bs ++ suf) m = unmarshalLoop fields l' fuel'' suf m' := by
  induction fuel generalizing bs m fuel' with
  | zero =>
    obtain rfl : bs = [] := by simpa using hfuel
    cases h
    exact ⟨fuel', hfuel', rfl⟩
  | succ fuel ih =>
    rw [unmarshalLoop] at h
    split_ifs at h with hbs
    · subst hbs
      cases h
      exact ⟨fuel', hfuel', rfl⟩
    · rcases hf : unmarshalField fields l bs m with e | ⟨m₁, rest⟩ <;>
        simp only [hf, bind, Except.bind, reduceCtorEq] at h
      obtain ⟨hf', hlt⟩ := unmarshalField_append hf suf hl hmax
      simp only [List.length_append] at hl hfuel'
      obtain ⟨fuel', rfl⟩ := Nat.exists_eq_add_of_le' (show 1 ≤ fuel' by omega)
      rw [unmarshalLoop, if_neg (by simp [hbs])]
      simp only [hf', bind, Except.bind]
      exact ih h (by omega) (by rw [List.length_append]; omega) (by rw [List.length_append]; omega)

/-- Decoding a concatenation is decoding the one part and then the other into the same message. -/
theorem unmarshal_append {a b : Bytes} (ha : unmarshal fields a m = .ok m₁) (hb : unmarshal fields b m₁ = .ok m₂)
    (hmax : (a ++ b).length < 2 ^ 63) : unmarshal fields (a ++ b) m = .ok m₂ := by
  obtain ⟨fuel, hfuel, happ⟩ := unmarshalLoop_append ha le_rfl b le_rfl hmax le_rfl
  have hb_le : (b ++ []).length ≤ (a ++ b).length := by simp
  have hb_fuel : (b ++ []).length ≤ fuel := by simpa using hfuel
  obtain ⟨fuel', -, hdone⟩ := unmarshalLoop_append hb le_rfl [] hb_le hmax hb_fuel
  rw [List.append_nil] at hdone
  rw [unmarshal, happ, hdone]
  cases fuel' <;> rfl

end IavlStore.Base.Wire
