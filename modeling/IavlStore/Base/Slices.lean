import IavlStore.Base.Encoding

/-! Places in a byte string: a slice at an offset, and arrays of records of one size. What
stands at a place splits along appends. -/

namespace IavlStore.Base.Slices

open IavlStore.Base.Encoding

/-- `len` bytes from an offset, when there are so many. -/
def slice (data : Bytes) (offset len : ℕ) : Option Bytes :=
  if offset + len ≤ data.length then some ((data.drop offset).take len) else none

/-- The bytes `bs` stand at an offset. -/
def At (data : Bytes) (offset : ℕ) (bs : Bytes) : Prop := slice data offset bs.length = some bs

theorem at_iff {data bs : Bytes} {offset : ℕ} :
    At data offset bs ↔ ∃ pre rest, data = pre ++ (bs ++ rest) ∧ pre.length = offset := by
  constructor
  · intro h
    unfold At slice at h
    split_ifs at h with hle
    refine ⟨data.take offset, (data.drop offset).drop bs.length, ?_, ?_⟩
    · have htail := List.take_append_drop bs.length (data.drop offset)
      rw [Option.some.inj h] at htail
      rw [htail, List.take_append_drop]
    · rw [List.length_take]; omega
  · rintro ⟨pre, rest, rfl, rfl⟩
    simp [At, slice]

theorem at_append {data a b : Bytes} {offset : ℕ} :
    At data offset (a ++ b) ↔ At data offset a ∧ At data (offset + a.length) b := by
  constructor
  · intro h
    obtain ⟨pre, rest, rfl, rfl⟩ := at_iff.mp h
    exact ⟨at_iff.mpr ⟨pre, b ++ rest, by simp, rfl⟩, at_iff.mpr ⟨pre ++ a, rest, by simp, by simp⟩⟩
  · rintro ⟨ha, hb⟩
    obtain ⟨pre, rest, rfl, rfl⟩ := at_iff.mp ha
    obtain ⟨pre', rest', he, hl⟩ := at_iff.mp hb
    have h2 : rest = b ++ rest' := by
      have := congrArg (List.drop (pre.length + a.length)) he
      rw [List.drop_left' hl, ← List.append_assoc, List.drop_left' (by simp)] at this
      exact this
    exact at_iff.mpr ⟨pre, rest', by rw [h2, List.append_assoc], rfl⟩

theorem At.le {data bs : Bytes} {offset : ℕ} (h : At data offset bs) :
    offset + bs.length ≤ data.length := by
  obtain ⟨pre, rest, rfl, rfl⟩ := at_iff.mp h
  simp

/-- The records `rs` stand in an array from index `i` on. -/
def Records (size : ℕ) (data : Bytes) (i : ℕ) (rs : List Bytes) : Prop :=
  At data (i * size) rs.flatten ∧ ∀ r ∈ rs, r.length = size

theorem length_flatten_of_forall {size : ℕ} {rs : List Bytes} (h : ∀ r ∈ rs, r.length = size) :
    rs.flatten.length = rs.length * size := by
  rw [List.length_flatten, List.eq_replicate_of_mem (l := rs.map List.length) (a := size) (by simpa using h)]
  simp

theorem records_append {size i : ℕ} {data : Bytes} {a b : List Bytes}
    (h : Records size data i (a ++ b)) :
    Records size data i a ∧ Records size data (i + a.length) b := by
  obtain ⟨hat, hlen⟩ := h
  rw [List.flatten_append, at_append] at hat
  have ha : ∀ r ∈ a, r.length = size := fun r hr => hlen r (List.mem_append_left b hr)
  rw [length_flatten_of_forall ha, ← Nat.add_mul] at hat
  exact ⟨⟨hat.1, ha⟩, hat.2, fun r hr => hlen r (List.mem_append_right a hr)⟩

theorem Records.slice {size i : ℕ} {data r : Bytes} (h : Records size data i [r]) :
    slice data (i * size) size = some r := by
  have hr := h.2 r (by simp)
  have := h.1
  simpa [At, hr] using this

end IavlStore.Base.Slices
