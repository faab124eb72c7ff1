import Mathlib.Tactic

/-! Journals: states connected by entries. A history holds the states a system passed
through and the entry that led from each to the next. When entries lead where the history
says, or cannot be applied at all, replaying a part of the journal from the state at its
start gives the state at its end. -/

namespace IavlStore.Base.Journal

variable {S E : Type*}

/-- The entries so far and the state after each number of entries. -/
structure History (S E : Type*) where
  log : List E
  state : ℕ → S

/-- Apply entries in order. -/
def replay (apply : S → E → Option S) : S → List E → Option S
  | s, [] => some s
  | s, e :: es => (apply s e).bind fun s => replay apply s es

namespace History

variable {apply : S → E → Option S} {h : History S E}

/-- An entry that can be applied leads to the next state. -/
def Sound (apply : S → E → Option S) (h : History S E) : Prop :=
  ∀ i e s, h.log[i]? = some e → apply (h.state i) e = some s → s = h.state (i + 1)

/-- Every entry can be applied. -/
def Complete (apply : S → E → Option S) (h : History S E) : Prop :=
  ∀ i e, h.log[i]? = some e → (apply (h.state i) e).isSome

def last (h : History S E) : S := h.state h.log.length

/-- One more entry and the state it led to. -/
def push (h : History S E) (e : E) (s : S) : History S E :=
  ⟨h.log ++ [e], fun i => if i ≤ h.log.length then h.state i else s⟩

/-- Forget the entries from a place on. -/
def cut (h : History S E) (n : ℕ) : History S E := ⟨h.log.take n, h.state⟩

/-- The states so far are kept. -/
def Extends (h h' : History S E) : Prop :=
  h.log.length ≤ h'.log.length ∧ ∀ i ≤ h.log.length, h'.state i = h.state i

theorem Extends.refl (h : History S E) : h.Extends h := ⟨le_rfl, fun _ _ => rfl⟩

@[simp] theorem log_push (h : History S E) (e : E) (s : S) : (h.push e s).log = h.log ++ [e] := rfl

theorem state_push_of_le {i : ℕ} (e : E) (s : S) (hi : i ≤ h.log.length) : (h.push e s).state i = h.state i :=
  if_pos hi

@[simp] theorem last_push (h : History S E) (e : E) (s : S) : (h.push e s).last = s := by
  simp [last, push]

theorem length_log_push (h : History S E) (e : E) (s : S) :
    (h.push e s).log.length = h.log.length + 1 := by simp

theorem extends_push (h : History S E) (e : E) (s : S) : h.Extends (h.push e s) :=
  ⟨by simp, fun _ hi => state_push_of_le e s hi⟩

/-- An index of the longer log is one of the shorter log or the new one. -/
theorem getElem?_log_push {i : ℕ} {e e' : E} {s : S} (hi : (h.push e s).log[i]? = some e') :
    h.log[i]? = some e' ∧ i < h.log.length ∨ i = h.log.length ∧ e' = e := by
  rw [log_push] at hi
  rcases lt_trichotomy i h.log.length with hlt | rfl | hgt
  · rw [List.getElem?_append_left hlt] at hi
    exact .inl ⟨hi, hlt⟩
  · right
    simpa [eq_comm] using hi
  · rw [List.getElem?_eq_none (by simp; omega)] at hi
    exact nomatch hi

theorem Sound.push (hs : h.Sound apply) {e : E} {s : S}
    (he : ∀ s', apply h.last e = some s' → s' = s) : (h.push e s).Sound apply := by
  intro i e' s' hi happ
  rcases getElem?_log_push hi with ⟨hi, hlt⟩ | ⟨rfl, rfl⟩
  · rw [state_push_of_le e s hlt.le] at happ
    rw [state_push_of_le e s (by omega)]
    exact hs i e' s' hi happ
  · rw [state_push_of_le _ s le_rfl] at happ
    simpa [History.push] using he s' happ

theorem Complete.push (hc : h.Complete apply) {e : E} {s : S} (he : (apply h.last e).isSome) :
    (h.push e s).Complete apply := by
  intro i e' hi
  rcases getElem?_log_push hi with ⟨hi, hlt⟩ | ⟨rfl, rfl⟩
  · rw [state_push_of_le e s hlt.le]
    exact hc i e' hi
  · rw [state_push_of_le _ s le_rfl]
    exact he

theorem getElem?_log_cut {n i : ℕ} {e : E} (hi : (h.cut n).log[i]? = some e) : h.log[i]? = some e := by
  rw [cut, List.getElem?_take] at hi
  split_ifs at hi
  exact hi

theorem Sound.cut (hs : h.Sound apply) (n : ℕ) : (h.cut n).Sound apply :=
  fun i e s hi => hs i e s (getElem?_log_cut hi)

theorem Complete.cut (hc : h.Complete apply) (n : ℕ) : (h.cut n).Complete apply :=
  fun i e hi => hc i e (getElem?_log_cut hi)

/-- Replaying from a state of the history leads to a state of the history. -/
theorem Sound.replay (hs : h.Sound apply) {i n : ℕ} {s : S} (hn : i + n ≤ h.log.length)
    (hr : Journal.replay apply (h.state i) ((h.log.drop i).take n) = some s) : s = h.state (i + n) := by
  induction n generalizing i with
  | zero => simpa [Journal.replay, eq_comm] using hr
  | succ n ih =>
    have hi : i < h.log.length := by omega
    rw [List.drop_eq_getElem_cons hi, List.take_succ_cons, Journal.replay, Option.bind_eq_some_iff] at hr
    obtain ⟨s', happ, hr⟩ := hr
    obtain rfl := hs i _ s' (List.getElem?_eq_getElem hi) happ
    rw [ih (by omega) hr]
    congr 1
    omega

theorem Complete.replay (hc : h.Complete apply) (hs : h.Sound apply) {i n : ℕ}
    (hn : i + n ≤ h.log.length) :
    Journal.replay apply (h.state i) ((h.log.drop i).take n) = some (h.state (i + n)) := by
  induction n generalizing i with
  | zero => simp [Journal.replay]
  | succ n ih =>
    have hi : i < h.log.length := by omega
    obtain ⟨s', happ⟩ := Option.isSome_iff_exists.mp (hc i _ (List.getElem?_eq_getElem hi))
    obtain rfl := hs i _ s' (List.getElem?_eq_getElem hi) happ
    rw [List.drop_eq_getElem_cons hi, List.take_succ_cons, Journal.replay, happ, Option.bind_some,
      ih (by omega)]
    congr 2
    omega

end History

end IavlStore.Base.Journal
