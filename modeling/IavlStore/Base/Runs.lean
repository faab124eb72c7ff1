import Mathlib.Tactic

/-! Runs of machines that take one event at a time and return an output. What every step
keeps, under a condition on the events, holds at the end of a run. A partial machine
refines a total one when every step of the first succeeds with the output of the second
and keeps the states related; a whole run then does too. Where steps may fail, those that
succeed are compared. -/

namespace IavlStore.Base.Runs

variable {S T E O : Type*}

/-- Run a machine whose steps may fail, collecting the outputs. -/
def exec (step : S → E → Option (S × O)) : S → List E → Option (S × List O)
  | s, [] => some (s, [])
  | s, e :: es => do
    let (s, o) ← step s e
    let (s, os) ← exec step s es
    some (s, o :: os)

/-- Run a machine whose steps always succeed. -/
def total (step : T → E → T × O) : T → List E → T × List O
  | t, [] => (t, [])
  | t, e :: es =>
    let (t, o) := step t e
    let (t, os) := total step t es
    (t, o :: os)

/-- The events of a list meet a condition where they happen. -/
def Along (step : S → E → Option (S × O)) (cond : S → E → Prop) : S → List E → Prop
  | _, [] => True
  | s, e :: es => cond s e ∧ ∀ r ∈ step s e, Along step cond r.1 es

def decidableAlong (step : S → E → Option (S × O)) (cond : S → E → Prop) [∀ s e, Decidable (cond s e)] :
    (s : S) → (es : List E) → Decidable (Along step cond s es)
  | _, [] => .isTrue trivial
  | s, e :: es =>
    have (r : S × O) : Decidable (Along step cond r.1 es) := decidableAlong step cond r.1 es
    inferInstanceAs (Decidable (cond s e ∧ ∀ r ∈ step s e, Along step cond r.1 es))

instance (step : S → E → Option (S × O)) (cond : S → E → Prop) [∀ s e, Decidable (cond s e)] (s : S)
    (es : List E) : Decidable (Along step cond s es) := decidableAlong step cond s es

theorem along_of_forall {step : S → E → Option (S × O)} {cond : E → Prop} {es : List E}
    (h : ∀ e ∈ es, cond e) (s : S) : Along step (fun _ e => cond e) s es := by
  induction es generalizing s with
  | nil => trivial
  | cons e es ih => exact ⟨h e (by simp), fun r _ => ih (fun e he => h e (by simp [he])) r.1⟩

/-- One condition gives another where an invariant holds that it keeps. -/
theorem Along.of_invariant {step : S → E → Option (S × O)} {cond cond' : S → E → Prop} {P : S → Prop}
    (hstep : ∀ s e, P s → cond s e → cond' s e ∧ ∀ r ∈ step s e, P r.1) {s : S} {es : List E} (h₀ : P s)
    (ha : Along step cond s es) : Along step cond' s es := by
  induction es generalizing s with
  | nil => trivial
  | cons e es ih =>
    obtain ⟨hc, hP⟩ := hstep s e h₀ ha.1
    exact ⟨hc, fun r hr => ih (hP r hr) (ha.2 r hr)⟩

theorem exec_cons {step : S → E → Option (S × O)} {s s' : S} {e : E} {es : List E} {os : List O}
    (h : exec step s (e :: es) = some (s', os)) :
    ∃ s₁ o os', step s e = some (s₁, o) ∧ exec step s₁ es = some (s', os') ∧ os = o :: os' := by
  simp only [exec, Option.bind_eq_bind, Option.bind_eq_some_iff] at h
  obtain ⟨⟨s₁, o⟩, hs, ⟨s₂, os'⟩, hes, heq⟩ := h
  cases heq
  exact ⟨s₁, o, os', hs, hes, rfl⟩

theorem exec_append {step : S → E → Option (S × O)} {s s₁ s₂ : S} {es es' : List E} {os os' : List O}
    (h : exec step s es = some (s₁, os)) (h' : exec step s₁ es' = some (s₂, os')) :
    exec step s (es ++ es') = some (s₂, os ++ os') := by
  induction es generalizing s os with
  | nil =>
    cases h
    exact h'
  | cons e es ih =>
    obtain ⟨s₀, o, os₀, hs, hes, rfl⟩ := exec_cons h
    simp [exec, hs, ih hes]

theorem Along.append {step : S → E → Option (S × O)} {cond : S → E → Prop} {s s₁ : S} {es es' : List E}
    {os : List O} (ha : Along step cond s (es ++ es')) (h : exec step s es = some (s₁, os)) :
    Along step cond s es ∧ Along step cond s₁ es' := by
  induction es generalizing s os with
  | nil =>
    cases h
    exact ⟨trivial, ha⟩
  | cons e es ih =>
    obtain ⟨s₀, o, os₀, hs, hes, rfl⟩ := exec_cons h
    refine ⟨⟨ha.1, fun r hr => ?_⟩, (ih (ha.2 _ hs) hes).2⟩
    obtain rfl : r = (s₀, o) := Option.some.inj (hr.symm.trans hs)
    exact (ih (ha.2 _ hs) hes).1

/-- What holds at the start and is kept by every allowed step holds at the end, together
with the outputs so far. -/
theorem exec_invariant {step : S → E → Option (S × O)} {cond : S → E → Prop} {P : S → List O → Prop}
    (hstep : ∀ s os e s' o, P s os → cond s e → step s e = some (s', o) → P s' (os ++ [o])) {s s' : S}
    {es : List E} {os : List O} (h₀ : P s []) (ha : Along step cond s es)
    (he : exec step s es = some (s', os)) : P s' os := by
  suffices h : ∀ os₀, P s os₀ → P s' (os₀ ++ os) by simpa using h [] h₀
  clear h₀
  induction es generalizing s os with
  | nil =>
    cases he
    simp
  | cons e es ih =>
    obtain ⟨s₁, o, os', hs, hes, rfl⟩ := exec_cons he
    intro os₀ h
    simpa using ih (ha.2 _ hs) hes (os₀ ++ [o]) (hstep s os₀ e s₁ o h ha.1 hs)

/-- One event of the partial machine is answered by one of the total machine. -/
def Refines (step : S → E → Option (S × O)) (spec : T → E → T × O) (R : S → T → Prop) : Prop :=
  ∀ s t e, R s t → ∃ s', step s e = some (s', (spec t e).2) ∧ R s' (spec t e).1

/-- A refinement step by step is a refinement of whole runs. -/
theorem Refines.exec {step : S → E → Option (S × O)} {spec : T → E → T × O} {R : S → T → Prop}
    (h : Refines step spec R) (es : List E) {s : S} {t : T} (hst : R s t) :
    ∃ s', exec step s es = some (s', (total spec t es).2) ∧ R s' (total spec t es).1 := by
  induction es generalizing s t with
  | nil => exact ⟨s, rfl, hst⟩
  | cons e es ih =>
    obtain ⟨s₁, he, h₁⟩ := h s t e hst
    obtain ⟨s₂, hes, h₂⟩ := ih h₁
    exact ⟨s₂, by simp [Runs.exec, total, he, hes], h₂⟩

theorem total_map {E' : Type*} (spec : T → E → T × O) (f : E' → E) (t : T) (es : List E') :
    total (fun t e => spec t (f e)) t es = total spec t (es.map f) := by
  induction es generalizing t with
  | nil => rfl
  | cons e es ih => simp [total, ih]

/-- Where every allowed step has the output of the total machine and keeps the states related,
so has a whole run that succeeds. -/
theorem exec_simulates {step : S → E → Option (S × O)} (spec : T → E → T × O) {cond : S → E → Prop}
    {R : T → S → Prop}
    (hstep : ∀ t s e s' o, R t s → cond s e → step s e = some (s', o) → o = (spec t e).2 ∧ R (spec t e).1 s')
    {t : T} {s s' : S} {es : List E} {os : List O} (hst : R t s) (ha : Along step cond s es)
    (he : exec step s es = some (s', os)) : os = (total spec t es).2 ∧ R (total spec t es).1 s' := by
  induction es generalizing s t os with
  | nil =>
    cases he
    exact ⟨rfl, hst⟩
  | cons e es ih =>
    obtain ⟨s₁, o, os', hs, hes, rfl⟩ := exec_cons he
    obtain ⟨rfl, h₁⟩ := hstep t s e s₁ o hst ha.1 hs
    obtain ⟨rfl, h₂⟩ := ih h₁ (ha.2 _ hs) hes
    exact ⟨rfl, h₂⟩

end IavlStore.Base.Runs
