import IavlStore.Db.AsyncCommit

/-! Failing writes of the log. The writer stops receiving when a write fails and waits for someone to
take its error; the committer looks for it after its own send. If more commits are made without
waiting for the writer than the buffer and the writer's hands hold, the committer may be left
sending to a writer that has failed, and both wait forever. -/

namespace IavlStore.Db

open IavlStore.Base.Runs IavlStore.Multi

/-- A call of the committer. A commit comes with the entry that its version gives. -/
inductive Call (N : Type) where
  | commit (entry : ℕ × WALEntry N)
  | waitAsyncCommit

/-- Between calls, at the send of a commit, before the look for an error, or waiting for the writer
to quit. -/
inductive Committer (N : Type) where
  | idle
  | sending (entry : ℕ × WALEntry N)
  | checking
  | waiting

/-- How a call returns. -/
inductive CallResult where
  | ok
  | walFailed
  deriving DecidableEq

/-- The calls still to be made, the committer, the channel and the log. -/
structure Parties (N : Type) (W : WalLog (WALEntry N)) where
  calls : List (Call N)
  committer : Committer N
  walChan : Option (Channel N)
  wal : W.Log

/-- A step of the committer or of the writer. An error of the log may take the place of what the writer
does with it. -/
inductive PartyEvent (N : Type) where
  | call
  | send
  | check
  | waited
  | writer (e : AsyncEvent N)
  | fail

variable {N : Type} {W : WalLog (WALEntry N)} (size : ℕ)

/-- The committer begins its next call. The first commit makes the channel; waiting closes it. -/
def Parties.call (s : Parties N W) : Option (Parties N W × Option CallResult) :=
  match s.calls, s.walChan with
  | .commit entry :: calls, walChan =>
    some (⟨calls, .sending entry, some (walChan.getD ⟨[], false, .receiving⟩), s.wal⟩, none)
  | .waitAsyncCommit :: calls, some c => some (⟨calls, .waiting, some { c with closed := true }, s.wal⟩, none)
  | .waitAsyncCommit :: calls, none => some (⟨calls, .idle, none, s.wal⟩, some .ok)
  | [], _ => none

/-- The look for an error does not block. A writer that has quit is found at once, as its channel is
closed. -/
def checkAsyncCommit (c : Channel N) : Channel N × CallResult :=
  match c.writer with
  | .failed => ({ c with writer := .stopped }, .walFailed)
  | .stopped => (c, .walFailed)
  | _ => (c, .ok)

/-- What waiting for the writer returns, once it has quit or offers its error. -/
def Channel.quit (c : Channel N) : Option CallResult :=
  match c.writer with
  | .failed => some .walFailed
  | .stopped => some .ok
  | _ => none

/-- The last index or a write fails. -/
def Channel.fail (c : Channel N) : Option (Channel N) :=
  match c.writer with
  | .collecting _ 0 => some { c with writer := .failed }
  | .writing _ _ => some { c with writer := .failed }
  | _ => none

def partyStep (s : Parties N W) : PartyEvent N → Option (Parties N W × Option CallResult)
  | .call =>
    match s.committer with
    | .idle => s.call
    | _ => none
  | .send =>
    match s.committer with
    | .sending entry => do
      let c ← s.walChan
      let c ← c.send size entry
      some ({ s with committer := .checking, walChan := some c }, none)
    | _ => none
  | .check =>
    match s.committer with
    | .checking => do
      let c ← s.walChan
      let (c, result) := checkAsyncCommit c
      some ({ s with committer := .idle, walChan := some c }, some result)
    | _ => none
  | .waited =>
    match s.committer with
    | .waiting => do
      let c ← s.walChan
      let result ← c.quit
      some ({ s with committer := .idle, walChan := none }, some result)
    | _ => none
  | .writer e => do
    let c ← s.walChan
    let (c, wal) ← c.step s.wal e
    some ({ s with walChan := some c, wal := wal }, none)
  | .fail => do
    let c ← s.walChan
    let c ← c.fail
    some ({ s with walChan := some c }, none)

/-- The committer cannot send, and the writer waits for its error to be taken. -/
def Parties.Wedged (s : Parties N W) : Prop :=
  ∃ entry c, s.committer = .sending entry ∧ s.walChan = some c ∧ c.writer = .failed ∧ c.send size entry = none

/-- After `made` commits on a channel, every further one comes before the buffer and the writer's
hands are full, or after the channel was waited for. -/
def Paced : ℕ → List (Call N) → Prop
  | _, [] => True
  | made, .commit _ :: calls => made ≤ size ∧ Paced (made + 1) calls
  | _, .waitAsyncCommit :: calls => Paced 0 calls

/-- With a failed writer, every call in progress goes on, and none returns but with its error. -/
def Parties.Surfaces (s : Parties N W) : Prop :=
  ∀ c, s.walChan = some c → c.writer = .failed →
    (∀ e s' result, partyStep size s e = some (s', some result) → result = .walFailed) ∧
    (s.committer ≠ .idle ∨ s.calls ≠ [] → ∃ e, (partyStep size s e).isSome)

/-! ### Paced calls -/

/-- The writer has received an entry. -/
def Writer.Begun : Writer N → Prop
  | .receiving => False
  | _ => True

def Committer.sends : Committer N → ℕ
  | .sending _ => 1
  | _ => 0

/-- The commits made on an open channel are those whose entries the writer took, those queued and the one
being sent. -/
structure OpenInv (made : ℕ) (committer : Committer N) (c : Channel N) : Prop where
  closed : c.closed = false
  begun : c.writer.Begun → c.queue.length + committer.sends < made
  sent : c.queue.length + committer.sends ≤ made
  made_le : made ≤ size + 1

/-- The calls left are paced after those made. Only a waiting call has closed the channel. -/
def PartyInv (s : Parties N W) : Prop :=
  ∃ made, Paced size made s.calls ∧
    match s.committer, s.walChan with
    | .waiting, some _ => made = 0
    | .waiting, none => False
    | .idle, none => made = 0
    | _, none => False
    | committer, some c => OpenInv size made committer c

variable {size} {made : ℕ} {committer : Committer N} {c c' : Channel N} {s s' : Parties N W}

theorem OpenInv.send {entry : ℕ × WALEntry N} (h : OpenInv size made (.sending entry) c)
    (hs : c.send size entry = some c') : OpenInv size made .checking c' := by
  obtain ⟨queue, closed, writer⟩ := c
  obtain ⟨hclosed, hbegun, hsent, hle⟩ := h
  simp only [Committer.sends] at hsent hbegun
  unfold Channel.send at hs
  split_ifs at hs with _ hroom
  · obtain rfl := Option.some.inj hs
    exact ⟨hclosed, by simpa [Committer.sends] using hbegun, by simpa [Committer.sends] using hsent, hle⟩
  · cases queue with
    | cons => cases hs
    | nil =>
      cases writer <;> cases hs
      exact ⟨hclosed, fun _ => hsent, Nat.zero_le _, hle⟩

/-- An entry the writer has received is no longer queued. -/
theorem OpenInv.step {wal wal' : W.Log} {e : AsyncEvent N} (h : OpenInv size made committer c)
    (hs : c.step wal e = some (c', wal')) : OpenInv size made committer c' := by
  obtain ⟨queue, closed, writer⟩ := c
  obtain ⟨rfl, hbegun, hsent, hle⟩ := h
  cases e <;> simp only [Channel.step, reduceCtorEq] at hs
  case receive =>
    cases writer <;> try cases hs
    cases queue with
    | nil => cases hs
    | cons entry queue =>
      cases hs
      simp only [List.length_cons] at hsent
      exact ⟨rfl, fun _ => by dsimp only; omega, by dsimp only; omega, hle⟩
  case length =>
    cases writer <;> cases hs
    exact ⟨rfl, hbegun, hsent, hle⟩
  case receiveNext =>
    cases writer <;> try cases hs
    next result remaining =>
      cases remaining <;> cases queue <;> cases hs
      have hlt := hbegun trivial
      simp only [List.length_cons] at hlt
      exact ⟨rfl, fun _ => by dsimp only; omega, by dsimp only; omega, hle⟩
  case lastIndex =>
    cases writer <;> try cases hs
    next result remaining =>
      cases remaining <;> cases hs
      exact ⟨rfl, hbegun, hsent, hle⟩
  case write =>
    cases writer <;> try cases hs
    dsimp only at hs
    split at hs <;> cases hs
    · exact ⟨rfl, hbegun, hsent, hle⟩
    · exact ⟨rfl, False.elim, hsent, hle⟩

theorem OpenInv.fail (h : OpenInv size made committer c) (hf : c.fail = some c') :
    OpenInv size made committer c' := by
  obtain ⟨queue, closed, writer⟩ := c
  obtain ⟨hclosed, hbegun, hsent, hle⟩ := h
  unfold Channel.fail at hf
  split at hf <;> cases hf
  all_goals
    next hw =>
      cases hw
      exact ⟨hclosed, hbegun, hsent, hle⟩

theorem OpenInv.check (h : OpenInv size made .checking c) : OpenInv size made .idle (checkAsyncCommit c).1 := by
  obtain ⟨queue, closed, writer⟩ := c
  obtain ⟨hclosed, hbegun, hsent, hle⟩ := h
  cases writer <;> exact ⟨hclosed, hbegun, hsent, hle⟩

/-- A commit makes the channel if there is none, and is one more made on it. -/
theorem OpenInv.commit {entry : ℕ × WALEntry N} (h : OpenInv size made .idle c) (hm : made ≤ size) :
    OpenInv size (made + 1) (.sending entry) c :=
  ⟨h.closed, fun hb => Nat.succ_lt_succ (h.begun hb), Nat.succ_le_succ h.sent, Nat.succ_le_succ hm⟩

theorem PartyInv.call {o : Option CallResult} (h : PartyInv size s) (hi : s.committer = .idle)
    (hs : s.call = some (s', o)) : PartyInv size s' := by
  obtain ⟨calls, committer, walChan, wal⟩ := s
  obtain rfl : committer = .idle := hi
  obtain ⟨made, hp, h⟩ := h
  cases calls with
  | nil => cases hs
  | cons call calls =>
    cases call with
    | commit entry =>
      cases hs
      obtain ⟨hm, hp⟩ := hp
      cases walChan with
      | none =>
        obtain rfl : made = 0 := h
        exact ⟨1, hp, rfl, False.elim, le_rfl, by omega⟩
      | some c => exact ⟨made + 1, hp, OpenInv.commit h hm⟩
    | waitAsyncCommit => cases walChan <;> cases hs <;> exact ⟨0, hp, rfl⟩

/-- A waiting call keeps its place whatever the writer does; otherwise the channel is open. -/
theorem PartyInv.withChannel {wal : W.Log} (h : PartyInv size s) (hc : s.walChan = some c)
    (hopen : ∀ made, OpenInv size made s.committer c → OpenInv size made s.committer c') :
    PartyInv size { s with walChan := some c', wal := wal } := by
  obtain ⟨calls, committer, walChan, wal⟩ := s
  obtain rfl : walChan = some c := hc
  obtain ⟨made, hp, h⟩ := h
  cases committer with
  | waiting => exact ⟨made, hp, h⟩
  | _ => exact ⟨made, hp, hopen made h⟩

theorem PartyInv.step {e : PartyEvent N} {o : Option CallResult} (h : PartyInv size s)
    (hs : partyStep size s e = some (s', o)) : PartyInv size s' := by
  cases e with
  | writer e =>
    simp only [partyStep, Option.bind_eq_bind, Option.bind_eq_some_iff] at hs
    obtain ⟨c, hc, ⟨c', wal'⟩, hstep, heq⟩ := hs
    cases heq
    exact h.withChannel hc fun made ho => ho.step hstep
  | fail =>
    simp only [partyStep, Option.bind_eq_bind, Option.bind_eq_some_iff] at hs
    obtain ⟨c, hc, c', hfail, heq⟩ := hs
    cases heq
    exact h.withChannel hc fun made ho => ho.fail hfail
  | call =>
    obtain ⟨calls, committer, walChan, wal⟩ := s
    cases committer <;> try cases hs
    exact h.call rfl hs
  | send =>
    obtain ⟨calls, committer, walChan, wal⟩ := s
    cases committer <;> cases walChan <;> try cases hs
    obtain ⟨c', hsend, heq⟩ := Option.bind_eq_some_iff.mp hs
    cases heq
    obtain ⟨made, hp, h⟩ := h
    exact ⟨made, hp, OpenInv.send h hsend⟩
  | check =>
    obtain ⟨calls, committer, walChan, wal⟩ := s
    cases committer <;> cases walChan <;> cases hs
    obtain ⟨made, hp, h⟩ := h
    exact ⟨made, hp, OpenInv.check h⟩
  | waited =>
    obtain ⟨calls, committer, walChan, wal⟩ := s
    cases committer <;> cases walChan <;> try cases hs
    obtain ⟨result, -, heq⟩ := Option.bind_eq_some_iff.mp hs
    cases heq
    exact h

/-- Once the writer has begun, paced commits find room. -/
theorem OpenInv.room {entry : ℕ × WALEntry N} (h : OpenInv size made (.sending entry) c)
    (hb : c.writer.Begun) : (c.send size entry).isSome := by
  have hlt : c.queue.length + 1 < made := h.begun hb
  have hroom : c.queue.length < size := by
    have := h.made_le
    omega
  simp [Channel.send, h.closed, hroom]

theorem PartyInv.not_wedged (h : PartyInv size s) : ¬s.Wedged size := by
  rintro ⟨entry, c, hsending, hc, hfailed, hnone⟩
  obtain ⟨calls, committer, walChan, wal⟩ := s
  obtain rfl : committer = .sending entry := hsending
  obtain rfl : walChan = some c := hc
  obtain ⟨made, -, h⟩ := h
  have hroom := OpenInv.room h (by rw [hfailed]; trivial)
  simp [hnone] at hroom

/-- What returns beside a failed writer returns its error. -/
theorem partyStep_failed {e : PartyEvent N} {result : CallResult} (hc : s.walChan = some c)
    (hfailed : c.writer = .failed) (hs : partyStep size s e = some (s', some result)) :
    result = .walFailed := by
  obtain ⟨calls, committer, walChan, wal⟩ := s
  obtain ⟨queue, closed, writer⟩ := c
  obtain rfl : writer = .failed := hfailed
  obtain rfl : walChan = some ⟨queue, closed, .failed⟩ := hc
  cases e with
  | call =>
    cases committer <;> try cases hs
    cases calls with
    | nil => cases hs
    | cons call calls => cases call <;> cases hs
  | send =>
    cases committer <;> try cases hs
    obtain ⟨c', -, heq⟩ := Option.bind_eq_some_iff.mp hs
    cases heq
  | check =>
    cases committer <;> cases hs
    rfl
  | waited =>
    cases committer <;> cases hs
    rfl
  | writer e => cases e <;> cases hs
  | fail => cases hs

theorem PartyInv.surfaces (h : PartyInv size s) : s.Surfaces size := by
  intro c hc hfailed
  refine ⟨fun e s' result hs => partyStep_failed hc hfailed hs, fun hbusy => ?_⟩
  obtain ⟨calls, committer, walChan, wal⟩ := s
  obtain rfl : walChan = some c := hc
  cases committer with
  | idle =>
    cases calls with
    | nil => simp at hbusy
    | cons call calls => cases call <;> exact ⟨.call, rfl⟩
  | sending entry =>
    obtain ⟨made, -, h⟩ := h
    obtain ⟨c', hc'⟩ := Option.isSome_iff_exists.mp (OpenInv.room h (by rw [hfailed]; trivial))
    exact ⟨.send, by simp [partyStep, hc']⟩
  | checking => exact ⟨.check, rfl⟩
  | waiting => exact ⟨.waited, by simp [partyStep, Channel.quit, hfailed]⟩

/-! ### Calls that are not paced -/

variable (size) in
/-- A run leads to a wedged state. -/
def Parties.CanWedge (s : Parties N W) : Prop :=
  ∃ es s' os, exec (partyStep size) s es = some (s', os) ∧ s'.Wedged size

theorem Parties.CanWedge.step {e : PartyEvent N} {o : Option CallResult} (h : s'.CanWedge size)
    (hs : partyStep size s e = some (s', o)) : s.CanWedge size := by
  obtain ⟨es, s₁, os, hes, hw⟩ := h
  exact ⟨e :: es, s₁, o :: os, by simp [exec, hs, hes], hw⟩

/-- The writer holds its first entry and has found no other. -/
def heldBack (queue : List (ℕ × WALEntry N)) (entry : ℕ × WALEntry N) : Channel N :=
  ⟨queue, false, .collecting [entry] 0⟩

/-- The first commit can come back with the writer holding its entry. -/
theorem canWedge_first {entry : ℕ × WALEntry N} {calls : List (Call N)} {wal : W.Log}
    (h : Parties.CanWedge size ⟨calls, .idle, some (heldBack [] entry), wal⟩) :
    Parties.CanWedge size ⟨.commit entry :: calls, .idle, none, wal⟩ := by
  have hreceived : Parties.CanWedge size ⟨calls, .checking, some ⟨[], false, .received entry⟩, wal⟩ :=
    (h.step (e := .check) (s := ⟨calls, .checking, some (heldBack [] entry), wal⟩) rfl).step
      (e := .writer .length) rfl
  refine Parties.CanWedge.step (e := .call) ?_ rfl
  rcases Nat.eq_zero_or_pos size with rfl | hpos
  · exact hreceived.step (e := .send) (o := none) (by simp [partyStep, Channel.send])
  · refine Parties.CanWedge.step (e := .send) (o := none) ?_ (by simp [partyStep, Channel.send, hpos]; rfl)
    exact hreceived.step (e := .writer .receive) rfl

/-- A later one can be queued, if there is room. -/
theorem canWedge_next {entry e : ℕ × WALEntry N} {queue : List (ℕ × WALEntry N)} {calls : List (Call N)}
    {wal : W.Log} (hroom : queue.length < size)
    (h : Parties.CanWedge size ⟨calls, .idle, some (heldBack (queue ++ [entry]) e), wal⟩) :
    Parties.CanWedge size ⟨.commit entry :: calls, .idle, some (heldBack queue e), wal⟩ := by
  refine Parties.CanWedge.step (e := .call) ?_ rfl
  refine Parties.CanWedge.step (e := .send) (o := none) ?_
    (by simp [partyStep, Channel.send, heldBack, hroom]; rfl)
  exact h.step (e := .check) rfl

/-- Without room the writer may fail while the commit sends. -/
theorem canWedge_full {entry e : ℕ × WALEntry N} {queue : List (ℕ × WALEntry N)} {calls : List (Call N)}
    {wal : W.Log} (hfull : size ≤ queue.length) :
    Parties.CanWedge size ⟨.commit entry :: calls, .idle, some (heldBack queue e), wal⟩ := by
  refine ⟨[.call, .writer .lastIndex, .fail], ⟨calls, .sending entry, some ⟨queue, false, .failed⟩, wal⟩,
    [none, none, none], rfl, entry, _, rfl, rfl, rfl, ?_⟩
  simp [Channel.send, hfull]

/-- Waiting may take the error of the writer and leave no channel. -/
theorem canWedge_wait {e : ℕ × WALEntry N} {queue : List (ℕ × WALEntry N)} {calls : List (Call N)}
    {wal : W.Log} (h : Parties.CanWedge size ⟨calls, .idle, none, wal⟩) :
    Parties.CanWedge size ⟨.waitAsyncCommit :: calls, .idle, some (heldBack queue e), wal⟩ := by
  refine Parties.CanWedge.step (e := .call) ?_ rfl
  refine Parties.CanWedge.step (e := .writer .lastIndex) ?_ rfl
  refine Parties.CanWedge.step (e := .fail) ?_ rfl
  exact h.step (e := .waited) rfl

theorem canWedge_of_not_paced (calls : List (Call N)) (wal : W.Log) :
    (¬Paced size 0 calls → Parties.CanWedge size ⟨calls, .idle, none, wal⟩) ∧
    ∀ queue e, ¬Paced size (queue.length + 1) calls →
      Parties.CanWedge size ⟨calls, .idle, some (heldBack queue e), wal⟩ := by
  induction calls with
  | nil => exact ⟨fun h => absurd trivial h, fun _ _ h => absurd trivial h⟩
  | cons call calls ih =>
    cases call with
    | commit entry =>
      refine ⟨fun h => canWedge_first (ih.2 [] entry fun hp => h ⟨Nat.zero_le _, hp⟩), fun queue e h => ?_⟩
      rcases Nat.lt_or_ge queue.length size with hroom | hfull
      · exact canWedge_next hroom (ih.2 (queue ++ [entry]) e fun hp => h ⟨hroom, by simpa using hp⟩)
      · exact canWedge_full hfull
    | waitAsyncCommit =>
      refine ⟨fun h => (ih.1 h).step (e := .call) rfl, fun queue e h => canWedge_wait (ih.1 h)⟩

/-- Whatever the calls, the buffer and the log, a run keeps out of the wedged state and brings every failure
of the writer to the committer if and only if the calls are paced. -/
theorem walFailure_surfaces_iff (size : ℕ) (calls : List (Call N)) (wal : W.Log) :
    (∀ es s os, exec (partyStep size) ⟨calls, .idle, none, wal⟩ es = some (s, os) →
      ¬s.Wedged size ∧ s.Surfaces size) ↔ Paced size 0 calls := by
  constructor
  · intro h
    by_contra hp
    obtain ⟨es, s, os, hes, hw⟩ := (canWedge_of_not_paced calls wal).1 hp
    exact (h es s os hes).1 hw
  · intro hp es s os hes
    have hinv : PartyInv size s :=
      exec_invariant (P := fun s _ => PartyInv size s) (fun s os e s' o h _ hs => h.step hs) ⟨0, hp, rfl⟩
        (along_of_forall (fun _ _ => trivial) _) hes
    exact ⟨hinv.not_wedged, hinv.surfaces⟩

/-- With a buffer of one entry and three commits in a row, the writer takes the first entry and finds no
other, the second entry fills the buffer, the write fails, and the third commit never returns. -/
theorem commit_wedged :
    ∃ (s : Parties ℕ (listLog (WALEntry ℕ))) (os : List (Option CallResult)),
      exec (partyStep 1)
        ⟨[.commit (1, emptyEntry), .commit (2, emptyEntry), .commit (3, emptyEntry)], .idle, none, (0, [])⟩
        [.call, .send, .writer .receive, .writer .length, .check, .call, .send, .check, .call,
          .writer .lastIndex, .fail] = some (s, os) ∧
      s.Wedged 1 ∧ ∀ e, partyStep 1 s e = none := by
  refine ⟨_, _, rfl, ⟨(3, emptyEntry), _, rfl, rfl, rfl, rfl⟩, fun e => ?_⟩
  cases e with
  | writer e => cases e <;> rfl
  | _ => rfl

end IavlStore.Db
