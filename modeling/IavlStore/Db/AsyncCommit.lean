import Mathlib.Data.List.ReduceOption
import IavlStore.Base.Runs
import IavlStore.Db.Steps

/-! Asynchronous commits. The committer sends entries over a channel with a buffer; a
writer receives one, looks how many more are queued, receives those, reads the last index
of the log and appends the entries above it. Every one of these steps may be followed by
steps of the other side. What the writer has dealt with, what it holds and what is queued
are together what was sent, in order, so the log is at every moment a prefix of the log a
synchronous commit of the same entries writes. -/

namespace IavlStore.Db

open IavlStore.Base.Runs IavlStore.Multi

/-- What the writer does next: receive a first entry, look at the queue, receive the
remaining entries, read the last index, write; or it has left its loop, or is stuck with
an error nobody has received. -/
inductive Writer (N : Type) where
  | receiving
  | received (entry : ℕ × WALEntry N)
  | collecting (result : List (ℕ × WALEntry N)) (remaining : ℕ)
  | writing (entries : List (ℕ × WALEntry N)) (lastIndex : ℕ)
  | stopped
  | failed

structure Channel (N : Type) where
  queue : List (ℕ × WALEntry N)
  closed : Bool
  writer : Writer N

/-- The committed version, the log, and the channel once the first commit has made it. -/
structure AsyncDB (N : Type) (W : WalLog (WALEntry N)) where
  version : ℕ
  wal : W.Log
  walChan : Option (Channel N)

inductive AsyncEvent (N : Type) where
  | commit (pendingLog : WALEntry N)
  | receive
  | length
  | receiveNext
  | lastIndex
  | write
  | close
  | waited

variable {N : Type} {W : WalLog (WALEntry N)} (iv size : ℕ)

/-- The index and the data of the entry for the next version. Saving refuses versions
beyond the signed range. -/
def nextEntry (version : ℕ) (pendingLog : WALEntry N) : Option (ℕ × WALEntry N) :=
  if maxInt64 < nextVersion version iv then none
  else some (walIndex (nextVersion version iv) iv, pendingLog)

/-- A send completes when the buffer has room, or into the hands of a waiting receiver. -/
def Channel.send (entry : ℕ × WALEntry N) (c : Channel N) : Option (Channel N) :=
  if c.closed then none
  else if c.queue.length < size then some { c with queue := c.queue ++ [entry] }
  else
    match c.queue, c.writer with
    | [], .receiving => some { c with writer := .received entry }
    | _, _ => none

/-- One step of the writer on its channel and the log. -/
def Channel.step (c : Channel N) (wal : W.Log) : AsyncEvent N → Option (Channel N × W.Log)
  | .receive =>
    match c.writer, c.queue with
    | .receiving, entry :: queue => some ({ c with writer := .received entry, queue := queue }, wal)
    | .receiving, [] => if c.closed then some ({ c with writer := .stopped }, wal) else none
    | _, _ => none
  | .length =>
    match c.writer with
    | .received entry => some ({ c with writer := .collecting [entry] c.queue.length }, wal)
    | _ => none
  | .receiveNext =>
    match c.writer, c.queue with
    | .collecting result (remaining + 1), entry :: queue =>
      some ({ c with writer := .collecting (result ++ [entry]) remaining, queue := queue }, wal)
    | _, _ => none
  | .lastIndex =>
    match c.writer with
    | .collecting result 0 => some ({ c with writer := .writing result (W.lastIndex wal) }, wal)
    | _ => none
  | .write =>
    match c.writer with
    | .writing entries lastIndex =>
      match W.writeBatch wal (entries.filter fun e => lastIndex < e.1) with
      | none => some ({ c with writer := .failed }, wal)
      | some wal => some ({ c with writer := .receiving }, wal)
    | _ => none
  | _ => none

/-- One step of the committer or the writer, with the entry a commit has sent. -/
def asyncStep (s : AsyncDB N W) : AsyncEvent N → Option (AsyncDB N W × Option (ℕ × WALEntry N))
  | .commit pendingLog => do
    let entry ← nextEntry iv s.version pendingLog
    let c ← (s.walChan.getD ⟨[], false, .receiving⟩).send size entry
    some (⟨nextVersion s.version iv, s.wal, some c⟩, some entry)
  | .close => do
    let c ← s.walChan
    if c.closed then none else some ({ s with walChan := some { c with closed := true } }, none)
  | .waited => do
    let c ← s.walChan
    match c.closed, c.writer with
    | true, .stopped => some ({ s with walChan := none }, none)
    | _, _ => none
  | e => do
    let c ← s.walChan
    let (c, wal) ← c.step s.wal e
    some (⟨s.version, wal, some c⟩, none)

/-- The log after synchronous commits. -/
def syncRun : ℕ → List (WALEntry N) → W.Log → Option W.Log
  | _, [], wal => some wal
  | version, pendingLog :: rest, wal => do
    let entry ← nextEntry iv version pendingLog
    syncRun (nextVersion version iv) rest (← writeEntries [entry] wal)

/-! ### Numbering -/

/-- Commits continue from here with the entry of index `i`. -/
structure Follows (version i : ℕ) : Prop where
  started : version = 0 ∨ iv ≤ version + 1
  version_le : version ≤ maxInt64
  index : walIndex (nextVersion version iv) iv = i

variable {iv size}

theorem Follows.nextEntry {version i : ℕ} (h : Follows iv version i) {data : WALEntry N}
    {entry : ℕ × WALEntry N} (he : nextEntry iv version data = some entry) :
    entry = (i, data) ∧ Follows iv (nextVersion version iv) (i + 1) := by
  unfold Db.nextEntry at he
  split_ifs at he with hle
  obtain rfl := Option.some.inj he
  obtain ⟨hstart, hv, hidx⟩ := h
  refine ⟨by rw [hidx], ?_, not_lt.mp hle, ?_⟩
  · unfold nextVersion next maxInt64 at *
    split_ifs <;> omega
  · unfold walIndex nextVersion next maxInt64 at *
    split_ifs at hidx hle ⊢ <;> omega

/-! ### The log after some of the entries -/

/-- The log is the starting log followed by the entries of `done` that were not in it. -/
structure Logged (w₀ : W.Log) (i₀ : ℕ) (done : List (ℕ × WALEntry N)) (w : W.Log) : Prop where
  dropped : W.dropped w = W.dropped w₀
  entries : W.entries w = W.entries w₀ ++ (done.drop (W.lastIndex w₀ + 1 - i₀)).map Prod.snd

variable {w₀ w w' : W.Log} {i₀ : ℕ} {done b : List (ℕ × WALEntry N)}

theorem Logged.refl (w₀ : W.Log) (i₀ : ℕ) : Logged w₀ i₀ [] w₀ := ⟨rfl, by simp⟩

theorem Logged.lastIndex (h : Logged w₀ i₀ done w) :
    W.lastIndex w = W.lastIndex w₀ + (done.length - (W.lastIndex w₀ + 1 - i₀)) := by
  rw [W.lastIndex_eq w, h.dropped, h.entries, List.length_append, List.length_map, List.length_drop,
    ← Nat.add_assoc, ← W.lastIndex_eq]

/-- The next entries are written but for those the starting log has. -/
theorem Logged.writeEntries (h : Logged w₀ i₀ done w) (hgap : i₀ ≤ W.lastIndex w₀ + 1)
    (hb : b.map Prod.fst = List.range' (i₀ + done.length) b.length) :
    ∃ w', writeEntries b w = some w' ∧ Logged w₀ i₀ (done ++ b) w' := by
  have hlast := h.lastIndex
  obtain ⟨w', hw', hd, hes, -⟩ := writeEntries_from (w := w) hb (by omega)
  refine ⟨w', hw', hd.trans h.dropped, ?_⟩
  rw [hes, h.entries, List.append_assoc, ← List.map_append, List.drop_append]
  congr 4
  omega

/-- Synchronous commits write all entries, and fail when the first leaves a gap. -/
theorem Logged.syncRun {data : List (WALEntry N)} {version : ℕ} (h : Logged w₀ i₀ done w)
    (hn : Follows iv version (i₀ + done.length)) (hs : syncRun iv version data w = some w') 
    (hgap : i₀ ≤ W.lastIndex w₀ + 1) :
    Logged w₀ i₀ (done ++ (List.range' (i₀ + done.length) data.length).zip data) w' := by
  induction data generalizing done version w with
  | nil =>
    obtain rfl := Option.some.inj hs
    simpa using h
  | cons d data ih =>
    simp only [Db.syncRun, Option.bind_eq_bind, Option.bind_eq_some_iff] at hs
    obtain ⟨entry, he, w₁, hw₁, hs⟩ := hs
    obtain ⟨rfl, hn'⟩ := hn.nextEntry he
    obtain ⟨w₂, hw₂, h₂⟩ := h.writeEntries hgap (b := [(i₀ + done.length, d)]) rfl
    obtain rfl : w₂ = w₁ := Option.some.inj (hw₂.symm.trans hw₁)
    have hrest := ih h₂ (by simpa [Nat.add_assoc] using hn') hs
    simpa [List.range'_succ, Nat.add_assoc] using hrest

/-- A first commit that leaves a gap fails. -/
theorem no_gap_of_syncRun {d : WALEntry N} {data : List (WALEntry N)} {version : ℕ}
    (hn : Follows iv version i₀) (hs : syncRun iv version (d :: data) w₀ = some w') :
    i₀ ≤ W.lastIndex w₀ + 1 := by
  simp only [syncRun, Option.bind_eq_bind, Option.bind_eq_some_iff] at hs
  obtain ⟨entry, he, w₁, hw₁, -⟩ := hs
  obtain ⟨rfl, -⟩ := hn.nextEntry he
  by_contra hgap
  unfold writeEntries at hw₁
  rw [W.writeBatch_out_of_order _ _ ?_] at hw₁
  · cases hw₁
  · have hlt : W.lastIndex w₀ < i₀ := by omega
    simp [hlt]
    omega

/-! ### The pipeline -/

/-- The entries the writer holds. -/
def Writer.held : Writer N → List (ℕ × WALEntry N)
  | .received entry => [entry]
  | .collecting result _ => result
  | .writing entries _ => entries
  | _ => []

def Channel.held (c : Channel N) : List (ℕ × WALEntry N) := c.writer.held ++ c.queue

/-- The writer knows what it needs: the remaining entries are queued, the last index is
that of the log, it has stopped on an empty closed channel only, and it has not failed. -/
def Channel.Sound (c : Channel N) (w : W.Log) : Prop :=
  match c.writer with
  | .collecting _ remaining => remaining ≤ c.queue.length
  | .writing _ lastIndex => lastIndex = W.lastIndex w
  | .stopped => c.queue = [] ∧ c.closed = true
  | .failed => False
  | _ => True

/-- What was sent is what the log has been given, what the writer holds and what is queued. -/
structure Pipeline (iv : ℕ) (w₀ : W.Log) (i₀ : ℕ) (s : AsyncDB N W) (sent : List (ℕ × WALEntry N)) :
    Prop where
  numbered : sent.map Prod.fst = List.range' i₀ sent.length
  next : Follows iv s.version (i₀ + sent.length)
  parts : ∃ done, sent = done ++ s.walChan.elim [] Channel.held ∧ Logged w₀ i₀ done s.wal
  sound : ∀ c ∈ s.walChan, c.Sound s.wal

variable {s s' : AsyncDB N W} {sent : List (ℕ × WALEntry N)} {c c' : Channel N}

/-- A send puts the entry behind what the channel holds. -/
theorem Channel.send_spec {entry : ℕ × WALEntry N} (h : c.send size entry = some c')
    (hs : c.Sound w) : c'.held = c.held ++ [entry] ∧ c'.Sound w := by
  obtain ⟨queue, closed, writer⟩ := c
  unfold Channel.send at h
  split_ifs at h with hclosed hroom
  · obtain rfl := Option.some.inj h
    refine ⟨(List.append_assoc ..).symm, ?_⟩
    cases writer with
    | collecting result remaining =>
      simp only [Sound, List.length_append] at hs ⊢
      omega
    | stopped => exact absurd hs.2 hclosed
    | _ => exact hs
  · cases queue with
    | cons => cases h
    | nil =>
      cases writer with
      | receiving =>
        obtain rfl := Option.some.inj h
        exact ⟨rfl, trivial⟩
      | _ => cases h

/-- A step of the writer moves entries on, and writes what it holds to the log. -/
theorem Channel.step_spec {e : AsyncEvent N} (h : c.step w e = some (c', w')) (hs : c.Sound w)
    (hgap : i₀ ≤ W.lastIndex w₀ + 1) (hl : Logged w₀ i₀ done w)
    (hnum : (done ++ c.held).map Prod.fst = List.range' i₀ (done ++ c.held).length) :
    c'.Sound w' ∧ ∃ done', done' ++ c'.held = done ++ c.held ∧ Logged w₀ i₀ done' w' := by
  obtain ⟨queue, closed, writer⟩ := c
  cases e <;> simp only [Channel.step, reduceCtorEq] at h
  case receive =>
    cases writer <;> try cases h
    cases queue with
    | nil =>
      simp only [Option.ite_none_right_eq_some, Option.some.injEq, Prod.mk.injEq] at h
      obtain ⟨hclosed, rfl, rfl⟩ := h
      exact ⟨⟨rfl, hclosed⟩, done, rfl, hl⟩
    | cons entry queue =>
      cases h
      exact ⟨trivial, done, rfl, hl⟩
  case length =>
    cases writer <;> cases h
    exact ⟨le_rfl, done, rfl, hl⟩
  case receiveNext =>
    cases writer <;> try cases h
    next result remaining =>
      cases remaining <;> cases queue <;> cases h
      simp only [Sound, List.length_cons] at hs
      exact ⟨by simp only [Sound]; omega, done, by simp [held, Writer.held], hl⟩
  case lastIndex =>
    cases writer <;> try cases h
    next result remaining =>
      cases remaining <;> cases h
      exact ⟨rfl, done, rfl, hl⟩
  case write =>
    cases writer <;> try cases h
    next entries lastIndex =>
      obtain rfl : lastIndex = W.lastIndex w := hs
      -- the held entries continue the numbering of those dealt with
      have hb : entries.map Prod.fst = List.range' (i₀ + done.length) entries.length :=
        (consecutive_append (consecutive_append hnum).2).1
      obtain ⟨w₁, hw₁, hl₁⟩ := hl.writeEntries hgap hb
      rw [Db.writeEntries] at hw₁
      simp only [hw₁] at h
      obtain ⟨rfl, rfl⟩ := Prod.mk.inj (Option.some.inj h)
      exact ⟨trivial, done ++ entries, by simp [held, Writer.held], hl₁⟩

theorem Pipeline.step {e : AsyncEvent N} {o : Option (ℕ × WALEntry N)} (h : Pipeline iv w₀ i₀ s sent)
    (hgap : i₀ ≤ W.lastIndex w₀ + 1) (he : asyncStep iv size s e = some (s', o)) :
    Pipeline iv w₀ i₀ s' (sent ++ o.toList) := by
  obtain ⟨hnum, hnext, ⟨done, hsent, hl⟩, hsound⟩ := h
  cases e
  case commit data =>
    simp only [asyncStep, Option.bind_eq_bind, Option.bind_eq_some_iff, Option.some.injEq,
      Prod.mk.injEq] at he
    obtain ⟨entry, hentry, c, hc, rfl, rfl⟩ := he
    obtain ⟨rfl, hnext'⟩ := hnext.nextEntry hentry
    have hs₀ : (s.walChan.getD ⟨[], false, .receiving⟩).Sound s.wal := by
      rcases hch : s.walChan with _ | c₀
      · trivial
      · exact hsound c₀ hch
    have hheld : (s.walChan.getD ⟨[], false, .receiving⟩).held = s.walChan.elim [] Channel.held := by
      rcases s.walChan with _ | c₀ <;> rfl
    obtain ⟨hc', hsound'⟩ := Channel.send_spec hc hs₀
    refine ⟨consecutive_concat hnum data, by simpa [Nat.add_assoc] using hnext', ⟨done, ?_, hl⟩, ?_⟩
    · simp only [Option.elim_some, Option.toList_some, hc', hheld]
      rw [hsent, List.append_assoc]
    · rintro c' ⟨⟩
      exact hsound'
  case close =>
    simp only [asyncStep, Option.bind_eq_bind, Option.bind_eq_some_iff] at he
    obtain ⟨c, hc, he⟩ := he
    split_ifs at he with hclosed
    obtain ⟨rfl, rfl⟩ := Prod.mk.inj (Option.some.inj he)
    have hs := hsound c hc
    refine ⟨by simpa using hnum, by simpa using hnext, ⟨done, by simp [hsent, hc, Channel.held], hl⟩, ?_⟩
    rintro c' ⟨⟩
    unfold Channel.Sound at hs ⊢
    cases hw : c.writer <;> simp_all
  case waited =>
    simp only [asyncStep, Option.bind_eq_bind, Option.bind_eq_some_iff] at he
    obtain ⟨c, hc, he⟩ := he
    have hs := hsound c hc
    unfold Channel.Sound at hs
    cases hclosed : c.closed <;> cases hw : c.writer <;> simp only [hclosed, hw, reduceCtorEq] at he hs
    obtain ⟨rfl, rfl⟩ := Prod.mk.inj (Option.some.inj he)
    refine ⟨by simpa using hnum, by simpa using hnext, ⟨done, ?_, hl⟩, by simp⟩
    simp [hsent, hc, Channel.held, hw, Writer.held, hs.1]
  all_goals
    simp only [asyncStep, Option.bind_eq_bind, Option.bind_eq_some_iff, Option.some.injEq,
      Prod.mk.injEq] at he
    obtain ⟨c, hc, ⟨c', w'⟩, hstep, rfl, rfl⟩ := he
    simp only [hc, Option.elim_some] at hsent
    obtain ⟨hs', done', hd', hl'⟩ := Channel.step_spec hstep (hsound c hc) hgap hl (hsent ▸ hnum)
    exact ⟨by simpa using hnum, by simpa using hnext, ⟨done', by simp [hsent, hd'], hl'⟩,
      by rintro c₁ ⟨⟩; exact hs'⟩

theorem Pipeline.run {es : List (AsyncEvent N)} {os : List (Option (ℕ × WALEntry N))}
    (h : Pipeline iv w₀ i₀ s sent) (hgap : i₀ ≤ W.lastIndex w₀ + 1)
    (he : exec (asyncStep iv size) s es = some (s', os)) :
    Pipeline iv w₀ i₀ s' (sent ++ os.reduceOption) := by
  induction es generalizing s sent os with
  | nil =>
    cases he
    simpa using h
  | cons e es ih =>
    obtain ⟨s₁, o, os', hs, hes, rfl⟩ := exec_cons he
    have hrest := ih (h.step hgap hs) hes
    rw [List.append_assoc] at hrest
    cases o <;> exact hrest

/-- The steps the writer is from waiting on an empty queue. -/
def Channel.work (c : Channel N) : ℕ :=
  4 * c.queue.length +
    match c.writer with
    | .received _ => 3
    | .collecting _ _ => 2
    | .writing _ _ => 1
    | _ => 0

/-- A run that commits nothing more and ends with the channel waited for. -/
def Drains (iv size : ℕ) (s : AsyncDB N W) : Prop :=
  ∃ es s' os, exec (asyncStep iv size) s es = some (s', os) ∧ os.reduceOption = [] ∧ s'.walChan = none

theorem Drains.cons {e : AsyncEvent N} (hs : asyncStep iv size s e = some (s', none))
    (h : Drains iv size s') : Drains iv size s := by
  obtain ⟨es, s'', os, hes, hos, hc⟩ := h
  exact ⟨e :: es, s'', none :: os, by simp [exec, hs, hes], hos, hc⟩

/-- Once the channel is closed, the writer gets to the end of its loop. -/
theorem Pipeline.drains_of_closed (n : ℕ) (h : Pipeline iv w₀ i₀ s sent)
    (hgap : i₀ ≤ W.lastIndex w₀ + 1) (hc : s.walChan = some c) (hclosed : c.closed = true)
    (hn : c.work < n) : Drains iv size s := by
  induction n generalizing s c with
  | zero => omega
  | succ n ih =>
    obtain ⟨queue, closed, writer⟩ := c
    obtain rfl : closed = true := hclosed
    -- one step of the writer leaves less work
    have step (e : AsyncEvent N) (c' : Channel N) (w' : W.Log)
        (hs : asyncStep iv size s e = some (⟨s.version, w', some c'⟩, none))
        (hc' : c'.closed = true) (hw : c'.work < n) : Drains iv size s := by
      have h' := h.step hgap hs
      rw [Option.toList_none, List.append_nil] at h'
      exact .cons hs (ih h' rfl hc' hw)
    have hsound := h.sound _ hc
    cases writer with
    | receiving =>
      cases queue with
      | nil =>
        have hs : asyncStep iv size s .receive =
            some (⟨s.version, s.wal, some ⟨[], true, .stopped⟩⟩, none) := by
          simp [asyncStep, hc, Channel.step]
        exact .cons hs ⟨[.waited], _, [none], rfl, rfl, rfl⟩
      | cons entry queue =>
        refine step .receive ⟨queue, true, .received entry⟩ s.wal
          (by simp [asyncStep, hc, Channel.step]) rfl ?_
        simp only [Channel.work, List.length_cons] at hn ⊢
        omega
    | received entry =>
      refine step .length ⟨queue, true, .collecting [entry] queue.length⟩ s.wal
        (by simp [asyncStep, hc, Channel.step]) rfl ?_
      simp only [Channel.work] at hn ⊢
      omega
    | collecting result remaining =>
      cases remaining with
      | zero =>
        refine step .lastIndex ⟨queue, true, .writing result (W.lastIndex s.wal)⟩ s.wal
          (by simp [asyncStep, hc, Channel.step]) rfl ?_
        simp only [Channel.work] at hn ⊢
        omega
      | succ remaining =>
        cases queue with
        | nil => simp [Channel.Sound] at hsound
        | cons entry queue =>
          refine step .receiveNext ⟨queue, true, .collecting (result ++ [entry]) remaining⟩ s.wal
            (by simp [asyncStep, hc, Channel.step]) rfl ?_
          simp only [Channel.work, List.length_cons] at hn ⊢
          omega
    | writing entries lastIndex =>
      rcases hw : W.writeBatch s.wal (entries.filter fun e => lastIndex < e.1) with _ | w'
      · refine step .write ⟨queue, true, .failed⟩ s.wal
          (by simp [asyncStep, hc, Channel.step, hw]) rfl ?_
        simp only [Channel.work] at hn ⊢
        omega
      · refine step .write ⟨queue, true, .receiving⟩ w'
          (by simp [asyncStep, hc, Channel.step, hw]) rfl ?_
        simp only [Channel.work] at hn ⊢
        omega
    | stopped =>
      exact ⟨[.waited], { s with walChan := none }, [none], by simp [exec, asyncStep, hc], rfl, rfl⟩
    | failed => exact absurd hsound id

variable (size) in
theorem Pipeline.drains (h : Pipeline iv w₀ i₀ s sent) (hgap : i₀ ≤ W.lastIndex w₀ + 1) :
    Drains iv size s := by
  rcases hc : s.walChan with _ | c
  · exact ⟨[], s, [], rfl, rfl, hc⟩
  · by_cases hclosed : c.closed = true
    · exact h.drains_of_closed _ hgap hc hclosed (Nat.lt_succ_self _)
    · have hs : asyncStep iv size s .close =
          some ({ s with walChan := some { c with closed := true } }, none) := by
        simp [asyncStep, hc, hclosed]
      have h' := h.step hgap hs
      rw [Option.toList_none, List.append_nil] at h'
      exact .cons hs (h'.drains_of_closed _ hgap rfl rfl (Nat.lt_succ_self _))

/-- At every moment of an asynchronous run the log is a prefix of the log that synchronous
commits of the same entries write: the starting log and the entries above its last index,
in order. Once the channel was waited for, it is that log; and waiting comes to an end. -/
theorem asyncCommit_refines_sync (iv size version : ℕ) (w₀ : W.Log)
    (hstart : version = 0 ∨ iv ≤ version + 1) (hv : version ≤ maxInt64) (es : List (AsyncEvent N))
    (s : AsyncDB N W) (os : List (Option (ℕ × WALEntry N)))
    (he : exec (asyncStep iv size) ⟨version, w₀, none⟩ es = some (s, os)) (w : W.Log)
    (hsync : syncRun iv version (os.reduceOption.map Prod.snd) w₀ = some w) :
    W.dropped s.wal = W.dropped w ∧ W.entries s.wal <+: W.entries w ∧
      (s.walChan = none → W.entries s.wal = W.entries w) ∧
      W.entries w = W.entries w₀ ++
        (os.reduceOption.filter fun e => W.lastIndex w₀ < e.1).map Prod.snd ∧
      Drains iv size s := by
  obtain ⟨i₀, hi₀⟩ : ∃ i, walIndex (nextVersion version iv) iv = i := ⟨_, rfl⟩
  have hnext : Follows iv version i₀ := ⟨hstart, hv, hi₀⟩
  have hpipe : Pipeline iv w₀ i₀ ⟨version, w₀, none⟩ [] :=
    ⟨rfl, hnext, ⟨[], rfl, .refl _ _⟩, by simp⟩
  by_cases hgap : i₀ ≤ W.lastIndex w₀ + 1
  · have h := hpipe.run hgap he
    rw [List.nil_append] at h
    have hdrains := h.drains size hgap
    obtain ⟨hnum, -, ⟨done, hsent, hl⟩, -⟩ := h
    -- synchronous commits deal with the same entries
    have hall : Logged w₀ i₀ os.reduceOption w := by
      have hs := (Logged.refl w₀ i₀).syncRun (by simpa using hnext) hsync hgap
      rwa [List.nil_append, List.length_map, List.length_nil, Nat.add_zero, ← hnum, ← List.unzip_fst,
        ← List.unzip_snd, List.zip_unzip] at hs
    refine ⟨hl.dropped.trans hall.dropped.symm, ?_, fun hnone => ?_, ?_, hdrains⟩
    · rw [hl.entries, hall.entries, hsent, List.drop_append, List.map_append, ← List.append_assoc]
      exact List.prefix_append _ _
    · rw [hl.entries, hall.entries, hsent, hnone, Option.elim_none, List.append_nil]
    · rw [hall.entries, filter_consecutive hnum hgap]
  · -- a gap is a failure of the first commit, so nothing was committed
    have hnil : os.reduceOption = [] := by
      rcases hos : os.reduceOption with _ | ⟨entry, rest⟩
      · rfl
      · rw [hos] at hsync
        exact absurd (no_gap_of_syncRun hnext hsync) hgap
    rcases es with _ | ⟨e, es⟩
    · cases he
      obtain rfl := Option.some.inj hsync
      exact ⟨rfl, List.prefix_rfl, fun _ => rfl, by simp, [], _, [], rfl, rfl, rfl⟩
    · obtain ⟨s₁, o, os', hs, -, rfl⟩ := exec_cons he
      cases e <;> simp [asyncStep, Option.bind_eq_some_iff] at hs
      obtain ⟨_, entry, -, c, -, -, rfl⟩ := hs
      simp at hnil

/-- Two commits over a log that has the first of them, with the queue length read before the second. -/
def presentRun : List (AsyncEvent ℕ) :=
  [.commit emptyEntry, .receive, .commit ⟨[⟨7, [⟨true, [1], none⟩]⟩], []⟩, .length, .receiveNext,
    .lastIndex, .close, .write, .receive, .waited]

theorem asyncCommit_skips_present :
    ∃ (s : AsyncDB ℕ (listLog (WALEntry ℕ))) (os : List (Option (ℕ × WALEntry ℕ)))
      (w : ℕ × List (WALEntry ℕ)),
      exec (asyncStep 0 1) ⟨0, (0, [emptyEntry]), none⟩ presentRun = some (s, os) ∧
      syncRun (W := listLog (WALEntry ℕ)) 0 0 (os.reduceOption.map Prod.snd) (0, [emptyEntry]) = some w ∧
      s.walChan = none ∧ s.wal.2 = w.2 := by
  refine ⟨_, _, _, rfl, rfl, rfl, ?_⟩
  have he := asyncCommit_refines_sync (W := listLog (WALEntry ℕ)) 0 1 0 (0, [emptyEntry]) (.inl rfl)
    (by decide) presentRun _ _ rfl _ rfl
  exact he.2.2.1 rfl

end IavlStore.Db
