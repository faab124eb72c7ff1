import IavlStore.Base.Runs
import IavlStore.Persist.Import

/-! Restoring while an import fails. The nodes of a tree go over a channel with a buffer to a goroutine
that imports them; its result is handed over when the next tree begins or the restore ends. An import
that fails receives no more nodes, so if more of the tree's nodes are still to come than the buffer
holds, the restore is left adding a node and never looks at the result. -/

namespace IavlStore.Persist

open IavlStore.Base.Encoding IavlStore.Base.Runs

def nodeChannelBuffer : ℕ := 2048

/-- A call of the restore on its importer of trees. -/
inductive ImportCall where
  | addNode (node : ExportNode)
  | addTree
  | finalize
  | close

/-- The import has received a number of nodes, or has a result to hand over. -/
inductive Goroutine where
  | importing (i : Importer) (received : ℕ)
  | returned (result : Except ImportError Files)

structure TreeImporter where
  nodesChan : List ExportNode
  closed : Bool
  goroutine : Goroutine

/-- The calls from the present one on, the importer of the present tree and the number of trees begun. -/
structure Restore where
  calls : List ImportCall
  importer : Option TreeImporter
  trees : ℕ

/-- A node is put into the channel; a call closes the channel; it receives the result, or finds no tree to
wait for; the goroutine takes a step. -/
inductive ImportEvent where
  | add
  | close
  | quit
  | goroutine

section

variable (sha256 : Bytes → Bytes) (version : ℤ) (fault : ℕ → ℕ → Bool)

def newTreeImporter : TreeImporter :=
  ⟨[], false, if version < 0 then .returned (.error (.negativeVersion version)) else .importing newImporter 0⟩

/-- The goroutine meets a fault of the disk, imports a node or ends with the channel. The inner `none` is a
panic. -/
def TreeImporter.run (fault : ℕ → Bool) (t : TreeImporter) : Option (Option TreeImporter) :=
  match t.goroutine with
  | .returned _ => none
  | .importing i received =>
    if fault received then some (some { t with goroutine := .returned (.error .writeFailed) })
    else
      match t.nodesChan with
      | node :: nodes =>
        match i.add sha256 node with
        | none => some none
        | some (.error e) => some (some ⟨nodes, t.closed, .returned (.error e)⟩)
        | some (.ok i) => some (some ⟨nodes, t.closed, .importing i (received + 1)⟩)
      | [] => if t.closed then some (some { t with goroutine := .returned (i.finish version.toNat) }) else none

/-- A call goes on once there is no tree to wait for. -/
def Restore.proceed (s : Restore) (call : ImportCall) (calls : List ImportCall) : Restore :=
  match call with
  | .addTree => ⟨calls, some (newTreeImporter version), s.trees + 1⟩
  | _ => ⟨calls, none, s.trees⟩

/-- A fault is given by the number of the tree and that of its nodes received. An error ends the restore,
a panic the process. -/
def importStep (s : Restore) : ImportEvent → Option (Restore × Option (Except ImportError Unit))
  | .add =>
    match s.calls, s.importer with
    | .addNode node :: calls, some t =>
      if t.nodesChan.length < nodeChannelBuffer
        then some (⟨calls, some { t with nodesChan := t.nodesChan ++ [node] }, s.trees⟩, none)
      else none
    | _, _ => none
  | .close =>
    match s.calls, s.importer with
    | .addNode _ :: _, _ => none
    | _ :: _, some t =>
      if t.closed then none else some ({ s with importer := some { t with closed := true } }, none)
    | _, _ => none
  | .quit =>
    match s.calls, s.importer with
    | .addNode _ :: _, _ => none
    | call :: calls, none => some (s.proceed version call calls, some (.ok ()))
    | call :: calls, some ⟨_, true, .returned (.ok _)⟩ => some (s.proceed version call calls, some (.ok ()))
    | _ :: _, some ⟨_, true, .returned (.error e)⟩ => some (⟨[], none, s.trees⟩, some (.error e))
    | _, _ => none
  | .goroutine => do
    let t ← s.importer
    match ← t.run sha256 version (fault s.trees) with
    | some t => some ({ s with importer := some t }, none)
    | none => some (⟨[], none, s.trees⟩, none)

/-- A stream of trees: each is begun and given its nodes, and at the end the importer is finalized and
closed. -/
def treeCalls : List (List ExportNode) → List ImportCall
  | [] => [.finalize, .close]
  | nodes :: trees => .addTree :: (nodes.map .addNode ++ treeCalls trees)

/-- A node is to be added to a full channel whose import has failed. -/
def Restore.Wedged (s : Restore) : Prop :=
  ∃ node calls t e, s.calls = .addNode node :: calls ∧ s.importer = some t ∧
    t.goroutine = .returned (.error e) ∧ nodeChannelBuffer ≤ t.nodesChan.length

/-- Once an import has failed, the restore goes on, and no call returns but with this error. -/
def Restore.Surfaces (s : Restore) : Prop :=
  ∀ t e, s.importer = some t → t.goroutine = .returned (.error e) →
    (∀ event s' result, importStep sha256 version fault s event = some (s', some result) → result = .error e) ∧
    (s.calls ≠ [] → ∃ event, (importStep sha256 version fault s event).isSome)

/-- What the import of a stream of nodes returns, with the number of nodes it leaves in the channel. A panic
returns nothing. -/
def outcome (fault : ℕ → Bool) : Importer → ℕ → List ExportNode → Option (ℕ × Except ImportError Files)
  | i, received, [] => some (0, if fault received then .error .writeFailed else i.finish version.toNat)
  | i, received, node :: nodes =>
    if fault received then some (nodes.length + 1, .error .writeFailed)
    else
      match i.add sha256 node with
      | none => none
      | some (.error e) => some (nodes.length, .error e)
      | some (.ok i) => outcome fault i (received + 1) nodes

def Goroutine.outcome (fault : ℕ → Bool) (nodes : List ExportNode) :
    Goroutine → Option (ℕ × Except ImportError Files)
  | .importing i received => Persist.outcome sha256 version fault i received nodes
  | .returned result => some (nodes.length, result)

/-- The nodes that a failed import leaves fit into the buffer. After one that succeeds, `next` holds. -/
def LeftFits (next : Prop) : Option (ℕ × Except ImportError Files) → Prop
  | none => True
  | some (left, .error _) => left ≤ nodeChannelBuffer
  | some (_, .ok _) => next

/-- With a number of trees begun before, the first of the trees whose import fails leaves no more nodes than
the buffer holds. -/
def StreamFits : ℕ → List (List ExportNode) → Prop
  | _, [] => True
  | trees, nodes :: rest =>
    LeftFits (StreamFits (trees + 1) rest)
      ((newTreeImporter version).goroutine.outcome sha256 version (fault (trees + 1)) nodes)

end

variable {sha256 : Bytes → Bytes} {version : ℤ} {fault : ℕ → ℕ → Bool}

/-- Without faults the outcome is that of importing the whole list. -/
theorem outcome_doImport (nodes : List ExportNode) :
    ((newTreeImporter version).goroutine.outcome sha256 version (fun _ => false) nodes).map Prod.snd =
      doImport sha256 version nodes := by
  have hall : ∀ (i : Importer) (received : ℕ),
      (outcome sha256 version (fun _ => false) i received nodes).map Prod.snd =
        (i.addAll sha256 nodes).map fun r => r.bind (Importer.finish version.toNat) := by
    induction nodes with
    | nil => exact fun _ _ => rfl
    | cons node nodes ih =>
      intro i received
      simp only [outcome, Importer.addAll, Bool.false_eq_true, ↓reduceIte]
      rcases i.add sha256 node with _ | (e | i)
      · rfl
      · rfl
      · exact ih i (received + 1)
  unfold newTreeImporter doImport
  split_ifs
  · rfl
  · exact hall newImporter 0

/-! ### What a step does -/

def ImportCall.Waits : ImportCall → Prop
  | .addNode _ => False
  | _ => True

variable (sha256 version fault) in
/-- The steps of the restore and of the goroutine, with what they return. -/
inductive Steps : Restore → ImportEvent → Restore → Option (Except ImportError Unit) → Prop
  | add {node calls t trees} (room : t.nodesChan.length < nodeChannelBuffer) :
      Steps ⟨.addNode node :: calls, some t, trees⟩ .add
        ⟨calls, some { t with nodesChan := t.nodesChan ++ [node] }, trees⟩ none
  | close {call calls t trees} (waits : call.Waits) (opened : t.closed = false) :
      Steps ⟨call :: calls, some t, trees⟩ .close ⟨call :: calls, some { t with closed := true }, trees⟩ none
  | begin {call calls trees} (waits : call.Waits) :
      Steps ⟨call :: calls, none, trees⟩ .quit (Restore.proceed version ⟨[], none, trees⟩ call calls)
        (some (.ok ()))
  | succeeded {call calls nodes files trees} (waits : call.Waits) :
      Steps ⟨call :: calls, some ⟨nodes, true, .returned (.ok files)⟩, trees⟩ .quit
        (Restore.proceed version ⟨[], none, trees⟩ call calls) (some (.ok ()))
  | failed {call calls nodes e trees} (waits : call.Waits) :
      Steps ⟨call :: calls, some ⟨nodes, true, .returned (.error e)⟩, trees⟩ .quit ⟨[], none, trees⟩
        (some (.error e))
  | goroutine {calls t t' trees} (runs : t.run sha256 version (fault trees) = some (some t')) :
      Steps ⟨calls, some t, trees⟩ .goroutine ⟨calls, some t', trees⟩ none
  | panics {calls t trees} (runs : t.run sha256 version (fault trees) = some none) :
      Steps ⟨calls, some t, trees⟩ .goroutine ⟨[], none, trees⟩ none

variable {s s' : Restore} {t t' : TreeImporter} {event : ImportEvent} {o : Option (Except ImportError Unit)}

theorem steps_of_importStep (h : importStep sha256 version fault s event = some (s', o)) :
    Steps sha256 version fault s event s' o := by
  obtain ⟨calls, importer, trees⟩ := s
  cases event with
  | add =>
    simp only [importStep] at h
    split at h <;> try cases h
    split_ifs at h with hroom
    cases h
    exact .add hroom
  | close =>
    cases calls <;> cases importer <;> try cases h
    · rename_i call calls
      cases call <;> cases h
    · rename_i call calls t
      obtain ⟨nodes, closed, goroutine⟩ := t
      cases call <;> cases closed <;> cases h <;> exact .close trivial rfl
  | quit =>
    cases calls with
    | nil => cases h
    | cons call calls =>
      rcases importer with _ | ⟨nodes, _ | _, _ | (e | files)⟩
      · cases call <;> cases h <;> exact .begin trivial
      · cases call <;> cases h
      · cases call <;> cases h
      · cases call <;> cases h
      · cases call <;> cases h
      · cases call <;> cases h <;> exact .failed trivial
      · cases call <;> cases h <;> exact .succeeded trivial
  | goroutine =>
    simp only [importStep, Option.bind_eq_bind, Option.bind_eq_some_iff] at h
    obtain ⟨t, rfl, t', hrun, h⟩ := h
    cases t' <;> cases h
    · exact .panics hrun
    · exact .goroutine hrun

/-! ### Streams whose failures fit -/

variable (sha256 version fault) in
/-- The nodes of the present tree that are still to be added, with those in the channel, lead to an outcome
that leaves few enough. -/
def RestoreInv (s : Restore) : Prop :=
  match s.importer with
  | none => s.calls = [] ∨ s.calls = [.close] ∨
      ∃ rest, s.calls = treeCalls rest ∧ StreamFits sha256 version fault s.trees rest
  | some t => ∃ pending rest, s.calls = pending.map .addNode ++ treeCalls rest ∧ (t.closed → pending = []) ∧
      LeftFits (StreamFits sha256 version fault s.trees rest)
        (t.goroutine.outcome sha256 version (fault s.trees) (t.nodesChan ++ pending))

/-- A step of the goroutine does not change what comes of the nodes. -/
theorem TreeImporter.outcome_run {fault : ℕ → Bool} {pending : List ExportNode} (hc : t.closed → pending = [])
    (h : t.run sha256 version fault = some (some t')) :
    t'.closed = t.closed ∧ t'.goroutine.outcome sha256 version fault (t'.nodesChan ++ pending) =
      t.goroutine.outcome sha256 version fault (t.nodesChan ++ pending) := by
  obtain ⟨nodesChan, closed, goroutine⟩ := t
  cases goroutine with
  | returned result => cases h
  | importing i received =>
    by_cases hf : fault received
    · simp only [run, hf, ↓reduceIte] at h
      cases h
      refine ⟨rfl, ?_⟩
      cases hn : nodesChan ++ pending <;> simp [Goroutine.outcome, outcome, hf]
    · simp only [run, hf, Bool.false_eq_true, ↓reduceIte] at h
      cases nodesChan with
      | nil =>
        simp only [Option.ite_none_right_eq_some, Option.some.injEq] at h
        obtain ⟨hclosed, rfl⟩ := h
        simp [Goroutine.outcome, outcome, hf, hc hclosed]
      | cons node nodes =>
        simp only [Goroutine.outcome, outcome, List.cons_append, hf, Bool.false_eq_true, ↓reduceIte]
        rcases hadd : i.add sha256 node with _ | (e | i) <;> simp only [hadd] at h <;> cases h <;>
          exact ⟨rfl, rfl⟩

/-- Only trees that are left can be begun, and none is left when the importer is finalized. -/
theorem RestoreInv.proceed {rest : List (List ExportNode)} {call : ImportCall} {calls : List ImportCall}
    (hcalls : call :: calls = treeCalls rest) (hf : StreamFits sha256 version fault s.trees rest) :
    RestoreInv sha256 version fault (s.proceed version call calls) := by
  cases rest with
  | nil =>
    cases hcalls
    exact .inr (.inl rfl)
  | cons nodes rest =>
    cases hcalls
    exact ⟨nodes, rest, rfl, fun _ => by contradiction, hf⟩

/-- A call that waits comes after all nodes of its tree. -/
theorem pending_eq_nil {pending : List ExportNode} {rest : List (List ExportNode)} {call : ImportCall}
    {calls : List ImportCall} (hw : call.Waits)
    (hcalls : call :: calls = pending.map .addNode ++ treeCalls rest) : pending = [] := by
  cases pending with
  | nil => rfl
  | cons node pending =>
    cases hcalls
    exact hw.elim

/-- An added node is the next of its tree. -/
theorem exists_pending {pending : List ExportNode} {rest : List (List ExportNode)} {node : ExportNode}
    {calls : List ImportCall} (hcalls : .addNode node :: calls = pending.map .addNode ++ treeCalls rest) :
    ∃ nodes, pending = node :: nodes ∧ calls = nodes.map .addNode ++ treeCalls rest := by
  cases pending with
  | nil => cases rest <;> cases hcalls
  | cons node pending =>
    cases hcalls
    exact ⟨pending, rfl, rfl⟩

theorem RestoreInv.step (h : RestoreInv sha256 version fault s) (hs : Steps sha256 version fault s event s' o) :
    RestoreInv sha256 version fault s' := by
  cases hs with
  | add room =>
    obtain ⟨pending, rest, hcalls, hclosed, hf⟩ := h
    obtain ⟨nodes, rfl, rfl⟩ := exists_pending hcalls
    exact ⟨nodes, rest, rfl, fun hc => absurd (hclosed hc) (List.cons_ne_nil _ _), by simpa using hf⟩
  | close waits opened =>
    obtain ⟨pending, rest, hcalls, hclosed, hf⟩ := h
    exact ⟨pending, rest, hcalls, fun _ => pending_eq_nil waits hcalls, hf⟩
  | begin waits =>
    rcases h with h | h | ⟨rest, hcalls, hf⟩
    · cases h
    · cases h
      exact .inl rfl
    · exact RestoreInv.proceed hcalls hf
  | succeeded waits =>
    obtain ⟨pending, rest, hcalls, hclosed, hf⟩ := h
    obtain rfl := pending_eq_nil waits hcalls
    exact RestoreInv.proceed hcalls hf
  | failed waits => exact .inl rfl
  | goroutine runs =>
    obtain ⟨pending, rest, hcalls, hclosed, hf⟩ := h
    obtain ⟨hc, ho⟩ := TreeImporter.outcome_run hclosed runs
    exact ⟨pending, rest, hcalls, fun h => hclosed (hc ▸ h), ho ▸ hf⟩
  | panics runs => exact .inl rfl

/-- A node that comes after a failure finds room. -/
theorem RestoreInv.room {node : ExportNode} {calls : List ImportCall} {e : ImportError}
    (h : RestoreInv sha256 version fault s) (hc : s.calls = .addNode node :: calls) (ht : s.importer = some t)
    (hr : t.goroutine = .returned (.error e)) : t.nodesChan.length < nodeChannelBuffer := by
  obtain ⟨calls, importer, trees⟩ := s
  obtain rfl : calls = _ := hc
  obtain rfl : importer = _ := ht
  obtain ⟨pending, rest, hcalls, -, hf⟩ := h
  obtain ⟨nodes, rfl, -⟩ := exists_pending hcalls
  have hleft : (t.nodesChan ++ node :: nodes).length ≤ nodeChannelBuffer := by
    rw [hr] at hf
    exact hf
  simp only [List.length_append, List.length_cons] at hleft
  omega

theorem RestoreInv.surfaces (h : RestoreInv sha256 version fault s) : s.Surfaces sha256 version fault := by
  intro t e ht hr
  refine ⟨fun event s' result hs => ?_, fun hne => ?_⟩
  · cases steps_of_importStep hs with
    | begin => cases ht
    | succeeded =>
      cases ht
      cases hr
    | failed =>
      cases ht
      cases hr
      rfl
  · have hroom : ∀ {node calls}, s.calls = .addNode node :: calls → t.nodesChan.length < nodeChannelBuffer :=
      fun hc => h.room hc ht hr
    obtain ⟨calls, importer, trees⟩ := s
    obtain rfl : importer = _ := ht
    obtain ⟨nodes, closed, goroutine⟩ := t
    obtain rfl : goroutine = _ := hr
    cases calls with
    | nil => exact absurd rfl hne
    | cons call calls =>
      cases call with
      | addNode node => exact ⟨.add, by simp [importStep, hroom rfl]⟩
      | _ => cases closed <;> first | exact ⟨.close, rfl⟩ | exact ⟨.quit, rfl⟩

/-! ### Streams whose failures do not fit -/

variable (sha256 version fault) in
/-- A run leads to a wedged state. -/
def Restore.CanWedge (s : Restore) : Prop :=
  ∃ events s' os, exec (importStep sha256 version fault) s events = some (s', os) ∧ s'.Wedged

variable (event) in
theorem Restore.CanWedge.step (h : s'.CanWedge sha256 version fault)
    (hs : importStep sha256 version fault s event = some (s', o)) : s.CanWedge sha256 version fault := by
  obtain ⟨events, s₁, os, hes, hw⟩ := h
  exact ⟨event :: events, s₁, o :: os, by simp [exec, hs, hes], hw⟩

/-- The goroutine may take its step first. -/
theorem Restore.CanWedge.goroutine {calls : List ImportCall} {trees : ℕ}
    (h : Restore.CanWedge sha256 version fault ⟨calls, some t', trees⟩)
    (hr : t.run sha256 version (fault trees) = some (some t')) :
    Restore.CanWedge sha256 version fault ⟨calls, some t, trees⟩ :=
  h.step .goroutine (o := none) (by simp [importStep, hr])

/-- Nothing happens any more. -/
theorem Restore.Wedged.stuck (h : s.Wedged) (event : ImportEvent) :
    importStep sha256 version fault s event = none := by
  obtain ⟨node, calls, t, e, hc, ht, hr, hfull⟩ := h
  by_contra hne
  obtain ⟨⟨s', o⟩, hs⟩ := Option.ne_none_iff_exists'.mp hne
  cases steps_of_importStep hs with
  | add room =>
    cases ht
    omega
  | goroutine runs =>
    cases ht
    simp [TreeImporter.run, hr] at runs
  | panics runs =>
    cases ht
    simp [TreeImporter.run, hr] at runs
  | close waits =>
    cases hc
    exact waits
  | begin waits => cases ht
  | succeeded waits =>
    cases hc
    exact waits
  | failed waits =>
    cases hc
    exact waits

variable {rest : List (List ExportNode)} {trees : ℕ}

/-- After a failure the nodes left fill the buffer. -/
theorem canWedge_failed {e : ImportError} (pending nodes : List ExportNode)
    (hle : nodes.length ≤ nodeChannelBuffer) (hlt : nodeChannelBuffer < nodes.length + pending.length) :
    Restore.CanWedge sha256 version fault
      ⟨pending.map .addNode ++ treeCalls rest, some ⟨nodes, false, .returned (.error e)⟩, trees⟩ := by
  induction pending generalizing nodes with
  | nil =>
    simp only [List.length_nil, add_zero] at hlt
    omega
  | cons node pending ih =>
    rcases Nat.lt_or_ge nodes.length nodeChannelBuffer with hroom | hfull
    · refine (ih (nodes ++ [node]) ?_ ?_).step .add (by simp [importStep, hroom]; rfl)
      · simpa using hroom
      · simp only [List.length_append, List.length_cons, List.length_nil] at hlt ⊢
        omega
    · exact ⟨[], _, [], rfl, node, _, _, e, rfl, rfl, rfl, hfull⟩

theorem outcome_of_fault {fault : ℕ → Bool} {i : Importer} {received : ℕ} (hf : fault received)
    (nodes : List ExportNode) :
    outcome sha256 version fault i received nodes = some (nodes.length, .error .writeFailed) := by
  cases nodes <;> simp [outcome, hf]

/-- The goroutine takes every node as it comes, and its result is received before the next tree. -/
theorem canWedge_importing {i : Importer} {received : ℕ} (pending : List ExportNode)
    (hnext : ∀ files, ¬StreamFits sha256 version fault trees rest → Restore.CanWedge sha256 version fault
      ⟨treeCalls rest, some ⟨[], true, .returned (.ok files)⟩, trees⟩)
    (h : ¬LeftFits (StreamFits sha256 version fault trees rest)
      (outcome sha256 version (fault trees) i received pending)) :
    Restore.CanWedge sha256 version fault
      ⟨pending.map .addNode ++ treeCalls rest, some ⟨[], false, .importing i received⟩, trees⟩ := by
  induction pending generalizing i received with
  | nil =>
    by_cases hf : fault trees received
    · simp [outcome, hf, LeftFits] at h
    · simp only [outcome, hf, Bool.false_eq_true, ↓reduceIte] at h
      obtain ⟨files, hfiles⟩ : ∃ files, i.finish version.toNat = .ok files := by
        cases hi : i.finish version.toNat with
        | error e => simp [hi, LeftFits] at h
        | ok files => exact ⟨files, rfl⟩
      rw [hfiles] at h
      have hreturned : Restore.CanWedge sha256 version fault
          ⟨treeCalls rest, some ⟨[], true, .importing i received⟩, trees⟩ :=
        (hnext files h).goroutine (by simp [TreeImporter.run, hf, hfiles])
      refine hreturned.step .close (o := none) ?_
      cases rest <;> rfl
  | cons node pending ih =>
    by_cases hf : fault trees received
    · rw [outcome_of_fault hf] at h
      exact (canWedge_failed (e := .writeFailed) (node :: pending) [] (Nat.zero_le _)
        (by simpa [LeftFits] using h)).goroutine (by simp [TreeImporter.run, hf])
    · simp only [outcome, hf, Bool.false_eq_true, ↓reduceIte] at h
      have hadded : Restore.CanWedge sha256 version fault
          ⟨pending.map .addNode ++ treeCalls rest, some ⟨[node], false, .importing i received⟩, trees⟩ := by
        rcases hi : i.add sha256 node with _ | (e | i')
        · simp [hi, LeftFits] at h
        · simp only [hi] at h
          exact (canWedge_failed (e := e) pending [] (Nat.zero_le _) (by simpa [LeftFits] using h)).goroutine
            (by simp [TreeImporter.run, hf, hi])
        · simp only [hi] at h
          exact (ih h).goroutine (by simp [TreeImporter.run, hf, hi])
      exact hadded.step .add rfl

/-- With the calls of a stream that does not fit ahead, and no result but a good one to receive, the restore
can be wedged. -/
theorem canWedge_of_not_fits (rest : List (List ExportNode)) (trees : ℕ)
    (h : ¬StreamFits sha256 version fault trees rest) :
    Restore.CanWedge sha256 version fault ⟨treeCalls rest, none, trees⟩ ∧
    ∀ files, Restore.CanWedge sha256 version fault
      ⟨treeCalls rest, some ⟨[], true, .returned (.ok files)⟩, trees⟩ := by
  induction rest generalizing trees with
  | nil => exact absurd trivial h
  | cons nodes rest ih =>
    have hbegun : Restore.CanWedge sha256 version fault
        ⟨nodes.map .addNode ++ treeCalls rest, some (newTreeImporter version), trees + 1⟩ := by
      unfold StreamFits newTreeImporter at h
      unfold newTreeImporter
      split_ifs at h ⊢
      · exact canWedge_failed nodes [] (Nat.zero_le _) (by simpa [LeftFits, Goroutine.outcome] using h)
      · exact canWedge_importing nodes (fun files hrest => (ih (trees + 1) hrest).2 files) h
    exact ⟨hbegun.step .quit rfl, fun files => hbegun.step .quit rfl⟩

/-- For every stream of trees, every place of a fault and every order of the steps: adding a node never
waits for an import that has failed, and the failure is what the next waiting call returns, if and
only if the first import that fails leaves no more nodes of its tree than the buffer holds. -/
theorem importFailure_returned_iff (sha256 : Bytes → Bytes) (version : ℤ) (fault : ℕ → ℕ → Bool)
    (trees : List (List ExportNode)) :
    (∀ events s os, exec (importStep sha256 version fault) ⟨treeCalls trees, none, 0⟩ events = some (s, os) →
      ¬s.Wedged ∧ s.Surfaces sha256 version fault) ↔ StreamFits sha256 version fault 0 trees := by
  constructor
  · intro h
    by_contra hf
    obtain ⟨events, s, os, hes, hw⟩ := (canWedge_of_not_fits trees 0 hf).1
    exact (h events s os hes).1 hw
  · intro hf events s os hes
    have hstart : RestoreInv sha256 version fault ⟨treeCalls trees, none, 0⟩ := .inr (.inr ⟨trees, rfl, hf⟩)
    have hinv : RestoreInv sha256 version fault s :=
      exec_invariant (P := fun s _ => RestoreInv sha256 version fault s)
        (fun s os event s' o h _ hs => h.step (steps_of_importStep hs)) hstart
        (along_of_forall (fun _ _ => trivial) _) hes
    refine ⟨?_, hinv.surfaces⟩
    rintro ⟨node, calls, t, e, hc, ht, hr, hfull⟩
    exact absurd (hinv.room hc ht hr) (Nat.not_lt.mpr hfull)

/-- The first node of a tree is refused for its version, and 2049 come after it. -/
theorem restore_wedged :
    ∃ events s os, exec (importStep id 1 fun _ _ => false)
        ⟨treeCalls [⟨[], none, -1, 0⟩ :: List.replicate 2049 ⟨[7], some [8], 1, 0⟩], none, 0⟩ events =
          some (s, os) ∧
      s.Wedged ∧ ∀ event, importStep id 1 (fun _ _ => false) s event = none := by
  have hf : ¬StreamFits id 1 (fun _ _ => false) 0
      [⟨[], none, -1, 0⟩ :: List.replicate 2049 ⟨[7], some [8], 1, 0⟩] := by
    intro h
    have hle : (List.replicate 2049 (⟨[7], some [8], 1, 0⟩ : ExportNode)).length ≤ nodeChannelBuffer := h
    rw [List.length_replicate] at hle
    exact absurd hle (by decide)
  obtain ⟨events, s, os, hes, hw⟩ := (canWedge_of_not_fits _ 0 hf).1
  exact ⟨events, s, os, hes, hw, hw.stuck⟩

end IavlStore.Persist
