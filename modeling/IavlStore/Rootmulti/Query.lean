import IavlStore.Base.ByteOrder
import IavlStore.Proto.RoundTrip
import IavlStore.Rootmulti.Snapshots
import IavlStore.Rootmulti.WorkingHash
import IavlStore.Tree.Lookup

/-! Queries against the cached versions. A request names a store and a key, or a store and the
beginning of keys. The latest version is read first and the version looked up afterwards, in a cache
that other threads may have changed in between. The multitree found is a clone, so the answer is
about one committed version: the proof of a key leads to the root hash of its tree, and the proof of
the tree to the hash of the commit. -/

namespace IavlStore.Rootmulti

open IavlStore.Base.ByteOrder IavlStore.Base.Encoding IavlStore.Base.Ranges IavlStore.Base.Runs
open IavlStore.Base.SortedPairs IavlStore.Multi IavlStore.Db IavlStore.Tree QueryDBCache

/-! ### Requests and responses -/

structure RequestQuery where
  data : Bytes
  path : Bytes
  height : ℤ
  prove : Bool

/-- The proof of a key in a tree, and that of a tree in the commit info. -/
inductive ProofOp (P : Type) where
  | iavl (key : Bytes) (proof : CommitmentProof)
  | simpleMerkle (name : Bytes) (proof : P)
  deriving DecidableEq

/-- There are no proof operations where none were asked for. -/
structure ResponseQuery (P : Type) where
  height : ℤ
  key : Bytes
  value : Option Bytes
  proofOps : Option (List (ProofOp P))
  deriving DecidableEq

inductive QueryError where
  | greaterThanLatest (version latestVersion : ℤ)
  | cacheMiss (miss : CacheMiss)
  | invalidPath (path : Bytes)
  | storeNotFound (name : Bytes)
  | zeroLength
  | invalidHeight
  | unexpectedPath (path : Bytes)
  | emptyProof
  deriving DecidableEq

/-- Proofs of the entries of a map from names to hashes, as another library makes them. -/
structure CommitProofs (P : Type) where
  hash : List (Bytes × Bytes) → Bytes
  prove : List (Bytes × Bytes) → Bytes → Option P
  verify : P → Bytes → Bytes → Bytes → Bool
  /-- A proof of an entry leads to the hash of the map. Empty names and hashes are refused. -/
  verify_prove : ∀ l, (l.map Prod.fst).Nodup → ∀ p ∈ l, p.1 ≠ [] → p.2 ≠ [] →
    ∃ proof, prove l p.1 = some proof ∧ verify proof (hash l) p.1 p.2 = true

/-- The bytes of "/key". -/
def keyPath : Bytes := [0x2f, 0x6b, 0x65, 0x79]

/-- The bytes of "/subspace". -/
def subspacePath : Bytes := [0x2f, 0x73, 0x75, 0x62, 0x73, 0x70, 0x61, 0x63, 0x65]

/-- The name up to the second slash, and the rest from it on. -/
def parsePath : Bytes → Option (Bytes × Bytes)
  | [] => none
  | c :: rest =>
    if c = 0x2f then some (rest.takeWhile (· ≠ 0x2f), rest.dropWhile (· ≠ 0x2f)) else none

variable {P : Type}

/-! ### The query -/

/-- The version of a tree, which must be a signed number. -/
def signedVersion (tree : IavlStore.Tree) : Option ℤ :=
  if maxInt64 < tree.version then none else some tree.version

/-- The pairs whose keys begin with the data, in the order of the iterator. -/
def subspacePairs (tree : IavlStore.Tree) (subspace : Bytes) : List Proto.Pair :=
  (rangePairs (some subspace) (prefixEndBytes subspace) tree.pairs).map fun p => ⟨p.1, p.2⟩

/-- A query against one tree. The result is `none` for a panic. -/
def storeQuery (sha256 : Bytes → Bytes) (tree : IavlStore.Tree) (req : RequestQuery) :
    Option (Except QueryError (ResponseQuery P)) :=
  if req.data = [] then some (.error .zeroLength)
  else do
    let version ← signedVersion tree
    if 0 < req.height ∧ req.height ≠ version then some (.error .invalidHeight)
    else if req.path = keyPath then
      let value := tree.get req.data
      if req.prove then do
        let proof ← tree.getProofFromTree sha256 req.data value.isSome
        some (.ok ⟨version, req.data, value, some [.iavl req.data proof]⟩)
      else some (.ok ⟨version, req.data, value, none⟩)
    else if req.path = subspacePath then do
      let bz ← Proto.pairs.marshal (subspacePairs tree req.data)
      some (.ok ⟨version, req.data, some bz, none⟩)
    else some (.error (.unexpectedPath req.path))

/-- The names and the hashes of the commit info. -/
def commitMap (t : MultiTree Bytes) : List (Bytes × Bytes) :=
  t.lastCommitInfo.storeInfos.map fun i => (i.name, i.hash)

/-- The query against a multitree that was found. A proof for a store without an entry in the commit
info panics. -/
def multiQuery (K : CommitProofs P) (sha256 : Bytes → Bytes) (cloned : MultiTree Bytes) (req : RequestQuery) :
    Option (Except QueryError (ResponseQuery P)) :=
  match parsePath req.path with
  | none => some (.error (.invalidPath req.path))
  | some (name, subpath) =>
    match cloned.treeByName name with
    | none => some (.error (.storeNotFound name))
    | some tree => do
      match ← storeQuery sha256 tree { req with path := subpath } with
      | .error err => some (.error err)
      | .ok res =>
        if req.prove = false ∨ subpath ≠ keyPath then some (.ok res)
        else
          match res.proofOps with
          | none => some (.error .emptyProof)
          | some [] => some (.error .emptyProof)
          | some (op :: ops) => do
            let proof ← K.prove (commitMap cloned) name
            some (.ok { res with proofOps := some (op :: ops ++ [.simpleMerkle name proof]) })

/-- The latest version in the cache, or that of the database before anything was added. -/
def latestVersion {W : WalLog (WALEntry Bytes)} (s : CachedStore Bytes W) : Option ℤ :=
  if 0 < s.cache.latest then some s.cache.latest else s.world.db.map fun db => (db.working.mtree.version : ℤ)

/-- The version a request is about. -/
def requested (latest : ℤ) (req : RequestQuery) : ℤ := if req.height ≤ 0 then latest else req.height

/-- The query after the latest version was read. -/
def query (K : CommitProofs P) (sha256 : Bytes → Bytes) (opts : CacheOptions) (latest : ℤ)
    (c : QueryDBCache (MultiTree Bytes)) (req : RequestQuery) : Option (Except QueryError (ResponseQuery P)) :=
  if latest < req.height then some (.error (.greaterThanLatest req.height latest))
  else
    match c.getHistoricalTrees (requested latest req) with
    | (none, cacheLatest) =>
      some (.error (.cacheMiss (classifyCacheMiss (requested latest req) cacheLatest (cacheLimit opts))))
    | (some cloned, _) => multiQuery K sha256 cloned req

/-! ### Committed multitrees -/

section Committed
variable {sha256 : Bytes → Bytes} {t : MultiTree Bytes} {name : Bytes} {tree : IavlStore.Tree}

/-- Every tree is at the version of the commit. -/
theorem Committed.tree_version (h : Committed sha256 t) (ht : t.treeByName name = some tree) :
    tree.version = t.version := by
  have hle := h.saved.loadable.version_le
  have hpos := h.pos
  have hlevel := h.saved.level _ (h.saved.loadable.coherent.treeByName_mem ht)
  rw [nextVersion, if_neg (by omega), next_eq hle] at hlevel
  exact Nat.succ.inj hlevel

theorem Committed.signedVersion (h : Committed sha256 t) (ht : t.treeByName name = some tree) :
    signedVersion tree = some (t.version : ℤ) := by
  have hle := h.saved.loadable.version_le
  rw [Rootmulti.signedVersion, h.tree_version ht, if_neg (by omega)]

theorem Committed.tree_inv (h : Committed sha256 t) (ht : t.treeByName name = some tree) : tree.Inv :=
  h.every _ (h.saved.loadable.coherent.treeByName_mem ht)

/-- The commit info has the names and the root hashes of the trees. -/
theorem Committed.commitMap_eq (h : Committed sha256 t) : commitMap t = rootHashes sha256 t := by
  have hrec : t.lastCommitInfo = t.buildCommitInfo sha256 t.version := h.saved.recorded trivial h.pos
  rw [commitMap, hrec, rootHashes, MultiTree.buildCommitInfo, List.map_map]
  rfl

theorem Committed.prove (K : CommitProofs P) (hlen : ∀ bytes, (sha256 bytes).length = 32) (h : Committed sha256 t)
    (ht : t.treeByName name = some tree) (hname : name ≠ []) :
    ∃ proof, K.prove (commitMap t) name = some proof ∧
      K.verify proof (K.hash (rootHashes sha256 t)) name (tree.rootHash sha256) = true := by
  have hmem : (name, tree.rootHash sha256) ∈ rootHashes sha256 t :=
    List.mem_map_of_mem (h.saved.loadable.coherent.treeByName_mem ht)
  have hnodup : ((rootHashes sha256 t).map Prod.fst).Nodup := by
    rw [rootHashes, List.map_map]
    exact h.saved.loadable.coherent.nodup
  have hne : tree.rootHash sha256 ≠ [] := by
    intro h0
    have hl : (tree.rootHash sha256).length = 32 := by
      unfold Tree.rootHash
      split
      · exact hlen _
      · exact Node.hashNode_length hlen _
    rw [h0] at hl
    cases hl
  rw [h.commitMap_eq]
  exact K.verify_prove _ hnodup _ hmem hname hne

end Committed

/-! ### Answers -/

/-- What the answer to a request for the proof of a key shows: the value of the key in the tree, or
that it has none, and the tree in the commit. -/
structure Verified (K : CommitProofs P) (sha256 : Bytes → Bytes) (t : MultiTree Bytes) (name key : Bytes)
    (res : ResponseQuery P) : Prop where
  height : res.height = t.version
  key_eq : res.key = key
  proofs : ∃ tree proof commitProof, t.treeByName name = some tree ∧ res.value = lookupPair key tree.pairs ∧
    res.proofOps = some [.iavl key proof, .simpleMerkle name commitProof] ∧
    Shows sha256 tree key res.value proof ∧
    K.verify commitProof (K.hash (rootHashes sha256 t)) name (tree.rootHash sha256) = true

/-- The names are not empty, and the pairs of a tree can be counted and written. -/
def Servable (t : MultiTree Bytes) : Prop :=
  ∀ e ∈ t.trees, e.name ≠ [] ∧ e.tree.pairs.length < 2 ^ 32 ∧
    Proto.pairs.size (e.tree.pairs.map fun p => ⟨p.1, p.2⟩) < 2 ^ 63

instance (t : MultiTree Bytes) : Decidable (Servable t) :=
  inferInstanceAs (Decidable (∀ e ∈ t.trees, _ ∧ _ ∧ _))

section Answers
variable {K : CommitProofs P} {sha256 : Bytes → Bytes} {t : MultiTree Bytes} {name : Bytes} {req : RequestQuery}
  {tree : IavlStore.Tree}

theorem size_subspacePairs_le (tree : IavlStore.Tree) (subspace : Bytes) :
    Proto.pairs.size (subspacePairs tree subspace) ≤ Proto.pairs.size (tree.pairs.map fun p => ⟨p.1, p.2⟩) := by
  exact List.Sublist.sum_le_sum (List.Sublist.map _ (List.Sublist.map _ List.filter_sublist))
    fun _ _ => Nat.zero_le _

/-- A request for this version or for none passes the first checks. -/
theorem storeQuery_of_height (req : RequestQuery) (h : Committed sha256 t) (ht : t.treeByName name = some tree)
    (hdata : req.data ≠ []) (hheight : ¬ (0 < req.height ∧ req.height ≠ t.version)) :
    storeQuery (P := P) sha256 tree req =
      if req.path = keyPath then
        if req.prove then do
          let proof ← tree.getProofFromTree sha256 req.data (tree.get req.data).isSome
          some (.ok ⟨t.version, req.data, tree.get req.data, some [.iavl req.data proof]⟩)
        else some (.ok ⟨t.version, req.data, tree.get req.data, none⟩)
      else if req.path = subspacePath then do
        let bz ← Proto.pairs.marshal (subspacePairs tree req.data)
        some (.ok ⟨t.version, req.data, some bz, none⟩)
      else some (.error (.unexpectedPath req.path)) := by
  rw [storeQuery, if_neg hdata, h.signedVersion ht, Option.bind_eq_bind, Option.bind_some, if_neg hheight]

theorem storeQuery_of_other_height (req : RequestQuery) (h : Committed sha256 t)
    (ht : t.treeByName name = some tree) (hdata : req.data ≠ []) (hheight : 0 < req.height ∧ req.height ≠ t.version) :
    storeQuery (P := P) sha256 tree req = some (.error .invalidHeight) := by
  rw [storeQuery, if_neg hdata, h.signedVersion ht, Option.bind_eq_bind, Option.bind_some, if_pos hheight]

/-- The pairs of a subspace can be written and are read back. -/
theorem marshal_subspacePairs (hs : Servable t) (h : Committed sha256 t) (ht : t.treeByName name = some tree)
    (subspace : Bytes) : ∃ bz, Proto.pairs.marshal (subspacePairs tree subspace) = some bz ∧
      Proto.pairs.unmarshalNew bz = .ok (subspacePairs tree subspace) := by
  obtain ⟨-, -, hfits⟩ := hs _ (h.saved.loadable.coherent.treeByName_mem ht)
  obtain ⟨bz, henc, -, hdec⟩ := (Proto.pairs_codes (subspacePairs tree subspace) []).marshal_eq
    ((size_subspacePairs_le tree subspace).trans_lt hfits)
  exact ⟨bz, henc, hdec⟩

/-- What a response tells about a multitree. -/
inductive Answered (K : CommitProofs P) (sha256 : Bytes → Bytes) (t : MultiTree Bytes) (req : RequestQuery) :
    ResponseQuery P → Prop where
  | proof (name : Bytes) (res : ResponseQuery P) (hpath : parsePath req.path = some (name, keyPath))
    (hprove : req.prove = true) (verified : Verified K sha256 t name req.data res) : Answered K sha256 t req res
  | value (name : Bytes) (tree : IavlStore.Tree) (hpath : parsePath req.path = some (name, keyPath))
    (ht : t.treeByName name = some tree) (hprove : req.prove = false) :
    Answered K sha256 t req ⟨t.version, req.data, lookupPair req.data tree.pairs, none⟩
  | subspace (name bz : Bytes) (tree : IavlStore.Tree) (hpath : parsePath req.path = some (name, subspacePath))
    (ht : t.treeByName name = some tree) (hbz : Proto.pairs.unmarshalNew bz = .ok (subspacePairs tree req.data)) :
    Answered K sha256 t req ⟨t.version, req.data, some bz, none⟩

/-- Why a request is refused. -/
inductive Refused (t : MultiTree Bytes) (req : RequestQuery) : QueryError → Prop where
  | invalidPath (hpath : parsePath req.path = none) : Refused t req (.invalidPath req.path)
  | storeNotFound (name subpath : Bytes) (hpath : parsePath req.path = some (name, subpath))
    (ht : t.treeByName name = none) : Refused t req (.storeNotFound name)
  | zeroLength (hdata : req.data = []) : Refused t req .zeroLength
  | invalidHeight (hheight : 0 < req.height ∧ req.height ≠ t.version) : Refused t req .invalidHeight
  | unexpectedPath (name subpath : Bytes) (hpath : parsePath req.path = some (name, subpath))
    (hkey : subpath ≠ keyPath) (hsubspace : subpath ≠ subspacePath) : Refused t req (.unexpectedPath subpath)

/-- The outcome of a query: an answer for the version that was asked for, or a reason to refuse it, and
no panic. -/
def Outcome (K : CommitProofs P) (sha256 : Bytes → Bytes) (t : MultiTree Bytes) (req : RequestQuery) :
    Option (Except QueryError (ResponseQuery P)) → Prop
  | none => False
  | some (.error err) => Refused t req err
  | some (.ok res) => (0 < req.height → req.height = t.version) ∧ Answered K sha256 t req res

theorem multiQuery_outcome (K : CommitProofs P) (hlen : ∀ bytes, (sha256 bytes).length = 32)
    (h : Committed sha256 t) (hs : Servable t) (req : RequestQuery) :
    Outcome K sha256 t req (multiQuery K sha256 t req) := by
  rw [multiQuery]
  rcases hpath : parsePath req.path with _ | ⟨name, subpath⟩
  · exact .invalidPath hpath
  dsimp only
  rcases ht : t.treeByName name with _ | tree
  · exact .storeNotFound name subpath hpath ht
  dsimp only
  by_cases hdata : req.data = []
  · rw [storeQuery, if_pos hdata]
    exact .zeroLength hdata
  by_cases hheight : 0 < req.height ∧ req.height ≠ t.version
  · rw [storeQuery_of_other_height { req with path := subpath } h ht hdata hheight]
    exact .invalidHeight hheight
  rw [storeQuery_of_height { req with path := subpath } h ht hdata hheight]
  obtain ⟨hname, hsize, -⟩ := hs _ (h.saved.loadable.coherent.treeByName_mem ht)
  have hget := Tree.get_eq (h.tree_inv ht) req.data
  have hasked : 0 < req.height → req.height = t.version := fun hpos => by
    by_contra hne
    exact hheight ⟨hpos, hne⟩
  dsimp only
  by_cases hkey : subpath = keyPath
  · subst hkey
    rcases hprove : req.prove with _ | _
    · -- the value alone
      simp only [if_true, Bool.false_eq_true, if_false, Option.bind_eq_bind, Option.bind_some, true_or, hget]
      exact ⟨hasked, .value name tree hpath ht hprove⟩
    · obtain ⟨proof, hproof, hshows⟩ := Tree.getProofFromTree_shows hlen (h.tree_inv ht) hsize req.data
      rw [hget] at hproof
      obtain ⟨commitProof, hcommit, hverify⟩ := h.prove K hlen ht hname
      simp only [if_true, hproof, Option.bind_eq_bind, Option.bind_some, Bool.true_eq_false, ne_eq, not_true_eq_false,
        or_self, if_false, hcommit, hget]
      exact ⟨hasked, .proof name _ hpath hprove
        ⟨rfl, rfl, tree, proof, commitProof, ht, rfl, rfl, hshows, hverify⟩⟩
  · by_cases hsub : subpath = subspacePath
    · subst hsub
      obtain ⟨bz, henc, hdec⟩ := marshal_subspacePairs hs h ht req.data
      simp only [hkey, if_false, if_true, henc, Option.bind_eq_bind, Option.bind_some, ne_eq, not_false_eq_true,
        or_true]
      exact ⟨hasked, .subspace name bz tree hpath ht hdec⟩
    · simp only [hkey, hsub, if_false, Option.bind_eq_bind, Option.bind_some]
      exact .unexpectedPath name subpath hpath hkey hsub

end Answers

/-! ### Runs -/

section Runs
variable {R : RollbackLog (WALEntry Bytes)} {K : CommitProofs P} {sha256 : Bytes → Bytes} {opts : Options}
  {cacheOpts : CacheOptions} {b : Bool} {v₀ iv n : ℕ} {s : Service Bytes R.toWalLog}

/-- What is found is a committed multitree. It has the version it was looked up by, unless it is the
one of an exporter that was opened at another version. -/
theorem ServiceInv.found (h : ServiceInv v₀ iv n opts sha256 s) {v latest : ℤ} {t : MultiTree Bytes}
    (hg : s.store.cache.getHistoricalTrees v = (some t, latest)) :
    Committed sha256 t ∧ (v = t.version ∨ lookupPair v s.store.cache.entries = none ∧
      s.store.cache.exporter = some (v, t)) := by
  unfold getHistoricalTrees at hg
  rcases he : lookupPair v s.store.cache.entries with _ | t' <;> simp only [he] at hg
  · rcases hx : s.store.cache.exporter with _ | ⟨v', t'⟩ <;> simp only [hx] at hg
    · simp at hg
    · split_ifs at hg with hv
      · cases hg
        exact ⟨h.exporter _ hx, .inr ⟨rfl, by rw [hv]⟩⟩
      · simp at hg
  · cases hg
    obtain ⟨hpos, hv, hsealed⟩ := h.history.cache v t he
    exact ⟨⟨hsealed, h.every.cache v t he, hpos⟩, .inl hv⟩

/-- Every multitree that a query can find is servable. -/
def CacheServable (c : QueryDBCache (MultiTree Bytes)) : Prop :=
  ∀ v t latest, c.getHistoricalTrees v = (some t, latest) → Servable t

theorem cacheServable_of_entries {c : QueryDBCache (MultiTree Bytes)} (hx : c.exporter = none)
    (h : ∀ p ∈ c.entries, Servable p.2) : CacheServable c := by
  intro v t latest hg
  unfold getHistoricalTrees at hg
  rcases he : lookupPair v c.entries with _ | t' <;> simp only [he, hx] at hg
  · simp at hg
  · cases hg
    exact h _ (pair_mem_of_lookupPair he)

/-- What a query does, by what it finds. -/
theorem ServiceInv.query_cases (K : CommitProofs P) (hlen : ∀ bytes, (sha256 bytes).length = 32)
    (h : ServiceInv v₀ iv n opts sha256 s) (hs : CacheServable s.store.cache) (latest : ℤ) (req : RequestQuery) :
    (latest < req.height ∧ query K sha256 cacheOpts latest s.store.cache req =
      some (.error (.greaterThanLatest req.height latest))) ∨
    (req.height ≤ latest ∧ lookupPair (requested latest req) s.store.cache.entries = none ∧
      query K sha256 cacheOpts latest s.store.cache req = some (.error (.cacheMiss
        (classifyCacheMiss (requested latest req) s.store.cache.latest (cacheLimit cacheOpts))))) ∨
    ∃ t, Committed sha256 t ∧ (requested latest req = t.version ∨
        lookupPair (requested latest req) s.store.cache.entries = none) ∧
      Outcome K sha256 t req (query K sha256 cacheOpts latest s.store.cache req) := by
  unfold query
  by_cases hle : latest < req.height
  · rw [if_pos hle]
    exact .inl ⟨hle, rfl⟩
  · rw [if_neg hle]
    have hlatest := getHistoricalTrees_latest s.store.cache (requested latest req)
    rcases hg : s.store.cache.getHistoricalTrees (requested latest req) with ⟨_ | t, cacheLatest⟩ <;>
      rw [hg] at hlatest
    · obtain rfl : cacheLatest = s.store.cache.latest := hlatest
      refine .inr (.inl ⟨not_lt.mp hle, ?_, rfl⟩)
      rcases he : lookupPair (requested latest req) s.store.cache.entries with _ | t
      · rfl
      · simp [getHistoricalTrees, he] at hg
    · obtain ⟨hcommitted, hversion⟩ := h.found hg
      exact .inr (.inr ⟨t, hcommitted, hversion.imp_right And.left,
        multiQuery_outcome K hlen hcommitted (hs _ t _ hg) req⟩)

/-- What is answered was found. -/
theorem ServiceInv.of_answer (hlen : ∀ bytes, (sha256 bytes).length = 32) (h : ServiceInv v₀ iv n opts sha256 s)
    (hs : CacheServable s.store.cache) {latest : ℤ} {req : RequestQuery} {res : ResponseQuery P}
    (hq : query K sha256 cacheOpts latest s.store.cache req = some (.ok res)) :
    ∃ t, Committed sha256 t ∧ (0 < req.height → req.height = t.version) ∧ Answered K sha256 t req res := by
  rcases h.query_cases K hlen hs latest req with ⟨-, heq⟩ | ⟨-, -, heq⟩ | ⟨t, hcommitted, -, hout⟩
  · rw [hq] at heq
    cases heq
  · rw [hq] at heq
    cases heq
  · rw [hq] at hout
    exact ⟨t, hcommitted, hout⟩

variable {base : MultiTree Bytes} {es : List (ServiceEvent Bytes)} {os : List Unit}

/-- Proofs that list all entries. -/
def listProofs : CommitProofs (List (Bytes × Bytes)) where
  hash l := (l.map fun p => p.1 ++ p.2).flatten
  prove l name := if name ∈ l.map Prod.fst then some l else none
  verify proof root name hash :=
    decide ((proof.map fun p => p.1 ++ p.2).flatten = root) && decide ((name, hash) ∈ proof)
  verify_prove l _ p hp _ _ := ⟨l, if_pos (List.mem_map_of_mem hp), by simp [hp]⟩

/-- Two pairs are committed to the store "a". -/
def twoPairs : List (ServiceEvent Bytes) :=
  [.store (.loadVersionAndUpgrade 0 [[0x61]] .none),
    .store (.event (.applyChangeSets [⟨[0x61], [⟨false, [1], some [7]⟩, ⟨false, [1, 2], some [8]⟩]⟩])),
    .store (.event .commit), .store (.event .finish)]

/-- The start of the runs that the requests are made in. -/
theorem start_newEmptyMultiTree (sha256 : Bytes → Bytes) :
    Start sha256 (MultiTree.newEmptyMultiTree 0 : MultiTree Bytes) :=
  ⟨Origin.empty (Nat.zero_le _), fun h => absurd h (lt_irrefl 0), MultiTree.every_newEmptyMultiTree Tree.Inv 0⟩

/-- No event of `twoPairs` is disturbed, for a hash of 32 zero bytes. -/
theorem twoPairs_undisturbed :
    Along (serviceStep (fun _ => List.replicate 32 0) ⟨100, 0, false⟩ ⟨2, 100⟩ true)
      (ServiceUndisturbed (fun _ => List.replicate 32 0) true)
      (newService (listRollbackLog (WALEntry Bytes)) (MultiTree.newEmptyMultiTree 0)) twoPairs := by
  decide +kernel

end Runs

end IavlStore.Rootmulti
