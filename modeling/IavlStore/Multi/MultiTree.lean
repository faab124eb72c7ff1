import IavlStore.Tree.Values

/-! Several named trees that are committed together. The trees are kept in the order of
their names, with an index from names to positions. Names are of any ordered type; they
are the names a directory can hold. Versions and initial versions are 64-bit numbers,
and a signed number is negative when it is above `maxInt64`. -/

namespace IavlStore.Multi

open IavlStore.Base.Encoding IavlStore.Base.SortedPairs

structure NamedTree (N : Type) where
  name : N
  tree : Tree
  deriving DecidableEq

/-- The name, version and root hash of a committed tree. -/
structure StoreInfo (N : Type) where
  name : N
  version : ℕ
  hash : Bytes
  deriving DecidableEq

structure CommitInfo (N : Type) where
  version : ℕ
  storeInfos : List (StoreInfo N)
  deriving DecidableEq

structure MultiTree (N : Type) where
  initialVersion : ℕ
  trees : List (NamedTree N)
  treesByName : List (N × ℕ)
  lastCommitInfo : CommitInfo N
  deriving DecidableEq

structure NamedChangeSet (N : Type) where
  name : N
  changeset : ChangeSet
  deriving DecidableEq

/-- Delete a tree, or rename one when there is an old name, or else add one. -/
structure TreeNameUpgrade (N : Type) where
  name : N
  renameFrom : Option N
  delete : Bool
  deriving DecidableEq

inductive Error (N : Type) where
  | unknownTree (name : N)
  | nameConflict (name : N)
  | negativeInitialVersion (initialVersion : ℕ)
  | multiTreeNotEmpty (version : ℕ)
  | treeNotEmpty (name : N)
  | versionOverflow (version : ℕ)
  deriving DecidableEq

/-! ### Versions and log indices -/

/-- The first version is the initial version. -/
def nextVersion (v initialVersion : ℕ) : ℕ :=
  if v = 0 ∧ 1 < initialVersion then initialVersion else next v

/-- The index of the log entry that leads to a version. -/
def walIndex (v initialVersion : ℕ) : ℕ :=
  if 1 < initialVersion then (v + (2 ^ 64 - initialVersion) + 1) % 2 ^ 64 else v

/-- The version a log entry leads to. -/
def walVersion (index initialVersion : ℕ) : ℕ :=
  if 1 < initialVersion then (index + (initialVersion - 1)) % 2 ^ 64 else index

/-- An empty tree whose first version will be `initialVersion`. -/
def newWithInitialVersion (initialVersion : ℕ) : Tree :=
  if initialVersion ≤ 1 then Tree.newEmptyTree 0 else Tree.newEmptyTree (initialVersion - 1)

/-- The initial version has no effect on a tree that has a version. -/
def setInitialVersionTree (initialVersion : ℕ) (t : Tree) : Tree :=
  if 0 < t.version then t else { t with version := initialVersion - 1 }

section Index
variable {N : Type} [LinearOrder N]

instance decidableMemNames (name : N) (names : List N) : Decidable (name ∈ names) :=
  List.instDecidableMemOfLawfulBEq name names

/-- The positions of the names, unless a name occurs twice. -/
def indexTrees : List (NamedTree N) → ℕ → List (N × ℕ) → List (N × ℕ) × Option (Error N)
  | [], _, byName => (byName, none)
  | e :: es, i, byName =>
    if (lookupPair e.name byName).isSome then (byName, some (.nameConflict e.name))
    else indexTrees es (i + 1) (byName ++ [(e.name, i)])

/-- The positions of distinct names. -/
def positions (trees : List (NamedTree N)) : List (N × ℕ) := (trees.map NamedTree.name).zipIdx

end Index

namespace MultiTree

variable {N : Type} [LinearOrder N]

def newEmptyMultiTree (initialVersion : ℕ) : MultiTree N := ⟨initialVersion, [], [], ⟨0, []⟩⟩

def version (t : MultiTree N) : ℕ := t.lastCommitInfo.version

def names (t : MultiTree N) : List N := t.trees.map NamedTree.name

def treeByName (t : MultiTree N) (name : N) : Option Tree :=
  (lookupPair name t.treesByName).bind fun i => t.trees[i]?.map NamedTree.tree

/-! ### Initial version -/

def assignInitialVersion (initialVersion : ℕ) (t : MultiTree N) : MultiTree N :=
  { t with
    initialVersion := initialVersion
    trees := if 1 < initialVersion then
        t.trees.map fun e => { e with tree := setInitialVersionTree initialVersion e.tree }
      else t.trees }

/-- Allowed before the first commit, while no tree holds a node. -/
def setInitialVersion (initialVersion : ℕ) (t : MultiTree N) : Except (Error N) (MultiTree N) := do
  if maxInt64 < initialVersion then throw (.negativeInitialVersion initialVersion)
  if t.version ≠ 0 then throw (.multiTreeNotEmpty t.version)
  match t.trees.find? fun e => e.tree.root.isSome with
  | some e => throw (.treeNotEmpty e.name)
  | none => return t.assignInitialVersion initialVersion

/-! ### Upgrades -/

/-- Overwrite a position with the last element and drop the last position. -/
def swapDelete {α : Type} (l : List α) (i : ℕ) : List α :=
  match l.getLast? with
  | none => l
  | some x => (l.set i x).dropLast

/-- One upgrade on the list of trees; `version` is the version being built. -/
def upgradeTrees (version : ℕ) (u : TreeNameUpgrade N) (trees : List (NamedTree N)) :
    Except (Error N) (List (NamedTree N)) :=
  if u.delete then
    match trees.findIdx? fun e => e.name = u.name with
    | none => .error (.unknownTree u.name)
    | some i => .ok (swapDelete trees i)
  else
    match u.renameFrom with
    | some old =>
      match trees.findIdx? fun e => e.name = old with
      | none => .error (.unknownTree old)
      | some i => .ok (trees.modify i fun e => { e with name := u.name })
    | none => .ok (trees ++ [⟨u.name, newWithInitialVersion version⟩])

/-- The trees after the upgrades before a failing one, and the failure. -/
def upgradeLoop (version : ℕ) : List (TreeNameUpgrade N) → List (NamedTree N) →
    List (NamedTree N) × Option (Error N)
  | [], trees => (trees, none)
  | u :: us, trees =>
    match upgradeTrees version u trees with
    | .error e => (trees, some e)
    | .ok trees => upgradeLoop version us trees

def sortTrees (trees : List (NamedTree N)) : List (NamedTree N) :=
  trees.insertionSort fun a b => a.name ≤ b.name

/-- After a failure the index is left empty or incomplete. -/
def applyUpgrades (upgrades : List (TreeNameUpgrade N)) (t : MultiTree N) :
    MultiTree N × Option (Error N) :=
  if upgrades = [] then (t, none)
  else
    match upgradeLoop (nextVersion t.version t.initialVersion) upgrades t.trees with
    | (trees, some e) => ({ t with trees := trees, treesByName := [] }, some e)
    | (trees, none) =>
      let trees := sortTrees trees
      let (byName, e) := indexTrees trees 0 []
      ({ t with trees := trees, treesByName := byName }, e)

/-! ### Change sets -/

def applyChangeSet (name : N) (changeSet : ChangeSet) (t : MultiTree N) :
    MultiTree N × Option (Error N) :=
  match lookupPair name t.treesByName with
  | none => (t, some (.unknownTree name))
  | some i =>
    ({ t with trees := t.trees.modify i fun e => { e with tree := e.tree.applyChangeSet changeSet } },
      none)

/-- The change sets before one of an unknown tree are applied. -/
def applyChangeSets : List (NamedChangeSet N) → MultiTree N → MultiTree N × Option (Error N)
  | [], t => (t, none)
  | c :: cs, t =>
    match t.applyChangeSet c.name c.changeset with
    | (t, some e) => (t, some e)
    | (t, none) => applyChangeSets cs t

/-! ### Saving -/

def buildCommitInfo (sha256 : Bytes → Bytes) (version : ℕ) (t : MultiTree N) : CommitInfo N :=
  ⟨version, t.trees.map fun e => ⟨e.name, e.tree.version, e.tree.rootHash sha256⟩⟩

def workingCommitInfo (sha256 : Bytes → Bytes) (t : MultiTree N) : CommitInfo N :=
  t.buildCommitInfo sha256 (nextVersion t.version t.initialVersion)

def updateCommitInfo (sha256 : Bytes → Bytes) (t : MultiTree N) : MultiTree N :=
  { t with lastCommitInfo := t.buildCommitInfo sha256 t.version }

def saveTrees : List (NamedTree N) → Except (Error N) (List (NamedTree N))
  | [] => .ok []
  | e :: es =>
    match e.tree.saveVersion with
    | none => .error (.versionOverflow e.tree.version)
    | some tree => do return { e with tree := tree } :: (← saveTrees es)

/-- Save every tree. Without an update the store infos are cleared. -/
def saveVersion (sha256 : Bytes → Bytes) (update : Bool) (t : MultiTree N) :
    Except (Error N) (MultiTree N) := do
  let version := nextVersion t.version t.initialVersion
  let t := { t with trees := ← saveTrees t.trees, lastCommitInfo := ⟨version, []⟩ }
  return if update then t.updateCommitInfo sha256 else t

end MultiTree

end IavlStore.Multi
