import IavlStore.Base.Messages
import IavlStore.Multi.Catchup

/-! The messages of the log and of the metadata file, and the pairs that a query returns: their
sizes, how they are written back to front into a buffer of that size, and how they are decoded. A
string or slice that is empty and a zero are not written. A message inside of another one is
decoded into what is there already; an element of a list is always new.

The version of a commit is written as an unsigned number of 64 bits. -/

namespace IavlStore.Proto

open IavlStore.Base.Encoding IavlStore.Base.Wire IavlStore.Multi

/-- The size of a field with `l` bytes. -/
def sizeOfField (l : ℕ) : ℕ := 1 + l + sov l

/-! ### Change sets -/

/-- The value as a slice. -/
def valueBytes (m : KVPair) : Bytes := m.value.getD []

def kvPair : Message KVPair where
  size m := (if m.delete then 2 else 0) + (if 0 < m.key.length then sizeOfField m.key.length else 0) +
    (if 0 < (valueBytes m).length then sizeOfField (valueBytes m).length else 0)
  write m :=
    putIf (0 < (valueBytes m).length) (putBytesField 0x1a (valueBytes m)) >=>
    putIf (0 < m.key.length) (putBytesField 0x12 m.key) >=>
    putIf m.delete (putByte 1 >=> putByte 0x8)
  -- a slice that is decoded is not nil
  fields
    | 1 => some (.varint fun v m => { m with delete := v ≠ 0 })
    | 2 => some (.bytes fun data m => .ok { m with key := data })
    | 3 => some (.bytes fun data m => .ok { m with value := some data })
    | _ => none
  zero := ⟨false, [], none⟩

def changeSet : Message ChangeSet where
  size m := (m.map fun e => sizeOfField (kvPair.size e)).sum
  write m := m.foldrM fun e => putMessageField 0xa (kvPair.marshalToSizedBuffer e)
  fields
    | 1 => some (.bytes fun data m => (kvPair.unmarshalNew data).map fun e => m ++ [e])
    | _ => none
  zero := []

/-! ### Entries of the log -/

def namedChangeSet : Message (NamedChangeSet Bytes) where
  size m := sizeOfField (changeSet.size m.changeset) + (if 0 < m.name.length then sizeOfField m.name.length else 0)
  write m :=
    putIf (0 < m.name.length) (putBytesField 0x12 m.name) >=>
    putMessageField 0xa (changeSet.marshalToSizedBuffer m.changeset)
  fields
    | 1 => some (.bytes fun data m =>
      (changeSet.unmarshal data m.changeset).map fun changeset => { m with changeset := changeset })
    | 2 => some (.bytes fun data m => .ok { m with name := data })
    | _ => none
  zero := ⟨[], []⟩

/-- The old name as a string; there is none when it is empty. -/
def renameFromString (m : TreeNameUpgrade Bytes) : Bytes := m.renameFrom.getD []

def treeNameUpgrade : Message (TreeNameUpgrade Bytes) where
  size m := (if 0 < m.name.length then sizeOfField m.name.length else 0) +
    (if 0 < (renameFromString m).length then sizeOfField (renameFromString m).length else 0) + (if m.delete then 2 else 0)
  write m :=
    putIf m.delete (putByte 1 >=> putByte 0x18) >=>
    putIf (0 < (renameFromString m).length) (putBytesField 0x12 (renameFromString m)) >=>
    putIf (0 < m.name.length) (putBytesField 0xa m.name)
  fields
    | 1 => some (.bytes fun data m => .ok { m with name := data })
    | 2 => some (.bytes fun data m => .ok { m with renameFrom := if data = [] then none else some data })
    | 3 => some (.varint fun v m => { m with delete := v ≠ 0 })
    | _ => none
  zero := ⟨[], none, false⟩

def walEntry : Message (WALEntry Bytes) where
  size m := (m.changesets.map fun e => sizeOfField (namedChangeSet.size e)).sum +
    (m.upgrades.map fun e => sizeOfField (treeNameUpgrade.size e)).sum
  write m :=
    (m.upgrades.foldrM fun e => putMessageField 0x12 (treeNameUpgrade.marshalToSizedBuffer e)) >=>
    (m.changesets.foldrM fun e => putMessageField 0xa (namedChangeSet.marshalToSizedBuffer e))
  fields
    | 1 => some (.bytes fun data m =>
      (namedChangeSet.unmarshalNew data).map fun e => { m with changesets := m.changesets ++ [e] })
    | 2 => some (.bytes fun data m =>
      (treeNameUpgrade.unmarshalNew data).map fun e => { m with upgrades := m.upgrades ++ [e] })
    | _ => none
  zero := ⟨[], []⟩

/-! ### The metadata file -/

structure CommitID where
  version : ℕ
  hash : Bytes
  deriving DecidableEq

def commitID : Message CommitID where
  size m := (if m.version ≠ 0 then 1 + sov m.version else 0) +
    (if 0 < m.hash.length then sizeOfField m.hash.length else 0)
  write m :=
    putIf (0 < m.hash.length) (putBytesField 0x12 m.hash) >=>
    putIf (m.version ≠ 0) (putVarintField 0x8 m.version)
  fields
    | 1 => some (.varint fun v m => { m with version := v })
    | 2 => some (.bytes fun data m => .ok { m with hash := data })
    | _ => none
  zero := ⟨0, []⟩

def commitIdOf (m : StoreInfo Bytes) : CommitID := ⟨m.version, m.hash⟩

def storeInfo : Message (StoreInfo Bytes) where
  size m := (if 0 < m.name.length then sizeOfField m.name.length else 0) + sizeOfField (commitID.size (commitIdOf m))
  write m :=
    putMessageField 0x12 (commitID.marshalToSizedBuffer (commitIdOf m)) >=>
    putIf (0 < m.name.length) (putBytesField 0xa m.name)
  fields
    | 1 => some (.bytes fun data m => .ok { m with name := data })
    | 2 => some (.bytes fun data m =>
      (commitID.unmarshal data (commitIdOf m)).map fun id => { m with version := id.version, hash := id.hash })
    | _ => none
  zero := ⟨[], 0, []⟩

def commitInfo : Message (CommitInfo Bytes) where
  size m := (if m.version ≠ 0 then 1 + sov m.version else 0) +
    (m.storeInfos.map fun e => sizeOfField (storeInfo.size e)).sum
  write m :=
    (m.storeInfos.foldrM fun e => putMessageField 0x12 (storeInfo.marshalToSizedBuffer e)) >=>
    putIf (m.version ≠ 0) (putVarintField 0x8 m.version)
  fields
    | 1 => some (.varint fun v m => { m with version := v })
    | 2 => some (.bytes fun data m =>
      (storeInfo.unmarshalNew data).map fun e => { m with storeInfos := m.storeInfos ++ [e] })
    | _ => none
  zero := ⟨0, []⟩

structure MultiTreeMetadata where
  commitInfo : Option (CommitInfo Bytes)
  initialVersion : ℕ
  deriving DecidableEq

def multiTreeMetadata : Message MultiTreeMetadata where
  size m := (match m.commitInfo with | none => 0 | some info => sizeOfField (commitInfo.size info)) +
    (if m.initialVersion ≠ 0 then 1 + sov m.initialVersion else 0)
  write m :=
    putIf (m.initialVersion ≠ 0) (putVarintField 0x10 m.initialVersion) >=>
    match m.commitInfo with
    | none => some
    | some info => putMessageField 0xa (commitInfo.marshalToSizedBuffer info)
  fields
    | 1 => some (.bytes fun data m =>
      (commitInfo.unmarshal data (m.commitInfo.getD commitInfo.zero)).map fun info => { m with commitInfo := some info })
    | 2 => some (.varint fun v m => { m with initialVersion := v })
    | _ => none
  zero := ⟨none, 0⟩

/-! ### Pairs of a query -/

structure Pair where
  key : Bytes
  value : Bytes
  deriving DecidableEq

def pair : Message Pair where
  size m := (if 0 < m.key.length then sizeOfField m.key.length else 0) +
    (if 0 < m.value.length then sizeOfField m.value.length else 0)
  write m :=
    putIf (0 < m.value.length) (putBytesField 0x12 m.value) >=>
    putIf (0 < m.key.length) (putBytesField 0xa m.key)
  fields
    | 1 => some (.bytes fun data m => .ok { m with key := data })
    | 2 => some (.bytes fun data m => .ok { m with value := data })
    | _ => none
  zero := ⟨[], []⟩

def pairs : Message (List Pair) where
  size m := (m.map fun e => sizeOfField (pair.size e)).sum
  write m := m.foldrM fun e => putMessageField 0xa (pair.marshalToSizedBuffer e)
  fields
    | 1 => some (.bytes fun data m => (pair.unmarshalNew data).map fun e => m ++ [e])
    | _ => none
  zero := []

end IavlStore.Proto
