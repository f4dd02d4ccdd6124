import Rxrpl.Hash256

/-!
# Nodes of a SHAMap

`LeafNode`, `InnerNode`, `SHAMapNode` and the tagged store records of
`node_store.rs`. An inner node keeps for each of its 16 branches a hash, a bit of
the branch mask and a cell that holds the child once it has been loaded. Reference
counts are not modelled: a clone and its original are the same value.
-/

namespace Rxrpl

inductive LeafKind
  | accountState | transactionNoMeta | transactionWithMeta
  deriving DecidableEq

def LeafKind.content : LeafKind → Hash256 → Bytes → Bytes
  | .accountState, key, data => HashPrefix.leafNode.toBytes++(data++key.asBytes)
  | .transactionNoMeta, _, data => HashPrefix.transactionId.toBytes++data
  | .transactionWithMeta, key, data => HashPrefix.txNode.toBytes++(data++key.asBytes)

structure LeafNode (sha : Sha512Half) where
  kind : LeafKind
  key : Hash256
  data : Bytes
  hash : Hash256
  hash_eq : hash=sha (kind.content key data)

namespace LeafNode

variable {sha : Sha512Half}

/-- `LeafNode::account_state`, `transaction_no_meta` and `transaction_with_meta`. -/
def new (kind : LeafKind) (key : Hash256) (data : Bytes) : LeafNode sha :=
  ⟨kind,key,data,sha (kind.content key data),rfl⟩

def updateData (l : LeafNode sha) (data : Bytes) : LeafNode sha := new l.kind l.key data

@[simp] theorem new_kind (kind : LeafKind) (key : Hash256) (data : Bytes) :
    (new kind key data : LeafNode sha).kind=kind := rfl
@[simp] theorem new_data (kind : LeafKind) (key : Hash256) (data : Bytes) :
    (new kind key data : LeafNode sha).data=data := rfl
@[simp] theorem new_key (kind : LeafKind) (key : Hash256) (data : Bytes) :
    (new kind key data : LeafNode sha).key=key := rfl
@[simp] theorem updateData_new (kind : LeafKind) (key : Hash256) (data data' : Bytes) :
    (new kind key data : LeafNode sha).updateData data'=new kind key data' := rfl

end LeafNode

/-- The source's `InnerNode`, over the type of its loaded children. `isBranch b` is bit
`b` of the branch mask and `children b` the contents of the cell of branch `b`. -/
structure InnerNode (ν : Type) where
  hashes : Fin 16 → Hash256
  children : Fin 16 → Option ν
  isBranch : Fin 16 → Bool
  hash : Hash256

inductive SHAMapNode (sha : Sha512Half) where
  | inner (n : InnerNode (SHAMapNode sha))
  | leaf (l : LeafNode sha)

inductive SHAMapError
  | immutable | notFound | duplicateKey | missingStore | deserializeError
  | nodeNotFound (hash : Hash256)
  /-- Not an `Err` of the source: the call panicked, because the `u8` addition
  `depth + 1` overflowed or an `unreachable!` was reached. -/
  | panicked
  deriving DecidableEq

/-- The strings of the 16 child hashes, in branch order. -/
def childBytes (hashes : Fin 16 → Hash256) : Bytes := (List.finRange 16).flatMap fun b =>
    (hashes b).asBytes

def innerContent (hashes : Fin 16 → Hash256) : Bytes :=
    HashPrefix.innerNode.toBytes++childBytes hashes

namespace InnerNode

variable {sha : Sha512Half} {ν : Type}

def new : InnerNode ν := ⟨fun _ => .zero,fun _ => none,fun _ => false,.zero⟩

variable (n : InnerNode ν)

/-- The occupied branches in the order in which the mask loops visit them. -/
def branches : List (Fin 16) := (List.finRange 16).filter n.isBranch

/-- `branch_count`: the population count of the mask. -/
def branchCount : ℕ := n.branches.length

def singleBranch : Option (Fin 16) :=
  match n.branches with
  | [b] => some b
  | _ => none

def computeHash (sha : Sha512Half) (n : InnerNode ν) : Hash256 := sha (innerContent n.hashes)

/-- `InnerNode::hash`: the cached hash, recomputed if dirty. -/
def getHash (sha : Sha512Half) (n : InnerNode ν) : Hash256 :=
  if n.hash.isZero && n.branchCount != 0 then n.computeHash sha else n.hash

def updateHash (sha : Sha512Half) (n : InnerNode ν) : InnerNode ν :=
  if n.branchCount=0 then { n with hash := .zero } else { n with hash := n.computeHash sha }

def setChildHash (b : Fin 16) (h : Hash256) : InnerNode ν :=
  { n with hashes := Function.update n.hashes b h, isBranch := Function.update n.isBranch b true }

def setCachedHash (h : Hash256) : InnerNode ν := { n with hash := h }

/-- `take_child`: the child leaves the node and its branch is cleared. -/
def takeChild (b : Fin 16) : InnerNode ν × Option ν :=
  if n.isBranch b then
    ({ hashes := Function.update n.hashes b .zero
       children := Function.update n.children b none
       isBranch := Function.update n.isBranch b false
       hash := .zero },n.children b)
  else (n,none)

/-- `children[b].cell.set(node)`: the cell is written only once. -/
def fillCell (b : Fin 16) (x : ν) : InnerNode ν :=
  { n with children := Function.update n.children b (some ((n.children b).getD x)) }

end InnerNode

def SHAMapNode.hash {sha : Sha512Half} : SHAMapNode sha → Hash256
  | .inner n => n.getHash sha
  | .leaf l => l.hash

def InnerNode.setChild {sha : Sha512Half} (n : InnerNode (SHAMapNode sha)) (b : Fin 16)
    (x : SHAMapNode sha) : InnerNode (SHAMapNode sha) where
  hashes := Function.update n.hashes b x.hash
  children := Function.update n.children b (some x)
  isBranch := Function.update n.isBranch b true
  hash := .zero

/-! ## Store records -/

/-- `STORE_TAG_INNER` and `STORE_TAG_LEAF`. -/
def storeTagInner : UInt8 := 0x00

@[inherit_doc storeTagInner]
def storeTagLeaf : UInt8 := 0x01

def serializeInner (hashes : Fin 16 → Hash256) : Bytes := storeTagInner::childBytes hashes

def serializeLeaf (key : Hash256) (data : Bytes) : Bytes := storeTagLeaf::(key.asBytes++data)

/-- The 32 bytes of child `b` in the body of an inner record of full length. -/
def bodyHash (body : Bytes) (b : Fin 16) (h : body.length=16*32) : Hash256 :=
  ⟨(body.drop (b.val*32)).take 32,by have := b.isLt; simp; omega⟩

/-- The loop of `deserialize_node` over the 16 child hashes. -/
def loadChildHashes {ν : Type} (body : Bytes) (h : body.length=16*32) : InnerNode ν :=
  (List.finRange 16).foldl (fun n b =>
    if (bodyHash body b h).isZero then n else n.setChildHash b (bodyHash body b h)) .new

def deserializeNode {sha : Sha512Half} (kind : LeafKind) (bytes : Bytes) (hash : Hash256) :
    Except SHAMapError (SHAMapNode sha) :=
  match bytes with
  | [] => .error .deserializeError
  | tag::body =>
    if h : tag=storeTagInner ∧ body.length=16*32 then
      .ok (.inner ((loadChildHashes body h.2).setCachedHash hash))
    else if h : tag=storeTagLeaf ∧ 32 ≤ body.length then
      .ok (.leaf (.new kind ⟨body.take 32,by simp [h.2]⟩ (body.drop 32)))
    else .error .deserializeError

/-- The in-memory `NodeStore`: a map from hashes to records whose calls never fail. -/
abbrev NodeStore := Hash256 → Option Bytes

def NodeStore.storeBatch (s : NodeStore) (entries : List (Hash256 × Bytes)) : NodeStore :=
  entries.foldl (fun s e => Function.update s e.1 (some e.2)) s

/-- The common part of `child_with_store` and `ensure_loaded`: fetch the record of a
child that is not in memory and deserialize it. -/
def fetchNode {sha : Sha512Half} (store : Option NodeStore) (kind : LeafKind) (hash : Hash256) :
    Except SHAMapError (SHAMapNode sha) :=
  match store with
  | none => .error .missingStore
  | some s => match s hash with
    | none => .error (.nodeNotFound hash)
    | some bytes => deserializeNode kind bytes hash

namespace InnerNode

variable {sha : Sha512Half}

/-- `child_with_store`. The loaded cell is not written back: a read returns the same
node whether or not the cell remembers it. -/
def childWithStore (n : InnerNode (SHAMapNode sha)) (b : Fin 16) (store : Option NodeStore)
    (kind : LeafKind) : Except SHAMapError (Option (SHAMapNode sha)) :=
  if n.isBranch b then
    match n.children b with
    | some x => .ok (some x)
    | none => (fetchNode store kind (n.hashes b)).map some
  else .ok none

def ensureLoaded (n : InnerNode (SHAMapNode sha)) (b : Fin 16) (store : Option NodeStore)
    (kind : LeafKind) : Except SHAMapError (InnerNode (SHAMapNode sha)) :=
  if n.isBranch b then
    match n.children b with
    | some _ => .ok n
    | none => (fetchNode store kind (n.hashes b)).map (n.fillCell b)
  else .ok n

end InnerNode

end Rxrpl
