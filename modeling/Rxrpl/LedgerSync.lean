import Rxrpl.SHAMapStore
import Mathlib.Algebra.Group.Nat.Defs
import Mathlib.Data.Finset.Card

/-!
# Incremental ledger sync

The delta sync of `ledger_sync.rs` and the walk of `shamap.rs` that finds the nodes it
still needs. Peers send nodes in wire form; a node is decoded, hashed and filed in the
shared store, and the sync is complete when a walk from the target's root finds no node
missing. A memo that all syncs share has the subtrees seen whole.

The store is a part of the state of its own, and a map is rebuilt over it from the root
that the sync has loaded.
-/

namespace Rxrpl

/-! ## Wire nodes -/

/-- The 33-byte chunks of a compressed inner node, written into the array of child hashes. -/
def expandCompressed (payload : Bytes) : Option (Fin 16 → Hash256) :=
  ((List.range (payload.length/33)).map fun i => (payload.drop (i*33)).take 33).foldlM
    (fun full chunk =>
      if h : (chunk.getD 32 0).toNat < 16 then
        (Hash256.fromSlice (chunk.take 32)).map (Function.update full ⟨(chunk.getD 32 0).toNat,h⟩)
      else none) (fun _ => .zero)

/-- The type of a wire node, which is its last byte, and the payload that its hash is
computed from. -/
def wirePayload (nodeData : Bytes) : Option (HashPrefix × Bytes) :=
  if nodeData.length < 2 then none
  else
    let payload := nodeData.dropLast
    match nodeData.getLastD 0 with
    | 2 => if payload.length=16*32 then some (.innerNode,payload) else none
    | 3 => if payload=[] ∨ payload.length % 33≠0 then none
      else (expandCompressed payload).map fun full => (.innerNode,childBytes full)
    | 1 => if payload.length < 32 then none else some (.leafNode,payload)
    | 4 => if payload.length < 32 then none else some (.txNode,payload)
    | 0 => if payload=[] then none else some (.transactionId,payload)
    | _ => none

/-- `decode_wire_node`: the hash of a wire node and its store record. -/
def decodeWireNode (sha : Sha512Half) (nodeData : Bytes) : Option (Hash256 × Bytes) :=
  (wirePayload nodeData).map fun (p,payload) =>
    (sha (p.toBytes++payload),p.storeRecord sha payload)

/-! ## Missing nodes -/

structure NodeId where
  depth : ℕ
  id : Hash256
  deriving DecidableEq

def NodeId.root : NodeId := ⟨0,.zero⟩

/-- `NodeId::new`: the key cut off after `depth` nibbles. -/
def NodeId.new (depth : ℕ) (key : Hash256) : NodeId :=
  let depth := min depth 64
  ⟨depth,⟨(List.range 32).map fun i =>
    if i < depth/2 then key.asBytes.getD i 0
    else if depth % 2=1 ∧ i=depth/2 then key.asBytes.getD i 0 &&& (0xF0 : UInt8) else 0,by simp⟩⟩

structure MissingNode where
  hash : Hash256
  nodeId : NodeId
  deriving DecidableEq

/-- `child_key`: the path with the nibble at `depth` set. -/
def childKey (path : Hash256) (depth : ℕ) (branch : Fin 16) : Hash256 :=
  let byte : UInt8 := path.asBytes.getD (depth/2) 0
  let nibble : UInt8 := UInt8.ofNat branch.val
  ⟨path.asBytes.set (depth/2)
    (if depth % 2=0 then (byte &&& (0x0F : UInt8)) ||| (nibble <<< (4 : UInt8))
      else (byte &&& (0xF0 : UInt8)) ||| nibble),by simp⟩

/-- What `collect_missing` writes: the missing nodes found and the memo. -/
structure Walk where
  out : List MissingNode
  complete : Finset Hash256

def Walk.memoize (w : Walk) (hash : Hash256) : Walk := { w with complete := insert hash w.complete }

namespace SHAMap

variable {sha : Sha512Half}

/-- The child that `collect_missing` visits: from memory, or a store fetch that may find
nothing or an unreadable record. -/
def resolveChild (store : Option NodeStore) (kind : LeafKind) (n : InnerNode (SHAMapNode sha))
    (branch : Fin 16) : Option (Except SHAMapError (SHAMapNode sha)) :=
  match n.children branch with
  | some x => some (.ok x)
  | none => (store.bind fun s => s (n.hashes branch)).map fun data =>
    deserializeNode kind data (n.hashes branch)

/-- The body of the loop of `collect_missing` for one branch, over the recursive call:
the walk after it and whether the branch is whole. -/
def collectBranch (store : Option NodeStore) (kind : LeafKind)
    (descend : Hash256 → InnerNode (SHAMapNode sha) → Walk → Walk × Bool) (depth : ℕ)
    (path : Hash256) (n : InnerNode (SHAMapNode sha)) (b : Fin 16) (w : Walk) : Walk × Bool :=
  if n.hashes b∈w.complete then (w,true)
  else match resolveChild store kind n b with
    | some (.ok (.leaf _)) => (w.memoize (n.hashes b),true)
    | some (.ok (.inner i)) =>
      let (w,whole) := descend (childKey path depth b) i w
      (if whole then w.memoize (n.hashes b) else w,whole)
    | some (.error _) => (w,false)
    | none =>
      ({ w with out := w.out++[⟨n.hashes b,.new (depth+1) (childKey path depth b)⟩] },false)

/-- The loop of `collect_missing` over the branches of a node. -/
def collectBranches (maxCount : ℕ) (collect : Fin 16 → Walk → Walk × Bool) :
    List (Fin 16) → Bool → Walk → Walk × Bool
  | [], subtreeComplete, w => (w,subtreeComplete)
  | b::bs, subtreeComplete, w =>
    if maxCount ≤ w.out.length then (w,false)
    else
      let (w,whole) := collect b w
      collectBranches maxCount collect bs (subtreeComplete && whole) w

/-- `collect_missing`. The first argument is the number of depths left below 64; an inner
node at depth 64 is refused. -/
def collectMissing (store : Option NodeStore) (kind : LeafKind) (maxCount : ℕ) :
    ℕ → ℕ → Hash256 → InnerNode (SHAMapNode sha) → Walk → Walk × Bool
  | 0, _, _, _, w => (w,false)
  | left+1, depth, path, n, w =>
    collectBranches maxCount
      (collectBranch store kind (collectMissing store kind maxCount left (depth+1)) depth path n)
        n.branches true w

/-- `missing_nodes`: the missing nodes and the memo. -/
def missingNodes (m : SHAMap sha) (targetRootHash : Hash256) (maxCount : ℕ)
    (complete : Finset Hash256) : List MissingNode × Finset Hash256 :=
  if maxCount=0 then ([],complete)
  else if m.isEmpty then ([⟨targetRootHash,.root⟩],complete)
  else match m.root with
    | .inner n =>
      let (w,whole) := collectMissing m.store m.kind maxCount 64 0 .zero n ⟨[],complete⟩
      let w := if whole then w.memoize (n.getHash sha) else w
      (w.out,w.complete)
    | .leaf _ => ([],complete)

/-- The root of `syncing_with_store`: the stored root, or an empty one in its place. -/
def syncingRoot (sha : Sha512Half) (rootHash : Hash256) (store : NodeStore) : SHAMapNode sha :=
  match store rootHash with
  | none => .inner .new
  | some bytes => match deserializeNode .accountState bytes rootHash with
    | .ok node => node
    | .error _ => .inner .new

end SHAMap

/-- `add_raw_node` on the shared store: whether the node was new. -/
def NodeStore.addRawNode (s : NodeStore) (hash : Hash256) (data : Bytes) : NodeStore × Bool :=
  match s hash with
  | some _ => (s,false)
  | none => (s.storeBatch [(hash,data)],true)

/-! ## The syncer -/

inductive FeedResult
  | continue
  | complete (leaves : List (Bytes × Bytes))
  | fallbackToHashFetch (hashes : List Hash256)
  | removed

/-- The source's `IncrementalSync`; of its map the root is kept, the store is shared. -/
structure IncrementalSync (sha : Sha512Half) where
  hash : Hash256
  root : SHAMapNode sha
  rounds : ℕ
  zeroRounds : ℕ
  totalAdded : ℕ

namespace IncrementalSync

variable {sha : Sha512Half}

def map (e : IncrementalSync sha) (store : NodeStore) : SHAMap sha :=
    ⟨e.root,.syncing,.accountState,some store⟩

/-- `reload_root` with its error ignored, as both callers do. -/
def reloadRoot (e : IncrementalSync sha) (store : NodeStore) : IncrementalSync sha :=
  match store e.hash with
  | none => e
  | some bytes => match deserializeNode .accountState bytes e.hash with
    | .ok node => { e with root := node }
    | .error _ => e

end IncrementalSync

/-- The source's `LedgerSyncer` as far as delta sync goes, with the store that all calls
share. The table of active syncs is a list with at most one entry for a sequence. -/
structure LedgerSyncer (sha : Sha512Half) where
  store : NodeStore
  incremental : List (ℕ × IncrementalSync sha)
  syncedSeqs : Finset ℕ
  lifetimeAdded : ℕ
  complete : Finset Hash256

namespace LedgerSyncer

def maxDeltaNodesPerRequest : ℕ := 4096
def maxIncrementalRounds : ℕ := 50
def hashFallbackThreshold : ℕ := 5
def tipPreemptZeroRounds : ℕ := 8
def catchupPreemptZeroRounds : ℕ := 6
def stuckRemoveZeroRounds : ℕ := 20
def catchupStuckRemoveZeroRounds : ℕ := 16
def staleTargetLedgers : ℕ := 16

variable {sha : Sha512Half}

def new (store : NodeStore) : LedgerSyncer sha := ⟨store,[],∅,0,∅⟩

variable (s : LedgerSyncer sha)

variable (seq : ℕ)

def find : Option (IncrementalSync sha) := s.incremental.lookup seq

def remove : LedgerSyncer sha :=
  { s with incremental := s.incremental.filter (·.1 != seq) }

variable (e : IncrementalSync sha)

def insert : LedgerSyncer sha :=
  { s with incremental := (seq,e)::s.incremental.filter (·.1 != seq) }

def clear : LedgerSyncer sha :=
  { s with incremental := [], syncedSeqs := ∅, complete := ∅ }

def markSynced : LedgerSyncer sha :=
  let synced := Insert.insert seq s.syncedSeqs
  { s with syncedSeqs := if 100 < synced.card then synced.filter (seq - 50 ≤ ·) else synced }

/-- Whether a new sync for `seq` has to wait for the one that is active. -/
def mustWait (seq activeSeq : ℕ) : Bool :=
  let initialCatchup := s.syncedSeqs=∅
  let zeroRounds := ((s.find activeSeq).map IncrementalSync.zeroRounds).getD 0
  let preemptThreshold := if initialCatchup then catchupPreemptZeroRounds else tipPreemptZeroRounds
  let agedOut := initialCatchup ∧ staleTargetLedgers ≤ seq-activeSeq
  activeSeq < seq && (zeroRounds < preemptThreshold && !decide agedOut)

/-- The end of `start_incremental_sync`, once the slot for `seq` is free or its own. -/
def continueSync (hash : Hash256) :
    LedgerSyncer sha × List MissingNode :=
  let e := (s.find seq).getD ⟨hash,SHAMap.syncingRoot sha hash s.store,0,0,0⟩
  let e := { e with rounds := e.rounds+1 }
  if maxIncrementalRounds < e.rounds then (s.remove seq,[])
  else
    let (missing,complete) := (e.map s.store).missingNodes hash maxDeltaNodesPerRequest s.complete
    ({ s.insert seq e with complete := complete },missing)

def startIncrementalSync (hash : Hash256) :
    LedgerSyncer sha × List MissingNode :=
  if (s.find seq).isSome then s.continueSync seq hash
  else match (s.incremental.map Prod.fst).max? with
    | none => s.continueSync seq hash
    | some activeSeq =>
      if s.mustWait seq activeSeq then (s,[])
      else { s with incremental := [] }.continueSync seq hash

/-- The body of the loop of `feed_nodes` for one received node: the store and the count
of new nodes. A node that does not decode is passed over. -/
def addNode (sha : Sha512Half) (acc : NodeStore × ℕ) (nodeData : Bytes) : NodeStore × ℕ :=
  match decodeWireNode sha nodeData with
  | none => acc
  | some (hash,storageBytes) =>
    let (store,isNew) := acc.1.addRawNode hash storageBytes
    (store,if isNew then acc.2+1 else acc.2)

/-- The loop of `feed_nodes` over the received nodes. Their node ids are ignored. -/
def addNodes (sha : Sha512Half) (store : NodeStore) (nodes : List (Bytes × Bytes)) :
    NodeStore × ℕ :=
  nodes.foldl (fun acc node => addNode sha acc node.2) (store,0)

def extractLeaves (store : NodeStore) :
    Except SHAMapError (List (Bytes × Bytes)) :=
  (e.map store).forEach.map fun l => l.map fun (key,data) => (key.asBytes,data)

/-- The common end of `feed_nodes` and `try_complete_sync`: a sync whose root is there is
complete if and only if no node is missing; it then leaves the table with its leaves. -/
def finishSync :
    LedgerSyncer sha × Except SHAMapError (Option (List (Bytes × Bytes))) :=
  let s := s.insert seq e
  if (e.map s.store).isEmpty then (s,.ok none)
  else
    let (missing,complete) := (e.map s.store).missingNodes e.hash 1 s.complete
    let s := { s with complete := complete }
    if missing.isEmpty then (s.remove seq,(extractLeaves e s.store).map some)
    else (s,.ok none)

def finishFeed :
    LedgerSyncer sha × Except SHAMapError FeedResult :=
  let (s,result) := s.finishSync seq e
  (s,result.map fun leaves => leaves.elim .continue .complete)

def feedNothing
    (stuckRemoveThreshold : ℕ) : LedgerSyncer sha × Except SHAMapError FeedResult :=
  let e := { e with zeroRounds := e.zeroRounds+1 }
  if stuckRemoveThreshold < e.zeroRounds then (s.remove seq,.ok .removed)
  else if hashFallbackThreshold ≤ e.zeroRounds ∧ e.zeroRounds % hashFallbackThreshold=0 then
    let (missing,complete) :=
      (e.map s.store).missingNodes e.hash maxDeltaNodesPerRequest s.complete
    let s := { s with complete := complete }
    if missing.isEmpty then s.finishFeed seq e
    else (s.insert seq e,.ok (.fallbackToHashFetch (missing.map MissingNode.hash)))
  else s.finishFeed seq e

/-- `feed_nodes`. The counters wrap around as their machine types do. -/
def feedNodes (nodes : List (Bytes × Bytes)) :
    LedgerSyncer sha × Except SHAMapError FeedResult :=
  match s.find seq with
  | none => (s,.ok .removed)
  | some e =>
    let stuckRemoveThreshold :=
      if s.syncedSeqs=∅ then catchupStuckRemoveZeroRounds else stuckRemoveZeroRounds
    let (store,added) := addNodes sha s.store nodes
    let s := { s with store := store }
    if 0 < added then
      let e := { e with zeroRounds := 0, totalAdded := (e.totalAdded+added) % 2^32 }
      { s with lifetimeAdded := (s.lifetimeAdded+added) % 2^64 }.finishFeed seq (e.reloadRoot store)
    else s.feedNothing seq e stuckRemoveThreshold

def tryCompleteSync :
    LedgerSyncer sha × Except SHAMapError (Option (List (Bytes × Bytes))) :=
  match s.find seq with
  | none => (s,.ok none)
  | some e => s.finishSync seq (e.reloadRoot s.store)

def getMissingNodeIds : LedgerSyncer sha × List MissingNode :=
  match s.find seq with
  | none => (s,[])
  | some e =>
    let (missing,complete) :=
      (e.map s.store).missingNodes e.hash maxDeltaNodesPerRequest s.complete
    ({ s with complete := complete },missing)

/-! ## Runs -/

inductive Event
  | start (seq : ℕ) (hash : Hash256)
  | feed (seq : ℕ) (nodes : List (Bytes × Bytes))
  | tryComplete (seq : ℕ)
  | getMissing (seq : ℕ)
  | markSynced (seq : ℕ)
  | clear

def step : Event → LedgerSyncer sha
  | .start seq hash => (s.startIncrementalSync seq hash).1
  | .feed seq nodes => (s.feedNodes seq nodes).1
  | .tryComplete seq => (s.tryCompleteSync seq).1
  | .getMissing seq => (s.getMissingNodeIds seq).1
  | .markSynced seq => s.markSynced seq
  | .clear => s.clear

def run (events : List Event) : LedgerSyncer sha := events.foldl step s

end LedgerSyncer

end Rxrpl
