import Rxrpl.SHAMapNodes

/-!
# Operations of a SHAMap

The recursive helpers of `shamap.rs`. A mutating helper returns the node as it is
left behind together with its result, since an error does not undo what happened
before it: every helper takes the child out of its parent before it descends.

The argument `fuel` of a helper that carries a `depth` counts the depths left in a
`u8`, so that running out of it is the overflow of `depth + 1`.
-/

namespace Rxrpl

variable {sha : Sha512Half}

namespace SHAMap

def findLeaf (store : Option NodeStore) (kind : LeafKind) (key : Hash256) :
    ℕ → ℕ → InnerNode (SHAMapNode sha) → Except SHAMapError (Option (LeafNode sha))
  | 0, _, _ => .error .panicked
  | fuel+1, depth, n =>
    match n.childWithStore (selectBranch key depth) store kind with
    | .ok (some (.leaf l)) => .ok (if l.key=key then some l else none)
    | .ok (some (.inner i)) => findLeaf store kind key fuel (depth+1) i
    | _ => .ok none

/-- `split_leaves`: inner nodes down to the first nibble at which the keys differ. -/
def splitLeaves (a b : LeafNode sha) : ℕ → ℕ → Except SHAMapError (InnerNode (SHAMapNode sha))
  | 0, _ => .error .panicked
  | fuel+1, depth =>
    let branchA := selectBranch a.key depth
    let branchB := selectBranch b.key depth
    if branchA=branchB then
      match splitLeaves a b fuel (depth+1) with
      | .error e => .error e
      | .ok deeper => .ok (InnerNode.new.setChild branchA (.inner deeper))
    else .ok ((InnerNode.new.setChild branchA (.leaf a)).setChild branchB (.leaf b))

/-- `insert_into_existing`, over the recursive call on an inner child. The error of that
call is passed on before the child is put back. -/
def insertIntoExisting
    (descend : InnerNode (SHAMapNode sha) → InnerNode (SHAMapNode sha) × Except SHAMapError Unit)
    (n : InnerNode (SHAMapNode sha)) (branch : Fin 16) (key : Hash256) (leaf : LeafNode sha)
    (fuel depth : ℕ) :
    SHAMapNode sha → InnerNode (SHAMapNode sha) × Except SHAMapError Unit
  | .leaf existing =>
    if existing.key=key then (n.setChild branch (.leaf existing),.error .duplicateKey)
    else match splitLeaves existing leaf fuel (depth+1) with
      | .error e => (n,.error e)
      | .ok i => (n.setChild branch (.inner i),.ok ())
  | .inner i => match descend i with
    | (_,.error e) => (n,.error e)
    | (i',.ok ()) => (n.setChild branch (.inner i'),.ok ())

def insertLeaf (store : Option NodeStore) (kind : LeafKind) (key : Hash256) (leaf : LeafNode sha) :
    ℕ → ℕ → InnerNode (SHAMapNode sha) → InnerNode (SHAMapNode sha) × Except SHAMapError Unit
  | 0, _, n => (n,.error .panicked)
  | fuel+1, depth, n =>
    let branch := selectBranch key depth
    if n.isBranch branch then
      match n.ensureLoaded branch store kind with
      | .error e => (n,.error e)
      | .ok n =>
        match n.takeChild branch with
        | (n,some existing) =>
          insertIntoExisting (insertLeaf store kind key leaf fuel (depth+1)) n branch key
            leaf fuel depth existing
        | (n,none) => (n,.ok ())
    else (n.setChild branch (.leaf leaf),.ok ())

def putLeaf (store : Option NodeStore) (kind : LeafKind) (key : Hash256) (leaf : LeafNode sha) :
    ℕ → ℕ → InnerNode (SHAMapNode sha) → InnerNode (SHAMapNode sha) × Except SHAMapError Unit
  | 0, _, n => (n,.error .panicked)
  | fuel+1, depth, n =>
    let branch := selectBranch key depth
    if n.isBranch branch then
      match n.ensureLoaded branch store kind with
      | .error e => (n,.error e)
      | .ok n =>
        match n.takeChild branch with
        | (n,some (.leaf existing)) =>
          if existing.key=key then (n.setChild branch (.leaf leaf),.ok ())
          else match splitLeaves existing leaf fuel (depth+1) with
            | .error e => (n,.error e)
            | .ok i => (n.setChild branch (.inner i),.ok ())
        | (n,some (.inner i)) => match putLeaf store kind key leaf fuel (depth+1) i with
          | (_,.error e) => (n,.error e)
          | (i,.ok ()) => (n.setChild branch (.inner i),.ok ())
        | (n,none) => (n,.ok ())
    else (n.setChild branch (.leaf leaf),.ok ())

/-- The end of `delete_from` after the key has been removed below the child `i` of
`branch`: an empty child is dropped, a child over a single leaf is replaced by the leaf. -/
def reattach (store : Option NodeStore) (kind : LeafKind) (n : InnerNode (SHAMapNode sha))
    (branch : Fin 16) (data : Bytes) (i : InnerNode (SHAMapNode sha)) :
      InnerNode (SHAMapNode sha) × Except SHAMapError Bytes :=
  if i.branchCount=0 then (n,.ok data)
  else match i.singleBranch with
    | some single => match i.ensureLoaded single store kind with
      | .error e => (n,.error e)
      | .ok i => match i.takeChild single with
        | (_,some (.leaf l)) => (n.setChild branch (.leaf l),.ok data)
        | (i,some (.inner child)) =>
          (n.setChild branch (.inner (i.setChild single (.inner child))),.ok data)
        | (_,none) => (n,.ok data)
    | none => (n.setChild branch (.inner i),.ok data)

/-- `delete_from`. The error of the recursive call is passed on after the child has
been put back. -/
def deleteFrom (store : Option NodeStore) (kind : LeafKind) (key : Hash256) :
    ℕ → ℕ → InnerNode (SHAMapNode sha) → InnerNode (SHAMapNode sha) × Except SHAMapError Bytes
  | 0, _, n => (n,.error .panicked)
  | fuel+1, depth, n =>
    let branch := selectBranch key depth
    if n.isBranch branch then
      match n.ensureLoaded branch store kind with
      | .error e => (n,.error e)
      | .ok n =>
        match n.takeChild branch with
        | (n,some (.leaf l)) =>
          if l.key=key then (n,.ok l.data) else (n.setChild branch (.leaf l),.error .notFound)
        | (n,some (.inner i)) => match deleteFrom store kind key fuel (depth+1) i with
          | (i,.error e) => (n.setChild branch (.inner i),.error e)
          | (i,.ok data) => reattach store kind n branch data i
        | (n,none) => (n,.error .notFound)
    else (n,.error .notFound)

def updateIn (store : Option NodeStore) (kind : LeafKind) (key : Hash256) (data : Bytes) :
    ℕ → ℕ → InnerNode (SHAMapNode sha) → InnerNode (SHAMapNode sha) × Except SHAMapError Unit
  | 0, _, n => (n,.error .panicked)
  | fuel+1, depth, n =>
    let branch := selectBranch key depth
    if n.isBranch branch then
      match n.ensureLoaded branch store kind with
      | .error e => (n,.error e)
      | .ok n =>
        match n.takeChild branch with
        | (n,some (.leaf l)) =>
          if l.key=key then (n.setChild branch (.leaf (l.updateData data)),.ok ())
          else (n.setChild branch (.leaf l),.error .notFound)
        | (n,some (.inner i)) =>
          let result := updateIn store kind key data fuel (depth+1) i
          (n.setChild branch (.inner result.1),result.2)
        | (n,none) => (n,.error .notFound)
    else (n,.error .notFound)

/-- The body of `visit` for one branch, over the recursive call on an inner child. A
branch that cannot be resolved is passed over. -/
def visitChild
    (descend : InnerNode (SHAMapNode sha) → Except SHAMapError (List (Hash256 × Bytes))) :
    Except SHAMapError (Option (SHAMapNode sha)) → Except SHAMapError (List (Hash256 × Bytes))
  | .ok (some (.leaf l)) => .ok [(l.key,l.data)]
  | .ok (some (.inner i)) => descend i
  | _ => .ok []

/-- `visit`, the walk of `for_each`. The source bounds it by nothing; here more than
`fuel` levels are an error, never a shortened answer. -/
def visit (store : Option NodeStore) (kind : LeafKind) :
    ℕ → InnerNode (SHAMapNode sha) → Except SHAMapError (List (Hash256 × Bytes))
  | 0, _ => .error .panicked
  | fuel+1, n => do
    let parts ← n.branches.mapM fun b =>
      visitChild (visit store kind fuel) (n.childWithStore b store kind)
    return parts.flatten

/-- One turn of the loop in `SHAMapIter::next`: the new stack and the leaf it returns. -/
def iterStep (store : Option NodeStore) (kind : LeafKind) :
    List (SHAMapNode sha × ℕ) → List (SHAMapNode sha × ℕ) × Option (Hash256 × Bytes)
  | [] => ([],none)
  | (.leaf l,_)::rest => (rest,some (l.key,l.data))
  | (.inner n,branch)::rest =>
    match (List.finRange 16).find? (fun b => branch ≤ b.val && n.isBranch b) with
    | none => (rest,none)
    | some b => match n.childWithStore b store kind with
      | .ok (some child) => ((child,0)::(.inner n,b.val+1)::rest,none)
      | _ => ((.inner n,b.val+1)::rest,none)

/-- All items of the iterator, run for at most `fuel` turns of its loop. -/
def iterCollect (store : Option NodeStore) (kind : LeafKind) :
    ℕ → List (SHAMapNode sha × ℕ) → Except SHAMapError (List (Hash256 × Bytes))
  | _, [] => .ok []
  | 0, _::_ => .error .panicked
  | fuel+1, frame::rest =>
    let next := iterStep store kind (frame::rest)
    (iterCollect store kind fuel next.1).map (next.2.toList ++ ·)

mutual
/-- `update_hashes`. The walk skips a child whose `Arc` is shared with another map;
`owned` tells for the path of a node whether `Arc::get_mut` succeeds on it. -/
def updateHashes (owned : List (Fin 16) → Bool) : SHAMapNode sha → SHAMapNode sha
  | .leaf l => .leaf l
  | .inner ⟨hashes,children,isBranch,hash⟩ => .inner <| InnerNode.updateHash sha
      ⟨hashes,fun b => if isBranch b && owned [b] then updateCell (fun p => owned (b::p))
        (children b)
        else children b,isBranch,hash⟩
def updateCell (owned : List (Fin 16) → Bool) : Option (SHAMapNode sha) → Option (SHAMapNode sha)
  | none => none
  | some x => some (updateHashes owned x)
end

mutual
/-- `collect_dirty_nodes`: the records of all nodes in memory. -/
def collectDirtyNodes : SHAMapNode sha → List (Hash256 × Bytes)
  | .leaf l => [(l.hash,serializeLeaf l.key l.data)]
  | .inner ⟨hashes,children,isBranch,hash⟩ =>
    let h := InnerNode.getHash sha (⟨hashes,children,isBranch,hash⟩ : InnerNode (SHAMapNode sha))
    (if h.isZero then [] else [(h,serializeInner hashes)]) ++
      ((List.finRange 16).filter isBranch).flatMap fun b => collectCell (children b)
def collectCell : Option (SHAMapNode sha) → List (Hash256 × Bytes)
  | none => []
  | some x => collectDirtyNodes x
end

end SHAMap

/-! ## The map -/

inductive SHAMapState
  | modifying | immutable | syncing | invalid
  deriving DecidableEq

/-- The source's `SHAMap`; `kind` stands for its leaf constructor. -/
structure SHAMap (sha : Sha512Half) where
  root : SHAMapNode sha
  state : SHAMapState
  kind : LeafKind
  store : Option NodeStore

namespace SHAMap

/-- `SHAMap::account_state`, `transaction`, `transaction_with_meta`, and the same with a
backing store. -/
def new (kind : LeafKind) (store : Option NodeStore) : SHAMap sha :=
    ⟨.inner .new,.modifying,kind,store⟩

/-- The frame of every mutating call: `check_mutable`, then the helper on the root. -/
def mutate {α : Type} (m : SHAMap sha)
    (f : InnerNode (SHAMapNode sha) → InnerNode (SHAMapNode sha) × Except SHAMapError α) :
    SHAMap sha × Except SHAMapError α :=
  if m.state=.immutable then (m,.error .immutable)
  else match m.root with
    | .inner n => ({ m with root := .inner (f n).1 },(f n).2)
    | .leaf _ => (m,.error .panicked)

variable (m : SHAMap sha)

def insert (key : Hash256) (data : Bytes) : SHAMap sha × Except SHAMapError Unit :=
  m.mutate (insertLeaf m.store m.kind key (.new m.kind key data) 256 0)

def put (key : Hash256) (data : Bytes) : SHAMap sha × Except SHAMapError Unit :=
  m.mutate (putLeaf m.store m.kind key (.new m.kind key data) 256 0)

def update (key : Hash256) (data : Bytes) : SHAMap sha × Except SHAMapError Unit :=
  m.mutate (updateIn m.store m.kind key data 256 0)

def delete (key : Hash256) : SHAMap sha × Except SHAMapError Bytes :=
  m.mutate (deleteFrom m.store m.kind key 256 0)

def get (key : Hash256) : Except SHAMapError (Option Bytes) :=
  match m.root with
  | .inner n => (findLeaf m.store m.kind key 256 0 n).map (Option.map LeafNode.data)
  | .leaf l => .ok (if l.key=key then some l.data else none)

def isEmpty : Bool :=
  match m.root with
  | .inner n => n.branchCount == 0
  | .leaf _ => false

/-- `SHAMap::for_each`, as the list of the visited leaves. -/
def forEach : Except SHAMapError (List (Hash256 × Bytes)) :=
  match m.root with
  | .inner n => visit m.store m.kind 256 n
  | .leaf l => .ok [(l.key,l.data)]

/-- The items of `SHAMap::iter`, run for at most `fuel` turns of its loop. -/
def iter (fuel : ℕ) : Except SHAMapError (List (Hash256 × Bytes)) :=
  iterCollect m.store m.kind fuel [(m.root,0)]

/-- `SHAMap::root_hash`: the map with its hashes brought up to date and the hash of its root. -/
def rootHash (owned : List (Fin 16) → Bool) : SHAMap sha × Hash256 :=
  let root := updateHashes owned m.root
  ({ m with root := root },root.hash)

def flush (owned : List (Fin 16) → Bool) : SHAMap sha × Hash256 :=
  let root := updateHashes owned m.root
  ({ m with root := root, store := m.store.map (·.storeBatch (collectDirtyNodes root)) },root.hash)

def fromRootHash (rootHash : Hash256) (kind : LeafKind) (store : NodeStore) :
    Except SHAMapError (SHAMap sha) :=
  match store rootHash with
  | none => .error (.nodeNotFound rootHash)
  | some bytes => (deserializeNode kind bytes rootHash).map fun root =>
    ⟨root,.modifying,kind,some store⟩

end SHAMap

end Rxrpl
