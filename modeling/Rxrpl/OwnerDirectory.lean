import Rxrpl.Sandbox

/-!
# Keys of ledger entries and owner directories

The keylets of `keylet/mod.rs` hash a namespace and the fields that identify an entry. An owner
directory is a chain of pages under the key of the account: the root is page zero, `IndexNext`
leads from page to page, and the `IndexPrevious` of the root is the last page. `dir_insert`
appends to the last page, `dir_remove_page_impl` takes an entry off its page and repairs the chain.
-/

namespace Rxrpl.Tx

open Codec (AccountId toBeBytes)

/-- The cryptographic functions that the engine takes from libraries. -/
structure Crypto where
  sha256 : Codec.Sha256
  sha512Half : Sha512Half
  accountIdFromPublicKey : Bytes → AccountId
  verifySignature : Json → Bool

/-! ## Keylets -/

inductive LedgerNamespace
  | account | dirNode | ownerDir | ticket | signerList | payChannel | escrow | hookDefinition
  | offer | nfTokenOffer | depositPreauth | did | skip | bridge | xchainClaimId
  | xchainCreateAccountClaimId
  deriving DecidableEq

def LedgerNamespace.code : LedgerNamespace → ℕ
  | .account => 0x61 | .dirNode => 0x64 | .ownerDir => 0x4F | .ticket => 0x54 | .signerList => 0x53
  | .payChannel => 0x78 | .escrow => 0x75 | .hookDefinition => 0x68 | .offer => 0x6F
  | .nfTokenOffer => 0x71 | .depositPreauth => 0x70 | .did => 0x49 | .skip => 0x73 | .bridge => 0x48
  | .xchainClaimId => 0x51 | .xchainCreateAccountClaimId => 0x4B

namespace Keylet

variable (crypto : Crypto)

def indexHash (space : LedgerNamespace) (data : Bytes) : Hash256 :=
  crypto.sha512Half (toBeBytes 2 space.code++data)

variable (id : AccountId)

def account : Hash256 := indexHash crypto .account id.asBytes

def ownerDir : Hash256 := indexHash crypto .ownerDir id.asBytes

/-- Page zero of a directory is its root. -/
def dirNode (root : Hash256) (page : ℕ) : Hash256 :=
  if page=0 then root else indexHash crypto .dirNode (root.asBytes++toBeBytes 8 page)

def ticket (seq : ℕ) : Hash256 :=
    indexHash crypto .ticket (id.asBytes++toBeBytes 4 seq)

def signerList : Hash256 :=
    indexHash crypto .signerList (id.asBytes++toBeBytes 4 0)

def payChannel (src dst : AccountId) (seq : ℕ) : Hash256 :=
  indexHash crypto .payChannel (src.asBytes++dst.asBytes++toBeBytes 4 seq)

def escrow (seq : ℕ) : Hash256 :=
    indexHash crypto .escrow (id.asBytes++toBeBytes 4 seq)

def hookDefinition (owner : AccountId) : Hash256 := indexHash crypto .hookDefinition owner.asBytes

end Keylet

/-! ## Directory pages -/

def maxEntriesPerPage : ℕ := 32

/-- `read_u64_field`: a link of a page, zero when it is absent. -/
def readU64Field (page : Json) (field : String) : ℕ :=
    ((strField page field).bind parseHexU64).getD 0

/-- `dir_page`: the keys that a page lists. -/
def dirPage (page : Json) : List String :=
  match (page.get "Indexes").bind Json.asArray with
  | some items => items.filterMap fun x => x.asStr.map upper
  | none => []

def indexesJson (indexes : List String) : Json := .arr (indexes.map Json.str)

def zeroHashText : String := hashText .zero

/-- `make_page`: a new page of `dir_insert`. -/
def makePage (root : Hash256) (thread : Bool) (describe extra : List (String × Json))
    (indexes : List String) : Json :=
  Json.object
    ([("LedgerEntryType",.str "DirectoryNode"),("Flags",.int 0),
    ("RootIndex",.str (hashText root))] ++
    (if thread then [("PreviousTxnID",.str zeroHashText)] else [])++describe++extra ++
    [("Indexes",indexesJson indexes)])

/-- `Vec::swap_remove`: the last element takes the free place. -/
def swapRemove {α : Type} (l : List α) (pos : ℕ) : List α :=
  match l.getLast? with
  | some x => (l.set pos x).dropLast
  | none => l

section

variable (crypto : Crypto) {below : ReadView}

open Keylet

/-- The last part of `dir_insert`: the last page is full and a new page is linked behind it. -/
def appendPage (root : Hash256) (entryHex : String) (describe : List (String × Json)) (lastPage : ℕ)
    (rootPage node : Json) : ViewM below ℕ :=
  let newPage := (lastPage+1) % 2^64
  (if lastPage=0 then
    ViewM.update root
      ((node.set "IndexNext" (.str (u64Hex newPage))).set "IndexPrevious" (.str (u64Hex newPage)))
  else
    ViewM.update (dirNode crypto root lastPage) (node.set "IndexNext" (.str (u64Hex newPage))) >>=
      fun _ =>
    ViewM.update root (rootPage.set "IndexPrevious" (.str (u64Hex newPage)))) >>= fun _ =>
  ViewM.threadDirectories >>= fun thread =>
  let extra := if newPage≠1 then [("IndexPrevious",.str (u64Hex ((newPage+2^64-1) % 2^64)))]
    else []
  ViewM.insert (dirNode crypto root newPage) (makePage root thread describe extra [entryHex]) >>=
    fun _ =>
  pure newPage

def readLastPage (root : Hash256) (lastPage : ℕ) (rootPage : Json) : ViewM below Json :=
  if lastPage=0 then pure rootPage else ViewM.readEntry (dirNode crypto root lastPage) .tefInternal

/-- `dir_insert`: the page that the entry landed in. -/
def dirInsert (root entry : Hash256) (sorted : Bool) (describe : List (String × Json)) :
    ViewM below ℕ :=
  let entryHex := hashText entry
  ViewM.read root >>= fun
  | none =>
    ViewM.threadDirectories >>= fun thread =>
    ViewM.insert root (makePage root thread describe [] [entryHex]) >>= fun _ => pure 0
  | some bytes =>
    ViewM.lift bytes.parse >>= fun rootPage =>
    let lastPage := readU64Field rootPage "IndexPrevious"
    readLastPage crypto root lastPage rootPage >>= fun node =>
    let indexes := dirPage node
    if entryHex∈indexes then pure lastPage
    else if indexes.length < maxEntriesPerPage then
      let indexes := indexes++[entryHex]
      let indexes := if sorted then indexes.insertionSort (· ≤ ·) else indexes
      ViewM.update (dirNode crypto root lastPage) (node.set "Indexes" (indexesJson indexes)) >>=
        fun _ =>
      pure lastPage
    else appendPage crypto root entryHex describe lastPage rootPage node

/-- `patch` in `relink`; the update of an entry that is there does not fail. -/
def patchLink (root : Hash256) (page : ℕ) (field : String) (val : ℕ) : ViewM below Unit :=
  ViewM.read (dirNode crypto root page) >>= fun
  | some (.json n) =>
    ViewM.update (dirNode crypto root page)
      (if val=0 ∧ page=0 then n.remove field else n.set field (.str (u64Hex val)))
  | _ => pure ()

def relink (root : Hash256) (prev next : ℕ) : ViewM below Unit :=
  patchLink crypto root prev "IndexNext" next >>= fun _ =>
    patchLink crypto root next "IndexPrevious" prev

def rootHasEntries (root : Option Data) : Bool :=
  match root with
  | some (.json page) => !(dirPage page).isEmpty
  | _ => false

/-- The end of `dir_remove_page_impl` for a page behind the root that became empty. -/
def dropPage (root : Hash256) (page : ℕ) (node : Json) (keepRoot : Bool) : ViewM below Unit :=
  let pageKey := dirNode crypto root page
  let next := readU64Field node "IndexNext"
  let prev := readU64Field node "IndexPrevious"
  ViewM.sortedDirectories >>= fun sorted =>
  if !sorted && next=0 then
    ViewM.read root >>= fun rootPage =>
    if keepRoot || prev≠0 || rootHasEntries rootPage then
      ViewM.update pageKey (node.set "Indexes" (indexesJson []))
    else
      ViewM.erase pageKey >>= fun _ => ViewM.erase root
  else
    relink crypto root prev next >>= fun _ =>
    ViewM.erase pageKey >>= fun _ =>
    if keepRoot then pure ()
    else
      ViewM.read root >>= fun
      | some (.json page) =>
        if (dirPage page).isEmpty && readU64Field page "IndexNext"=0 then ViewM.erase root
          else pure ()
      | _ => pure ()

def isBookPage (node : Json) : Bool :=
  (node.get "ExchangeRate").isSome || (node.get "TakerPaysCurrency").isSome ||
    (node.get "TakerGetsCurrency").isSome

/-- The keys of a page without the one at a position; the order is kept in a book and with sorted
directories. -/
def indexesWithout (sorted : Bool) (node : Json) (pos : ℕ) : List String :=
  if sorted || isBookPage node then (dirPage node).eraseIdx pos else swapRemove (dirPage node) pos

def dirRemovePageImpl (root : Hash256) (page : ℕ) (entry : Hash256) (keepRoot : Bool) :
    ViewM below Unit :=
  ViewM.read (dirNode crypto root page) >>= fun
  | none => pure ()
  | some bytes =>
    ViewM.lift bytes.parse >>= fun node =>
    match (dirPage node).idxOf? (hashText entry) with
    | none => pure ()
    | some pos =>
      ViewM.sortedDirectories >>= fun sorted =>
      let indexes := indexesWithout sorted node pos
      if indexes.isEmpty && page≠0 then dropPage crypto root page node keepRoot
      else if indexes.isEmpty && page=0 && readU64Field node "IndexNext"=0 && !keepRoot then
        ViewM.erase (dirNode crypto root page)
      else ViewM.update (dirNode crypto root page) (node.set "Indexes" (indexesJson indexes))

/-- The loop of `dir_remove`: the page that lists the entry. It visits a page number at most once
unless it runs for ever, so `2^64` turns are fuel enough. -/
def findPage (root : Hash256) (entryHex : String) : ℕ → ℕ → ViewM below (Option ℕ)
  | 0, _ => ViewM.fail .tefInternal
  | fuel+1, page =>
    ViewM.read (dirNode crypto root page) >>= fun
    | none => pure none
    | some bytes =>
      ViewM.lift bytes.parse >>= fun node =>
      if entryHex∈dirPage node then pure (some page)
      else if readU64Field node "IndexNext"=0 then pure none
      else findPage root entryHex fuel (readU64Field node "IndexNext")

/-- `dir_remove`, and `remove_from_owner_dir_keep_root` when the root is kept. -/
def dirRemove (root entry : Hash256) (keepRoot : Bool) : ViewM below Unit :=
  findPage crypto root (hashText entry) (2^64) 0 >>= fun
  | none => pure ()
  | some page => dirRemovePageImpl crypto root page entry keepRoot

def addToOwnerDir (id : AccountId) (entry : Hash256) : ViewM below ℕ :=
  ViewM.sortedDirectories >>= fun sorted =>
  dirInsert crypto (ownerDir crypto id) entry sorted
    [("Owner",.str (Codec.encodeAccountId crypto.sha256 id))]

def removeFromOwnerDir (id : AccountId) (entry : Hash256) : ViewM below Unit :=
  dirRemove crypto (ownerDir crypto id) entry false

def removeFromOwnerDirKeepRoot (id : AccountId) (entry : Hash256) : ViewM below Unit :=
  dirRemove crypto (ownerDir crypto id) entry true

def removeFromOwnerDirPage (id : AccountId) (page : ℕ) (entry : Hash256) : ViewM below Unit :=
  dirRemovePageImpl crypto (ownerDir crypto id) page entry false

/-- `collect_owner_dir_entries`. -/
def collectEntries (read : Hash256 → Option Data) (root : Hash256) : ℕ → ℕ → List String
  | 0, _ => []
  | fuel+1, page =>
    match read (dirNode crypto root page) with
    | some (.json node) =>
      if readU64Field node "IndexNext"=0 then dirPage node
      else dirPage node++collectEntries read root fuel (readU64Field node "IndexNext")
    | _ => []

def collectOwnerDirEntries (read : Hash256 → Option Data) (id : AccountId) : List String :=
  collectEntries crypto read (ownerDir crypto id) (2^64) 0

end

/-! ## Frames -/

section

variable (crypto : Crypto) {below : ReadView}

open Keylet ViewM

def pageKeys (root : Hash256) : Set Hash256 := dirNode crypto root '' {page | page < 2^64}

variable {page : ℕ} (root : Hash256)

theorem dirNode_mem (h : page < 2^64) : dirNode crypto root page∈pageKeys crypto root :=
    ⟨page,h,rfl⟩

theorem root_mem : root∈pageKeys crypto root := ⟨0,by simp,rfl⟩

theorem readU64Field_lt (page : Json) (field : String) : readU64Field page field < 2^64 := by
  unfold readU64Field
  cases h : (strField page field).bind parseHexU64 with
  | none => simp
  | some n =>
    obtain ⟨t,-,ht⟩ := Option.bind_eq_some_iff.mp h
    exact parseHexU64_lt ht

theorem frame_appendPage (entryHex : String) (describe : List (String × Json)) {lastPage : ℕ}
    (hlast : lastPage < 2^64) (rootPage node : Json) :
    Frame (pageKeys crypto root)
      (appendPage crypto root entryHex describe lastPage rootPage node : ViewM below ℕ) := by
  refine frame_bind ?_ fun _ => frame_bind frame_threadDirectories fun _ =>
    frame_bind (frame_insert (dirNode_mem crypto root (Nat.mod_lt _ (by simp))) _) fun _ =>
      frame_pure _
  split
  · exact frame_update (root_mem crypto root) _
  · exact frame_bind (frame_update (dirNode_mem crypto root hlast) _) fun _ =>
      frame_update (root_mem crypto root) _

theorem frame_dirInsert (root entry : Hash256) (sorted : Bool) (describe : List (String × Json)) :
    Frame (pageKeys crypto root) (dirInsert crypto root entry sorted describe : ViewM below ℕ) := by
  refine frame_bind (frame_read _) fun bytes => ?_
  cases bytes with
  | none =>
    exact frame_bind frame_threadDirectories fun _ =>
      frame_bind (frame_insert (root_mem crypto root) _) fun _ => frame_pure _
  | some bytes =>
    refine frame_bind (frame_lift _) fun rootPage => ?_
    have hlast := readU64Field_lt rootPage "IndexPrevious"
    refine frame_bind ?_ fun node => ?_
    · unfold readLastPage
      split
      · exact frame_pure _
      · exact frame_readEntry _ _
    · dsimp only
      split
      · exact frame_pure _
      · split
        · exact frame_bind (frame_update (dirNode_mem crypto root hlast) _) fun _ => frame_pure _
        · exact frame_appendPage crypto root _ _ hlast _ _

theorem frame_patchLink (hpage : page < 2^64) (field : String) (val : ℕ) :
    Frame (pageKeys crypto root) (patchLink crypto root page field val : ViewM below Unit) := by
  refine frame_bind (frame_read _) fun bytes => ?_
  split
  · exact frame_update (dirNode_mem crypto root hpage) _
  · exact frame_pure _

theorem frame_dropPage (hpage : page < 2^64) (node : Json) (keepRoot : Bool) :
    Frame (pageKeys crypto root) (dropPage crypto root page node keepRoot : ViewM below Unit) := by
  have hkey := dirNode_mem crypto root hpage
  have hroot := root_mem crypto root
  have hlink : ∀ field, readU64Field node field < 2^64 := readU64Field_lt node
  refine frame_bind frame_sortedDirectories fun sorted => ?_
  split
  · refine frame_bind (frame_read _) fun _ => ?_
    split
    · exact frame_update hkey _
    · exact frame_bind (frame_erase hkey) fun _ => frame_erase hroot
  · refine frame_bind (frame_bind (frame_patchLink crypto root (hlink _) _ _) fun _ =>
      frame_patchLink crypto root (hlink _) _ _) fun _ => frame_bind (frame_erase hkey) fun _ => ?_
    split
    · exact frame_pure _
    refine frame_bind (frame_read _) fun bytes => ?_
    split
    · split
      · exact frame_erase hroot
      · exact frame_pure _
    · exact frame_pure _

theorem frame_dirRemovePageImpl (hpage : page < 2^64) (entry : Hash256) (keepRoot : Bool) :
    Frame (pageKeys crypto root)
      (dirRemovePageImpl crypto root page entry keepRoot : ViewM below Unit) := by
  have hkey := dirNode_mem crypto root hpage
  refine frame_bind (frame_read _) fun bytes => ?_
  cases bytes with
  | none => exact frame_pure _
  | some bytes =>
    refine frame_bind (frame_lift _) fun node => ?_
    dsimp only
    split
    · exact frame_pure _
    refine frame_bind frame_sortedDirectories fun sorted => ?_
    split
    · exact frame_dropPage crypto root hpage _ _
    · split
      · exact frame_erase hkey
      · exact frame_update hkey _

/-- The search only reads, and it ends on a page whose number it has read. -/
theorem findPage_spec {root : Hash256} {entryHex : String} {fuel : ℕ} {s s' : Sandbox below}
    {found : Option ℕ} (h : findPage crypto root entryHex fuel page s=.ok (found,s')) :
    s'=s ∧ ∀ p, found=some p → page < 2^64 → p < 2^64 := by
  induction fuel generalizing page with
  | zero => exact (fail_eq_ok.mp h).elim
  | succ fuel ih =>
    obtain ⟨bytes,s₁,hread,h⟩ := bind_eq_ok.mp h
    obtain ⟨-,rfl⟩ := read_eq_ok.mp hread
    cases bytes with
    | none =>
      obtain ⟨rfl,rfl⟩ := pure_eq_ok.mp h
      exact ⟨rfl,fun p hp => nomatch hp⟩
    | some bytes =>
      obtain ⟨node,s₂,hparse,h⟩ := bind_eq_ok.mp h
      obtain ⟨-,rfl⟩ := lift_eq_ok.mp hparse
      split at h
      · obtain ⟨rfl,rfl⟩ := pure_eq_ok.mp h
        exact ⟨rfl,fun p hp hpage => by cases hp; exact hpage⟩
      split at h
      · obtain ⟨rfl,rfl⟩ := pure_eq_ok.mp h
        exact ⟨rfl,fun p hp => nomatch hp⟩
      · obtain ⟨hs,hp⟩ := ih h
        exact ⟨hs,fun p hfound _ => hp p hfound (readU64Field_lt node "IndexNext")⟩

theorem frame_dirRemove (root entry : Hash256) (keepRoot : Bool) :
    Frame (pageKeys crypto root) (dirRemove crypto root entry keepRoot : ViewM below Unit) := by
  refine frame_bind_of (frame_same fun s a s' h => (findPage_spec crypto h).1) fun s page s' h => ?_
  cases page with
  | none => exact frame_pure _
  | some page =>
    exact frame_dirRemovePageImpl crypto root ((findPage_spec crypto h).2 page rfl (by simp)) _ _

def ownerPages : Set Hash256 := {k | ∃ id, k∈pageKeys crypto (ownerDir crypto id)}

theorem pageKeys_subset_ownerPages (id : AccountId) :
    pageKeys crypto (ownerDir crypto id)⊆ownerPages crypto :=
  fun _ hk => ⟨id,hk⟩

theorem frame_addToOwnerDir (id : AccountId) (entry : Hash256) :
    Frame (pageKeys crypto (ownerDir crypto id)) (addToOwnerDir crypto id entry : ViewM below ℕ) :=
  frame_bind frame_sortedDirectories fun _ => frame_dirInsert crypto _ _ _ _

end

/-! ## Sequences and tickets -/

def decrementTicketCount (account : Json) : Json :=
  match u64Field account "TicketCount" with
  | none => account
  | some count =>
    if count ≤ 1 then account.remove "TicketCount"
      else account.set "TicketCount" (.int (count-1 : ℕ))

/-- The page that a ticket says it is listed on. -/
def ticketPage (ticket : Data) : Option ℕ :=
  ticket.fromSlice.bind fun t => (strField t "OwnerNode").bind parseHexU64

/-- The removal of a spent ticket from its directory, by the page that it names or by a search. -/
def unlinkTicket (crypto : Crypto) {below : ReadView} (id : AccountId) (ticketKey : Hash256)
    (ticket : Data) : ViewM below Unit :=
  match ticketPage ticket with
  | some page => removeFromOwnerDirPage crypto id page ticketKey
  | none => removeFromOwnerDir crypto id ticketKey

/-- `consume_seq_or_ticket`, with the account root that it returns. -/
def consumeSeqOrTicket (crypto : Crypto) {below : ReadView} (id : AccountId) (account tx : Json) :
    ViewM below Json :=
  match u64Field tx "TicketSequence" with
  | some ticketSeq =>
    let ticketKey := Keylet.ticket crypto id (ticketSeq % 2^32)
    ViewM.read ticketKey >>= fun
    | none => ViewM.fail .tefNoTicket
    | some bytes =>
      unlinkTicket crypto id ticketKey bytes >>= fun _ =>
      ViewM.erase ticketKey >>= fun _ =>
      pure (decrementTicketCount (adjustOwnerCount account (-1)))
  | none => pure (incrementSequence account)

theorem ticketPage_lt {ticket : Data} {page : ℕ} (h : ticketPage ticket=some page) :
    page < 2^64 := by
  obtain ⟨t,-,ht⟩ := Option.bind_eq_some_iff.mp h
  obtain ⟨n,-,hn⟩ := Option.bind_eq_some_iff.mp ht
  exact parseHexU64_lt hn

theorem frame_unlinkTicket (crypto : Crypto) {below : ReadView} (id : AccountId)
    (ticketKey : Hash256) (ticket : Data) :
    ViewM.Frame (pageKeys crypto (Keylet.ownerDir crypto id))
      (unlinkTicket crypto id ticketKey ticket : ViewM below Unit) := by
  unfold unlinkTicket
  split
  · rename_i page h
    exact frame_dirRemovePageImpl crypto _ (ticketPage_lt h) _ _
  · exact frame_dirRemove crypto _ _ _

end Rxrpl.Tx
