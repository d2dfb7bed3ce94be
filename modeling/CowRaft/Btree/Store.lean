import CowRaft.Btree.Page

/-!
# The store (`storage/store.rs`)

A store is a backend together with the published root, the number of read guards held, and the
writer's bookkeeping: the bump allocator's mark, the reusable pages, the pages waiting for readers
to leave, and the pages of the free-list chain. A write transaction buffers its page writes; a
commit performs them, folds the freed pages in, passes the reader gate, rewrites the chain and the
header, and publishes the root. `none` stands for a panic, or for a loop that does not end.

The steps of a commit are definitions of their own (`foldFrees`, `passGate`, `persistFreeList`), so
that a run can stop between them.
-/

namespace CowRaft.Btree

open Bytes

def INITIAL_ROOT_PAGE_ID : PageId := 1

inductive OpenError
  | pageSizeMismatch (requested persisted : ℕ)
  | versionMismatch (found expected : ℕ)
  deriving DecidableEq

structure WriterState where
  nextPageId : ℕ
  freeList : List PageId
  pendingFree : List PageId
  freeListPageIds : List PageId
  deriving DecidableEq

structure Store where
  io : PageIo
  root : PageId
  readers : ℕ
  writer : WriterState

/-- `load_free_list_chain`: the free list, and the pages that hold it. The walk is cut off after
`fuel` pages. -/
def loadFreeListChain (io : PageIo) : ℕ → PageId → Option (List PageId × List PageId)
  | 0, cur => if cur = 0 then some ([], []) else none
  | fuel + 1, cur =>
    if cur = 0 then some ([], [])
    else do
      let (next, entries) ← freeListDecode cur (io.readPage cur)
      let (freeList, pageIds) ← loadFreeListChain io fuel next
      some (entries ++ freeList, cur :: pageIds)

namespace Store

/-- The end of `open_or_create`. The chain of a store has fewer pages than `next_page_id`, so that
the walk is allowed one page more. -/
def ofHeader (io : PageIo) (h : Header) : Option Store := do
  let (freeList, freeListPageIds) ← loadFreeListChain io (h.nextPageId + 1) h.freeListHead
  some ⟨io, h.rootId, 0, ⟨h.nextPageId, freeList, [], freeListPageIds⟩⟩

def openOrCreate (io : PageIo) : Option (Except OpenError Store) := do
  match ← Header.fromBytes (io.readPage HEADER_PAGE_ID) with
  | .ok h =>
    if h.pageSize = io.pageSize then (ofHeader io h).map .ok
    else some (.error (.pageSizeMismatch io.pageSize h.pageSize))
  | .error (.versionMismatch found expected) => some (.error (.versionMismatch found expected))
  | .error .notAHeader =>
    let root ← LeafNode.empty.toBytes INITIAL_ROOT_PAGE_ID io.pageSize
    let io := io.writePage INITIAL_ROOT_PAGE_ID root
    let h := Header.new io.pageSize INITIAL_ROOT_PAGE_ID (INITIAL_ROOT_PAGE_ID + 1)
    let bytes ← h.toBytes io.pageSize
    (ofHeader (io.writePage HEADER_PAGE_ID bytes) h).map .ok

/-- `enter_read`: the new guard is counted. -/
def enterRead (st : Store) : Store := { st with readers := st.readers + 1 }

/-- `Drop for ReadGuard`. -/
def dropGuard (st : Store) : Store := { st with readers := st.readers - 1 }

end Store

/-! ## Write transactions -/

/-- A write transaction; the mutex guard is the `writer` field of the store it holds. -/
structure WriteTxn where
  store : Store
  writes : List (PageId × Bytes)
  freed : List PageId
  baseRoot : PageId

def Store.beginWrite (st : Store) : WriteTxn := ⟨st, [], [], st.root⟩

/-- The writer's side of `alloc`: a page of the free list, else the next fresh one. -/
def WriterState.alloc (w : WriterState) : PageId × WriterState :=
  match w.freeList.getLast? with
  | some id => (id, { w with freeList := w.freeList.dropLast })
  | none => (w.nextPageId, { w with nextPageId := w.nextPageId + 1 })

namespace WriteTxn

def pageSize (txn : WriteTxn) : ℕ := txn.store.io.pageSize

def root (txn : WriteTxn) : PageId := txn.baseRoot

/-- `read`: the transaction's own writes first. -/
def read (txn : WriteTxn) (id : PageId) : Option Page :=
  match txn.writes.reverse.find? fun w => w.1 = id with
  | some (_, bytes) => Page.decode id bytes
  | none => Page.decode id (txn.store.io.readPage id)

def alloc (txn : WriteTxn) : PageId × WriteTxn :=
  let (id, writer) := txn.store.writer.alloc
  (id, { txn with store := { txn.store with writer } })

def write (txn : WriteTxn) (id : PageId) (page : Page) : Option WriteTxn := do
  let bytes ← page.toBytes id txn.pageSize
  some { txn with writes := txn.writes ++ [(id, bytes)] }

def free (txn : WriteTxn) (id : PageId) : WriteTxn := { txn with freed := txn.freed ++ [id] }

/-- `let id = txn.alloc(); txn.write(id, page);` -/
def allocWrite (txn : WriteTxn) (page : Page) : Option (PageId × WriteTxn) :=
  (txn.alloc.2.write txn.alloc.1 page).map fun txn' => (txn.alloc.1, txn')

end WriteTxn

/-! ## Commit -/

namespace WriterState

/-- Step 2 of a commit: the transaction's frees are folded into `pending_free`. -/
def foldFrees (w : WriterState) (freed : List PageId) : WriterState :=
  { w with pendingFree := w.pendingFree ++ freed }

/-- `pending_free` is promoted into the free list. -/
def promote (w : WriterState) : WriterState :=
  { w with freeList := w.freeList ++ w.pendingFree, pendingFree := [] }

/-- Step 3 of a commit: the gate on the number of readers. -/
def passGate (w : WriterState) (readers : ℕ) : WriterState :=
  if readers = 0 then w.promote else w

/-- What the chain has to hold. -/
def payload (w : WriterState) : List PageId := w.freeList ++ w.pendingFree

/-- The number of ids a chain page is given. -/
def chainCap (pageSize : ℕ) : ℕ := max (freeListCapacity pageSize) 1

/-- `payload.len().div_ceil(cap)`. -/
def pagesNeeded (w : WriterState) (pageSize : ℕ) : ℕ :=
  (w.payload.length + chainCap pageSize - 1) / chainCap pageSize

/-- The `while` loop of `persist_free_list`: the chain takes fresh pages until it is long enough. -/
def growChain (w : WriterState) (pageSize : ℕ) : WriterState :=
  let missing := w.pagesNeeded pageSize - w.freeListPageIds.length
  { w with
    nextPageId := w.nextPageId + missing
    freeListPageIds := w.freeListPageIds ++ List.range' w.nextPageId missing }

/-- The id that the `i`-th page of the chain names as the next one. -/
def chainNext (w : WriterState) (pageSize i : ℕ) : Option PageId :=
  if i + 1 < w.pagesNeeded pageSize then w.freeListPageIds[i + 1]? else some 0

/-- The id and the contents of the `i`-th page of the chain. -/
def chainPage (w : WriterState) (pageSize i : ℕ) : Option (PageId × Bytes) := do
  let id ← w.freeListPageIds[i]?
  let next ← w.chainNext pageSize i
  let cap := chainCap pageSize
  let chunk ← slice w.payload (i * cap) (min ((i + 1) * cap) w.payload.length)
  let bytes ← freeListEncode id next chunk pageSize
  some (id, bytes)

/-- The page writes of `persist_free_list`, in order. -/
def chainWrites (w : WriterState) (pageSize : ℕ) : Option (List (PageId × Bytes)) :=
  (List.range (w.pagesNeeded pageSize)).mapM (w.chainPage pageSize)

/-- The head that `persist_free_list` returns. -/
def chainHead (w : WriterState) (pageSize : ℕ) : Option PageId :=
  if w.pagesNeeded pageSize > 0 then w.freeListPageIds[0]? else some 0

/-- `persist_free_list`: the writer, the page writes, the head and the count. -/
def persistFreeList (w : WriterState) (pageSize : ℕ) :
    Option (WriterState × List (PageId × Bytes) × PageId × ℕ) := do
  let w := w.growChain pageSize
  let writes ← w.chainWrites pageSize
  let head ← w.chainHead pageSize
  some (w, writes, head, w.payload.length)

end WriterState

namespace WriteTxn

/-- What a commit computes before it publishes: the writer it leaves, and the page writes it
performs after the transaction's own, which are those of the chain and that of the header. -/
def prepare (txn : WriteTxn) (readers : ℕ) (newRoot : PageId) :
    Option (WriterState × List (PageId × Bytes) × Bytes) := do
  let w := (txn.store.writer.foldFrees txn.freed).passGate readers
  let (w, chain, freeListHead, freeCount) ← w.persistFreeList txn.pageSize
  let header : Header := ⟨txn.pageSize, newRoot, w.nextPageId, freeListHead, freeCount⟩
  let bytes ← header.toBytes txn.pageSize
  some (w, chain, bytes)

/-- The page writes of a commit, in program order. -/
def pageWrites (txn : WriteTxn) (chain : List (PageId × Bytes)) (header : Bytes) :
    List (PageId × Bytes) :=
  txn.writes ++ chain ++ [(HEADER_PAGE_ID, header)]

/-- `commit`. -/
def commit (txn : WriteTxn) (newRoot : PageId) : Option Store := do
  let io := txn.store.io.writePages txn.writes
  let (writer, chain, header) ← txn.prepare txn.store.readers newRoot
  let io := (io.writePages chain).writePage HEADER_PAGE_ID header
  some ⟨io, newRoot, txn.store.readers, writer⟩

end WriteTxn

end CowRaft.Btree
