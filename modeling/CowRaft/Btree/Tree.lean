import CowRaft.Btree.Store

/-!
# The tree (`storage/tree.rs`, `storage/engine.rs`)

`put` copies the path from the root to a leaf, splitting what overflows on the way back up, and
commits; `get` walks one path of a read guard's root. The recursion of `insert_internal` and the
loop of `get` are cut off by a fuel argument: a path of a tree visits distinct pages, and there
are fewer than `next_page_id` of them.
-/

namespace CowRaft.Btree

inductive InsertResult
  | single (page : Page)
  | split (left : Page) (sepKey : Key) (right : Page)

/-- The `match` at the head of `insert_leaf`. -/
def leafUpsert (node : LeafNode) (key : Key) (val : Val) : Option LeafNode :=
  (leafSearch node key).bind fun
    | .ok idx => leafUpdate node idx key val
    | .error idx => leafInsert node idx key val

def insertLeaf (node : LeafNode) (key : Key) (val : Val) (pageSize : ℕ) :
    Option InsertResult := do
  let built ← leafUpsert node key val
  if built.nbytes ≤ pageSize then some (.single (.leaf built))
  else do
    let (left, right) ← leafSplitBySize built pageSize
    let sepKey ← right.getKey 0
    some (.split (.leaf left) sepKey (.leaf right))

/-- The `match result` of `insert_internal`: what replaces child `idx` of `node` is written, and
`node` is rebuilt around it. -/
def absorb (txn : WriteTxn) (node : InternalNode) (idx pageSize : ℕ) :
    InsertResult → Option (WriteTxn × InsertResult)
  | .single newChild => do
    let (id, txn) ← txn.allocWrite newChild
    let new ← internalReplaceChild node idx id
    some (txn, .single (.internal new))
  | .split left sepKey right => do
    let (lid, txn) ← txn.allocWrite left
    let (rid, txn) ← txn.allocWrite right
    let grown ← internalInsertSplitChild node idx sepKey lid rid
    if grown.nbytes ≤ pageSize then some (txn, .single (.internal grown))
    else do
      let (l2, promoted, r2) ← internalSplitWithPromotion grown pageSize
      some (txn, .split (.internal l2) promoted (.internal r2))

/-- The dispatch on a page that both `insert_internal` and `put` make, with the recursive call
as a parameter. -/
def insertPage (insertInternal : WriteTxn → InternalNode → Option (WriteTxn × InsertResult))
    (txn : WriteTxn) (key : Key) (val : Val) (pageSize : ℕ) :
    Page → Option (WriteTxn × InsertResult)
  | .leaf l => (insertLeaf l key val pageSize).map fun result => (txn, result)
  | .internal i => insertInternal txn i

def insertInternal (key : Key) (val : Val) (pageSize : ℕ) :
    ℕ → WriteTxn → InternalNode → Option (WriteTxn × InsertResult)
  | 0, _, _ => none
  | fuel + 1, txn, node => do
    let idx ← internalChildIndex node key
    let childId ← node.getChild idx
    let page ← txn.read childId
    let (txn, result) ←
      insertPage (insertInternal key val pageSize fuel) txn key val pageSize page
    absorb (txn.free childId) node idx pageSize result

/-- The end of `put` before the commit: the new root is written. -/
def placeRoot (txn : WriteTxn) : InsertResult → Option (PageId × WriteTxn)
  | .single node => txn.allocWrite node
  | .split left sepKey right => do
    let (lid, txn) ← txn.allocWrite left
    let (rid, txn) ← txn.allocWrite right
    let root := ((InternalNode.empty.pushKey sepKey).pushChild lid).pushChild rid
    txn.allocWrite (.internal root)

/-- `put` up to the commit: the transaction and the new root. -/
def buildPut (txn : WriteTxn) (key : Key) (val : Val) : Option (PageId × WriteTxn) := do
  let rootId := txn.root
  let page ← txn.read rootId
  let (txn, result) ←
    insertPage (insertInternal key val txn.pageSize txn.store.writer.nextPageId) txn key val
      txn.pageSize page
  placeRoot (txn.free rootId) result

def put (txn : WriteTxn) (key : Key) (val : Val) : Option (Except Error Store) :=
  match checkLimits txn.pageSize key val with
  | .error e => some (.error e)
  | .ok () => do
    let (newRoot, txn) ← buildPut txn key val
    (txn.commit newRoot).map .ok

/-- What `get` returns from a leaf. -/
def leafGet (l : LeafNode) (key : Key) : Option (Option Val) :=
  (leafSearch l key).bind fun
    | .ok idx => (l.getVal idx).map some
    | .error _ => some none

/-- The loop of `get`, from a page already read. -/
def getLoop (io : PageIo) (key : Key) : ℕ → Page → Option (Option Val)
  | _, .leaf l => leafGet l key
  | 0, .internal _ => none
  | fuel + 1, .internal i => do
    let idx ← internalChildIndex i key
    let child ← i.getChild idx
    let page ← Page.decode child (io.readPage child)
    getLoop io key fuel page

theorem getLoop_leaf (io : PageIo) (key : Key) (fuel : ℕ) (l : LeafNode) :
    getLoop io key fuel (.leaf l) = leafGet l key := by
  cases fuel <;> rw [getLoop]

theorem getLoop_internal (io : PageIo) (key : Key) (fuel : ℕ) (i : InternalNode) :
    getLoop io key (fuel + 1) (.internal i) =
      (internalChildIndex i key).bind fun idx => (i.getChild idx).bind fun child =>
        (Page.decode child (io.readPage child)).bind fun page => getLoop io key fuel page := by
  rw [getLoop]
  rfl

def get (io : PageIo) (fuel : ℕ) (root : PageId) (key : Key) : Option (Option Val) := do
  let page ← Page.decode root (io.readPage root)
  getLoop io key fuel page

/-! ## The engine -/

namespace Store

/-- `StorageEngine::put`: a rejected put leaves the store as it was. -/
def put (st : Store) (key : Key) (val : Val) : Option (Except Error Store) :=
  Btree.put st.beginWrite key val

/-- The page writes that the commit of a put performs, in program order. -/
def putWrites (st : Store) (key : Key) (val : Val) : Option (List (PageId × Bytes)) := do
  let (newRoot, txn) ← buildPut st.beginWrite key val
  let (_, chain, header) ← txn.prepare st.readers newRoot
  some (txn.pageWrites chain header)

/-- `StorageEngine::get`. -/
def get (st : Store) (key : Key) : Option (Option Val) :=
  Btree.get st.io st.writer.nextPageId st.root key

/-- `StorageEngine::in_memory`. -/
def inMemory (pageSize : ℕ) : Option (Except OpenError Store) :=
  openOrCreate (PageIo.new pageSize)

end Store

end CowRaft.Btree
