import CowRaft.Btree.InternalOps
import CowRaft.Btree.Meta
import CowRaft.Foundations.SearchTree
import CowRaft.Foundations.HeapTree

/-!
# Tree pages (`page/mod.rs`)

A tree page is a leaf or an internal node, told apart by its tag. `Node` is what a page says, with
the byte strings and offset tables read off: a list of entries, or separators and children.
`Holds io id nd` says that page `id` of the backend decodes to that, under its own id, and is not
larger than a page. The pages below a page (`children`) and the entries under it (`entriesAt`) are
read from the backend, so that they can be computed.
-/

namespace CowRaft.Btree

open Bytes

inductive Page
  | leaf (l : LeafNode)
  | internal (i : InternalNode)
  deriving DecidableEq

namespace Page

def decode (id : PageId) (bytes : Bytes) : Option Page :=
  match bytes.head? with
  | some tag =>
    if tag = PAGE_TYPE_LEAF then (LeafNode.decode id bytes).map .leaf
    else if tag = PAGE_TYPE_INTERNAL then (InternalNode.decode id bytes).map .internal
    else none
  | none => none

def toBytes : Page → PageId → ℕ → Option Bytes
  | .leaf l, id, pageSize => l.toBytes id pageSize
  | .internal i, id, pageSize => i.toBytes id pageSize

def id : Page → PageId
  | .leaf l => l.id
  | .internal i => i.id

def nbytes : Page → ℕ
  | .leaf l => l.nbytes
  | .internal i => i.nbytes

end Page

inductive Error
  | entryTooLarge (len max : ℕ)
  deriving DecidableEq

/-- The largest combined key and value size that is always safe to insert. -/
def maxKvSize (pageSize : ℕ) : ℕ := (pageSize - (INTERNAL_HEADER + 28)) / 2

def checkLimits (pageSize : ℕ) (key : Key) (val : Val) : Except Error Unit :=
  let max := maxKvSize pageSize
  let len := key.length + val.length
  if len > max then .error (.entryTooLarge len max) else .ok ()

/-! ## What a page says -/

inductive Node
  | leaf (es : List (Key × Val))
  | internal (ks : List Key) (cs : List PageId)

namespace Node

def toPage (id : PageId) : Node → Page
  | leaf es => .leaf (.ofEntries id es)
  | internal ks cs => .internal (.ofKeys id ks cs)

def children : Node → List PageId
  | leaf _ => []
  | internal _ cs => cs

/-- The node's size on a page. -/
def size : Node → ℕ
  | leaf es => 11 + entriesLen es
  | internal ks cs => 11 + keysLen ks + 8 * cs.length

/-- An internal node has one more child than separators. -/
def Balanced : Node → Prop
  | leaf _ => True
  | internal ks cs => cs.length = ks.length + 1

@[simp] theorem nbytes_toPage (id : PageId) (nd : Node) : (nd.toPage id).nbytes = nd.size := by
  cases nd <;> rfl

@[simp] theorem id_toPage (id : PageId) (nd : Node) : (nd.toPage id).id = id := by
  cases nd <;> rfl

/-- A page that was encoded is no larger than a page. -/
theorem size_le_of_toBytes {nd : Node} {id id₀ : PageId} {pageSize : ℕ} {bytes : Bytes}
    (hb : (nd.toPage id₀).toBytes id pageSize = some bytes) : nd.size ≤ pageSize := by
  cases nd with
  | leaf es =>
    have h := length_le_of_padTo hb
    rwa [length_nodeImage] at h
  | internal ks cs =>
    have h := length_le_of_padTo hb
    rw [length_nodeImage, List.length_append, length_flatMap_toLe, ← Nat.add_assoc] at h
    exact h

theorem toBytes_isSome {nd : Node} {pageSize : ℕ} (h : nd.size ≤ pageSize) (id id₀ : PageId) :
    ∃ bytes, (nd.toPage id₀).toBytes id pageSize = some bytes := by
  cases nd with
  | leaf es => exact ⟨_, padTo_eq (by rw [length_nodeImage]; exact h)⟩
  | internal ks cs =>
    refine ⟨_, padTo_eq ?_⟩
    rw [length_nodeImage, List.length_append, length_flatMap_toLe, ← Nat.add_assoc]
    exact h

/-- **Round trip of a tree page**: the page that is read back carries the id it was written at. -/
theorem decode_toBytes {nd : Node} {id id₀ : PageId} {pageSize : ℕ} {bytes : Bytes}
    (hP : pageSize < 65536) (hbal : nd.Balanced) (expected : PageId)
    (hb : (nd.toPage id₀).toBytes id pageSize = some bytes) :
    Page.decode expected bytes = some (nd.toPage id) := by
  have hsize := size_le_of_toBytes hb
  cases nd with
  | leaf es =>
    rw [size] at hsize
    have hdec := (@LeafNode.decode_toBytes _ id) expected (by omega) hb
    have hb' : padTo pageSize _ = some bytes := hb
    rw [padTo_eq (length_le_of_padTo hb'), nodeImage_append, Option.some.injEq] at hb'
    have htag : bytes.head? = some PAGE_TYPE_LEAF := by rw [← hb']; rfl
    simp only [Page.decode, htag, if_true, hdec, Option.map_some, toPage]
  | internal ks cs =>
    rw [size] at hsize
    have hdec := (@InternalNode.decode_toBytes _ _ id) expected (by omega) hbal hb
    have hb' : padTo pageSize _ = some bytes := hb
    rw [padTo_eq (length_le_of_padTo hb'), nodeImage_append, Option.some.injEq] at hb'
    have htag : bytes.head? = some PAGE_TYPE_INTERNAL := by rw [← hb']; rfl
    have hne : PAGE_TYPE_INTERNAL ≠ PAGE_TYPE_LEAF := by decide
    simp only [Page.decode, htag, hne, if_false, if_true, hdec, Option.map_some, toPage]

end Node

/-! ## Pages of a backend -/

/-- Page `id` holds the node `nd`. -/
structure Holds (io : PageIo) (id : PageId) (nd : Node) : Prop where
  decode_eq : Page.decode id (io.readPage id) = some (nd.toPage id)
  size_le : nd.size ≤ io.pageSize
  balanced : nd.Balanced

theorem Holds.congr {io io' : PageIo} {id : PageId} {nd : Node} (h : Holds io id nd)
    (hsize : io'.pageSize = io.pageSize) (hread : io'.readPage id = io.readPage id) :
    Holds io' id nd where
  decode_eq := by rw [hread, h.decode_eq]
  size_le := by rw [hsize]; exact h.size_le
  balanced := h.balanced

/-- A node that was encoded for page `id` is held by it once it is written there. -/
theorem Holds.of_toBytes {io : PageIo} {id id₀ : PageId} {nd : Node} (hP : io.pageSize < 65536)
    (hbal : nd.Balanced) (hb : (nd.toPage id₀).toBytes id io.pageSize = some (io.readPage id)) :
    Holds io id nd where
  decode_eq := Node.decode_toBytes hP hbal id hb
  size_le := Node.size_le_of_toBytes hb
  balanced := hbal

/-- The pages that page `id` points to. -/
def children (io : PageIo) (id : PageId) : List PageId :=
  match Page.decode id (io.readPage id) with
  | some (.internal i) => i.children
  | _ => []

theorem Holds.children_eq {io : PageIo} {id : PageId} {nd : Node} (h : Holds io id nd) :
    children io id = nd.children := by
  rw [children, h.decode_eq]
  cases nd <;> rfl

theorem children_congr {io io' : PageIo} {id : PageId} (h : io'.readPage id = io.readPage id) :
    children io' id = children io id := by
  rw [children, children, h]

/-- The entries of a leaf, in order. -/
def LeafNode.entryList (l : LeafNode) : List (Key × Val) :=
  (List.range l.nkeys).filterMap fun i => do some (← l.getKey i, ← l.getVal i)

/-- The separators of an internal node, in order. -/
def InternalNode.keyList (i : InternalNode) : List Key := (List.range i.nkeys).filterMap i.getKey

theorem filterMap_range {α : Type*} {l : List α} {f : ℕ → Option α}
    (h : ∀ i (hi : i < l.length), f i = some l[i]) :
    (List.range l.length).filterMap f = l := by
  have hmap : (List.range l.length).filterMap f = (List.finRange l.length).map l.get := by
    rw [← List.map_coe_finRange_eq_range, List.filterMap_map, ← List.filterMap_eq_map]
    exact List.filterMap_congr fun i _ => h i i.2
  rw [hmap, List.map_get_finRange]

theorem LeafNode.entryList_ofEntries {id : PageId} {es : List (Key × Val)}
    (h : entriesLen es < 65536) : (LeafNode.ofEntries id es).entryList = es := by
  rw [LeafNode.entryList, LeafNode.nkeys_ofEntries_of_lt h]
  refine filterMap_range fun i hi => ?_
  have hget := List.getElem?_eq_getElem hi
  rw [LeafNode.getKey_ofEntries h hget, LeafNode.getVal_ofEntries h hget]
  rfl

theorem InternalNode.keyList_ofKeys {id : PageId} {ks : List Key} {cs : List PageId}
    (h : keysLen ks < 65536) : (InternalNode.ofKeys id ks cs).keyList = ks := by
  have hn : ks.length < 65536 := by
    have := length_le_keysLen ks
    omega
  rw [InternalNode.keyList, InternalNode.nkeys_ofKeys _ _ hn]
  exact filterMap_range fun i hi => InternalNode.getKey_ofKeys h (List.getElem?_eq_getElem hi)

/-- The entries of page `id`, if it is a leaf. -/
def leafEntries (io : PageIo) (id : PageId) : List (Key × Val) :=
  match Page.decode id (io.readPage id) with
  | some (.leaf l) => l.entryList
  | _ => []

/-- The entries of the leaves `h` levels below page `id`, from left to right. -/
def entriesAt (io : PageIo) : ℕ → PageId → List (Key × Val)
  | 0, id => leafEntries io id
  | h + 1, id => (children io id).flatMap (entriesAt io h)

theorem Holds.leafEntries_eq {io : PageIo} {id : PageId} {es : List (Key × Val)}
    (hP : io.pageSize < 65536) (h : Holds io id (.leaf es)) : leafEntries io id = es := by
  have hsize := h.size_le
  rw [Node.size] at hsize
  rw [leafEntries, h.decode_eq]
  exact LeafNode.entryList_ofEntries (by omega)

/-- The entries depend only on the pages they are read from. -/
theorem entriesAt_congr {io io' : PageIo} {h : ℕ} {r : PageId}
    (hs : ∀ p ∈ HeapTree.unfold (children io) h r, io'.readPage p = io.readPage p) :
    entriesAt io' h r = entriesAt io h r := by
  induction h generalizing r with
  | zero => rw [entriesAt, entriesAt, leafEntries, leafEntries, hs r (by simp [HeapTree.unfold])]
  | succ h ih =>
    rw [entriesAt, entriesAt, children_congr (hs r (HeapTree.mem_unfold_self _ _))]
    exact List.flatMap_congr fun c hc => ih fun p hp =>
      hs p (List.mem_cons_of_mem _ (List.mem_flatMap.2 ⟨c, hc, hp⟩))

end CowRaft.Btree
