import CowRaft.Btree.Leaf

/-!
# Metadata pages (`page/header.rs`, `page/free_list.rs`)

The header page names the root, the bump allocator's mark and the head of the free-list chain; the
pages of the chain hold the free page ids, each page naming the next, `0` ending the chain. Both
codecs are read back here; a page that was never written reads as an empty last chain page.
-/

namespace CowRaft.Btree

open Bytes

/-! ## The header page -/

def PAGE_TYPE_HEADER : Byte := 0x2A

/-- `b"HWBTREE1"`. -/
def FORMAT_SIGNATURE : Bytes := [72, 87, 66, 84, 82, 69, 69, 49]

def VERSION : ℕ := 2

/-- Page 0 is always the header page. -/
def HEADER_PAGE_ID : PageId := 0

/-- `as u32`. -/
def u32 (n : ℕ) : ℕ := n % 2 ^ 32

structure Header where
  pageSize : ℕ
  rootId : PageId
  nextPageId : ℕ
  freeListHead : PageId
  freeCount : ℕ
  deriving DecidableEq

/-- Why page 0 did not decode into a header. -/
inductive DecodeError
  | notAHeader
  | versionMismatch (found expected : ℕ)
  deriving DecidableEq

namespace Header

def new (pageSize : ℕ) (rootId : PageId) (nextPageId : ℕ) : Header :=
  ⟨pageSize, rootId, nextPageId, 0, 0⟩

/-- The 49 bytes of the header. -/
def image (h : Header) : Bytes :=
  PAGE_TYPE_HEADER :: (FORMAT_SIGNATURE ++ toLe 4 VERSION ++ toLe 4 (u32 h.pageSize) ++
    toLe 8 h.rootId ++ toLe 8 h.nextPageId ++ toLe 8 h.freeListHead ++ toLe 8 h.freeCount)

def toBytes (h : Header) (pageSize : ℕ) : Option Bytes := padTo pageSize h.image

def fromBytes (bytes : Bytes) : Option (Except DecodeError Header) :=
  if bytes.length < 49 ∨ bytes.head? ≠ some PAGE_TYPE_HEADER ∨
      slice bytes 1 9 ≠ some FORMAT_SIGNATURE then
    some (.error .notAHeader)
  else do
    let version ← readLe 4 bytes 9
    if version ≠ VERSION then some (.error (.versionMismatch version VERSION))
    else do
      let pageSize ← readLe 4 bytes 13
      let rootId ← readLe 8 bytes 17
      let nextPageId ← readLe 8 bytes 25
      let freeListHead ← readLe 8 bytes 33
      let freeCount ← readLe 8 bytes 41
      some (.ok ⟨pageSize, rootId, nextPageId, freeListHead, freeCount⟩)

@[simp] theorem length_image (h : Header) : h.image.length = 49 := by
  simp [image, FORMAT_SIGNATURE]

theorem fortyNine_le_of_toBytes {h : Header} {pageSize : ℕ} {bytes : Bytes}
    (hb : h.toBytes pageSize = some bytes) : 49 ≤ pageSize :=
  h.length_image ▸ length_le_of_padTo hb

theorem toBytes_isSome (h : Header) {pageSize : ℕ} (hP : 49 ≤ pageSize) :
    ∃ bytes, h.toBytes pageSize = some bytes :=
  ⟨_, padTo_eq (by rw [length_image]; exact hP)⟩

/-- A header is read from any page that starts with it. -/
theorem fromBytes_image {h : Header} (z : Bytes) (hsize : h.pageSize < 2 ^ 32) :
    fromBytes (h.image ++ z) = some (.ok h) := by
  have hsig := slice_append [PAGE_TYPE_HEADER] FORMAT_SIGNATURE (toLe 4 VERSION ++
    toLe 4 (u32 h.pageSize) ++ toLe 8 h.rootId ++ toLe 8 h.nextPageId ++ toLe 8 h.freeListHead ++
    toLe 8 h.freeCount ++ z) (a := 1) (b := 9) rfl rfl
  have hversion := readLe_append (w := 4) (by norm_num) (PAGE_TYPE_HEADER :: FORMAT_SIGNATURE)
    (toLe 4 (u32 h.pageSize) ++ toLe 8 h.rootId ++ toLe 8 h.nextPageId ++ toLe 8 h.freeListHead ++
      toLe 8 h.freeCount ++ z) VERSION (show 9 = _ from rfl)
  have hpage := readLe_append (w := 4) (by norm_num)
    (PAGE_TYPE_HEADER :: FORMAT_SIGNATURE ++ toLe 4 VERSION)
    (toLe 8 h.rootId ++ toLe 8 h.nextPageId ++ toLe 8 h.freeListHead ++ toLe 8 h.freeCount ++ z)
    (u32 h.pageSize) (show 13 = _ from rfl)
  have hroot := readLe_append (w := 8) (by norm_num)
    (PAGE_TYPE_HEADER :: FORMAT_SIGNATURE ++ toLe 4 VERSION ++ toLe 4 (u32 h.pageSize))
    (toLe 8 h.nextPageId ++ toLe 8 h.freeListHead ++ toLe 8 h.freeCount ++ z) h.rootId
    (show 17 = _ by simp [FORMAT_SIGNATURE])
  have hnext := readLe_append (w := 8) (by norm_num)
    (PAGE_TYPE_HEADER :: FORMAT_SIGNATURE ++ toLe 4 VERSION ++ toLe 4 (u32 h.pageSize) ++
      toLe 8 h.rootId) (toLe 8 h.freeListHead ++ toLe 8 h.freeCount ++ z) h.nextPageId
    (show 25 = _ by simp [FORMAT_SIGNATURE])
  have hhead := readLe_append (w := 8) (by norm_num)
    (PAGE_TYPE_HEADER :: FORMAT_SIGNATURE ++ toLe 4 VERSION ++ toLe 4 (u32 h.pageSize) ++
      toLe 8 h.rootId ++ toLe 8 h.nextPageId) (toLe 8 h.freeCount ++ z) h.freeListHead
    (show 33 = _ by simp [FORMAT_SIGNATURE])
  have hcount := readLe_append (w := 8) (by norm_num)
    (PAGE_TYPE_HEADER :: FORMAT_SIGNATURE ++ toLe 4 VERSION ++ toLe 4 (u32 h.pageSize) ++
      toLe 8 h.rootId ++ toLe 8 h.nextPageId ++ toLe 8 h.freeListHead) z h.freeCount
    (show 41 = _ by simp [FORMAT_SIGNATURE])
  simp only [List.append_assoc, List.cons_append, List.nil_append]
    at hsig hversion hpage hroot hnext hhead hcount
  have himage : h.image ++ z = PAGE_TYPE_HEADER :: (FORMAT_SIGNATURE ++ (toLe 4 VERSION ++
      (toLe 4 (u32 h.pageSize) ++ (toLe 8 h.rootId ++ (toLe 8 h.nextPageId ++
        (toLe 8 h.freeListHead ++ (toLe 8 h.freeCount ++ z))))))) := by
    simp [image]
  have hu : u32 h.pageSize = h.pageSize := Nat.mod_eq_of_lt hsize
  rw [fromBytes, himage, if_neg]
  · simp only [hversion, hpage, hroot, hnext, hhead, hcount, Option.bind_eq_bind,
      Option.bind_some, ne_eq, not_true_eq_false, if_false]
    rw [hu]
  · simp only [not_or, not_lt, ne_eq, not_not]
    refine ⟨?_, List.head?_cons, hsig⟩
    rw [← himage, List.length_append, length_image]
    omega

theorem image_prefix_of_toBytes {h : Header} {pageSize : ℕ} {bytes : Bytes}
    (hb : h.toBytes pageSize = some bytes) : h.image <+: bytes := by
  rw [toBytes, padTo_eq (length_le_of_padTo hb), Option.some.injEq] at hb
  exact ⟨_, hb⟩

/-- **Round trip of the header page.** -/
theorem fromBytes_toBytes {h : Header} {pageSize : ℕ} {bytes : Bytes}
    (hsize : h.pageSize < 2 ^ 32) (hb : h.toBytes pageSize = some bytes) :
    fromBytes bytes = some (.ok h) := by
  obtain ⟨z, rfl⟩ := image_prefix_of_toBytes hb
  exact fromBytes_image z hsize

/-- A page that is too short is no header. -/
theorem fromBytes_of_length_lt {bytes : Bytes} (h : bytes.length < 49) :
    fromBytes bytes = some (.error .notAHeader) := if_pos (Or.inl h)

/-- A page of zeros is no header. -/
theorem fromBytes_zeros (n : ℕ) :
    fromBytes (List.replicate n 0) = some (.error .notAHeader) := by
  refine if_pos ?_
  cases n with
  | zero => exact Or.inl (by simp)
  | succ n => exact Or.inr (Or.inl (by simp [List.replicate_succ, PAGE_TYPE_HEADER]))

end Header

/-! ## Free-list pages -/

def PAGE_TYPE_FREE_LIST : Byte := 0x03

/-- 1B type tag + 8B page id + 8B next page id + 2B count. -/
def FREE_LIST_HEADER : ℕ := 19

/-- `free_list_capacity`. Below 19 bytes the subtraction of the source overflows, and this one is
cut off at `0`; no store has pages that short. -/
def freeListCapacity (pageSize : ℕ) : ℕ := (pageSize - FREE_LIST_HEADER) / 8

def freeListEncode (id next : PageId) (ids : List PageId) (pageSize : ℕ) : Option Bytes :=
  padTo pageSize (PAGE_TYPE_FREE_LIST :: (toLe 8 id ++ toLe 8 next ++ toLe 2 (u16 ids.length) ++
    ids.flatMap (toLe 8)))

/-- The loop of `free_list_decode` over the remaining ids. -/
def freeListDecodeIds (bytes : Bytes) : ℕ → ℕ → List PageId → Option (List PageId)
  | 0, _, ids => some ids
  | n + 1, pos, ids => do
    let pid ← readLe 8 bytes pos
    freeListDecodeIds bytes n (pos + 8) (ids ++ [pid])

/-- The next page id and the free page ids stored on a page. -/
def freeListDecode (_expectedId : PageId) (bytes : Bytes) : Option (PageId × List PageId) := do
  let _id ← readLe 8 bytes 1
  let next ← readLe 8 bytes 9
  let count ← readLe 2 bytes 17
  let ids ← freeListDecodeIds bytes count FREE_LIST_HEADER []
  some (next, ids)

theorem length_flatMap_toLe (ids : List PageId) :
    (ids.flatMap (toLe 8)).length = 8 * ids.length := by
  induction ids with
  | nil => rfl
  | cons id ids ih =>
    rw [List.flatMap_cons, List.length_append, ih, length_toLe, List.length_cons]
    omega

theorem freeListEncode_isSome {ids : List PageId} {pageSize : ℕ} (hP : FREE_LIST_HEADER ≤ pageSize)
    (h : ids.length ≤ freeListCapacity pageSize) (id next : PageId) :
    ∃ bytes, freeListEncode id next ids pageSize = some bytes := by
  refine ⟨_, padTo_eq ?_⟩
  have hcap : 8 * ids.length ≤ pageSize - FREE_LIST_HEADER := by
    rw [freeListCapacity] at h
    omega
  rw [FREE_LIST_HEADER] at hcap hP
  simp only [List.length_cons, List.length_append, length_toLe, length_flatMap_toLe]
  omega

theorem freeListDecodeIds_eq {x : Bytes} (z : Bytes) {pos : ℕ} (hx : x.length = pos)
    (ids done : List PageId) :
    freeListDecodeIds (x ++ (ids.flatMap (toLe 8) ++ z)) ids.length pos done =
      some (done ++ ids) := by
  induction ids generalizing x pos done with
  | nil => simp [freeListDecodeIds]
  | cons id ids ih =>
    have hread : readLe 8 (x ++ ((id :: ids).flatMap (toLe 8) ++ z)) pos = some id := by
      have h := readLe_append (w := 8) (by norm_num) x (ids.flatMap (toLe 8) ++ z) id hx.symm
      simpa using h
    have h := @ih (x ++ toLe 8 id) (pos + 8) (by simp [hx]) (done ++ [id])
    simp only [List.length_cons, freeListDecodeIds, hread, Option.bind_eq_bind, Option.bind_some]
    simpa using h

/-- **Round trip of a free-list page.** -/
theorem freeListDecode_encode {id next : PageId} {ids : List PageId} {pageSize : ℕ}
    {bytes : Bytes} (hn : ids.length < 65536) (expected : PageId)
    (hb : freeListEncode id next ids pageSize = some bytes) :
    freeListDecode expected bytes = some (next, ids) := by
  obtain ⟨z, rfl⟩ : ∃ z, bytes = PAGE_TYPE_FREE_LIST :: (toLe 8 id ++ toLe 8 next ++
      toLe 2 ids.length ++ ids.flatMap (toLe 8)) ++ z := by
    rw [freeListEncode, u16_of_lt hn] at hb
    rw [padTo_eq (length_le_of_padTo hb), Option.some.injEq] at hb
    exact ⟨_, hb.symm⟩
  have hid := readLe_append (w := 8) (by norm_num) [PAGE_TYPE_FREE_LIST]
    (toLe 8 next ++ toLe 2 ids.length ++ ids.flatMap (toLe 8) ++ z) id (show 1 = _ from rfl)
  have hnext := readLe_append (w := 8) (by norm_num) (PAGE_TYPE_FREE_LIST :: toLe 8 id)
    (toLe 2 ids.length ++ ids.flatMap (toLe 8) ++ z) next (show 9 = _ by simp)
  have hcount := readLe_append (w := 2) (by norm_num)
    (PAGE_TYPE_FREE_LIST :: toLe 8 id ++ toLe 8 next) (ids.flatMap (toLe 8) ++ z) ids.length
    (show 17 = _ by simp)
  have hids := freeListDecodeIds_eq (x := PAGE_TYPE_FREE_LIST :: toLe 8 id ++ toLe 8 next ++
    toLe 2 ids.length) z (show _ = 19 by simp) ids []
  simp only [List.append_assoc, List.cons_append, List.nil_append] at hid hnext hcount hids
  simp only [freeListDecode, List.cons_append, List.append_assoc, hid, hnext, hcount, hids,
    FREE_LIST_HEADER, Option.bind_eq_bind, Option.bind_some]

theorem readLe_zeros {w n pos : ℕ} (h : pos + w ≤ n) :
    readLe w (List.replicate n 0) pos = some 0 := by
  have hslice : slice (List.replicate n 0) pos (pos + w) = some (List.replicate w 0) := by
    rw [slice, if_pos ⟨by omega, by simpa using h⟩, List.take_replicate, List.drop_replicate,
      show min (pos + w) n - pos = w by omega]
  have hzero : ∀ w, ofLe (List.replicate w 0) = 0 := fun w => by
    induction w with
    | zero => rfl
    | succ w ih => rw [List.replicate_succ, ofLe, ih]
  rw [readLe, hslice, Option.map_some, hzero]

/-- A page that was never written reads as the empty end of a chain. -/
theorem freeListDecode_zeros {n : ℕ} (h : FREE_LIST_HEADER ≤ n) (expected : PageId) :
    freeListDecode expected (List.replicate n 0) = some (0, []) := by
  rw [FREE_LIST_HEADER] at h
  simp only [freeListDecode, readLe_zeros (show 1 + 8 ≤ n by omega),
    readLe_zeros (show 9 + 8 ≤ n by omega), readLe_zeros (show 17 + 2 ≤ n by omega),
    freeListDecodeIds, Option.bind_eq_bind, Option.bind_some]

end CowRaft.Btree
