import CowRaft.Foundations.Bytes

/-!
# Page I/O (`io/mod.rs`, `io/in_memory_backend.rs`)

The backend is a map from page ids to page images. A page that was never written reads back as
zeros, as the trait asks of every backend.
-/

namespace CowRaft.Btree

/-- `PageId = u64`, idealised as a natural number. -/
abbrev PageId := ℕ

/-- `MemoryPageIo`: the page size and the pages written so far. -/
structure PageIo where
  pageSize : ℕ
  pages : PageId → Option Bytes

namespace PageIo

/-- `MemoryPageIo::new`. -/
def new (pageSize : ℕ) : PageIo := ⟨pageSize, fun _ => none⟩

/-- `read_page`. -/
def readPage (io : PageIo) (id : PageId) : Bytes :=
  (io.pages id).getD (List.replicate io.pageSize 0)

/-- `write_page`. -/
def writePage (io : PageIo) (id : PageId) (bytes : Bytes) : PageIo :=
  { io with pages := fun p => if p = id then some bytes else io.pages p }

/-- A sequence of page writes, in program order. -/
def writePages (io : PageIo) (writes : List (PageId × Bytes)) : PageIo :=
  writes.foldl (fun io w => io.writePage w.1 w.2) io

@[simp] theorem pageSize_writePage (io : PageIo) (id : PageId) (bytes : Bytes) :
    (io.writePage id bytes).pageSize = io.pageSize := rfl

theorem readPage_writePage (io : PageIo) (id p : PageId) (bytes : Bytes) :
    (io.writePage id bytes).readPage p = if p = id then bytes else io.readPage p := by
  by_cases h : p = id <;> simp [readPage, writePage, h]

@[simp] theorem readPage_writePage_self (io : PageIo) (id : PageId) (bytes : Bytes) :
    (io.writePage id bytes).readPage id = bytes := by
  rw [readPage_writePage, if_pos rfl]

theorem readPage_writePage_of_ne (io : PageIo) {id p : PageId} (bytes : Bytes) (h : p ≠ id) :
    (io.writePage id bytes).readPage p = io.readPage p := by
  rw [readPage_writePage, if_neg h]

@[simp] theorem writePages_nil (io : PageIo) : io.writePages [] = io := rfl

@[simp] theorem writePages_cons (io : PageIo) (w : PageId × Bytes)
    (writes : List (PageId × Bytes)) :
    io.writePages (w :: writes) = (io.writePage w.1 w.2).writePages writes := rfl

theorem writePages_append (io : PageIo) (ws₁ ws₂ : List (PageId × Bytes)) :
    io.writePages (ws₁ ++ ws₂) = (io.writePages ws₁).writePages ws₂ := List.foldl_append

@[simp] theorem pageSize_writePages (io : PageIo) (writes : List (PageId × Bytes)) :
    (io.writePages writes).pageSize = io.pageSize := by
  induction writes generalizing io with
  | nil => rfl
  | cons w writes ih => rw [writePages_cons, ih, pageSize_writePage]

/-- Pages that are not written keep their contents. -/
theorem pages_writePages_of_notMem (io : PageIo) {writes : List (PageId × Bytes)} {p : PageId}
    (h : p ∉ writes.map Prod.fst) : (io.writePages writes).pages p = io.pages p := by
  induction writes generalizing io with
  | nil => rfl
  | cons w writes ih =>
    rw [List.map_cons, List.mem_cons, not_or] at h
    rw [writePages_cons, ih _ h.2]
    exact if_neg h.1

theorem readPage_writePages_of_notMem (io : PageIo) {writes : List (PageId × Bytes)} {p : PageId}
    (h : p ∉ writes.map Prod.fst) : (io.writePages writes).readPage p = io.readPage p := by
  rw [readPage, readPage, pages_writePages_of_notMem io h, pageSize_writePages]

/-- A page that is written once holds what was written. -/
theorem readPage_writePages_of_mem (io : PageIo) {writes : List (PageId × Bytes)} {p : PageId}
    {bytes : Bytes} (hn : (writes.map Prod.fst).Nodup) (h : (p, bytes) ∈ writes) :
    (io.writePages writes).readPage p = bytes := by
  induction writes generalizing io with
  | nil => exact absurd h List.not_mem_nil
  | cons w writes ih =>
    rw [List.map_cons, List.nodup_cons] at hn
    rcases List.mem_cons.1 h with rfl | h
    · rw [writePages_cons, readPage_writePages_of_notMem _ hn.1, readPage_writePage_self]
    · rw [writePages_cons, ih _ hn.2 h]

end PageIo

/-! ## The header shared by the tree pages

1B type tag, 8B page id, 2B key count. -/

section NodeImage

open Bytes

variable (tag : Byte) (id nkeys : ℕ) (body : Bytes)

/-- A tree page: the shared header, then the body. -/
def nodeImage : Bytes := tag :: (toLe 8 id ++ toLe 2 nkeys ++ body)

@[simp] theorem length_nodeImage : (nodeImage tag id nkeys body).length = 11 + body.length := by
  simp [nodeImage]
  omega

theorem nodeImage_append (z : Bytes) :
    nodeImage tag id nkeys body ++ z = nodeImage tag id nkeys (body ++ z) := by
  simp [nodeImage]

theorem readLe_id_nodeImage : readLe 8 (nodeImage tag id nkeys body) 1 = some id := by
  have h := readLe_append (w := 8) (by norm_num) [tag] (toLe 2 nkeys ++ body) id
    (show 1 = _ from rfl)
  simpa [nodeImage] using h

theorem readLe_nkeys_nodeImage : readLe 2 (nodeImage tag id nkeys body) 9 = some nkeys := by
  have h := readLe_append (w := 2) two_pos (tag :: toLe 8 id) body nkeys (show 9 = _ by simp)
  simpa [nodeImage] using h

theorem slice_nodeImage (x y : Bytes) :
    slice (nodeImage tag id nkeys (x ++ y)) 11 (11 + x.length) = some x := by
  have h := slice_append (tag :: (toLe 8 id ++ toLe 2 nkeys)) x y (a := 11)
    (b := 11 + x.length) (by simp) (by simp)
  simpa [nodeImage] using h

end NodeImage

end CowRaft.Btree
