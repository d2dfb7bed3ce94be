import CowRaft.Btree.Tree

/-!
# The file backend (`io/file_backend.rs`)

`MmapPageIo` keeps the pages in a file: page `id` of a backend of page size `P` is the byte range
from `id * P` up to `(id + 1) * P`. The file is mapped once, at a length fixed when it is opened,
and only grows, by zeros.

A panic in the middle of an operation leaves a file behind, so that an operation returns the
backend in both cases: `.error io` is a panic, with the backend as it was then. The calls into the
operating system are taken to succeed. A store on this backend is the store of `storage/store.rs`
on the backend's `view`: what a page write does to the file is what it does to the view
(`view_writePage`), and so what a put does (`FileStore.put_view`).
-/

namespace CowRaft.Btree

open Bytes

/-- The address space reserved for the mapping, 1 GiB. -/
def DEFAULT_MAX_SIZE : ℕ := 2 ^ 30

/-- `MmapPageIo`: the file, the page size and the length of the mapping. The committed length is
that of the file. -/
structure MmapPageIo where
  file : Bytes
  pageSize : ℕ
  mmapLen : ℕ

namespace MmapPageIo

/-- `set_len`, to a length the file does not exceed. -/
def setLen (file : Bytes) (len : ℕ) : Bytes := file ++ List.replicate (len - file.length) 0

def openWithMaxSize (file : Bytes) (pageSize maxSize : ℕ) : MmapPageIo :=
  let initialLen := max file.length pageSize
  ⟨setLen file initialLen, pageSize, max maxSize initialLen⟩

/-- `open`. -/
def openFile (file : Bytes) (pageSize : ℕ) : MmapPageIo :=
  openWithMaxSize file pageSize DEFAULT_MAX_SIZE

theorem pageSize_openFile (file : Bytes) (pageSize : ℕ) :
    (openFile file pageSize).pageSize = pageSize := rfl

theorem file_openFile (file : Bytes) (pageSize : ℕ) :
    (openFile file pageSize).file = setLen file (max file.length pageSize) := rfl

def ensureCommitted (io : MmapPageIo) (needed : ℕ) : MmapPageIo :=
  if needed > io.file.length then { io with file := setLen io.file needed } else io

/-- `read_at`, with its assertion. Mapped bytes past the end of the file read as zeros, as the
trait asks; a store reads only pages that it has written. -/
def readAt (io : MmapPageIo) (offset len : ℕ) : Option Bytes :=
  if offset + len ≤ io.mmapLen then
    some ((List.range len).map fun i => io.file.getD (offset + i) 0)
  else none

/-- `write_at`, with its assertion. -/
def writeAt (io : MmapPageIo) (offset : ℕ) (bytes : Bytes) : Except MmapPageIo MmapPageIo :=
  if offset + bytes.length ≤ io.mmapLen then
    .ok { io with file := io.file.take offset ++ bytes ++ io.file.drop (offset + bytes.length) }
  else .error io

def readPage (io : MmapPageIo) (id : PageId) : Option Bytes :=
  io.readAt (id * io.pageSize) io.pageSize

def writePage (io : MmapPageIo) (id : PageId) (bytes : Bytes) : Except MmapPageIo MmapPageIo :=
  (io.ensureCommitted (id * io.pageSize + io.pageSize)).writeAt (id * io.pageSize) bytes

/-- A sequence of page writes, in program order. -/
def writePages (io : MmapPageIo) (writes : List (PageId × Bytes)) : Except MmapPageIo MmapPageIo :=
  writes.foldlM (fun io w => io.writePage w.1 w.2) io

/-- The backend as a store sees it. -/
def view (io : MmapPageIo) : PageIo := ⟨io.pageSize, io.readPage⟩

variable {io io' : MmapPageIo} {id : PageId} {bytes : Bytes}

@[simp] theorem getD_setLen (file : Bytes) (len i : ℕ) :
    (setLen file len).getD i 0 = file.getD i 0 := by
  unfold setLen
  rcases lt_or_ge i file.length with hi | hi
  · rw [List.getD_append _ _ _ _ hi]
  · rw [List.getD_append_right _ _ _ _ hi, List.getD_eq_default _ _ hi]
    simp only [List.getD_eq_getElem?_getD, List.getElem?_replicate]
    split_ifs <;> rfl

theorem prefix_setLen (file : Bytes) (len : ℕ) : file <+: setLen file len :=
  List.prefix_append _ _

theorem length_setLen (file : Bytes) (len : ℕ) :
    (setLen file len).length = max file.length len := by
  simp only [setLen, List.length_append, List.length_replicate]
  omega

theorem ensureCommitted_spec (io : MmapPageIo) (needed : ℕ) :
    (io.ensureCommitted needed).pageSize = io.pageSize ∧
      (io.ensureCommitted needed).mmapLen = io.mmapLen ∧
      (io.ensureCommitted needed).file.length = max io.file.length needed ∧
      ∀ i, (io.ensureCommitted needed).file.getD i 0 = io.file.getD i 0 := by
  unfold ensureCommitted
  split_ifs with h
  · exact ⟨rfl, rfl, length_setLen _ _, getD_setLen _ _⟩
  · exact ⟨rfl, rfl, (max_eq_left (not_lt.1 h)).symm, fun _ => rfl⟩

/-- Two pages share no byte. -/
theorem notMem_block {p q P i : ℕ} (hne : p ≠ q) (hi : i < P) :
    ¬(q * P ≤ p * P + i ∧ p * P + i < q * P + P) := by
  rcases lt_or_gt_of_ne hne with hlt | hgt
  · have hle := Nat.mul_le_mul_right P (Nat.succ_le_of_lt hlt)
    rw [Nat.succ_mul] at hle
    omega
  · have hle := Nat.mul_le_mul_right P (Nat.succ_le_of_lt hgt)
    rw [Nat.succ_mul] at hle
    omega

/-- **A page write** replaces the bytes of its range. -/
theorem writePage_spec (hlen : bytes.length = io.pageSize)
    (hw : io.writePage id bytes = .ok io') :
    io'.pageSize = io.pageSize ∧ io'.mmapLen = io.mmapLen ∧
      id * io.pageSize + io.pageSize ≤ io.mmapLen ∧
      io'.file.length = max io.file.length (id * io.pageSize + io.pageSize) ∧
      ∀ i, io'.file.getD i 0 =
        if id * io.pageSize ≤ i ∧ i < id * io.pageSize + io.pageSize then
          bytes.getD (i - id * io.pageSize) 0
        else io.file.getD i 0 := by
  obtain ⟨hsize, hmap, hfile, hget⟩ :=
    io.ensureCommitted_spec (id * io.pageSize + io.pageSize)
  have hge : id * io.pageSize + io.pageSize ≤
      (io.ensureCommitted (id * io.pageSize + io.pageSize)).file.length :=
    hfile ▸ le_max_right _ _
  unfold writePage writeAt at hw
  rw [hlen] at hw
  split_ifs at hw with hle
  obtain rfl := Except.ok.inj hw
  refine ⟨hsize, hmap, hmap ▸ hle, ?_, fun i => ?_⟩
  · rw [← hfile, List.length_append, List.length_append, List.length_take, List.length_drop, hlen]
    omega
  have hover := getD_overwrite (hlen.symm ▸ hge) i
  rw [hlen, hget] at hover
  exact hover

/-- The file starts with what was written to page 0. -/
theorem prefix_of_writePage (hw : io.writePage 0 bytes = .ok io') : bytes <+: io'.file := by
  unfold writePage writeAt at hw
  split_ifs at hw
  obtain rfl := Except.ok.inj hw
  rw [Nat.zero_mul, List.take_zero, List.nil_append]
  exact List.prefix_append _ _

/-- Page 0 starts with what the file starts with. -/
theorem readPage_of_isPrefix {x : Bytes} (hx : x <+: io.file) (hlen : x.length ≤ io.pageSize)
    (hmap : io.pageSize ≤ io.mmapLen) : ∃ z, io.readPage 0 = some (x ++ z) := by
  obtain ⟨y, hy⟩ := hx
  unfold readPage readAt
  rw [Nat.zero_mul, Nat.zero_add, if_pos hmap]
  refine ⟨(List.range (io.pageSize - x.length)).map fun i => io.file.getD (x.length + i) 0, ?_⟩
  rw [Option.some.injEq]
  have hrange : List.range io.pageSize =
      List.range x.length ++ (List.range (io.pageSize - x.length)).map (x.length + ·) := by
    rw [← List.range_add, Nat.add_sub_cancel' hlen]
  rw [hrange, List.map_append, List.map_map]
  congr 1
  · refine List.ext_getElem (by simp) fun i hi hx => ?_
    rw [List.getElem_map, List.getElem_range, Nat.zero_add, ← hy, List.getD_append _ _ _ _ hx,
      List.getD_eq_getElem _ _ hx]
  · refine List.map_congr_left fun i _ => ?_
    rw [Function.comp_apply, Nat.zero_add]

/-- **The view of a page write** is the page write of the view. -/
theorem view_writePage (hlen : bytes.length = io.pageSize)
    (hw : io.writePage id bytes = .ok io') : io'.view = io.view.writePage id bytes := by
  obtain ⟨hsize, hmap, hle, -, hget⟩ := writePage_spec hlen hw
  unfold view PageIo.writePage
  rw [hsize]
  congr 1
  funext p
  unfold readPage readAt
  rw [hsize, hmap]
  by_cases hp : p = id
  · subst hp
    rw [if_pos hle, if_pos rfl, Option.some.injEq]
    refine List.ext_getElem (by simp [hlen]) fun i hi _ => ?_
    rw [List.length_map, List.length_range] at hi
    rw [List.getElem_map, List.getElem_range, hget, Nat.add_sub_cancel_left,
      List.getD_eq_getElem _ _ (hlen ▸ hi)]
    exact if_pos ⟨Nat.le_add_right _ _, Nat.add_lt_add_left hi _⟩
  · -- any other page keeps its bytes
    simp only [if_neg hp]
    split_ifs with hin
    · rw [Option.some.injEq]
      refine List.map_congr_left fun i hi => ?_
      rw [hget, if_neg (notMem_block hp (List.mem_range.1 hi))]
    · rfl

theorem writePages_cons {w : PageId × Bytes} {writes : List (PageId × Bytes)}
    (hw : io.writePages (w :: writes) = .ok io') :
    ∃ io₁, io.writePage w.1 w.2 = .ok io₁ ∧ io₁.writePages writes = .ok io' := by
  unfold writePages at hw
  rw [List.foldlM_cons] at hw
  rcases hw₁ : io.writePage w.1 w.2 with e | io₁
  · rw [hw₁] at hw
    cases hw
  · rw [hw₁] at hw
    exact ⟨io₁, rfl, hw⟩

/-- The last page write of a sequence. -/
theorem writePages_concat {w : PageId × Bytes} {writes : List (PageId × Bytes)}
    (hw : io.writePages (writes ++ [w]) = .ok io') :
    ∃ io₁, io.writePages writes = .ok io₁ ∧ io₁.writePage w.1 w.2 = .ok io' := by
  induction writes generalizing io with
  | nil =>
    obtain ⟨io₁, hw₁, hw⟩ := writePages_cons hw
    obtain rfl := Except.ok.inj hw
    exact ⟨io, rfl, hw₁⟩
  | cons v writes ih =>
    obtain ⟨io₁, hv, hw⟩ := writePages_cons hw
    obtain ⟨io₂, hws, hlast⟩ := ih hw
    refine ⟨io₂, ?_, hlast⟩
    unfold writePages
    rw [List.foldlM_cons, hv]
    exact hws

/-- **The view of a sequence of page writes.** -/
theorem view_writePages {writes : List (PageId × Bytes)}
    (hlen : ∀ w ∈ writes, w.2.length = io.pageSize) (hw : io.writePages writes = .ok io') :
    io'.view = io.view.writePages writes := by
  induction writes generalizing io with
  | nil =>
    obtain rfl := Except.ok.inj hw
    rfl
  | cons w writes ih =>
    obtain ⟨io₁, hw₁, hw⟩ := writePages_cons hw
    have hfull := hlen w List.mem_cons_self
    rw [PageIo.writePages_cons, ← view_writePage hfull hw₁]
    refine ih (fun w' hw' => ?_) hw
    rw [(writePage_spec hfull hw₁).1]
    exact hlen w' (List.mem_cons_of_mem _ hw')

end MmapPageIo

/-! ## A store on a file -/

/-- `Store<MmapPageIo>`. -/
structure FileStore where
  io : MmapPageIo
  root : PageId
  readers : ℕ
  writer : WriterState

/-- A computation that may panic while the backend is `io`. -/
def orPanic {α : Type*} (io : MmapPageIo) : Option α → Except MmapPageIo α
  | some a => .ok a
  | none => .error io

namespace FileStore

/-- The store as the code that is generic in the backend sees it. -/
def view (fs : FileStore) : Store := ⟨fs.io.view, fs.root, fs.readers, fs.writer⟩

/-- `Store::ofHeader` on a file. -/
def ofHeader (io : MmapPageIo) (h : Header) : Option FileStore :=
  (Store.ofHeader io.view h).map fun st => ⟨io, st.root, st.readers, st.writer⟩

/-- The bootstrapping branch of `open_or_create`. -/
def bootstrap (io : MmapPageIo) : Except MmapPageIo FileStore := do
  let root ← orPanic io (LeafNode.empty.toBytes INITIAL_ROOT_PAGE_ID io.pageSize)
  let io ← io.writePage INITIAL_ROOT_PAGE_ID root
  let h := Header.new io.pageSize INITIAL_ROOT_PAGE_ID (INITIAL_ROOT_PAGE_ID + 1)
  let bytes ← orPanic io (h.toBytes io.pageSize)
  let io ← io.writePage HEADER_PAGE_ID bytes
  orPanic io (ofHeader io h)

/-- `open_or_create` on a file: the backend it leaves, with the store or the error. -/
def openOrCreate (io : MmapPageIo) : Except MmapPageIo (MmapPageIo × Except OpenError FileStore) :=
  match (io.readPage HEADER_PAGE_ID).bind Header.fromBytes with
  | none => .error io
  | some (.ok h) =>
    if h.pageSize = io.pageSize then (orPanic io (ofHeader io h)).map fun fs => (io, .ok fs)
    else .ok (io, .error (.pageSizeMismatch io.pageSize h.pageSize))
  | some (.error (.versionMismatch found expected)) =>
    .ok (io, .error (.versionMismatch found expected))
  | some (.error .notAHeader) => (bootstrap io).map fun fs => (fs.io, .ok fs)

/-- The backend that `open_or_create` leaves behind, whether it returns or panics. -/
def backendAfter : Except MmapPageIo (MmapPageIo × Except OpenError FileStore) → MmapPageIo
  | .ok (io, _) => io
  | .error io => io

/-- `put` on a file, the commit performing its page writes there. -/
def put (fs : FileStore) (key : Key) (val : Val) : Option (Except Error FileStore) :=
  match checkLimits fs.io.pageSize key val with
  | .error e => some (.error e)
  | .ok () => do
    let (newRoot, txn) ← buildPut fs.view.beginWrite key val
    let (writer, chain, header) ← txn.prepare fs.readers newRoot
    let io ← (fs.io.writePages (txn.pageWrites chain header)).toOption
    some (.ok ⟨io, newRoot, fs.readers, writer⟩)

def enterRead (fs : FileStore) : FileStore := { fs with readers := fs.readers + 1 }

def dropGuard (fs : FileStore) : FileStore := { fs with readers := fs.readers - 1 }

end FileStore

end CowRaft.Btree
