import CowRaft.Btree.FileBackend
import CowRaft.Btree.Runs

/-!
# Stores in files

A put on a file does to the file's view what a put does to a store (`FileStore.put_view`).

A file that a store wrote starts with a header that names the store's page size. Opening it with
another page size is refused and leaves it as it is whenever the header fits a page of the
requested size; when it does not, the header is not recognised, and the file is bootstrapped over
(`wrong_page_size_refused_iff`, `wrong_page_size_overwrites`).
-/

namespace CowRaft.Btree

open Bytes

/-! ## What a transaction leaves alone -/

/-- `txn'` continues `txn`: only the writer of the store has changed, and full pages were
written. -/
structure Grows (txn txn' : WriteTxn) : Prop where
  store_eq : txn'.store = { txn.store with writer := txn'.store.writer }
  writes : ∃ ws, txn'.writes = txn.writes ++ ws ∧ ∀ w ∈ ws, w.2.length = txn.pageSize

namespace Grows

variable {txn txn' txn'' : WriteTxn} {node : InternalNode} {key : Key} {val : Val}

theorem refl (txn : WriteTxn) : Grows txn txn := ⟨rfl, [], by simp⟩

theorem pageSize_eq (h : Grows txn txn') : txn'.pageSize = txn.pageSize := by
  unfold WriteTxn.pageSize
  rw [h.store_eq]

theorem trans (h₁ : Grows txn txn') (h₂ : Grows txn' txn'') : Grows txn txn'' := by
  obtain ⟨ws₁, hw₁, hl₁⟩ := h₁.writes
  obtain ⟨ws₂, hw₂, hl₂⟩ := h₂.writes
  refine ⟨by rw [h₂.store_eq, h₁.store_eq], ws₁ ++ ws₂, by rw [hw₂, hw₁, List.append_assoc], ?_⟩
  intro w hw
  rcases List.mem_append.1 hw with hw | hw
  · exact hl₁ w hw
  · exact (hl₂ w hw).trans h₁.pageSize_eq

theorem free (txn : WriteTxn) (id : PageId) : Grows txn (txn.free id) := ⟨rfl, [], by
  simp [WriteTxn.free]⟩

theorem length_toBytes {page : Page} {id : PageId} {pageSize : ℕ} {bytes : Bytes}
    (h : page.toBytes id pageSize = some bytes) : bytes.length = pageSize := by
  cases page with
  | leaf l => exact length_of_padTo h
  | internal i => exact length_of_padTo h

theorem allocWrite {page : Page} {id : PageId} (h : txn.allocWrite page = some (id, txn')) :
    Grows txn txn' := by
  obtain ⟨t, ht, heq⟩ := Option.map_eq_some_iff.1 h
  obtain ⟨rfl, rfl⟩ := Prod.mk.inj heq
  obtain ⟨bytes, hb, ht⟩ := Option.bind_eq_some_iff.1 ht
  obtain rfl := Option.some.inj ht
  refine ⟨rfl, [_], rfl, ?_⟩
  intro w hw
  obtain rfl := List.mem_singleton.1 hw
  exact length_toBytes hb

theorem absorb {idx pageSize : ℕ} {r r' : InsertResult}
    (h : absorb txn node idx pageSize r = some (txn', r')) : Grows txn txn' := by
  cases r with
  | single newChild =>
    obtain ⟨⟨id, t⟩, ht, h⟩ := Option.bind_eq_some_iff.1 h
    obtain ⟨new, -, h⟩ := Option.bind_eq_some_iff.1 h
    obtain ⟨rfl, -⟩ := Prod.mk.inj (Option.some.inj h)
    exact allocWrite ht
  | split left sepKey right =>
    obtain ⟨⟨lid, t₁⟩, ht₁, h⟩ := Option.bind_eq_some_iff.1 h
    obtain ⟨⟨rid, t₂⟩, ht₂, h⟩ := Option.bind_eq_some_iff.1 h
    obtain ⟨grown, -, h⟩ := Option.bind_eq_some_iff.1 h
    have hgrows := (allocWrite ht₁).trans (allocWrite ht₂)
    split_ifs at h
    · obtain ⟨rfl, -⟩ := Prod.mk.inj (Option.some.inj h)
      exact hgrows
    · obtain ⟨⟨l2, promoted, r2⟩, -, h⟩ := Option.bind_eq_some_iff.1 h
      obtain ⟨rfl, -⟩ := Prod.mk.inj (Option.some.inj h)
      exact hgrows

theorem insertPage {insert : WriteTxn → InternalNode → Option (WriteTxn × InsertResult)}
    {pageSize : ℕ} {page : Page} {r : InsertResult}
    (hinsert : ∀ node txn' r, insert txn node = some (txn', r) → Grows txn txn')
    (h : insertPage insert txn key val pageSize page = some (txn', r)) : Grows txn txn' := by
  cases page with
  | leaf l =>
    obtain ⟨r', -, heq⟩ := Option.map_eq_some_iff.1 h
    obtain ⟨rfl, -⟩ := Prod.mk.inj heq
    exact refl txn
  | internal i => exact hinsert i txn' r h

theorem insertInternal {pageSize fuel : ℕ} {r : InsertResult}
    (h : insertInternal key val pageSize fuel txn node = some (txn', r)) : Grows txn txn' := by
  induction fuel generalizing node txn' r with
  | zero => cases h
  | succ fuel ih =>
    obtain ⟨idx, -, h⟩ := Option.bind_eq_some_iff.1 h
    obtain ⟨c, -, h⟩ := Option.bind_eq_some_iff.1 h
    obtain ⟨page, -, h⟩ := Option.bind_eq_some_iff.1 h
    obtain ⟨⟨t, r'⟩, ht, h⟩ := Option.bind_eq_some_iff.1 h
    have hsub := insertPage (fun node txn' r h => ih h) ht
    exact (hsub.trans (free t c)).trans (absorb h)

theorem placeRoot {r : InsertResult} {newRoot : PageId}
    (h : placeRoot txn r = some (newRoot, txn')) : Grows txn txn' := by
  cases r with
  | single nd => exact allocWrite h
  | split left sepKey right =>
    obtain ⟨⟨lid, t₁⟩, ht₁, h⟩ := Option.bind_eq_some_iff.1 h
    obtain ⟨⟨rid, t₂⟩, ht₂, h⟩ := Option.bind_eq_some_iff.1 h
    exact ((allocWrite ht₁).trans (allocWrite ht₂)).trans (allocWrite h)

/-- **A put changes nothing but its transaction** before it commits. -/
theorem buildPut {newRoot : PageId} (h : buildPut txn key val = some (newRoot, txn')) :
    Grows txn txn' := by
  obtain ⟨page, -, h⟩ := Option.bind_eq_some_iff.1 h
  obtain ⟨⟨t, r⟩, ht, h⟩ := Option.bind_eq_some_iff.1 h
  have hsub := insertPage (fun node txn' r h => insertInternal h) ht
  exact (hsub.trans (free t txn.root)).trans (placeRoot h)

end Grows

/-- Every page that a commit writes besides the transaction's is a full page. -/
theorem WriteTxn.length_of_prepare {txn : WriteTxn} {readers : ℕ} {newRoot : PageId}
    {w : WriterState} {chain : List (PageId × Bytes)} {header : Bytes}
    (h : txn.prepare readers newRoot = some (w, chain, header)) :
    (∀ p ∈ chain, p.2.length = txn.pageSize) ∧ header.length = txn.pageSize := by
  obtain ⟨⟨w', chain', head, count⟩, hpersist, h⟩ := Option.bind_eq_some_iff.1 h
  obtain ⟨bytes, hb, h⟩ := Option.bind_eq_some_iff.1 h
  obtain ⟨rfl, rfl, rfl⟩ : w' = w ∧ chain' = chain ∧ bytes = header := by simpa using h
  obtain ⟨ws, hws, hpersist⟩ := Option.bind_eq_some_iff.1 hpersist
  obtain ⟨hd, -, hpersist⟩ := Option.bind_eq_some_iff.1 hpersist
  obtain ⟨-, rfl, -, -⟩ : _ = w' ∧ ws = chain' ∧ hd = head ∧ _ = count := by simpa using hpersist
  refine ⟨fun p hp => ?_, length_of_padTo hb⟩
  obtain ⟨i, hi, rfl⟩ := List.mem_iff_getElem.1 hp
  obtain ⟨id, -, hpage⟩ := Option.bind_eq_some_iff.1 ((exists_of_mapM_range hws).2 i hi)
  obtain ⟨next, -, hpage⟩ := Option.bind_eq_some_iff.1 hpage
  obtain ⟨c, -, hpage⟩ := Option.bind_eq_some_iff.1 hpage
  obtain ⟨bytes, hbytes, hpage⟩ := Option.bind_eq_some_iff.1 hpage
  rw [← Option.some.inj hpage]
  exact length_of_padTo hbytes

/-! ## Runs of a store on a file -/

namespace FileStore

variable {fs fs' : FileStore} {key : Key} {val : Val} {p q : ℕ}

/-- What an accepted put does. -/
theorem put_spec (h : fs.put key val = some (.ok fs')) :
    ∃ newRoot txn w chain header, buildPut fs.view.beginWrite key val = some (newRoot, txn) ∧
      txn.prepare fs.readers newRoot = some (w, chain, header) ∧
      fs.io.writePages (txn.pageWrites chain header) = .ok fs'.io ∧
      checkLimits fs.io.pageSize key val = .ok () ∧
      fs'.root = newRoot ∧ fs'.readers = fs.readers ∧ fs'.writer = w := by
  unfold put at h
  split at h
  · cases h
  · rename_i hlim
    obtain ⟨⟨newRoot, txn⟩, hbuild, h⟩ := Option.bind_eq_some_iff.1 h
    obtain ⟨⟨w, chain, header⟩, hprep, h⟩ := Option.bind_eq_some_iff.1 h
    obtain ⟨io, hio, h⟩ := Option.bind_eq_some_iff.1 h
    obtain rfl := Except.ok.inj (Option.some.inj h)
    refine ⟨newRoot, txn, w, chain, header, hbuild, hprep, ?_, hlim, rfl, rfl, rfl⟩
    rcases hw : fs.io.writePages (txn.pageWrites chain header) with e | io'
    · rw [hw] at hio
      cases hio
    · rw [hw] at hio
      obtain rfl := Option.some.inj hio
      rfl

/-- A put writes full pages. -/
theorem length_pageWrites {newRoot : PageId} {txn : WriteTxn} {w : WriterState}
    {chain : List (PageId × Bytes)} {header : Bytes} {readers : ℕ}
    (hbuild : buildPut fs.view.beginWrite key val = some (newRoot, txn))
    (hprep : txn.prepare readers newRoot = some (w, chain, header)) :
    ∀ p ∈ txn.pageWrites chain header, p.2.length = fs.io.pageSize := by
  have hgrows := Grows.buildPut hbuild
  have hsize : txn.pageSize = fs.io.pageSize := hgrows.pageSize_eq
  obtain ⟨hchain, hheader⟩ := WriteTxn.length_of_prepare hprep
  obtain ⟨ws, hws, htxn⟩ := hgrows.writes
  intro p hp
  rw [← hsize]
  rcases List.mem_append.1 hp with hp | hp
  · rcases List.mem_append.1 hp with hp | hp
    · rw [hws] at hp
      exact (htxn p hp).trans hsize.symm
    · exact hchain p hp
  · rw [List.mem_singleton.1 hp]
    exact hheader

/-- **A put on a file is a put on its view.** -/
theorem put_view (h : fs.put key val = some (.ok fs')) :
    fs.view.put key val = some (.ok fs'.view) := by
  obtain ⟨newRoot, txn, w, chain, header, hbuild, hprep, hio, hlim, hroot, hreaders, hw⟩ :=
    put_spec h
  have hview := MmapPageIo.view_writePages (length_pageWrites hbuild hprep) hio
  have hstore := (Grows.buildPut hbuild).store_eq
  have hreaders' : txn.store.readers = fs.readers := by rw [hstore]; rfl
  have hio' : txn.store.io = fs.io.view := by rw [hstore]; rfl
  have hlim' : checkLimits fs.view.beginWrite.pageSize key val = .ok () := hlim
  have hcommit : txn.commit newRoot = some fs'.view := by
    unfold WriteTxn.commit
    rw [hreaders', hprep, hio', view, hview, hroot, hreaders, hw, WriteTxn.pageWrites,
      PageIo.writePages_append, PageIo.writePages_append]
    rfl
  unfold Store.put Btree.put
  rw [hlim']
  simp only [hbuild, hcommit, Option.bind_eq_bind, Option.bind_some, Option.map_some]

end FileStore

/-- What an operation does to a store on a file, between operations. -/
inductive FileStep : FileStore → FileStore → Prop
  | accepted {fs fs' : FileStore} {key : Key} {val : Val} :
      fs.put key val = some (.ok fs') → FileStep fs fs'
  | rejected {fs : FileStore} {key : Key} {val : Val} {e : Error} :
      fs.put key val = some (.error e) → FileStep fs fs
  | enterRead (fs : FileStore) : FileStep fs fs.enterRead
  | dropGuard {fs : FileStore} : 0 < fs.readers → FileStep fs fs.dropGuard
  | reopen {fs fs' : FileStore} {io : MmapPageIo} : fs.readers = 0 →
      FileStore.openOrCreate (.openFile fs.io.file fs.io.pageSize) = .ok (io, .ok fs') →
      FileStep fs fs'

/-- The states reached from a store created on a new file with this page size. -/
def FileReachable (pageSize : ℕ) (fs : FileStore) : Prop :=
  ∃ io fs₀, FileStore.openOrCreate (.openFile [] pageSize) = .ok (io, .ok fs₀) ∧
    Relation.ReflTransGen FileStep fs₀ fs

/-- The file starts with the header of a store of page size `p`, and consists of full pages. -/
structure FileInv (p : ℕ) (fs : FileStore) : Prop where
  pageSize_eq : fs.io.pageSize = p
  le_pageSize : 49 ≤ p
  pageSize_lt : p < 2 ^ 32
  header : ∃ hd : Header, hd.pageSize = p ∧ hd.image <+: fs.io.file
  pages : p ∣ fs.io.file.length

namespace FileStore

variable {fs fs' : FileStore} {io io' : MmapPageIo} {key : Key} {val : Val} {p q : ℕ}

theorem except_bind {ε α β : Type} {x : Except ε α} {f : α → Except ε β} {b : β}
    (h : x >>= f = .ok b) : ∃ a, x = .ok a ∧ f a = .ok b := by
  cases x with
  | error e => cases h
  | ok a => exact ⟨a, rfl, h⟩

theorem pages_writePage {id : PageId} {bytes : Bytes} (hlen : bytes.length = io.pageSize)
    (hw : io.writePage id bytes = .ok io') (hpages : io.pageSize ∣ io.file.length) :
    io'.pageSize = io.pageSize ∧ io.pageSize ∣ io'.file.length := by
  obtain ⟨hsize, -, -, hfile, -⟩ := MmapPageIo.writePage_spec hlen hw
  refine ⟨hsize, ?_⟩
  rw [hfile]
  rcases max_choice io.file.length (id * io.pageSize + io.pageSize) with h | h
  · rw [h]
    exact hpages
  · rw [h]
    exact (Nat.dvd_mul_left _ _).add (Nat.dvd_refl _)

theorem pages_writePages {writes : List (PageId × Bytes)}
    (hlen : ∀ w ∈ writes, w.2.length = io.pageSize) (hw : io.writePages writes = .ok io')
    (hpages : io.pageSize ∣ io.file.length) :
    io'.pageSize = io.pageSize ∧ io.pageSize ∣ io'.file.length := by
  induction writes generalizing io with
  | nil =>
    obtain rfl := Except.ok.inj hw
    exact ⟨rfl, hpages⟩
  | cons w writes ih =>
    obtain ⟨io₁, hw₁, hw⟩ := MmapPageIo.writePages_cons hw
    obtain ⟨hsize, hpages₁⟩ := pages_writePage (hlen w List.mem_cons_self) hw₁ hpages
    rw [← hsize]
    refine ih (fun w' hw' => ?_) hw (hsize ▸ hpages₁)
    rw [hsize]
    exact hlen w' (List.mem_cons_of_mem _ hw')

theorem of_orPanic {α : Type*} {x : Option α} {a : α} (h : orPanic io x = .ok a) : x = some a := by
  cases x with
  | none => cases h
  | some b =>
    obtain rfl := Except.ok.inj h
    rfl

/-- **Bootstrapping** writes the header of an empty store. -/
theorem bootstrap_spec (hboot : bootstrap io = .ok fs) :
    49 ≤ io.pageSize ∧ io.pageSize + io.pageSize ≤ io.mmapLen ∧
      fs.io.pageSize = io.pageSize ∧
      (∃ hd : Header, hd.pageSize = io.pageSize ∧ hd.image <+: fs.io.file) ∧
      (io.pageSize ∣ io.file.length → io.pageSize ∣ fs.io.file.length) := by
  obtain ⟨root, hroot, hboot⟩ := except_bind hboot
  obtain ⟨io₁, hw₁, hboot⟩ := except_bind hboot
  obtain ⟨bytes, hbytes, hboot⟩ := except_bind hboot
  obtain ⟨io₂, hw₂, hboot⟩ := except_bind hboot
  obtain ⟨st, -, rfl⟩ := Option.map_eq_some_iff.1 (of_orPanic hboot)
  have hheader := of_orPanic hbytes
  have hlen₁ : root.length = io.pageSize := length_of_padTo (of_orPanic hroot)
  obtain ⟨hsize₁, -, hle, -, -⟩ := MmapPageIo.writePage_spec hlen₁ hw₁
  have hlen₂ : bytes.length = io₁.pageSize := length_of_padTo hheader
  obtain ⟨hsize₂, -, -, -, -⟩ := MmapPageIo.writePage_spec hlen₂ hw₂
  refine ⟨hsize₁ ▸ Header.fortyNine_le_of_toBytes hheader, ?_, hsize₂.trans hsize₁, ⟨_, hsize₁,
    (Header.image_prefix_of_toBytes hheader).trans (MmapPageIo.prefix_of_writePage hw₂)⟩, ?_⟩
  · rw [INITIAL_ROOT_PAGE_ID, Nat.one_mul] at hle
    exact hle
  · intro hpages
    have hpages₁ := (pages_writePage hlen₁ hw₁ hpages).2
    rw [← hsize₁] at hpages₁ ⊢
    exact (pages_writePage hlen₂ hw₂ hpages₁).2

/-- Opening a file that starts with a header, with a page size that the header fits. -/
theorem openOrCreate_of_image {file : Bytes} {hd : Header} (hhd : hd.image <+: file)
    (hlt : hd.pageSize < 2 ^ 32) (hq : 49 ≤ q) :
    openOrCreate (.openFile file q) =
      if hd.pageSize = q then
        (orPanic (.openFile file q) (ofHeader (.openFile file q) hd)).map fun fs =>
          (.openFile file q, .ok fs)
      else .ok (.openFile file q, .error (.pageSizeMismatch q hd.pageSize)) := by
  have hstart : hd.image <+: (MmapPageIo.openFile file q).file :=
    hhd.trans (List.prefix_append _ _)
  obtain ⟨z, hz⟩ := MmapPageIo.readPage_of_isPrefix hstart
    (hd.length_image.trans_le hq) ((le_max_right _ _).trans (le_max_right _ _))
  have hread : ((MmapPageIo.openFile file q).readPage HEADER_PAGE_ID).bind Header.fromBytes =
      some (.ok hd) := by
    rw [HEADER_PAGE_ID, hz, Option.bind_some, Header.fromBytes_image z hlt]
  unfold openOrCreate
  rw [hread]
  dsimp only
  rw [MmapPageIo.pageSize_openFile]

/-- Opening a file without a header bootstraps it. -/
theorem openOrCreate_of_notAHeader
    (hread : (io.readPage HEADER_PAGE_ID).bind Header.fromBytes = some (.error .notAHeader)) :
    openOrCreate io = (bootstrap io).map fun fs => (fs.io, .ok fs) := by
  unfold openOrCreate
  rw [hread]

/-- With a page size too small for a header, `open_or_create` panics. -/
theorem openOrCreate_of_small (hq : io.pageSize < 49) (hmap : io.pageSize ≤ io.mmapLen) :
    ∃ io', openOrCreate io = .error io' := by
  have hread : (io.readPage HEADER_PAGE_ID).bind Header.fromBytes =
      some (.error .notAHeader) := by
    unfold MmapPageIo.readPage MmapPageIo.readAt
    rw [HEADER_PAGE_ID, Nat.zero_mul, Nat.zero_add, if_pos hmap, Option.bind_some]
    refine Header.fromBytes_of_length_lt ?_
    rw [List.length_map, List.length_range]
    exact hq
  rw [openOrCreate_of_notAHeader hread]
  rcases hboot : bootstrap io with io' | fs
  · exact ⟨io', rfl⟩
  · exact absurd (bootstrap_spec hboot).1 (not_le.2 hq)

end FileStore

/-! ## Files of stores -/

section FileInv

open FileStore

variable {fs fs' : FileStore} {io : MmapPageIo} {key : Key} {val : Val} {p q : ℕ}

theorem FileInv.create (h : openOrCreate (.openFile [] p) = .ok (io, .ok fs)) : FileInv p fs := by
  have hread : ((MmapPageIo.openFile [] p).readPage HEADER_PAGE_ID).bind Header.fromBytes =
      some (.error .notAHeader) := by
    have hmap : p ≤ (MmapPageIo.openFile [] p).mmapLen :=
      (le_max_right _ _).trans (le_max_right _ _)
    have hzeros : ((List.range p).map fun i => (MmapPageIo.openFile [] p).file.getD (0 + i) 0) =
        List.replicate p 0 := by
      refine List.eq_replicate_iff.2 ⟨by simp, fun b hb => ?_⟩
      obtain ⟨i, -, rfl⟩ := List.mem_map.1 hb
      rw [MmapPageIo.file_openFile, MmapPageIo.getD_setLen]
      rfl
    unfold MmapPageIo.readPage MmapPageIo.readAt
    rw [MmapPageIo.pageSize_openFile, HEADER_PAGE_ID, Nat.zero_mul, Nat.zero_add, if_pos hmap,
      Option.bind_some, hzeros]
    exact Header.fromBytes_zeros p
  rw [openOrCreate_of_notAHeader hread] at h
  rcases hboot : bootstrap (.openFile [] p) with io' | fs'
  · rw [hboot] at h
    cases h
  · rw [hboot] at h
    obtain ⟨-, hfs⟩ := Prod.mk.inj (Except.ok.inj h)
    obtain rfl := Except.ok.inj hfs
    obtain ⟨hle, hmap, hsize, hheader, hpages⟩ := bootstrap_spec hboot
    have hlt : p + p ≤ max DEFAULT_MAX_SIZE (max 0 p) := hmap
    unfold DEFAULT_MAX_SIZE at hlt
    have hle' : 49 ≤ p := hle
    refine ⟨hsize, hle, by omega, hheader, hpages ?_⟩
    rw [MmapPageIo.file_openFile, MmapPageIo.length_setLen, List.length_nil, Nat.zero_max,
      Nat.zero_max]
    exact Nat.dvd_refl p

theorem FileInv.put (hinv : FileInv p fs) (hput : fs.put key val = some (.ok fs')) :
    FileInv p fs' := by
  obtain ⟨newRoot, txn, w, chain, header, hbuild, hprep, hio, -⟩ := put_spec hput
  have hsize : txn.pageSize = fs.io.pageSize := (Grows.buildPut hbuild).pageSize_eq
  have hlen := length_pageWrites hbuild hprep
  obtain ⟨hsize', hpages⟩ := pages_writePages hlen hio (hinv.pageSize_eq ▸ hinv.pages)
  -- the header is written last, and to the start of the file
  obtain ⟨io₁, -, hlast⟩ := MmapPageIo.writePages_concat hio
  have hstart := MmapPageIo.prefix_of_writePage hlast
  have hheader := (prepare_spec hprep).2.2
  refine ⟨hsize'.trans hinv.pageSize_eq, hinv.le_pageSize, hinv.pageSize_lt,
    ⟨_, hsize.trans hinv.pageSize_eq,
      (Header.image_prefix_of_toBytes hheader).trans hstart⟩, ?_⟩
  rw [← hinv.pageSize_eq]
  exact hpages

theorem FileInv.reopen (hinv : FileInv p fs)
    (hopen : openOrCreate (.openFile fs.io.file fs.io.pageSize) = .ok (io, .ok fs')) :
    FileInv p fs' := by
  obtain ⟨hd, hhd, hstart⟩ := hinv.header
  rw [hinv.pageSize_eq, openOrCreate_of_image hstart (hhd ▸ hinv.pageSize_lt) hinv.le_pageSize,
    if_pos hhd] at hopen
  rcases hload : ofHeader (.openFile fs.io.file p) hd with _ | fs₁
  · rw [hload] at hopen
    cases hopen
  · rw [hload] at hopen
    obtain ⟨-, hfs⟩ := Prod.mk.inj (Except.ok.inj hopen)
    obtain rfl := Except.ok.inj hfs
    obtain ⟨st, -, rfl⟩ := Option.map_eq_some_iff.1 hload
    refine ⟨rfl, hinv.le_pageSize, hinv.pageSize_lt, ⟨hd, hhd, ?_⟩, ?_⟩
    · exact hstart.trans (MmapPageIo.prefix_setLen _ _)
    · have hfile : (MmapPageIo.openFile fs.io.file p).file.length = max fs.io.file.length p := by
        rw [MmapPageIo.file_openFile, MmapPageIo.length_setLen]
        exact max_eq_right (le_max_left _ _)
      change p ∣ (MmapPageIo.openFile fs.io.file p).file.length
      rw [hfile]
      rcases max_choice fs.io.file.length p with h | h
      · rw [h]
        exact hinv.pages
      · rw [h]

theorem FileReachable.inv (hreach : FileReachable p fs) : FileInv p fs := by
  obtain ⟨io, fs₀, hfs₀, hrun⟩ := hreach
  induction hrun with
  | refl => exact FileInv.create hfs₀
  | tail _ hstep ih =>
    cases hstep with
    | accepted hput => exact ih.put hput
    | rejected _ => exact ih
    | enterRead => exact ⟨ih.1, ih.2, ih.3, ih.4, ih.5⟩
    | dropGuard _ => exact ⟨ih.1, ih.2, ih.3, ih.4, ih.5⟩
    | reopen _ hopen => exact ih.reopen hopen

/-! ## Opening with another page size -/

/-- The two stores read the same pages and have the same state. -/
structure SameStore (fs fs' : FileStore) : Prop where
  root_eq : fs'.root = fs.root
  readers_eq : fs'.readers = fs.readers
  writer_eq : fs'.writer = fs.writer
  pageSize_eq : fs'.io.pageSize = fs.io.pageSize
  readPage_eq : ∀ id, fs'.view.io.readPage id = fs.view.io.readPage id

/-- Opening the file of a store of page size `p` with page size `q` is refused, leaves every byte
of the file as it is, and leaves a file that opens with `p` as the same store. -/
def RefusedUntouched (file : Bytes) (p q : ℕ) : Prop :=
  ∃ io persisted, openOrCreate (.openFile file q) =
      .ok (io, .error (.pageSizeMismatch q persisted)) ∧
    (∃ n, io.file = file ++ List.replicate n 0) ∧
    ∀ io₁ fs₁, openOrCreate (.openFile file p) = .ok (io₁, .ok fs₁) →
      ∃ io₂ fs₂, openOrCreate (.openFile io.file p) = .ok (io₂, .ok fs₂) ∧ SameStore fs₁ fs₂

theorem loadFreeListChain_congr {io io' : PageIo} (hread : ∀ id, io'.readPage id = io.readPage id)
    (fuel : ℕ) (cur : PageId) :
    loadFreeListChain io' fuel cur = loadFreeListChain io fuel cur := by
  induction fuel generalizing cur with
  | zero => rfl
  | succ fuel ih =>
    unfold loadFreeListChain
    rw [hread]
    simp only [ih]

/-- Zeros at the end of a file of full pages are not seen. -/
theorem readPage_setLen {file : Bytes} (hpages : p ∣ file.length) (len : ℕ) (id : PageId) :
    (MmapPageIo.openFile (MmapPageIo.setLen file len) p).view.readPage id =
      (MmapPageIo.openFile file p).view.readPage id := by
  have hmap₁ : (MmapPageIo.openFile file p).mmapLen =
      max DEFAULT_MAX_SIZE (max file.length p) := rfl
  have hmap₂ : (MmapPageIo.openFile (MmapPageIo.setLen file len) p).mmapLen =
      max DEFAULT_MAX_SIZE (max (max file.length len) p) := by
    rw [← MmapPageIo.length_setLen]
    rfl
  unfold PageIo.readPage MmapPageIo.view MmapPageIo.readPage MmapPageIo.readAt
  simp only [MmapPageIo.pageSize_openFile, MmapPageIo.file_openFile, MmapPageIo.getD_setLen,
    hmap₁, hmap₂]
  split_ifs with h₂ h₁ h₁
  · rfl
  · -- the page lies past the end of the file
    refine List.eq_replicate_iff.2 ⟨by simp, fun b hb => ?_⟩
    obtain ⟨i, -, rfl⟩ := List.mem_map.1 hb
    refine List.getD_eq_default _ _ ?_
    obtain ⟨k, hk⟩ := hpages
    have hlt : p * k < p * (id + 1) := by
      rw [← hk, Nat.mul_succ, Nat.mul_comm p id]
      omega
    have hle := Nat.mul_le_mul_left p (Nat.lt_succ_iff.1 (Nat.lt_of_mul_lt_mul_left hlt))
    rw [hk, Nat.mul_comm id p]
    exact hle.trans (Nat.le_add_right _ _)
  · omega
  · rfl

theorem SameStore.of_header {io io' : MmapPageIo} {hd : Header}
    (hread : ∀ id, io'.view.readPage id = io.view.readPage id) (hsize : io'.pageSize = io.pageSize)
    (h : ofHeader io hd = some fs) : ∃ fs', ofHeader io' hd = some fs' ∧ SameStore fs fs' := by
  obtain ⟨st, hst, rfl⟩ := Option.map_eq_some_iff.1 h
  obtain ⟨⟨free, ids⟩, hload, hst⟩ := Option.bind_eq_some_iff.1 hst
  obtain rfl := Option.some.inj hst
  refine ⟨⟨io', hd.rootId, 0, ⟨hd.nextPageId, free, [], ids⟩⟩, ?_, rfl, rfl, rfl, hsize, hread⟩
  unfold ofHeader Store.ofHeader
  rw [loadFreeListChain_congr hread, hload]
  rfl

theorem refusedUntouched_of_le (hinv : FileInv p fs) (hne : q ≠ p) (hq : 49 ≤ q) :
    RefusedUntouched fs.io.file p q := by
  obtain ⟨hd, hhd, hstart⟩ := hinv.header
  have hlt : hd.pageSize < 2 ^ 32 := hhd ▸ hinv.pageSize_lt
  refine ⟨.openFile fs.io.file q, hd.pageSize, ?_, ⟨_, rfl⟩, fun io₁ fs₁ hopen => ?_⟩
  · rw [openOrCreate_of_image hstart hlt hq, if_neg]
    exact fun h => hne (h.symm.trans hhd)
  · have hread := fun id => readPage_setLen hinv.pages (max fs.io.file.length q) id
    rw [openOrCreate_of_image hstart hlt hinv.le_pageSize, if_pos hhd] at hopen
    rw [MmapPageIo.file_openFile,
      openOrCreate_of_image (hstart.trans (MmapPageIo.prefix_setLen _ _)) hlt hinv.le_pageSize,
      if_pos hhd]
    rcases hload : ofHeader (.openFile fs.io.file p) hd with _ | fs'
    · rw [hload] at hopen
      cases hopen
    · rw [hload] at hopen
      obtain ⟨-, hfs⟩ := Prod.mk.inj (Except.ok.inj hopen)
      obtain rfl := Except.ok.inj hfs
      obtain ⟨fs₂, hload₂, hsame⟩ := SameStore.of_header hread rfl hload
      exact ⟨_, fs₂, by rw [hload₂]; rfl, hsame⟩

theorem not_refusedUntouched_of_lt (hq : q < 49) (file : Bytes) : ¬RefusedUntouched file p q := by
  rintro ⟨io, persisted, hopen, -⟩
  obtain ⟨io', herror⟩ := @openOrCreate_of_small (.openFile file q) hq
    ((le_max_right _ _).trans (le_max_right _ _))
  rw [herror] at hopen
  cases hopen

/-- **Opening with a wrong page size** is refused and touches nothing exactly if a page of the
requested size can hold a header. -/
theorem wrong_page_size_refused_iff (hreach : FileReachable p fs) (hne : q ≠ p) :
    RefusedUntouched fs.io.file p q ↔ 49 ≤ q := by
  constructor
  · intro h
    by_contra hq
    exact not_refusedUntouched_of_lt (not_le.1 hq) _ h
  · exact refusedUntouched_of_le hreach.inv hne

end FileInv

/-! ## A store of 64-byte pages opened with 16-byte pages -/

/-- Puts in a row, each of which must be accepted. -/
def FileStore.putAll (fs : FileStore) : List (Key × Val) → Option FileStore
  | [] => some fs
  | (key, val) :: puts => (succeeded (fs.put key val)).bind fun fs' => fs'.putAll puts

/-- The file of a new store after some puts. -/
def fileSession (pageSize : ℕ) (puts : List (Key × Val)) : Option FileStore :=
  (FileStore.openOrCreate (.openFile [] pageSize)).toOption.bind fun r =>
    r.2.toOption.bind fun fs => fs.putAll puts

/-- The file that opening with a page size leaves behind. -/
def fileAfter (file : Bytes) (pageSize : ℕ) : Bytes :=
  (FileStore.backendAfter (FileStore.openOrCreate (.openFile file pageSize))).file

/-- The page size that opening with a page size reports to be the file's. -/
def reportedPageSize (file : Bytes) (pageSize : ℕ) : Option ℕ :=
  match FileStore.openOrCreate (.openFile file pageSize) with
  | .ok (_, .error (.pageSizeMismatch _ persisted)) => some persisted
  | _ => none

theorem FileStore.reachable_putAll {pageSize : ℕ} {fs fs' : FileStore} {puts : List (Key × Val)}
    (hreach : FileReachable pageSize fs) (hputs : fs.putAll puts = some fs') :
    FileReachable pageSize fs' := by
  induction puts generalizing fs with
  | nil =>
    obtain rfl := Option.some.inj hputs
    exact hreach
  | cons e puts ih =>
    obtain ⟨fs₁, hput, hputs⟩ := Option.bind_eq_some_iff.1 hputs
    obtain ⟨io, fs₀, hfs₀, hrun⟩ := hreach
    exact ih ⟨io, fs₀, hfs₀, hrun.tail (.accepted (succeeded_eq_some hput))⟩ hputs

theorem fileReachable_of_fileSession {pageSize : ℕ} {puts : List (Key × Val)} {fs : FileStore}
    (hfs : fileSession pageSize puts = some fs) : FileReachable pageSize fs := by
  obtain ⟨r, hr, hfs⟩ := Option.bind_eq_some_iff.1 hfs
  obtain ⟨fs₀, hfs₀, hputs⟩ := Option.bind_eq_some_iff.1 hfs
  refine FileStore.reachable_putAll ⟨r.1, fs₀, ?_, .refl⟩ hputs
  rcases hopen : FileStore.openOrCreate (.openFile [] pageSize) with io | ⟨io, e | fs⟩
  · rw [hopen] at hr
    cases hr
  · rw [hopen] at hr
    obtain rfl := Option.some.inj hr
    cases hfs₀
  · rw [hopen] at hr
    obtain rfl := Option.some.inj hr
    obtain rfl := Option.some.inj hfs₀
    rfl

/-- The theorem on a store of 64-byte pages opened with 128-byte pages. -/
theorem wrong_page_size_refused_session : ∃ fs, fileSession 64 [([1], [7])] = some fs ∧
    (RefusedUntouched fs.io.file 64 128 ↔ 49 ≤ 128) := by
  obtain ⟨fs, hfs⟩ := Option.isSome_iff_exists.1
    (show (fileSession 64 [([1], [7])]).isSome = true by decide +kernel)
  exact ⟨fs, hfs, wrong_page_size_refused_iff (fileReachable_of_fileSession hfs) (by decide)⟩

/-- **A page size too small for a header overwrites the file**: opened with 16-byte pages, a file of
64-byte pages gets an empty leaf written over its header, and no longer opens with 64. -/
theorem wrong_page_size_overwrites : ∃ fs, FileReachable 64 fs ∧
    ¬RefusedUntouched fs.io.file 64 16 ∧ ¬fs.io.file <+: fileAfter fs.io.file 16 ∧
    reportedPageSize (fileAfter fs.io.file 16) 64 = some 16777280 := by
  have hrun : (fileSession 64 [([1], [7])]).map (fun fs =>
      (decide (fs.io.file <+: fileAfter fs.io.file 16),
        reportedPageSize (fileAfter fs.io.file 16) 64)) = some (false, some 16777280) := by
    decide +kernel
  obtain ⟨fs, hfs, hrun⟩ := Option.map_eq_some_iff.1 hrun
  obtain ⟨hstart, hreported⟩ := Prod.mk.inj hrun
  exact ⟨fs, fileReachable_of_fileSession hfs, not_refusedUntouched_of_lt (by decide) _,
    of_decide_eq_false hstart, hreported⟩

end CowRaft.Btree
