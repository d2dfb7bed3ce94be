import CowRaft.Btree.FileStore
import CowRaft.Btree.Recovery
import CowRaft.Btree.WellFormed

/-!
# Runs of an engine on a file

A store on a file reads what its view reads, however long the mapping is. So an engine on a file
answers as the engine in memory, and with it as a map, until a page does not fit the reserved
mapping. Then a put panics in the middle of its commit. What a crash or such a panic leaves of a put
is opened again as the file was before, unless the header was written or a page changed of the
free-list chain that the old header names (`file_runs_refine`).
-/

namespace CowRaft.Btree

open Bytes

/-! ## What a file reads as -/

/-- The file consists of full pages, all of which are mapped. -/
structure FileOK (pageSize : ℕ) (io : MmapPageIo) : Prop where
  pageSize_eq : io.pageSize = pageSize
  pages : pageSize ∣ io.file.length
  first : pageSize ≤ io.file.length
  mapped : io.file.length ≤ io.mmapLen

namespace FileOK

variable {pageSize : ℕ} {io io' : MmapPageIo} {id : PageId} {bytes : Bytes}
  {ws : List (PageId × Bytes)}

theorem openFile {file : Bytes} (hpages : pageSize ∣ file.length) :
    FileOK pageSize (.openFile file pageSize) := by
  have hlen : (MmapPageIo.openFile file pageSize).file.length = max file.length pageSize := by
    rw [MmapPageIo.file_openFile, MmapPageIo.length_setLen]
    exact max_eq_right (le_max_left _ _)
  refine ⟨rfl, ?_, hlen ▸ le_max_right _ _, hlen ▸ le_max_right _ _⟩
  rw [hlen]
  rcases max_choice file.length pageSize with h | h
  · rw [h]
    exact hpages
  · rw [h]

/-- **A page reads as the bytes of the file**, and as zeros past its end. -/
theorem readPage_eq (hok : FileOK pageSize io) (id : PageId) : io.view.readPage id =
    (List.range pageSize).map fun i => io.file.getD (id * pageSize + i) 0 := by
  unfold PageIo.readPage MmapPageIo.view MmapPageIo.readPage MmapPageIo.readAt
  simp only [hok.pageSize_eq]
  split_ifs with hmap
  · rfl
  · -- the page is not mapped, and so lies past the end of the file
    refine (List.eq_replicate_iff.2 ⟨by simp, fun b hb => ?_⟩).symm
    obtain ⟨i, -, rfl⟩ := List.mem_map.1 hb
    refine List.getD_eq_default _ _ ?_
    obtain ⟨k, hk⟩ := hok.pages
    have hlt : pageSize * k < pageSize * (id + 1) := by
      have hmapped := hok.mapped
      rw [← hk, Nat.mul_succ, Nat.mul_comm pageSize id]
      omega
    have hle := Nat.mul_le_mul_left pageSize (Nat.lt_succ_iff.1 (Nat.lt_of_mul_lt_mul_left hlt))
    rw [hk, Nat.mul_comm id pageSize]
    exact hle.trans (Nat.le_add_right _ _)

/-- The header page is mapped. -/
theorem readPage_header (hok : FileOK pageSize io) :
    io.readPage HEADER_PAGE_ID = some (io.view.readPage HEADER_PAGE_ID) := by
  have hle := hok.first.trans hok.mapped
  rw [hok.readPage_eq]
  unfold MmapPageIo.readPage MmapPageIo.readAt HEADER_PAGE_ID
  simp only [hok.pageSize_eq, Nat.zero_mul, Nat.zero_add, if_pos hle]

/-- Opening a file with the same bytes, and zeros behind them, changes no page. -/
theorem readPage_openFile (hok : FileOK pageSize io) {file : Bytes}
    (hpages : pageSize ∣ file.length) (hfile : ∀ i, file.getD i 0 = io.file.getD i 0)
    (id : PageId) :
    (MmapPageIo.openFile file pageSize).view.readPage id = io.view.readPage id := by
  rw [(openFile hpages).readPage_eq, hok.readPage_eq]
  refine List.map_congr_left fun i _ => ?_
  rw [MmapPageIo.file_openFile, MmapPageIo.getD_setLen, hfile]

theorem writePage (hok : FileOK pageSize io) (hlen : bytes.length = pageSize)
    (hw : io.writePage id bytes = .ok io') : FileOK pageSize io' := by
  rw [← hok.pageSize_eq] at hlen
  obtain ⟨hsize, hmap, hle, hfile, -⟩ := MmapPageIo.writePage_spec hlen hw
  have hge : io.file.length ≤ io'.file.length := hfile ▸ le_max_left _ _
  have hmax := max_le hok.mapped hle
  rw [← hfile] at hmax
  have hpages := (FileStore.pages_writePage hlen hw (hok.pageSize_eq ▸ hok.pages)).2
  exact ⟨hsize.trans hok.pageSize_eq, hok.pageSize_eq ▸ hpages, hok.first.trans hge,
    hmap.symm ▸ hmax⟩

theorem writePages (hok : FileOK pageSize io) (hlen : ∀ w ∈ ws, w.2.length = pageSize)
    (hw : io.writePages ws = .ok io') : FileOK pageSize io' := by
  induction ws generalizing io with
  | nil =>
    obtain rfl := Except.ok.inj hw
    exact hok
  | cons w ws ih =>
    obtain ⟨io₁, hw₁, hw⟩ := MmapPageIo.writePages_cons hw
    exact ih (hok.writePage (hlen w List.mem_cons_self) hw₁)
      (fun w' hw' => hlen w' (List.mem_cons_of_mem _ hw')) hw

end FileOK

/-! ## Writing until the mapping ends -/

namespace MmapPageIo

variable {pageSize : ℕ} {io io' : MmapPageIo} {id : PageId} {bytes : Bytes}
  {w : PageId × Bytes} {ws : List (PageId × Bytes)}

/-- The page fits the mapping. -/
def Fits (io : MmapPageIo) (id : PageId) : Prop := id * io.pageSize + io.pageSize ≤ io.mmapLen

instance (io : MmapPageIo) (id : PageId) : Decidable (io.Fits id) :=
  inferInstanceAs (Decidable (_ ≤ _))

/-- The page writes before the first one that does not fit. -/
def performed (io : MmapPageIo) (ws : List (PageId × Bytes)) : List (PageId × Bytes) :=
  ws.takeWhile fun w => io.Fits w.1

theorem writePage_of_fits (hlen : bytes.length = io.pageSize) (hfits : io.Fits id) :
    ∃ io', io.writePage id bytes = .ok io' ∧ io'.pageSize = io.pageSize ∧
      io'.mmapLen = io.mmapLen := by
  obtain ⟨hsize, hmap, -, -⟩ := io.ensureCommitted_spec (id * io.pageSize + io.pageSize)
  have hle : id * io.pageSize + io.pageSize ≤ io.mmapLen := hfits
  unfold writePage writeAt
  rw [hlen, hmap, if_pos hle]
  exact ⟨_, rfl, hsize, rfl⟩

/-- A page write past the mapping panics, once the file has grown. -/
theorem writePage_of_not_fits (hlen : bytes.length = io.pageSize) (hfits : ¬io.Fits id) :
    io.writePage id bytes = .error (io.ensureCommitted (id * io.pageSize + io.pageSize)) := by
  obtain ⟨-, hmap, -, -⟩ := io.ensureCommitted_spec (id * io.pageSize + io.pageSize)
  have hgt : ¬id * io.pageSize + io.pageSize ≤ io.mmapLen := hfits
  unfold writePage writeAt
  rw [hlen, hmap, if_neg hgt]

theorem performed_cons : io.performed (w :: ws) =
    if io.Fits w.1 then w :: io.performed ws else [] := by
  unfold performed
  rw [List.takeWhile_cons]
  simp only [decide_eq_true_eq]

theorem fits_congr (hsize : io'.pageSize = io.pageSize) (hmap : io'.mmapLen = io.mmapLen) :
    io'.Fits id ↔ io.Fits id := by
  unfold Fits
  rw [hsize, hmap]

theorem performed_congr (hsize : io'.pageSize = io.pageSize) (hmap : io'.mmapLen = io.mmapLen) :
    io'.performed ws = io.performed ws := by
  unfold performed
  simp only [fits_congr hsize hmap]

/-- **A sequence of page writes** is performed up to the first page that does not fit, where it
panics with nothing but zeros added to the file. -/
theorem writePages_performed (hlen : ∀ w ∈ ws, w.2.length = io.pageSize) :
    ∃ io₁, io.writePages (io.performed ws) = .ok io₁ ∧
      ((∀ w ∈ ws, io.Fits w.1) ∧ io.writePages ws = .ok io₁ ∨
        (∃ w ∈ ws, ¬io.Fits w.1) ∧ ∃ n, io.writePages ws =
          .error (io₁.ensureCommitted (n * io.pageSize + io.pageSize))) := by
  induction ws generalizing io with
  | nil => exact ⟨io, rfl, Or.inl ⟨fun w hw => absurd hw List.not_mem_nil, rfl⟩⟩
  | cons w ws ih =>
    have hfull := hlen w List.mem_cons_self
    rw [performed_cons]
    split_ifs with hfits
    · obtain ⟨io₁, hw, hsize, hmap⟩ := writePage_of_fits hfull hfits
      obtain ⟨io₂, hperf, hrest⟩ := @ih io₁ fun w' hw' => by
        rw [hsize]
        exact hlen w' (List.mem_cons_of_mem _ hw')
      rw [performed_congr hsize hmap] at hperf
      have hcons : ∀ ws', io.writePages (w :: ws') = io₁.writePages ws' := fun ws' => by
        unfold writePages
        rw [List.foldlM_cons, hw]
        rfl
      refine ⟨io₂, (hcons _).trans hperf, ?_⟩
      rw [hcons]
      simp only [fits_congr hsize hmap, hsize] at hrest
      refine hrest.imp (fun ⟨hall, hok⟩ => ⟨fun v hv => ?_, hok⟩) fun ⟨⟨v, hv, hnot⟩, herr⟩ =>
        ⟨⟨v, List.mem_cons_of_mem _ hv, hnot⟩, herr⟩
      rcases List.mem_cons.1 hv with rfl | hv
      · exact hfits
      · exact hall v hv
    · refine ⟨io, rfl, Or.inr ⟨⟨w, List.mem_cons_self, hfits⟩, w.1, ?_⟩⟩
      unfold writePages
      rw [List.foldlM_cons, writePage_of_not_fits hfull hfits]
      rfl

end MmapPageIo

/-! ## Stores on files -/

/-- The page is not a tree page. -/
theorem Page.decode_zeros (id : PageId) (n : ℕ) : Page.decode id (List.replicate n 0) = none := by
  cases n with
  | zero => rfl
  | succ n =>
    unfold Page.decode
    rw [List.replicate_succ, List.head?_cons]
    exact (if_neg (by decide)).trans (if_neg (by decide))

/-- Live pages are read without running past the mapping. -/
theorem Simulated.live_mapped {pageSize : ℕ} {fs : FileStore} {m : Key → Option Val}
    (hsim : Simulated pageSize fs.view m) {p : PageId} (hp : fs.view.Live p) :
    ∃ bytes, fs.io.readPage p = some bytes := by
  obtain ⟨st₁, -, hrep, ha⟩ := hsim.exists_alike
  obtain ⟨h, hinv, hok, -⟩ := hrep.tree
  have hlive := (ha.live_iff hinv).1 hp
  by_contra hnone
  have hzeros : fs.view.io.readPage p = List.replicate fs.io.pageSize 0 := by
    have h := Option.eq_none_iff_forall_ne_some.2 fun b hb => hnone ⟨b, hb⟩
    change (fs.io.readPage p).getD _ = _
    rw [h]
    rfl
  obtain ⟨page, hdec, -⟩ := (hinv.wellFormedTree hinv.pageSize_lt hok).decodes p hlive
  rw [← ha.tree p hlive, hzeros, Page.decode_zeros] at hdec
  cases hdec

namespace FileStore

variable {pageSize : ℕ} {fs fs' : FileStore} {io : MmapPageIo} {key : Key} {val : Val}
  {m : Key → Option Val} {ws kept : List (PageId × Bytes)}

/-- `StorageEngine::get` on a file. -/
def get (fs : FileStore) (key : Key) : Option (Option Val) := fs.view.get key

def apply (fs : FileStore) : Op → Option (FileStore × Response)
  | .put key val => (fs.put key val).map fun
    | .ok fs' => (fs', .put (.ok ()))
    | .error e => (fs, .put (.error e))
  | .get key => (fs.get key).map fun result => (fs, .get result)
  | .enterRead => some (fs.enterRead, .unit)
  | .dropGuard => some (fs.dropGuard, .unit)

/-- The file is in order, and the store reads it as a simulated one. -/
structure Sim (pageSize : ℕ) (fs : FileStore) (m : Key → Option Val) : Prop where
  ok : FileOK pageSize fs.io
  sim : Simulated pageSize fs.view m

/-- **Opening a file** that reads as a simulated store. -/
theorem Sim.of_file {st : Store} {file : Bytes} (hsim : Simulated pageSize st m)
    (hpages : pageSize ∣ file.length) (hread : ∀ id,
      (MmapPageIo.openFile file pageSize).view.readPage id = st.io.readPage id) :
    ∃ fs, openOrCreate (.openFile file pageSize) = .ok (.openFile file pageSize, .ok fs) ∧
      Sim pageSize fs m := by
  have hok := FileOK.openFile hpages
  obtain ⟨io, hio⟩ : ∃ io, io = MmapPageIo.openFile file pageSize := ⟨_, rfl⟩
  rw [← hio] at hread hok ⊢
  obtain ⟨hd, st', hhd, hopen, hst', hsim'⟩ :=
    hsim.open_same (hok.pageSize_eq.trans hsim.pageSize_eq.symm) hread
  have hfirst : (io.readPage HEADER_PAGE_ID).bind Header.fromBytes = some (.ok hd) := by
    rw [hok.readPage_header]
    exact hhd
  simp only [Store.openOrCreate, hhd, Option.bind_eq_bind, Option.bind_some] at hopen
  split_ifs at hopen with hsize
  · obtain ⟨st'', hload, heq⟩ := Option.map_eq_some_iff.1 hopen
    obtain rfl := Except.ok.inj heq
    refine ⟨⟨io, st''.root, st''.readers, st''.writer⟩, ?_, hok, ?_⟩
    · have hsize' : hd.pageSize = io.pageSize := hsize
      unfold openOrCreate ofHeader
      rw [hfirst]
      dsimp only
      rw [if_pos hsize', hload]
      rfl
    · have hview : FileStore.view ⟨io, st''.root, st''.readers, st''.writer⟩ = st'' := by
        unfold view
        rw [← hst']
      rw [hview]
      exact hsim'
  · cases hopen

/-- **A new file** holds the empty map. -/
theorem Sim.create (hle : 49 ≤ pageSize) (hge : pageSize ≤ 32768) :
    ∃ fs, openOrCreate (.openFile [] pageSize) = .ok (fs.io, .ok fs) ∧
      Sim pageSize fs fun _ => none := by
  have hP : GoodPageSize pageSize := ⟨hle, hge.trans (by norm_num)⟩
  obtain ⟨st, hst⟩ := inMemory_isSome hle
  obtain ⟨hinv, -⟩ := inMemory_spec hP.lt hst
  obtain ⟨root, bytes, hroot, hbytes, hst'⟩ := inMemory_eq hst
  have hok : FileOK pageSize (.openFile [] pageSize) := .openFile (Nat.dvd_zero _)
  have hlen₁ : root.length = pageSize := length_of_padTo hroot
  have hlen₂ : bytes.length = pageSize := length_of_padTo hbytes
  have hmap : (MmapPageIo.openFile [] pageSize).mmapLen = 2 ^ 30 := by
    unfold MmapPageIo.openFile MmapPageIo.openWithMaxSize DEFAULT_MAX_SIZE
    rw [List.length_nil, Nat.zero_max]
    exact max_eq_left (hge.trans (by norm_num))
  have hnone : ((MmapPageIo.openFile [] pageSize).readPage HEADER_PAGE_ID).bind
      Header.fromBytes = some (.error .notAHeader) := by
    rw [hok.readPage_header, hok.readPage_eq, Option.bind_some]
    have hzeros : ((List.range pageSize).map fun i => (MmapPageIo.openFile [] pageSize).file.getD
        (HEADER_PAGE_ID * pageSize + i) 0) = List.replicate pageSize 0 := by
      refine List.eq_replicate_iff.2 ⟨by simp, fun b hb => ?_⟩
      obtain ⟨i, -, rfl⟩ := List.mem_map.1 hb
      rw [MmapPageIo.file_openFile, MmapPageIo.getD_setLen]
      rfl
    rw [hzeros]
    exact Header.fromBytes_zeros pageSize
  obtain ⟨io, hio⟩ : ∃ io, io = MmapPageIo.openFile [] pageSize := ⟨_, rfl⟩
  rw [← hio] at hok hmap hnone ⊢
  have hsize := hok.pageSize_eq
  have hfits : ∀ id ≤ 1, io.Fits id := fun id hid => by
    unfold MmapPageIo.Fits
    rw [hmap, hsize]
    exact (Nat.add_le_add_right (Nat.mul_le_mul_right pageSize hid) _).trans (by omega)
  obtain ⟨io₁, hw₁, hsize₁, hmap₁⟩ :=
    MmapPageIo.writePage_of_fits (hlen₁.trans hsize.symm) (hfits INITIAL_ROOT_PAGE_ID le_rfl)
  obtain ⟨io₂, hw₂, hsize₂, -⟩ := MmapPageIo.writePage_of_fits
    (hlen₂.trans (hsize.symm.trans hsize₁.symm))
    ((MmapPageIo.fits_congr hsize₁ hmap₁).2 (hfits HEADER_PAGE_ID zero_le_one))
  have hview : io₂.view = (io.view.writePage INITIAL_ROOT_PAGE_ID root).writePage
      HEADER_PAGE_ID bytes := by
    rw [MmapPageIo.view_writePage (hlen₂.trans (hsize.symm.trans hsize₁.symm)) hw₂,
      MmapPageIo.view_writePage (hlen₁.trans hsize.symm) hw₁]
  refine ⟨⟨io₂, INITIAL_ROOT_PAGE_ID, 0, ⟨INITIAL_ROOT_PAGE_ID + 1, [], [], []⟩⟩, ?_,
    (hok.writePage hlen₁ hw₁).writePage hlen₂ hw₂, ⟨st, ⟨st, hst, .refl⟩,
      Represents.inMemory hP hst, ?_⟩⟩
  · have hload : ofHeader io₂ (Header.new pageSize INITIAL_ROOT_PAGE_ID
        (INITIAL_ROOT_PAGE_ID + 1)) =
          some ⟨io₂, INITIAL_ROOT_PAGE_ID, 0, ⟨INITIAL_ROOT_PAGE_ID + 1, [], [], []⟩⟩ := by
      have h0 := loadFreeListChain_zero io₂.view (INITIAL_ROOT_PAGE_ID + 1 + 1)
      unfold ofHeader Store.ofHeader Header.new
      simp only [h0, Option.bind_eq_bind, Option.bind_some, Option.map_some]
    rw [openOrCreate_of_notAHeader hnone]
    unfold bootstrap
    simp only [hsize, hroot, hw₁, hsize₁, hbytes, hw₂, hload, orPanic, bind, Except.bind]
    rfl
  · have hwritten : ∀ p ∈ [(INITIAL_ROOT_PAGE_ID, root), (HEADER_PAGE_ID, bytes)].map Prod.fst,
        io₂.view.readPage p = (((PageIo.new pageSize).writePage INITIAL_ROOT_PAGE_ID
          root).writePage HEADER_PAGE_ID bytes).readPage p := fun p hp => by
      rw [hview]
      exact PageIo.readPage_writePages_congr fun hnot => absurd hp hnot
    have hlive : ∀ p, st.Live p → p = INITIAL_ROOT_PAGE_ID := fun p hp => by
      rw [hinv.live_iff, hst'] at hp
      exact List.mem_singleton.1 hp
    subst hst'
    refine ⟨rfl, rfl, rfl, ?_, ?_, fun p hp => ?_, fun p hp => absurd hp List.not_mem_nil⟩
    · exact (hsize₂.trans hsize₁).trans hsize
    · exact hwritten _ (by simp)
    · rw [hlive p hp]
      exact hwritten _ (by simp)

theorem Sim.withReaders (hsim : Sim pageSize fs m) (readers : ℕ) :
    Sim pageSize { fs with readers } m := ⟨hsim.ok, hsim.sim.withReaders readers⟩

/-- The file is opened as a store that holds the map. -/
def Reopens (pageSize : ℕ) (file : Bytes) (m : Key → Option Val) : Prop :=
  ∃ fs, openOrCreate (.openFile file pageSize) = .ok (.openFile file pageSize, .ok fs) ∧
    Sim pageSize fs m

theorem Sim.reopens (hsim : Sim pageSize fs m) : Reopens pageSize fs.io.file m :=
  Sim.of_file hsim.sim hsim.ok.pages (hsim.ok.readPage_openFile hsim.ok.pages fun _ => rfl)

/-- A put of a small entry: its writes are full pages, and it performs them or panics. -/
theorem put_eq (hlim : checkLimits fs.io.pageSize key val = .ok ())
    (hws : fs.view.putWrites key val = some ws) :
    (∀ w ∈ ws, w.2.length = fs.io.pageSize) ∧ ∃ newRoot writer, fs.put key val =
      (fs.io.writePages ws).toOption.map fun io => .ok ⟨io, newRoot, fs.readers, writer⟩ := by
  obtain ⟨⟨newRoot, txn⟩, hbuild, hws⟩ := Option.bind_eq_some_iff.1 hws
  obtain ⟨⟨w, chain, header⟩, hprep, hws⟩ := Option.bind_eq_some_iff.1 hws
  obtain rfl := Option.some.inj hws
  have hprep' : txn.prepare fs.readers newRoot = some (w, chain, header) := hprep
  refine ⟨length_pageWrites hbuild hprep, newRoot, w, ?_⟩
  unfold put
  simp only [hlim, hbuild, hprep', Option.bind_eq_bind, Option.bind_some]
  cases (fs.io.writePages (txn.pageWrites chain header)).toOption <;> rfl

/-- **After a crash** the file, with zeros added to it, is opened as it was before the put. -/
theorem Sim.of_crash {io : MmapPageIo} {file : Bytes} (hsim : Sim pageSize fs m)
    (hfull : ∀ w ∈ ws, w.2.length = pageSize)
    (hcrash : ∃ rec, Store.openOrCreate (fs.view.io.writePages kept) = some (.ok rec) ∧
      rec.io = fs.view.io.writePages kept ∧ Simulated pageSize rec m)
    (hsub : kept ⊆ ws) (hio : fs.io.writePages kept = .ok io) (hpages : pageSize ∣ file.length)
    (hfile : ∀ i, file.getD i 0 = io.file.getD i 0) : Reopens pageSize file m := by
  obtain ⟨rec, -, hrec, hsim'⟩ := hcrash
  have hlen : ∀ w ∈ kept, w.2.length = pageSize := fun w hw => hfull w (hsub hw)
  have hok := hsim.ok.writePages hlen hio
  have hview := MmapPageIo.view_writePages (fun w hw =>
    (hlen w hw).trans hsim.ok.pageSize_eq.symm) hio
  refine Sim.of_file hsim' hpages fun id => (hok.readPage_openFile hpages hfile id).trans ?_
  rw [hview, hrec]
  rfl

/-- **What a put on a file does**: it binds its key, or is refused, or panics at the end of the
mapping; and what a crash leaves of it is opened as before. -/
theorem Sim.put_cases (hP : GoodPageSize pageSize) (hsim : Sim pageSize fs m) (key : Key)
    (val : Val) :
    (¬Small pageSize (key, val) ∧ fs.put key val = some (.error (.entryTooLarge
      (key.length + val.length) (maxKvSize pageSize)))) ∨
    Small pageSize (key, val) ∧ ∃ ws, fs.view.putWrites key val = some ws ∧
      ((∀ w ∈ ws, fs.io.Fits w.1) ∧ (∃ fs', fs.put key val = some (.ok fs') ∧
          Sim pageSize fs' (Function.update m key (some val))) ∨
        (∃ w ∈ ws, ¬fs.io.Fits w.1) ∧ fs.put key val = none ∧
          ∃ io, fs.io.writePages ws = .error io ∧
            (Torn fs.view ws (fs.io.performed ws) → Reopens pageSize io.file m)) ∧
      ∀ kept io, Torn fs.view ws kept → fs.io.writePages kept = .ok io →
        Reopens pageSize io.file m := by
  have hsize := hsim.ok.pageSize_eq
  rcases hsim.sim.put_cases hP key val with ⟨hkv, -⟩ | ⟨hkv, ws, st', hput, hws, hsim', hcrash⟩
  · refine Or.inl ⟨hkv, ?_⟩
    unfold put
    rw [hsize, checkLimits_of_not_small hkv]
  refine Or.inr ⟨hkv, ws, hws, ?_, fun kept io htorn hio => ?_⟩
  · obtain ⟨hfull, newRoot, writer, hput'⟩ :=
      put_eq (hsize ▸ checkLimits_eq_ok_iff.2 hkv) hws
    obtain ⟨io₁, hperf, ⟨hall, hio⟩ | ⟨hsome, n, hio⟩⟩ := MmapPageIo.writePages_performed hfull
    · refine Or.inl ⟨hall, ⟨io₁, newRoot, fs.readers, writer⟩, ?_, ?_, ?_⟩
      · rw [hput', hio]
        rfl
      · exact hsim.ok.writePages (hsize ▸ hfull) hio
      · have hview : fs.view.put key val =
            some (.ok (FileStore.view ⟨io₁, newRoot, fs.readers, writer⟩)) := put_view (by
          rw [hput', hio]
          rfl)
        rw [hput, Option.some.injEq, Except.ok.injEq] at hview
        exact hview ▸ hsim'
    · refine Or.inr ⟨hsome, ?_, _, hio, fun htorn => ?_⟩
      · rw [hput', hio]
        rfl
      · obtain ⟨-, -, hlen, hget⟩ := io₁.ensureCommitted_spec (n * fs.io.pageSize + fs.io.pageSize)
        have hok := hsim.ok.writePages
          (fun w hw => (hfull w ((List.takeWhile_sublist _).subset hw)).trans hsize) hperf
        refine hsim.of_crash (hsize ▸ hfull) (hcrash _ htorn)
          (List.takeWhile_sublist _).subset hperf ?_ hget
        rw [hlen, hsize]
        rcases max_choice io₁.file.length (n * pageSize + pageSize) with h | h
        · rw [h]
          exact hok.pages
        · rw [h]
          exact (Nat.dvd_mul_left _ _).add (Nat.dvd_refl _)
  · obtain ⟨hfull, -⟩ := put_eq (hsize ▸ checkLimits_eq_ok_iff.2 hkv) hws
    have hsub := htorn.some_of.subset
    have hok := hsim.ok.writePages (fun w hw => (hfull w (hsub hw)).trans hsize) hio
    exact hsim.of_crash (hsize ▸ hfull) (hcrash _ htorn) hsub hio hok.pages fun _ => rfl

end FileStore

/-! ## Runs -/

open FileStore

/-- The runs of an engine on a file that is closed and opened, crashes in the middle of puts and
panics when the mapping ends, with the map that its completed puts make. What a crash or a panic
leaves of a put is neither its header nor a change to the chain that the old header names. -/
inductive FileRun (pageSize : ℕ) : FileStore → (Key → Option Val) → Prop
  | create {io : MmapPageIo} {fs : FileStore}
      (hopen : openOrCreate (.openFile [] pageSize) = .ok (io, .ok fs)) :
      FileRun pageSize fs fun _ => none
  | op {fs fs' : FileStore} {m : Key → Option Val} {o : Op} {r : Response}
      (hrun : FileRun pageSize fs m) (ho : fs.apply o = some (fs', r)) :
      FileRun pageSize fs' (mapSpec pageSize m o).1
  | reopen {io : MmapPageIo} {fs fs' : FileStore} {m : Key → Option Val}
      (hrun : FileRun pageSize fs m)
      (hopen : openOrCreate (.openFile fs.io.file pageSize) = .ok (io, .ok fs')) :
      FileRun pageSize fs' m
  | crash {io io' : MmapPageIo} {fs fs' : FileStore} {m : Key → Option Val} {key : Key} {val : Val}
      {ws kept : List (PageId × Bytes)} (hrun : FileRun pageSize fs m)
      (hkv : Small pageSize (key, val)) (hws : fs.view.putWrites key val = some ws)
      (htorn : Torn fs.view ws kept) (hio : fs.io.writePages kept = .ok io)
      (hopen : openOrCreate (.openFile io.file pageSize) = .ok (io', .ok fs')) :
      FileRun pageSize fs' m
  | outgrown {io io' : MmapPageIo} {fs fs' : FileStore} {m : Key → Option Val} {key : Key}
      {val : Val} {ws : List (PageId × Bytes)} (hrun : FileRun pageSize fs m)
      (hkv : Small pageSize (key, val)) (hws : fs.view.putWrites key val = some ws)
      (hio : fs.io.writePages ws = .error io) (htorn : Torn fs.view ws (fs.io.performed ws))
      (hopen : openOrCreate (.openFile io.file pageSize) = .ok (io', .ok fs')) :
      FileRun pageSize fs' m

theorem FileRun.sim {pageSize : ℕ} {fs : FileStore} {m : Key → Option Val} (hle : 49 ≤ pageSize)
    (hge : pageSize ≤ 32768) (hrun : FileRun pageSize fs m) : Sim pageSize fs m := by
  have hP : GoodPageSize pageSize := ⟨hle, hge.trans (by norm_num)⟩
  have hopened : ∀ {file io fs m}, Reopens pageSize file m →
      openOrCreate (.openFile file pageSize) = .ok (io, .ok fs) → Sim pageSize fs m := by
    rintro file io fs m ⟨fs', hopen', hsim⟩ hopen
    rw [hopen', Except.ok.injEq, Prod.mk.injEq, Except.ok.injEq] at hopen
    exact hopen.2 ▸ hsim
  induction hrun with
  | create hopen =>
    obtain ⟨fs', hopen', hsim⟩ := Sim.create hle hge
    rw [hopen', Except.ok.injEq, Prod.mk.injEq, Except.ok.injEq] at hopen
    exact hopen.2 ▸ hsim
  | @op fs fs' m o r _ ho ih =>
    cases o with
    | put key val =>
      rcases ih.put_cases hP key val with ⟨hkv, hput⟩ |
        ⟨hkv, ws, -, ⟨-, u, hput, hsim⟩ | ⟨-, hput, -⟩, -⟩
      · have hgt : key.length + val.length > maxKvSize pageSize := not_le.1 hkv
        rw [apply, hput, Option.map_some, Option.some.injEq, Prod.mk.injEq] at ho
        rw [mapSpec, if_pos hgt]
        exact ho.1 ▸ ih
      · have hlt : ¬key.length + val.length > maxKvSize pageSize := not_lt.2 hkv
        rw [apply, hput, Option.map_some, Option.some.injEq, Prod.mk.injEq] at ho
        rw [mapSpec, if_neg hlt]
        exact ho.1 ▸ hsim
      · rw [apply, hput, Option.map_none] at ho
        cases ho
    | get key =>
      obtain ⟨result, -, heq⟩ := Option.map_eq_some_iff.1 ho
      exact (Prod.mk.inj heq).1 ▸ ih
    | enterRead =>
      rw [apply, Option.some.injEq, Prod.mk.injEq] at ho
      exact ho.1 ▸ ih.withReaders _
    | dropGuard =>
      rw [apply, Option.some.injEq, Prod.mk.injEq] at ho
      exact ho.1 ▸ ih.withReaders _
  | reopen _ hopen ih => exact hopened ih.reopens hopen
  | crash _ hkv hws htorn hio hopen ih =>
    rcases ih.put_cases hP _ _ with ⟨hnot, -⟩ | ⟨-, ws, hws', -, hcrash⟩
    · exact absurd hkv hnot
    · obtain rfl := Option.some.inj (hws'.symm.trans hws)
      exact hopened (hcrash _ _ htorn hio) hopen
  | outgrown _ hkv hws hio htorn hopen ih =>
    rcases ih.put_cases hP _ _ with ⟨hnot, -⟩ |
      ⟨-, ws, hws', ⟨-, u, hput, -⟩ | ⟨-, -, io, hio', hreopens⟩, -⟩
    · exact absurd hkv hnot
    · obtain ⟨-, newRoot, writer, hput'⟩ :=
        put_eq (ih.ok.pageSize_eq ▸ checkLimits_eq_ok_iff.2 hkv) hws
      rw [hput, hio] at hput'
      cases hput'
    · obtain rfl := Option.some.inj (hws'.symm.trans hws)
      rw [hio', Except.error.injEq] at hio
      subst hio
      exact hopened (hreopens htorn) hopen

/-- **What an engine on a file does**: it is the map `m`, up to the end of the mapping. -/
structure FileRefines (pageSize : ℕ) (fs : FileStore) (m : Key → Option Val) : Prop where
  get_eq : ∀ key, fs.get key = some (m key)
  /-- A lookup reads no page that is not mapped. -/
  mapped : ∀ p, fs.view.Live p → ∃ bytes, fs.io.readPage p = some bytes
  rejected : ∀ key val, ¬Small pageSize (key, val) → fs.put key val =
    some (.error (.entryTooLarge (key.length + val.length) (maxKvSize pageSize)))
  accepted : ∀ key val, Small pageSize (key, val) →
    ∃ ws, fs.view.putWrites key val = some ws ∧
      ((∀ w ∈ ws, fs.io.Fits w.1) → ∃ fs', fs.put key val = some (.ok fs') ∧
        ∀ k, fs'.get k = some (Function.update m key (some val) k)) ∧
      -- at the end of the mapping
      ((∃ w ∈ ws, ¬fs.io.Fits w.1) → fs.put key val = none ∧
        ∃ io, fs.io.writePages ws = .error io ∧ (Torn fs.view ws (fs.io.performed ws) →
          ∃ io' fs', openOrCreate (.openFile io.file pageSize) = .ok (io', .ok fs') ∧
            ∀ k, fs'.get k = some (m k)))
  reopens : ∃ io fs', openOrCreate (.openFile fs.io.file pageSize) = .ok (io, .ok fs') ∧
    ∀ k, fs'.get k = some (m k)
  recovers : ∀ key val ws kept io, Small pageSize (key, val) →
    fs.view.putWrites key val = some ws → Torn fs.view ws kept → fs.io.writePages kept = .ok io →
      ∃ io' fs', openOrCreate (.openFile io.file pageSize) = .ok (io', .ok fs') ∧
        ∀ k, fs'.get k = some (m k)

/-- **The engine on a file refines a finite map** in every run, with reopenings, and with crashes
and panics at the end of the mapping that leave the old header and its chain as they were. -/
theorem file_runs_refine {pageSize : ℕ} {fs : FileStore} {m : Key → Option Val}
    (hle : 49 ≤ pageSize) (hge : pageSize ≤ 32768) (hrun : FileRun pageSize fs m) :
    FileRefines pageSize fs m := by
  have hP : GoodPageSize pageSize := ⟨hle, hge.trans (by norm_num)⟩
  have hsim := hrun.sim hle hge
  refine ⟨hsim.sim.get hP, fun p hp => hsim.sim.live_mapped hp, fun key val hkv => ?_,
    fun key val hkv => ?_, ?_, fun key val ws kept io hkv hws htorn hio => ?_⟩
  · rcases hsim.put_cases hP key val with ⟨-, hput⟩ | ⟨hkv', -⟩
    · exact hput
    · exact absurd hkv' hkv
  · rcases hsim.put_cases hP key val with ⟨hnot, -⟩ | ⟨-, ws, hws, hput, -⟩
    · exact absurd hkv hnot
    refine ⟨ws, hws, fun hall => ?_, fun ⟨w, hw, hnot⟩ => ?_⟩
    · rcases hput with ⟨-, fs', hput, hsim'⟩ | ⟨⟨w, hw, hnot⟩, -⟩
      · exact ⟨fs', hput, hsim'.sim.get hP⟩
      · exact absurd (hall w hw) hnot
    · rcases hput with ⟨hall, -⟩ | ⟨-, hput, io, hio, hreopens⟩
      · exact absurd (hall w hw) hnot
      · refine ⟨hput, io, hio, fun htorn => ?_⟩
        obtain ⟨fs', hopen, hsim'⟩ := hreopens htorn
        exact ⟨_, fs', hopen, hsim'.sim.get hP⟩
  · obtain ⟨fs', hopen, hsim'⟩ := hsim.reopens
    exact ⟨_, fs', hopen, hsim'.sim.get hP⟩
  · rcases hsim.put_cases hP key val with ⟨hnot, -⟩ | ⟨-, ws', hws', -, hcrash⟩
    · exact absurd hkv hnot
    · obtain rfl := Option.some.inj (hws'.symm.trans hws)
      obtain ⟨fs', hopen, hsim'⟩ := hcrash kept io htorn hio
      exact ⟨_, fs', hopen, hsim'.sim.get hP⟩

theorem of_toOption {ε α : Type*} {x : Except ε α} {a : α} (h : x.toOption = some a) :
    x = .ok a := by
  cases x with
  | error e => cases h
  | ok b => exact congrArg Except.ok (Option.some.inj h)

/-- After one put the file is closed and opened. -/
theorem file_runs_refine_session : ∃ fs, FileRun 64 fs (Function.update (fun _ => none) [1]
    (some [7])) ∧ FileRefines 64 fs (Function.update (fun _ => none) [1] (some [7])) := by
  have hplay : ((openOrCreate (.openFile [] 64)).toOption.bind fun r =>
      r.2.toOption.bind fun fs => (succeeded (fs.put [1] [7])).bind fun fs' =>
        (openOrCreate (.openFile fs'.io.file 64)).toOption.bind fun r' =>
          r'.2.toOption).isSome = true := by
    decide +kernel
  obtain ⟨fs, hplay⟩ := Option.isSome_iff_exists.1 hplay
  obtain ⟨⟨io₀, r₀⟩, hopen₀, hplay⟩ := Option.bind_eq_some_iff.1 hplay
  obtain ⟨fs₀, hfs₀, hplay⟩ := Option.bind_eq_some_iff.1 hplay
  obtain ⟨fs₁, hput, hplay⟩ := Option.bind_eq_some_iff.1 hplay
  obtain ⟨⟨io, r⟩, hopen, hfs⟩ := Option.bind_eq_some_iff.1 hplay
  obtain rfl := of_toOption hfs₀
  obtain rfl := of_toOption hfs
  have hrun₁ : FileRun 64 fs₁ (mapSpec 64 (fun _ => none) (.put [1] [7])).1 :=
    (FileRun.create (of_toOption hopen₀)).op (by
      rw [apply, succeeded_eq_some hput]
      rfl)
  have hrun := hrun₁.reopen (of_toOption hopen)
  exact ⟨fs, hrun, file_runs_refine (by decide) (by decide) hrun⟩

end CowRaft.Btree
