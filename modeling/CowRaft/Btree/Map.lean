import CowRaft.Btree.Runs
import CowRaft.Btree.TreeContents
import CowRaft.Foundations.Refinement

/-!
# The engine is a finite map

For page sizes from 49 to 32768 a store represents the map from keys to values that its tree's
entries give (`Represents`). A put that is small enough is accepted and binds its key
(`put_accepted`), any other is rejected, and a lookup answers from the map. So a run of the engine
answers as a run of the map does, whichever of its commits find the reader gate closed
(`map_refinement`).
-/

namespace CowRaft.Btree

open Bytes HeapTree

variable {h pageSize : ℕ} {io : PageIo} {st st' : Store} {key : Key} {val : Val}

/-! ## One put -/

theorem WriteTxn.prepare_isSome (txn : WriteTxn) (readers : ℕ) (newRoot : PageId)
    (hP : 49 ≤ txn.pageSize) :
    ∃ w chain header, txn.prepare readers newRoot = some (w, chain, header) := by
  obtain ⟨⟨w, chain, head, count⟩, hpersist⟩ := WriterState.persistFreeList_isSome
    ((txn.store.writer.foldFrees txn.freed).passGate readers) hP
  obtain ⟨bytes, hb⟩ := Header.toBytes_isSome
    ⟨txn.pageSize, newRoot, w.nextPageId, head, count⟩ hP
  exact ⟨w, chain, bytes, by
    simp only [WriteTxn.prepare, hpersist, hb, Option.bind_eq_bind, Option.bind_some]⟩

theorem checkLimits_eq_ok_iff : checkLimits pageSize key val = .ok () ↔
    Small pageSize (key, val) := by
  rw [checkLimits, Small]
  split_ifs with hlen
  · exact iff_of_false nofun (not_le.2 hlen)
  · exact iff_of_true rfl (not_lt.1 hlen)

theorem checkLimits_of_not_small (h : ¬Small pageSize (key, val)) :
    checkLimits pageSize key val =
      .error (.entryTooLarge (key.length + val.length) (maxKvSize pageSize)) := by
  rw [checkLimits]
  exact if_pos (not_le.1 h)

/-- **An accepted put binds its key.** -/
theorem Inv.put_content (hP : GoodPageSize st.io.pageSize) (hinv : Inv h st)
    (hroot : RootOK st.io h st.root) (hput : st.put key val = some (.ok st')) :
    ∃ h', Inv h' st' ∧ TreeOK st'.io h' [] st'.root ⊤ ∧
      entriesAt st'.io h' st'.root = upsert key val (entriesAt st.io h st.root) ∧
      st'.io.pageSize = st.io.pageSize := by
  rcases put_cases hinv hput with ⟨e, -, he⟩ |
    ⟨newRoot, txn, w, chain, header, hlim, hbuild, hprep, -, hst⟩
  · cases he
  obtain rfl := Except.ok.inj hst
  have hstep := buildPut_step hinv hbuild hprep
  obtain ⟨h₁, hinv₁, -⟩ := hstep.inv hinv st.readers
  obtain ⟨newRoot', txn', hbuild', hcontent⟩ := (@buildPut_content _ st.beginWrite) hP rfl
    hinv.height_le hroot (checkLimits_eq_ok_iff.1 hlim)
  obtain ⟨rfl, rfl⟩ := Prod.mk.inj (Option.some.inj (hbuild'.symm.trans hbuild))
  have hsize : (st.io.writePages (txn'.pageWrites chain header)).pageSize = st.io.pageSize :=
    PageIo.pageSize_writePages _ _
  obtain ⟨h', hok, hentries⟩ := hcontent (st.io.writePages (txn'.pageWrites chain header)) hsize
    (fun p hp => hstep.read_old hinv hp) hstep.flushed
  obtain rfl := hok.shape.height_unique hinv₁.shape
  exact ⟨h', hinv₁, hok, hentries, hsize⟩

/-- What was built is committed. -/
theorem Inv.put_of_buildPut {newRoot : PageId} {txn : WriteTxn} (hinv : Inv h st)
    (hkv : Small st.io.pageSize (key, val))
    (hbuild : buildPut st.beginWrite key val = some (newRoot, txn)) :
    ∃ st', st.put key val = some (.ok st') := by
  have hsize : st.beginWrite.pageSize = st.io.pageSize := rfl
  obtain ⟨A, F, hext, -⟩ :=
    (@buildPut_shape _ st.beginWrite) hinv.pageSize_lt rfl hinv.shape hbuild
  obtain ⟨w, chain, header, hprep⟩ := txn.prepare_isSome txn.store.readers newRoot
    (hext.pageSize_eq ▸ hinv.le_pageSize)
  refine ⟨⟨((txn.store.io.writePages txn.writes).writePages chain).writePage HEADER_PAGE_ID header,
    newRoot, txn.store.readers, w⟩, ?_⟩
  simp only [Store.put, Btree.put, hsize, checkLimits_eq_ok_iff.2 hkv, hbuild, WriteTxn.commit,
    hprep, Option.bind_eq_bind, Option.bind_some, Option.map_some]

/-- **A small entry is accepted.** -/
theorem Inv.put_accepted (hP : GoodPageSize st.io.pageSize) (hinv : Inv h st)
    (hroot : RootOK st.io h st.root) (hkv : Small st.io.pageSize (key, val)) :
    ∃ st', st.put key val = some (.ok st') := by
  obtain ⟨newRoot, txn, hbuild, -⟩ := (@buildPut_content _ st.beginWrite) hP rfl
    hinv.height_le hroot hkv
  exact hinv.put_of_buildPut hkv hbuild

theorem put_rejected (hkv : ¬Small st.io.pageSize (key, val)) :
    st.put key val = some (.error (.entryTooLarge (key.length + val.length)
      (maxKvSize st.io.pageSize))) := by
  have hsize : st.beginWrite.pageSize = st.io.pageSize := rfl
  simp only [Store.put, Btree.put, hsize, checkLimits_of_not_small hkv]

theorem inMemory_isSome (hP : 49 ≤ pageSize) :
    ∃ st, Store.inMemory pageSize = some (.ok st) := by
  have hheader : Header.fromBytes ((PageIo.new pageSize).readPage HEADER_PAGE_ID) =
      some (.error .notAHeader) := Header.fromBytes_zeros pageSize
  obtain ⟨root, hroot⟩ : ∃ root, LeafNode.empty.toBytes INITIAL_ROOT_PAGE_ID pageSize =
      some root := (@Node.toBytes_isSome (.leaf [])) (by rw [Node.size]; simp; omega) _ 0
  obtain ⟨bytes, hbytes⟩ := Header.toBytes_isSome
    (Header.new pageSize INITIAL_ROOT_PAGE_ID (INITIAL_ROOT_PAGE_ID + 1)) hP
  have h0 := fun io => loadFreeListChain_zero io (INITIAL_ROOT_PAGE_ID + 1 + 1)
  have hsize : (PageIo.new pageSize).pageSize = pageSize := rfl
  refine ⟨⟨((PageIo.new pageSize).writePage INITIAL_ROOT_PAGE_ID root).writePage HEADER_PAGE_ID
    bytes, INITIAL_ROOT_PAGE_ID, 0, ⟨INITIAL_ROOT_PAGE_ID + 1, [], [], []⟩⟩, ?_⟩
  rw [Header.new] at hbytes
  simp only [Store.inMemory, Store.openOrCreate, hheader, PageIo.pageSize_writePage, hsize, hroot,
    hbytes, Store.ofHeader, Header.new, h0, Option.bind_eq_bind, Option.bind_some, Option.map_some]

/-! ## Runs -/

/-- The operations of the engine; guards are taken and dropped in between. -/
inductive Op
  | put (key : Key) (val : Val)
  | get (key : Key)
  | enterRead
  | dropGuard

inductive Response
  | put (result : Except Error Unit)
  | get (result : Option Val)
  | unit
  deriving DecidableEq

def Store.apply (st : Store) : Op → Option (Store × Response)
  | .put key val => (st.put key val).map fun
    | .ok st' => (st', .put (.ok ()))
    | .error e => (st, .put (.error e))
  | .get key => (st.get key).map fun result => (st, .get result)
  | .enterRead => some (st.enterRead, .unit)
  | .dropGuard => some (st.dropGuard, .unit)

/-- The map that the engine is meant to be. -/
def mapSpec (pageSize : ℕ) (m : Key → Option Val) : Op → (Key → Option Val) × Response
  | .put key val =>
    if key.length + val.length > maxKvSize pageSize then
      (m, .put (.error (.entryTooLarge (key.length + val.length) (maxKvSize pageSize))))
    else (Function.update m key (some val), .put (.ok ()))
  | .get key => (m, .get (m key))
  | .enterRead => (m, .unit)
  | .dropGuard => (m, .unit)

/-- The store's tree is a search tree, with the bindings of `m`. -/
structure Represents (pageSize : ℕ) (st : Store) (m : Key → Option Val) : Prop where
  pageSize_eq : st.io.pageSize = pageSize
  tree : ∃ h, Inv h st ∧ RootOK st.io h st.root ∧
    ∀ k, lookupKey k (entriesAt st.io h st.root) = m k

theorem Represents.inMemory (hP : GoodPageSize pageSize)
    (hst : Store.inMemory pageSize = some (.ok st)) : Represents pageSize st fun _ => none := by
  obtain ⟨hinv, hleaf, hsize, -⟩ := inMemory_spec hP.lt hst
  have he : entriesAt st.io 0 st.root = [] := hleaf.leafEntries_eq (hsize ▸ hP.lt)
  exact ⟨hsize, 0, hinv, Or.inr ⟨rfl, hleaf⟩, fun k => by rw [he, lookupKey]⟩

/-- Taking or dropping a guard changes no page. -/
theorem Inv.withReaders (hinv : Inv h st) (readers : ℕ) : Inv h { st with readers } :=
  ⟨hinv.1, hinv.2, hinv.3, hinv.4, hinv.5, hinv.6, hinv.7⟩

theorem Represents.withReaders {m : Key → Option Val} (hrep : Represents pageSize st m)
    (readers : ℕ) : Represents pageSize { st with readers } m := by
  obtain ⟨h, hinv, hroot, hm⟩ := hrep.tree
  exact ⟨hrep.pageSize_eq, h, hinv.withReaders readers, hroot, hm⟩

theorem Represents.get {m : Key → Option Val} (hP : GoodPageSize pageSize)
    (hrep : Represents pageSize st m) (key : Key) : st.get key = some (m key) := by
  obtain ⟨h, hinv, hroot, hm⟩ := hrep.tree
  rw [Store.get, get_content (hrep.pageSize_eq ▸ hP.lt) hinv.height_le hroot, hm]

/-- **One operation** answers as the map does, and leaves a store that represents it. -/
theorem Represents.apply {m : Key → Option Val} (hP : GoodPageSize pageSize)
    (hrep : Represents pageSize st m) (op : Op) :
    ∃ st', st.apply op = some (st', (mapSpec pageSize m op).2) ∧
      Represents pageSize st' (mapSpec pageSize m op).1 := by
  have hsize := hrep.pageSize_eq
  cases op with
  | put key val =>
    by_cases hkv : Small st.io.pageSize (key, val)
    · obtain ⟨h, hinv, hroot, hm⟩ := hrep.tree
      obtain ⟨st', hput⟩ := hinv.put_accepted (hsize ▸ hP) hroot hkv
      obtain ⟨h', hinv', hok, hentries, hsize'⟩ := hinv.put_content (hsize ▸ hP) hroot hput
      have hle : ¬key.length + val.length > maxKvSize pageSize := hsize ▸ not_lt.2 hkv
      refine ⟨st', ?_, ?_⟩
      · rw [Store.apply, hput, mapSpec, if_neg hle, Option.map_some]
      · rw [mapSpec, if_neg hle]
        refine ⟨hsize'.trans hsize, h', hinv', Or.inl hok, fun k => ?_⟩
        rw [hentries, lookupKey_upsert, hm]
        by_cases hk : k = key
        · rw [if_pos hk, hk]
          exact (Function.update_self key (some val) m).symm
        · rw [if_neg hk]
          exact (Function.update_of_ne hk (some val) m).symm
    · have hgt : key.length + val.length > maxKvSize pageSize := hsize ▸ not_le.1 hkv
      refine ⟨st, ?_, ?_⟩
      · rw [Store.apply, put_rejected hkv, mapSpec, if_pos hgt, hsize, Option.map_some]
      · rw [mapSpec, if_pos hgt]
        exact hrep
  | get key =>
    refine ⟨st, ?_, hrep⟩
    rw [Store.apply, hrep.get hP, mapSpec, Option.map_some]
  | enterRead => exact ⟨_, rfl, hrep.withReaders _⟩
  | dropGuard => exact ⟨_, rfl, hrep.withReaders _⟩

/-- **The engine refines a finite map**: from a fresh store, every list of operations is answered
as the map answers it. -/
theorem map_refinement (hle : 49 ≤ pageSize) (hge : pageSize ≤ 32768) :
    ∃ st₀, Store.inMemory pageSize = some (.ok st₀) ∧ ∀ ops : List Op, ∃ st,
      run Store.apply st₀ ops = some (st, (runSpec (mapSpec pageSize) (fun _ => none) ops).2) ∧
        Represents pageSize st (runSpec (mapSpec pageSize) (fun _ => none) ops).1 := by
  have hP : GoodPageSize pageSize := ⟨hle, hge.trans (by norm_num)⟩
  obtain ⟨st₀, hst₀⟩ := inMemory_isSome hle
  exact ⟨st₀, hst₀, fun ops =>
    run_refines (fun s t i hrep => hrep.apply hP i) (Represents.inMemory hP hst₀) ops⟩

/-- The engine with the smallest pages, on every list of operations. -/
theorem map_refinement_smallest : ∃ st₀, Store.inMemory 49 = some (.ok st₀) ∧
    ∀ ops : List Op, ∃ st,
      run Store.apply st₀ ops = some (st, (runSpec (mapSpec 49) (fun _ => none) ops).2) ∧
        Represents 49 st (runSpec (mapSpec 49) (fun _ => none) ops).1 :=
  map_refinement (by decide) (by decide)

/-! ## Reachable stores -/

/-- The tree of every reachable store is a search tree. -/
theorem Reachable.rootOK (hP : GoodPageSize pageSize) (hreach : Reachable pageSize st) :
    st.io.pageSize = pageSize ∧ ∃ h, Inv h st ∧ RootOK st.io h st.root := by
  obtain ⟨st₀, hst₀, hrun⟩ := hreach
  induction hrun with
  | refl =>
    obtain ⟨hinv, hleaf, hsize, -⟩ := inMemory_spec hP.lt hst₀
    exact ⟨hsize, 0, hinv, Or.inr ⟨rfl, hleaf⟩⟩
  | tail _ hstep ih =>
    obtain ⟨hsize, h, hinv, hroot⟩ := ih
    cases hstep with
    | accepted hput =>
      obtain ⟨h', hinv', hok, -, hsize'⟩ := hinv.put_content (hsize ▸ hP) hroot hput
      exact ⟨hsize'.trans hsize, h', hinv', Or.inl hok⟩
    | rejected _ => exact ⟨hsize, h, hinv, hroot⟩
    | enterRead => exact ⟨hsize, h, hinv.withReaders _, hroot⟩
    | dropGuard _ => exact ⟨hsize, h, hinv.withReaders _, hroot⟩
    | reopen _ hst =>
      have hinv' := hinv.reopen hst
      rw [hinv.openOrCreate_eq rfl rfl fun _ _ => rfl, Option.some.injEq, Except.ok.injEq] at hst
      subst hst
      exact ⟨hsize, h, hinv', hroot⟩

end CowRaft.Btree
