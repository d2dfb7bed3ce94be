import CowRaft.Btree.Crash
import CowRaft.Btree.Isolation
import CowRaft.Btree.Map

/-!
# Runs with crashes

A commit that is cut off leaves some of its writes on the backend, which reach it in any order, and
the store that is opened on it holds them for ever: in free pages, and beyond the mark of the bump
allocator, where a store that never crashed has written nothing. They do no harm. A store reads its
header, its tree and its chain, and these are the pages of a store that was closed instead
(`CrashRun.simulated`). So a store that crashes again and again, each time before the header and
without a changed page in the chain that the header names, answers as the map of its completed puts
(`crash_runs_refine`).
-/

namespace CowRaft.Btree

open Bytes HeapTree

variable {h pageSize : ℕ} {io : PageIo} {st st' : Store} {key : Key} {val : Val}
  {ws kept : List (PageId × Bytes)}

/-- Backends that agree on what is not written agree after the writes. -/
theorem PageIo.readPage_writePages_congr {io' : PageIo} {p : PageId}
    (h : p ∉ ws.map Prod.fst → io'.readPage p = io.readPage p) :
    (io'.writePages ws).readPage p = (io.writePages ws).readPage p := by
  induction ws generalizing io io' with
  | nil => exact h List.not_mem_nil
  | cons w ws ih =>
    rw [PageIo.writePages_cons, PageIo.writePages_cons]
    refine ih fun hnot => ?_
    rw [PageIo.readPage_writePage, PageIo.readPage_writePage]
    split_ifs with hp
    · rfl
    · exact h (by rw [List.map_cons, List.mem_cons, not_or]; exact ⟨hp, hnot⟩)

/-! ## A transaction on another backend -/

/-- The transaction on another backend. -/
def WriteTxn.onto (txn : WriteTxn) (io : PageIo) : WriteTxn :=
  { txn with store := { txn.store with io } }

section Onto

variable {txn u : WriteTxn} {id : PageId} {r : InsertResult}

theorem allocWrite_onto {page : Page} (hsize : io.pageSize = txn.pageSize)
    (h : txn.allocWrite page = some (id, u)) :
    (txn.onto io).allocWrite page = some (id, u.onto io) ∧ io.pageSize = u.pageSize := by
  obtain ⟨t, ht, heq⟩ := Option.map_eq_some_iff.1 h
  obtain ⟨rfl, rfl⟩ := Prod.mk.inj heq
  obtain ⟨bytes, hb, ht⟩ := Option.bind_eq_some_iff.1 ht
  obtain rfl := Option.some.inj ht
  have halloc : (txn.onto io).alloc = (txn.alloc.1, txn.alloc.2.onto io) := rfl
  have hpage : page.toBytes txn.alloc.1 (txn.alloc.2.onto io).pageSize = some bytes :=
    (congrArg _ hsize).trans hb
  refine ⟨?_, hsize⟩
  simp only [WriteTxn.allocWrite, WriteTxn.write, halloc, hpage, Option.bind_eq_bind,
    Option.bind_some, Option.map_some]
  rfl

theorem absorb_onto {node : InternalNode} {idx P : ℕ} {result : InsertResult}
    (hsize : io.pageSize = txn.pageSize) (h : absorb txn node idx P result = some (u, r)) :
    absorb (txn.onto io) node idx P result = some (u.onto io, r) ∧ io.pageSize = u.pageSize := by
  cases result with
  | single newChild =>
    obtain ⟨⟨cid, t⟩, ht, h⟩ := Option.bind_eq_some_iff.1 h
    obtain ⟨node', hnode, h⟩ := Option.bind_eq_some_iff.1 h
    obtain ⟨rfl, rfl⟩ := Prod.mk.inj (Option.some.inj h)
    obtain ⟨ht', hsize'⟩ := allocWrite_onto hsize ht
    refine ⟨?_, hsize'⟩
    simp only [absorb, ht', hnode, Option.bind_eq_bind, Option.bind_some]
  | split left sep right =>
    obtain ⟨⟨lid, t₁⟩, ht₁, h⟩ := Option.bind_eq_some_iff.1 h
    obtain ⟨⟨rid, t₂⟩, ht₂, h⟩ := Option.bind_eq_some_iff.1 h
    obtain ⟨grown, hgrown, h⟩ := Option.bind_eq_some_iff.1 h
    obtain ⟨ht₁', hsize₁⟩ := allocWrite_onto hsize ht₁
    obtain ⟨ht₂', hsize₂⟩ := allocWrite_onto hsize₁ ht₂
    simp only [absorb, ht₁', ht₂', hgrown, Option.bind_eq_bind, Option.bind_some]
    split_ifs at h ⊢ with hfits
    · obtain ⟨rfl, rfl⟩ := Prod.mk.inj (Option.some.inj h)
      exact ⟨rfl, hsize₂⟩
    · obtain ⟨⟨l2, promoted, r2⟩, hsplit, h⟩ := Option.bind_eq_some_iff.1 h
      obtain ⟨rfl, rfl⟩ := Prod.mk.inj (Option.some.inj h)
      rw [hsplit, Option.bind_some]
      exact ⟨rfl, hsize₂⟩

theorem placeRoot_onto {result : InsertResult} (hsize : io.pageSize = txn.pageSize)
    (h : placeRoot txn result = some (id, u)) :
    placeRoot (txn.onto io) result = some (id, u.onto io) := by
  cases result with
  | single node => exact (allocWrite_onto hsize h).1
  | split left sep right =>
    obtain ⟨⟨lid, t₁⟩, ht₁, h⟩ := Option.bind_eq_some_iff.1 h
    obtain ⟨⟨rid, t₂⟩, ht₂, h⟩ := Option.bind_eq_some_iff.1 h
    obtain ⟨ht₁', hsize₁⟩ := allocWrite_onto hsize ht₁
    obtain ⟨ht₂', hsize₂⟩ := allocWrite_onto hsize₁ ht₂
    simp only [placeRoot, ht₁', ht₂', Option.bind_eq_bind, Option.bind_some]
    exact (allocWrite_onto hsize₂ h).1

/-- **Insertion reads only the pages of the tree.** -/
theorem insertPage_onto {nd : Node} {fuel P : ℕ} (hsize : io.pageSize = txn.pageSize)
    (hw : txn.writes = []) (hnd : Holds txn.store.io id nd) (hs : NodeShape txn.store.io h nd)
    (hread : ∀ p ∈ pagesBelow txn.store.io h nd, io.readPage p = txn.store.io.readPage p)
    (hr : insertPage (insertInternal key val P fuel) txn key val P (nd.toPage id) = some (u, r)) :
    insertPage (insertInternal key val P fuel) (txn.onto io) key val P (nd.toPage id) =
      some (u.onto io, r) ∧ io.pageSize = u.pageSize := by
  induction h generalizing id nd fuel u r with
  | zero =>
    cases nd with
    | internal ks cs => exact hs.elim
    | leaf es =>
      obtain ⟨r', hr', heq⟩ := Option.map_eq_some_iff.1 hr
      obtain ⟨rfl, rfl⟩ := Prod.mk.inj heq
      refine ⟨?_, hsize⟩
      rw [Node.toPage, insertPage, hr', Option.map_some]
  | succ h ih =>
    cases nd with
    | leaf es => exact hs.elim
    | internal ks cs =>
      cases fuel with
      | zero => cases hr
      | succ fuel =>
        obtain ⟨idx, hidx, hr⟩ := Option.bind_eq_some_iff.1 hr
        obtain ⟨c, hc, hr⟩ := Option.bind_eq_some_iff.1 hr
        obtain ⟨page, hpage, hr⟩ := Option.bind_eq_some_iff.1 hr
        obtain ⟨⟨txn₁, r₁⟩, hr₁, habs⟩ := Option.bind_eq_some_iff.1 hr
        have hmem : c ∈ cs := List.mem_of_getElem? hc
        obtain ⟨ndc, hndc, hsc⟩ := shape_iff.1 (hs c hmem)
        rw [read_eq hw, hndc.decode_eq] at hpage
        obtain rfl := Option.some.inj hpage
        have hreadc : ∀ p ∈ treePages txn.store.io h c,
            io.readPage p = txn.store.io.readPage p := fun p hp =>
          hread p (List.mem_flatMap.2 ⟨c, hmem, hp⟩)
        have hchild : (txn.onto io).read c = some (ndc.toPage c) := by
          have honto : (txn.onto io).read c = Page.decode c (io.readPage c) :=
            (@read_eq (txn.onto io)) hw c
          rw [honto, hreadc c (mem_treePages_self ..), hndc.decode_eq]
        rw [treePages_eq hndc] at hreadc
        obtain ⟨hr₁', hsize₁⟩ :=
          ih hndc hsc (fun p hp => hreadc p (List.mem_cons_of_mem _ hp)) hr₁
        have hfree : io.pageSize = (txn₁.free c).pageSize := hsize₁
        obtain ⟨habs', hsize'⟩ := absorb_onto hfree habs
        refine ⟨?_, hsize'⟩
        change insertInternal key val P (fuel + 1) (txn.onto io) (.ofKeys id ks cs) = _
        simp only [insertInternal, hidx, hc, hchild, hr₁', Option.bind_eq_bind, Option.bind_some]
        exact habs'

/-- **Building a tree reads only the pages of the old one.** -/
theorem buildPut_onto (hsize : io.pageSize = txn.pageSize) (hw : txn.writes = [])
    (hs : Shape txn.store.io h txn.root)
    (hread : ∀ p ∈ treePages txn.store.io h txn.root, io.readPage p = txn.store.io.readPage p)
    (hr : buildPut txn key val = some (id, u)) :
    buildPut (txn.onto io) key val = some (id, u.onto io) := by
  obtain ⟨page, hpage, hr⟩ := Option.bind_eq_some_iff.1 hr
  obtain ⟨⟨txn₁, r₁⟩, hr₁, hroot⟩ := Option.bind_eq_some_iff.1 hr
  obtain ⟨nd, hnd, hsn⟩ := shape_iff.1 hs
  rw [read_eq hw, hnd.decode_eq] at hpage
  obtain rfl := Option.some.inj hpage
  have hfst : (txn.onto io).read txn.root = some (nd.toPage txn.root) := by
    have honto : (txn.onto io).read txn.root = Page.decode txn.root (io.readPage txn.root) :=
      (@read_eq (txn.onto io)) hw txn.root
    rw [honto, hread _ (mem_treePages_self ..), hnd.decode_eq]
  rw [treePages_eq hnd] at hread
  obtain ⟨hr₁', hsize₁⟩ :=
    insertPage_onto hsize hw hnd hsn (fun p hp => hread p (List.mem_cons_of_mem _ hp)) hr₁
  have hfree : io.pageSize = (txn₁.free txn.root).pageSize := hsize₁
  have hP : (txn.onto io).pageSize = txn.pageSize := hsize
  have htop : (txn.onto io).root = txn.root := rfl
  have hnext : (txn.onto io).store.writer = txn.store.writer := rfl
  simp only [buildPut, htop, hfst, hP, hnext, hr₁', Option.bind_eq_bind, Option.bind_some]
  exact placeRoot_onto hfree hroot

theorem prepare_onto {readers : ℕ} (hsize : io.pageSize = txn.pageSize) (newRoot : PageId) :
    (txn.onto io).prepare readers newRoot = txn.prepare readers newRoot := by
  have hsize' : (txn.onto io).pageSize = txn.pageSize := hsize
  rw [WriteTxn.prepare, WriteTxn.prepare, hsize']
  rfl

end Onto

/-! ## Stores that agree on what they read -/

/-- `st'` is `st` as far as its writer, its header, its tree and its chain go. -/
structure Alike (st st' : Store) : Prop where
  root_eq : st'.root = st.root
  readers_eq : st'.readers = st.readers
  writer_eq : st'.writer = st.writer
  pageSize_eq : st'.io.pageSize = st.io.pageSize
  header : st'.io.readPage HEADER_PAGE_ID = st.io.readPage HEADER_PAGE_ID
  tree : ∀ p, st.Live p → st'.io.readPage p = st.io.readPage p
  chain : ∀ p ∈ st.writer.freeListPageIds, st'.io.readPage p = st.io.readPage p

namespace Alike

theorem refl (st : Store) : Alike st st :=
  ⟨rfl, rfl, rfl, rfl, rfl, fun _ _ => rfl, fun _ _ => rfl⟩

theorem eq (ha : Alike st st') : st' = { st with io := st'.io } := by
  obtain ⟨io', root', readers', writer'⟩ := st'
  obtain ⟨rfl, rfl, rfl, -⟩ := ha
  rfl

theorem treePages (ha : Alike st st') (hinv : Inv h st) :
    ∀ p ∈ treePages st.io h st.root, st'.io.readPage p = st.io.readPage p :=
  fun p hp => ha.tree p (hinv.live_iff.2 hp)

theorem withReaders (ha : Alike st st') (readers : ℕ) :
    Alike { st with readers } { st' with readers } :=
  ⟨ha.root_eq, rfl, ha.writer_eq, ha.pageSize_eq, ha.header, ha.tree, ha.chain⟩

theorem live_iff (ha : Alike st st') (hinv : Inv h st) {p : PageId} : st'.Live p ↔ st.Live p := by
  have hread := ha.treePages hinv
  have hshape := hinv.shape.congr ha.pageSize_eq hread
  rw [Store.Live, Store.Live, ha.root_eq, ← hshape.mem_treePages_iff,
    ← hinv.shape.mem_treePages_iff, treePages_congr hread]

theorem get (ha : Alike st st') (hinv : Inv h st) (key : Key) : st'.get key = st.get key := by
  rw [Store.get, Store.get, ha.root_eq, ha.writer_eq]
  exact get_congr hinv.shape (ha.treePages hinv)

theorem exclusiveOwnership (ha : Alike st st') (hinv : Inv h st) : ExclusiveOwnership st' := by
  have ho := hinv.exclusiveOwnership
  have hlive := fun p => ha.live_iff (p := p) hinv
  constructor <;> simp only [ha.writer_eq, hlive]
  exacts [ho.free_nodup, ho.pending_nodup, ho.chain_nodup, ho.free_pending, ho.free_chain,
    ho.pending_chain, ho.not_live, ho.not_header, ho.below_mark, ho.alloc_fresh]

/-- **A put on stores that agree** performs the same writes, and leaves stores that agree. -/
theorem put {u : Store} (ha : Alike st st') (hinv : Inv h st)
    (hput : st.put key val = some (.ok u)) :
    ∃ ws u', st.putWrites key val = some ws ∧ st'.putWrites key val = some ws ∧
      st'.put key val = some (.ok u') ∧ u' = { u with io := st'.io.writePages ws } ∧
      Alike u u' := by
  rcases put_cases hinv hput with ⟨e, -, he⟩ |
    ⟨newRoot, txn, w, chain, header, hlim, hbuild, hprep, hws, hst⟩
  · cases he
  obtain rfl := Except.ok.inj hst
  have hstep := buildPut_step hinv hbuild hprep
  obtain ⟨io, hio⟩ : ∃ io, io = st'.io := ⟨_, rfl⟩
  have hst' : st' = { st with io } := hio ▸ ha.eq
  have hbuild' : buildPut st'.beginWrite key val = some (newRoot, txn.onto io) := by
    rw [hst']
    exact (@buildPut_onto _ _ _ _ st.beginWrite) (hio ▸ ha.pageSize_eq) rfl hinv.shape
      (hio ▸ ha.treePages hinv) hbuild
  have hsize : io.pageSize = txn.pageSize := by
    rw [WriteTxn.pageSize, hstep.io_eq, hio, ha.pageSize_eq]
  have hprep' := (prepare_onto hsize newRoot).trans hprep
  obtain ⟨A, F, hext, -, -, hreb⟩ :=
    (@buildPut_shape _ st.beginWrite) hinv.pageSize_lt rfl hinv.shape hbuild
  have hreaders : (txn.onto io).store.readers = st.readers := by
    change txn.store.readers = st.readers
    rw [hext.store_eq]
    rfl
  have hA : txn.writes.map Prod.fst = A := by
    obtain ⟨added, hadded, hfst⟩ := hext.writes
    rw [hadded]
    exact hfst
  have hlim' : checkLimits st'.beginWrite.pageSize key val = .ok () := by
    rw [← hlim]
    exact congrArg (fun P => checkLimits P key val) ha.pageSize_eq
  refine ⟨_, _, hws, ?_, ?_, rfl, ?_⟩
  · simp only [Store.putWrites, hbuild', ha.readers_eq, hprep', Option.bind_eq_bind,
      Option.bind_some]
    rfl
  · simp only [Store.put, Btree.put, hlim', hbuild', WriteTxn.commit, hreaders, hprep',
      Option.bind_eq_bind, Option.bind_some, Option.map_some, ← hio, WriteTxn.pageWrites,
      PageIo.writePages_append]
    rfl
  obtain ⟨h', hshape, -, hperm⟩ := hreb (st.io.writePages (txn.pageWrites chain header))
    (PageIo.pageSize_writePages _ _) (fun p hp => hstep.read_old hinv hp) hstep.flushed
  refine ⟨rfl, rfl, rfl, ?_, ?_, fun p hp => ?_, fun p hp => ?_⟩
  · exact (PageIo.pageSize_writePages _ _).trans
      (ha.pageSize_eq.trans (PageIo.pageSize_writePages _ _).symm)
  · exact PageIo.readPage_writePages_congr fun _ => ha.header
  · refine PageIo.readPage_writePages_congr fun hnot => ha.treePages hinv p ?_
    -- a page of the new tree is one of the old tree, or it was written
    have hmem := hperm.subset (List.mem_append_left _ (hshape.mem_treePages_iff.2 hp))
    refine (List.mem_append.1 hmem).resolve_right fun hnew => hnot ?_
    rw [hstep.map_fst, hA]
    exact List.mem_append_left _ (List.mem_append_left _ hnew)
  · refine PageIo.readPage_writePages_congr fun hnot => ha.chain p ?_
    -- a page that the chain took from the allocator was written
    rw [hstep.map_fst, List.mem_append, List.mem_append, not_or, not_or] at hnot
    by_contra hold
    have hneeded : w.freeListPageIds.length ≤ w.pagesNeeded st.io.pageSize := by
      rw [hstep.chain_grows] at hp
      have hfresh := List.mem_range'_1.1 ((List.mem_append.1 hp).resolve_left hold)
      have hlen := hstep.length_chain
      omega
    rw [List.take_of_length_le hneeded] at hnot
    exact hnot.1.2 hp

/-- **What is built on a store is built on one that it agrees with.** -/
theorem buildPut_back {newRoot : PageId} {txn : WriteTxn} (ha : Alike st st') (hinv : Inv h st)
    (hbuild : buildPut st'.beginWrite key val = some (newRoot, txn)) :
    buildPut st.beginWrite key val = some (newRoot, txn.onto st.io) ∧
      txn.pageSize = st.io.pageSize := by
  have hread := ha.treePages hinv
  have hshape := hinv.shape.congr ha.pageSize_eq hread
  have hback : st'.beginWrite.onto st.io = st.beginWrite := by
    obtain ⟨io, hio⟩ : ∃ io, io = st'.io := ⟨_, rfl⟩
    rw [show st' = { st with io } from hio ▸ ha.eq]
    rfl
  have hroot : st'.beginWrite.root = st.root := ha.root_eq
  have hP : st'.beginWrite.pageSize < 65536 := lt_of_eq_of_lt ha.pageSize_eq hinv.pageSize_lt
  obtain ⟨A, F, hext, -⟩ :=
    (@buildPut_shape _ st'.beginWrite) hP rfl (hroot ▸ hshape) hbuild
  refine ⟨hback ▸ buildPut_onto ha.pageSize_eq.symm rfl (hroot ▸ hshape) (fun p hp => ?_) hbuild,
    hext.pageSize_eq.trans ha.pageSize_eq⟩
  rw [hroot] at hp
  have hp' : p ∈ Btree.treePages st.io h st.root := treePages_congr hread ▸ hp
  exact (hread p hp').symm

/-- A put that the one store accepts the other accepts. -/
theorem put_accepted {u' : Store} (ha : Alike st st') (hinv : Inv h st)
    (hput : st'.put key val = some (.ok u')) : ∃ u, st.put key val = some (.ok u) := by
  rw [Store.put, Btree.put] at hput
  rcases hlim : checkLimits st'.beginWrite.pageSize key val with e | ⟨⟩
  · rw [hlim] at hput
    cases hput
  rw [hlim] at hput
  obtain ⟨⟨newRoot, txn⟩, hbuild, hput⟩ := Option.bind_eq_some_iff.1 hput
  obtain ⟨u, hcommit, -⟩ := Option.map_eq_some_iff.1 hput
  obtain ⟨⟨w, chain, header⟩, hprep, -⟩ := Option.bind_eq_some_iff.1 hcommit
  obtain ⟨hbuild', hsize⟩ := ha.buildPut_back hinv hbuild
  have hlim' : checkLimits st.beginWrite.pageSize key val = .ok () := by
    rw [← hlim]
    exact congrArg (fun P => checkLimits P key val) ha.pageSize_eq.symm
  have hprep' : (txn.onto st.io).prepare (txn.onto st.io).store.readers newRoot =
      some (w, chain, header) := (prepare_onto hsize.symm newRoot).trans hprep
  exact ⟨_, by simp only [Store.put, Btree.put, hlim', hbuild', WriteTxn.commit, hprep',
    Option.bind_eq_bind, Option.bind_some, Option.map_some]; rfl⟩

/-- **No put on the store writes a live page.** -/
theorem putWrites_not_live (ha : Alike st st') (hinv : Inv h st)
    (hws : st'.putWrites key val = some ws) : ∀ w ∈ ws, ¬st'.Live w.1 := by
  obtain ⟨⟨newRoot, txn⟩, hbuild, hws⟩ := Option.bind_eq_some_iff.1 hws
  obtain ⟨⟨w, chain, header⟩, hprep, hws⟩ := Option.bind_eq_some_iff.1 hws
  obtain rfl := Option.some.inj hws
  obtain ⟨hbuild', hsize⟩ := ha.buildPut_back hinv hbuild
  have hstep := buildPut_step hinv hbuild' ((prepare_onto hsize.symm newRoot).trans hprep)
  intro page hmem hlive
  exact hstep.notMem_of_tree hinv (hinv.live_iff.1 ((ha.live_iff hinv).1 hlive))
    (List.mem_map_of_mem hmem)

end Alike

/-! ## Opening a backend -/

/-- **Any backend with the header, the tree and the chain of a store** is opened as one that the
store's own backend is. -/
theorem Inv.open_alike (hinv : Inv h st) (hsize : io.pageSize = st.io.pageSize)
    (hheader : io.readPage HEADER_PAGE_ID = st.io.readPage HEADER_PAGE_ID)
    (htree : ∀ p, st.Live p → io.readPage p = st.io.readPage p)
    (hchain : ∀ p ∈ st.writer.freeListPageIds.take (st.writer.pagesNeeded st.io.pageSize),
      io.readPage p = st.io.readPage p) :
    ∃ rec' rec, Store.openOrCreate st.io = some (.ok rec') ∧ rec'.io = st.io ∧
      rec'.root = st.root ∧ Store.openOrCreate io = some (.ok rec) ∧ rec.io = io ∧
      Alike rec' rec :=
  ⟨_, _, hinv.openOrCreate_eq rfl rfl fun _ _ => rfl, rfl, rfl,
    hinv.openOrCreate_eq hsize hheader hchain, rfl, rfl, rfl, rfl, hsize, hheader, htree, hchain⟩

/-- What is left of a put that was cut off: some of its writes, but not that of the header, and no
change to a page of the chain that the header names. -/
structure Torn (st : Store) (ws kept : List (PageId × Bytes)) : Prop where
  some_of : kept.Subperm ws
  header : HEADER_PAGE_ID ∉ kept.map Prod.fst
  chain : ∀ w ∈ kept, w.1 ∈ st.writer.freeListPageIds.take (st.writer.pagesNeeded st.io.pageSize) →
    w.2 = st.io.readPage w.1

theorem Torn.subperm (htorn : Torn st ws kept) :
    (kept.map Prod.fst).Subperm (ws.map Prod.fst) := by
  obtain ⟨l, hperm, hsub⟩ := htorn.some_of
  exact ⟨l.map Prod.fst, hperm.map _, hsub.map _⟩

/-- **A store that crashes in a put** is opened as one that was closed before it. -/
theorem Alike.torn (ha : Alike st st') (hinv : Inv h st) {u : Store}
    (hput : st.put key val = some (.ok u)) (hws : st.putWrites key val = some ws)
    (htorn : Torn st' ws kept) :
    ∃ rec' rec, Store.openOrCreate st.io = some (.ok rec') ∧ rec'.io = st.io ∧
      rec'.root = st.root ∧ Store.openOrCreate (st'.io.writePages kept) = some (.ok rec) ∧
      rec.io = st'.io.writePages kept ∧ Alike rec' rec := by
  obtain ⟨newRoot, txn, w, chain, header, hstep, rfl, -, -⟩ := exists_putStep hinv hput hws
  have hsub := htorn.subperm.subset
  refine hinv.open_alike ((PageIo.pageSize_writePages _ _).trans ha.pageSize_eq) ?_
    (fun p hp => ?_) fun p hp => ?_
  · rw [PageIo.readPage_writePages_of_notMem _ htorn.header, ha.header]
  · rw [PageIo.readPage_writePages_of_notMem _ fun hmem =>
      hstep.notMem_of_tree hinv (hinv.live_iff.1 hp) (hsub hmem), ha.tree p hp]
  · have hold := ha.chain p (List.mem_of_mem_take hp)
    by_cases hmem : p ∈ kept.map Prod.fst
    · obtain ⟨⟨p, bytes⟩, hw, rfl⟩ := List.mem_map.1 hmem
      have hnodup : (kept.map Prod.fst).Nodup := by
        obtain ⟨l, hperm, hsub⟩ := htorn.subperm
        exact hperm.nodup_iff.1 (hstep.nodup_writes.sublist hsub)
      rw [← ha.writer_eq, ← ha.pageSize_eq] at hp
      rw [PageIo.readPage_writePages_of_mem _ hnodup hw, ← hold]
      exact htorn.chain _ hw hp
    · rw [PageIo.readPage_writePages_of_notMem _ hmem, hold]

/-! ## Runs -/

/-- The runs of an engine that is closed and opened, and crashes in the middle of puts, with the
map that its completed puts make. -/
inductive CrashRun (pageSize : ℕ) : Store → (Key → Option Val) → Prop
  | create {st : Store} (hst : Store.inMemory pageSize = some (.ok st)) :
      CrashRun pageSize st fun _ => none
  | op {st st' : Store} {m : Key → Option Val} {o : Op} {r : Response}
      (hrun : CrashRun pageSize st m) (ho : st.apply o = some (st', r)) :
      CrashRun pageSize st' (mapSpec pageSize m o).1
  | reopen {st st' : Store} {m : Key → Option Val} (hrun : CrashRun pageSize st m)
      (hopen : Store.openOrCreate st.io = some (.ok st')) : CrashRun pageSize st' m
  | crash {st st' rec : Store} {m : Key → Option Val} {key : Key} {val : Val}
      {ws kept : List (PageId × Bytes)} (hrun : CrashRun pageSize st m)
      (hput : st.put key val = some (.ok st')) (hws : st.putWrites key val = some ws)
      (htorn : Torn st ws kept)
      (hrec : Store.openOrCreate (st.io.writePages kept) = some (.ok rec)) :
      CrashRun pageSize rec m

/-- A store that is alike one of a run without crashes, with the bindings of `m`. -/
structure Simulated (pageSize : ℕ) (st : Store) (m : Key → Option Val) : Prop where
  exists_alike : ∃ st₁, Reachable pageSize st₁ ∧ Represents pageSize st₁ m ∧ Alike st₁ st

namespace Simulated

variable {m : Key → Option Val}

theorem pageSize_eq (hsim : Simulated pageSize st m) : st.io.pageSize = pageSize := by
  obtain ⟨st₁, -, hrep, ha⟩ := hsim.exists_alike
  exact ha.pageSize_eq.trans hrep.pageSize_eq

theorem get (hP : GoodPageSize pageSize) (hsim : Simulated pageSize st m) (key : Key) :
    st.get key = some (m key) := by
  obtain ⟨st₁, -, hrep, ha⟩ := hsim.exists_alike
  obtain ⟨h, hinv, -⟩ := hrep.tree
  rw [ha.get hinv, hrep.get hP]

theorem withReaders (hsim : Simulated pageSize st m) (readers : ℕ) :
    Simulated pageSize { st with readers } m := by
  obtain ⟨st₁, hreach, hrep, ha⟩ := hsim.exists_alike
  exact ⟨_, hreach.withReaders readers, hrep.withReaders readers, ha.withReaders readers⟩

/-- Closing and opening the store that was never cut off. -/
theorem of_reopened {st₁ rec' rec : Store} (hreach : Reachable pageSize st₁)
    (hrep : Represents pageSize st₁ m) (hopen : Store.openOrCreate st₁.io = some (.ok rec'))
    (hio : rec'.io = st₁.io) (hroot : rec'.root = st₁.root) (ha : Alike rec' rec) :
    Simulated pageSize rec m := by
  obtain ⟨h, hinv, hok, hm⟩ := hrep.tree
  obtain ⟨st₀, hst₀, hrun⟩ := hreach.withReaders 0
  refine ⟨rec', ⟨st₀, hst₀, hrun.tail (.reopen rfl hopen)⟩, ⟨?_, h, hinv.reopen hopen, ?_, ?_⟩, ha⟩
  · rw [hio, hrep.pageSize_eq]
  · rw [hio, hroot]
    exact hok
  · rw [hio, hroot]
    exact hm

/-- **A backend that reads as a simulated store's does** is opened as a simulated store. -/
theorem open_same (hsim : Simulated pageSize st m) (hsize : io.pageSize = st.io.pageSize)
    (hread : ∀ p, io.readPage p = st.io.readPage p) :
    ∃ hd st', Header.fromBytes (io.readPage HEADER_PAGE_ID) = some (.ok hd) ∧
      Store.openOrCreate io = some (.ok st') ∧ st'.io = io ∧ Simulated pageSize st' m := by
  obtain ⟨st₁, hreach, hrep, ha⟩ := hsim.exists_alike
  obtain ⟨h, hinv, -⟩ := hrep.tree
  obtain ⟨rec', rec, hopen', hio, hroot, hopen, hrec, halike⟩ := hinv.open_alike
    (hsize.trans ha.pageSize_eq) ((hread _).trans ha.header)
    (fun p hp => (hread p).trans (ha.tree p hp))
    fun p hp => (hread p).trans (ha.chain p (List.mem_of_mem_take hp))
  have hheader := hinv.persisted.header
  rw [← ha.header, ← hread] at hheader
  exact ⟨_, rec, hheader, hopen, hrec, of_reopened hreach hrep hopen' hio hroot halike⟩

theorem reopen (hsim : Simulated pageSize st m) :
    ∃ st', Store.openOrCreate st.io = some (.ok st') ∧ Simulated pageSize st' m := by
  obtain ⟨hd, st', -, hopen, -, hsim'⟩ := hsim.open_same rfl fun _ => rfl
  exact ⟨st', hopen, hsim'⟩

/-- What a put on a simulated store returns. -/
theorem put_cases (hP : GoodPageSize pageSize) (hsim : Simulated pageSize st m) (key : Key)
    (val : Val) :
    (¬Small pageSize (key, val) ∧ st.put key val = some (.error (.entryTooLarge
      (key.length + val.length) (maxKvSize pageSize)))) ∨
    Small pageSize (key, val) ∧ ∃ ws st', st.put key val = some (.ok st') ∧
      st.putWrites key val = some ws ∧
      Simulated pageSize st' (Function.update m key (some val)) ∧
      ∀ kept, Torn st ws kept → ∃ rec, Store.openOrCreate (st.io.writePages kept) =
        some (.ok rec) ∧ rec.io = st.io.writePages kept ∧ Simulated pageSize rec m := by
  obtain ⟨st₁, hreach, hrep, ha⟩ := hsim.exists_alike
  have hsize := hsim.pageSize_eq
  by_cases hkv : Small pageSize (key, val)
  · refine Or.inr ⟨hkv, ?_⟩
    obtain ⟨h, hinv, hok, -⟩ := hrep.tree
    have hsize₁ := hrep.pageSize_eq
    obtain ⟨u, hput⟩ := hinv.put_accepted (hsize₁ ▸ hP) hok (hsize₁ ▸ hkv)
    obtain ⟨ws, u', hws, hws', hput', -, ha'⟩ := ha.put hinv hput
    obtain ⟨st₂, happly, hrep'⟩ := hrep.apply hP (.put key val)
    have hle : ¬key.length + val.length > maxKvSize pageSize := not_lt.2 hkv
    rw [Store.apply, hput, mapSpec, if_neg hle, Option.map_some, Option.some.injEq,
      Prod.mk.injEq] at happly
    obtain ⟨rfl, -⟩ := happly
    rw [mapSpec, if_neg hle] at hrep'
    obtain ⟨st₀, hst₀, hrun⟩ := hreach
    refine ⟨ws, u', hput', hws', ⟨u, ⟨st₀, hst₀, hrun.tail (.accepted hput)⟩, hrep', ha'⟩,
      fun kept htorn => ?_⟩
    obtain ⟨rec', rec, hopen', hio, hroot, hopen, hrec, halike⟩ := ha.torn hinv hput hws htorn
    exact ⟨rec, hopen, hrec, of_reopened ⟨st₀, hst₀, hrun⟩ hrep hopen' hio hroot halike⟩
  · exact Or.inl ⟨hkv, hsize ▸ put_rejected (hsize ▸ hkv)⟩

/-- **One operation** answers as the map does, and leaves a simulated store. -/
theorem apply (hP : GoodPageSize pageSize) (hsim : Simulated pageSize st m) (o : Op) :
    ∃ st', st.apply o = some (st', (mapSpec pageSize m o).2) ∧
      Simulated pageSize st' (mapSpec pageSize m o).1 := by
  cases o with
  | put key val =>
    rcases hsim.put_cases hP key val with ⟨hkv, hput⟩ | ⟨hkv, ws, st', hput, -, hsim', -⟩
    · have hgt : key.length + val.length > maxKvSize pageSize := not_le.1 hkv
      rw [Store.apply, hput, mapSpec, if_pos hgt]
      exact ⟨st, rfl, hsim⟩
    · have hle : ¬key.length + val.length > maxKvSize pageSize := not_lt.2 hkv
      rw [Store.apply, hput, mapSpec, if_neg hle]
      exact ⟨st', rfl, hsim'⟩
  | get key =>
    refine ⟨st, ?_, hsim⟩
    rw [Store.apply, hsim.get hP, mapSpec, Option.map_some]
  | enterRead => exact ⟨_, rfl, hsim.withReaders _⟩
  | dropGuard => exact ⟨_, rfl, hsim.withReaders _⟩

end Simulated

/-- **A run with crashes is simulated by one without.** -/
theorem CrashRun.simulated (hP : GoodPageSize pageSize) {m : Key → Option Val}
    (hrun : CrashRun pageSize st m) : Simulated pageSize st m := by
  induction hrun with
  | create hst =>
    exact ⟨_, ⟨_, hst, Relation.ReflTransGen.refl⟩, Represents.inMemory hP hst, Alike.refl _⟩
  | op _ ho ih =>
    obtain ⟨st', ho', hsim⟩ := ih.apply hP _
    rw [ho', Option.some.injEq, Prod.mk.injEq] at ho
    exact ho.1 ▸ hsim
  | reopen _ hopen ih =>
    obtain ⟨st', hopen', hsim⟩ := ih.reopen
    rw [hopen', Option.some.injEq, Except.ok.injEq] at hopen
    exact hopen ▸ hsim
  | crash _ hput hws htorn hrec ih =>
    rcases ih.put_cases hP _ _ with ⟨-, hput'⟩ | ⟨-, ws, -, -, hws', -, hcrash⟩
    · rw [hput'] at hput
      cases hput
    · obtain rfl := Option.some.inj (hws'.symm.trans hws)
      obtain ⟨rec, hrec', -, hsim⟩ := hcrash _ htorn
      rw [hrec', Option.some.injEq, Except.ok.injEq] at hrec
      exact hrec ▸ hsim

/-- **Crashes are survived**: an engine that has crashed any number of times, each time with any
part of the writes of a put but not its header and without a change to the chain that the header
names, answers every operation as the map of its completed puts does; no page of it has two
owners; and it is opened again, as it was before, after a clean close and after every such crash. -/
theorem crash_runs_refine (hle : 49 ≤ pageSize) (hge : pageSize ≤ 32768) {m : Key → Option Val}
    (hrun : CrashRun pageSize st m) :
    (∀ o, ∃ st', st.apply o = some (st', (mapSpec pageSize m o).2)) ∧ ExclusiveOwnership st ∧
    (∃ st', Store.openOrCreate st.io = some (.ok st') ∧ ∀ k, st'.get k = some (m k)) ∧
    ∀ key val ws kept, Small pageSize (key, val) → st.putWrites key val = some ws →
      Torn st ws kept → ∃ rec, Store.openOrCreate (st.io.writePages kept) = some (.ok rec) ∧
        ∀ k, rec.get k = some (m k) := by
  have hP : GoodPageSize pageSize := ⟨hle, hge.trans (by norm_num)⟩
  have hsim := hrun.simulated hP
  refine ⟨fun o => ?_, ?_, ?_, fun key val ws kept hkv hws htorn => ?_⟩
  · obtain ⟨st', ho, -⟩ := hsim.apply hP o
    exact ⟨st', ho⟩
  · obtain ⟨st₁, -, hrep, ha⟩ := hsim.exists_alike
    obtain ⟨h, hinv, -⟩ := hrep.tree
    exact ha.exclusiveOwnership hinv
  · obtain ⟨st', hopen, hsim'⟩ := hsim.reopen
    exact ⟨st', hopen, hsim'.get hP⟩
  · rcases hsim.put_cases hP key val with ⟨hnot, -⟩ | ⟨-, ws', -, -, hws', -, hcrash⟩
    · exact absurd hkv hnot
    · obtain rfl := Option.some.inj (hws'.symm.trans hws)
      obtain ⟨rec, hopen, -, hsim'⟩ := hcrash kept htorn
      exact ⟨rec, hopen, hsim'.get hP⟩

/-- An accepted put. -/
theorem CrashRun.put {m : Key → Option Val} (hrun : CrashRun pageSize st m)
    (hkv : Small pageSize (key, val)) (hput : st.put key val = some (.ok st')) :
    CrashRun pageSize st' (Function.update m key (some val)) := by
  have hspec : (mapSpec pageSize m (.put key val)).1 = Function.update m key (some val) := by
    rw [mapSpec, if_neg (not_lt.2 hkv)]
  exact hspec ▸ hrun.op (by rw [Store.apply, hput]; rfl)

/-- After one put a second one is cut off behind its first write, and a third one reuses the page
that the second one has written. -/
theorem crash_runs_refine_session : ∃ st, CrashRun 64 st
    (Function.update (Function.update (fun _ => none) [1] (some [1])) [3] (some [3])) ∧
      st.get [1] = some (some [1]) ∧ st.get [2] = some none ∧ st.get [3] = some (some [3]) ∧
      ExclusiveOwnership st := by
  have hplay : (((succeeded (Store.inMemory 64)).bind fun st₀ =>
      (succeeded (st₀.put [1] [1])).bind fun st => (succeeded (st.put [2] [2])).bind fun _ =>
        (st.putWrites [2] [2]).bind fun ws =>
          (succeeded (Store.openOrCreate (st.io.writePages (ws.take 1)))).bind fun rec =>
            (succeeded (rec.put [3] [3])).map fun st' =>
              (st.writer.freeListPageIds, (ws.take 1).map Prod.fst))) = some ([3], [1]) := by
    decide +kernel
  obtain ⟨st₀, hst₀, hplay⟩ := Option.bind_eq_some_iff.1 hplay
  obtain ⟨st, hst, hplay⟩ := Option.bind_eq_some_iff.1 hplay
  obtain ⟨u, hu, hplay⟩ := Option.bind_eq_some_iff.1 hplay
  obtain ⟨ws, hws, hplay⟩ := Option.bind_eq_some_iff.1 hplay
  obtain ⟨rec, hrec, hplay⟩ := Option.bind_eq_some_iff.1 hplay
  obtain ⟨st', hst', hplay⟩ := Option.map_eq_some_iff.1 hplay
  obtain ⟨hids, hkept⟩ := Prod.mk.inj hplay
  have htorn : Torn st ws (ws.take 1) := by
    refine ⟨(List.take_sublist _ _).subperm, ?_, fun w hw hmem => ?_⟩
    · rw [hkept]
      decide
    · have hfst := List.mem_map_of_mem (f := Prod.fst) hw
      have hold := List.mem_of_mem_take hmem
      rw [hkept, List.mem_singleton] at hfst
      rw [hids, hfst] at hold
      exact absurd hold (by decide)
  have hrun := ((CrashRun.create (succeeded_eq_some hst₀)).put (checkLimits_eq_ok_iff.1 rfl)
    (succeeded_eq_some hst)).crash (succeeded_eq_some hu) hws htorn (succeeded_eq_some hrec)
  have hrun' := hrun.put (checkLimits_eq_ok_iff.1 rfl) (succeeded_eq_some hst')
  obtain ⟨hops, hown, -⟩ := crash_runs_refine (by decide) (by decide) hrun'
  have hget : ∀ k, st'.get k = some (Function.update (Function.update (fun _ => none) [1]
      (some [1])) [3] (some [3]) k) := by
    intro k
    obtain ⟨st₂, hop⟩ := hops (.get k)
    obtain ⟨v, hv, heq⟩ := Option.map_eq_some_iff.1 hop
    rw [hv]
    exact congrArg some (Response.get.inj (Prod.mk.inj heq).2)
  exact ⟨st', hrun', hget [1], hget [2], hget [3], hown⟩

end CowRaft.Btree
