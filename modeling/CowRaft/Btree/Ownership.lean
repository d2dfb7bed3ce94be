import CowRaft.Btree.TreeShape
import CowRaft.Btree.Persist

/-!
# Who owns a page

Every page id below the bump allocator's mark that is in use belongs to one of four owners: the
tree, the free list, the pending frees and the free-list chain. `Inv h st` says that no id occurs
twice among these (`owned`), that the backend holds what the store says it holds, and that nothing
at or above the mark was ever written.

One put moves ids between the owners and adds the freshly bumped ones (`PutStep.owned_perm`), so
that the ownership stays exclusive. `PutStep` collects what a put does, for the store it starts
from and for any backend that holds some of its writes.
-/

namespace CowRaft.Btree

open Bytes HeapTree

/-- The ids of the four owners: the tree, then the free and the pending pages, then the chain. -/
def owned (io : PageIo) (h : ℕ) (root : PageId) (w : WriterState) : List PageId :=
  treePages io h root ++ (w.payload ++ w.freeListPageIds)

/-- The header page and the chain say what the writer's state says. -/
structure Persisted (io : PageIo) (root : PageId) (w : WriterState) : Prop where
  header : Header.fromBytes (io.readPage HEADER_PAGE_ID) = some (.ok ⟨io.pageSize, root,
    w.nextPageId, linkId w.freeListPageIds (w.pagesNeeded io.pageSize) 0, w.payload.length⟩)
  needed_le : w.pagesNeeded io.pageSize ≤ w.freeListPageIds.length
  holds : ChainHolds io w.freeListPageIds w.payload (w.pagesNeeded io.pageSize)
  linked : ChainLinked io w.freeListPageIds

/-- **The store invariant.** -/
structure Inv (h : ℕ) (st : Store) : Prop where
  le_pageSize : 49 ≤ st.io.pageSize
  pageSize_lt : st.io.pageSize < 65536
  shape : Shape st.io h st.root
  nodup : (owned st.io h st.root st.writer).Nodup
  bounds : ∀ p ∈ owned st.io h st.root st.writer, 0 < p ∧ p < st.writer.nextPageId
  unwritten : ∀ p, st.writer.nextPageId ≤ p → st.io.pages p = none
  persisted : Persisted st.io st.root st.writer

section Inv

variable {h : ℕ} {st : Store}

theorem Inv.tree_bounds (hinv : Inv h st) {p : PageId} (hp : p ∈ treePages st.io h st.root) :
    0 < p ∧ p < st.writer.nextPageId :=
  hinv.bounds p (List.mem_append_left _ hp)

theorem Inv.chain_bounds (hinv : Inv h st) {p : PageId} (hp : p ∈ st.writer.freeListPageIds) :
    0 < p ∧ p < st.writer.nextPageId :=
  hinv.bounds p (List.mem_append_right _ (List.mem_append_right _ hp))

theorem Inv.next_pos (hinv : Inv h st) : 0 < st.writer.nextPageId :=
  have hroot := hinv.tree_bounds (mem_treePages_self ..)
  hroot.1.trans hroot.2

/-- Pairwise distinct ids below a bound are not more than the bound. -/
theorem length_le_of_nodup {l : List PageId} {n : ℕ} (hl : l.Nodup) (h : ∀ p ∈ l, p < n) :
    l.length ≤ n := by
  have hsub : l ⊆ List.range n := fun p hp => List.mem_range.2 (h p hp)
  simpa using (hl.subperm hsub).length_le

/-- The height of the tree is below the bump allocator's mark. -/
theorem Inv.height_le (hinv : Inv h st) : h ≤ st.writer.nextPageId := by
  have htree : (treePages st.io h st.root).Nodup := (List.nodup_append.1 hinv.nodup).1
  exact hinv.shape.lt_length_treePages.le.trans
    (length_le_of_nodup htree fun p hp => (hinv.tree_bounds hp).2)

theorem Inv.chain_length_le (hinv : Inv h st) :
    st.writer.freeListPageIds.length ≤ st.writer.nextPageId := by
  have hchain : st.writer.freeListPageIds.Nodup :=
    (List.nodup_append.1 (List.nodup_append.1 hinv.nodup).2.1).2.1
  exact length_le_of_nodup hchain fun p hp => (hinv.chain_bounds hp).2

theorem length_le_pagesNeeded (w : WriterState) (pageSize : ℕ) :
    w.payload.length ≤ w.pagesNeeded pageSize * WriterState.chainCap pageSize :=
  not_lt.1 fun hlt => lt_irrefl _ ((WriterState.pagesNeeded_spec _).2 hlt)

/-- Opening a backend whose header page can be read. -/
theorem openOrCreate_iff_of_header {io : PageIo} {hd : Header} {st' : Store}
    (hheader : Header.fromBytes (io.readPage HEADER_PAGE_ID) = some (.ok hd))
    (hsize : hd.pageSize = io.pageSize) :
    Store.openOrCreate io = some (.ok st') ↔ ∃ free ids,
      loadFreeListChain io (hd.nextPageId + 1) hd.freeListHead = some (free, ids) ∧
        st' = ⟨io, hd.rootId, 0, ⟨hd.nextPageId, free, [], ids⟩⟩ := by
  simp only [Store.openOrCreate, hheader, Option.bind_eq_bind, Option.bind_some, hsize, if_true,
    Store.ofHeader]
  rcases loadFreeListChain io (hd.nextPageId + 1) hd.freeListHead with _ | ⟨free, ids⟩
  · simp
  · simp only [Option.bind_some, Option.map_some, Option.some.injEq, Except.ok.injEq,
      Prod.mk.injEq, and_assoc, exists_and_left, exists_eq_left', eq_comm]

/-- **Reopening**: a backend with the header and the chain of a store reopens as that store, with
the pending pages free and the unused pages of the chain forgotten. -/
theorem Inv.openOrCreate_eq (hinv : Inv h st) {io : PageIo} (hsize : io.pageSize = st.io.pageSize)
    (hheader : io.readPage HEADER_PAGE_ID = st.io.readPage HEADER_PAGE_ID)
    (hchain : ∀ p ∈ st.writer.freeListPageIds.take (st.writer.pagesNeeded st.io.pageSize),
      io.readPage p = st.io.readPage p) :
    Store.openOrCreate io = some (.ok ⟨io, st.root, 0, ⟨st.writer.nextPageId, st.writer.payload, [],
      st.writer.freeListPageIds.take (st.writer.pagesNeeded st.io.pageSize)⟩⟩) := by
  have hholds : ChainHolds io st.writer.freeListPageIds st.writer.payload
      (st.writer.pagesNeeded st.io.pageSize) := fun i hi hlt => by
    have hmem : st.writer.freeListPageIds[i] ∈
        st.writer.freeListPageIds.take (st.writer.pagesNeeded st.io.pageSize) :=
      List.mem_iff_getElem.2 ⟨i, by rw [List.length_take]; omega, List.getElem_take⟩
    rw [hchain _ hmem, hsize]
    exact hinv.persisted.holds i hi hlt
  have hload := loadFreeListChain_eq hinv.persisted.needed_le
    (fun id hid => (hinv.chain_bounds hid).1.ne') (i := 0) (fun i hi _ => hholds i hi)
    (hsize ▸ length_le_pagesNeeded st.writer st.io.pageSize) (Nat.zero_le _)
    ((hinv.persisted.needed_le.trans hinv.chain_length_le).trans (Nat.le_succ _))
  rw [Nat.zero_mul, List.drop_zero, List.drop_zero] at hload
  exact (openOrCreate_iff_of_header (hheader ▸ hinv.persisted.header) hsize.symm).2
    ⟨_, _, hload, rfl⟩

theorem payload_reopened (w : WriterState) (ids : List PageId) :
    WriterState.payload ⟨w.nextPageId, w.payload, [], ids⟩ = w.payload := List.append_nil _

theorem pagesNeeded_reopened (w : WriterState) (ids : List PageId) (pageSize : ℕ) :
    WriterState.pagesNeeded ⟨w.nextPageId, w.payload, [], ids⟩ pageSize =
      w.pagesNeeded pageSize := by
  rw [WriterState.pagesNeeded, payload_reopened, WriterState.pagesNeeded]

/-- A cleanly reopened store satisfies the invariant. -/
theorem Inv.reopen (hinv : Inv h st) {st' : Store}
    (hst : Store.openOrCreate st.io = some (.ok st')) : Inv h st' := by
  rw [hinv.openOrCreate_eq rfl rfl fun _ _ => rfl, Option.some.injEq, Except.ok.injEq] at hst
  subst hst
  have hle := hinv.persisted.needed_le
  have hpay := payload_reopened st.writer
    (st.writer.freeListPageIds.take (st.writer.pagesNeeded st.io.pageSize))
  have hneed := pagesNeeded_reopened st.writer
    (st.writer.freeListPageIds.take (st.writer.pagesNeeded st.io.pageSize)) st.io.pageSize
  have hsub : (owned st.io h st.root ⟨st.writer.nextPageId, st.writer.payload, [],
      st.writer.freeListPageIds.take (st.writer.pagesNeeded st.io.pageSize)⟩).Sublist
        (owned st.io h st.root st.writer) := by
    rw [owned, owned, hpay]
    exact ((List.take_sublist _ _).append_left _).append_left _
  have hlink := linkId_take hle
  have hholds : ChainHolds st.io
      (st.writer.freeListPageIds.take (st.writer.pagesNeeded st.io.pageSize)) st.writer.payload
      (st.writer.pagesNeeded st.io.pageSize) := fun i hi hlt => by
    rw [List.getElem_take, hlink]
    exact hinv.persisted.holds i (by omega) hlt
  exact
    { le_pageSize := hinv.le_pageSize
      pageSize_lt := hinv.pageSize_lt
      shape := hinv.shape
      nodup := hinv.nodup.sublist hsub
      bounds := fun p hp => hinv.bounds p (hsub.subset hp)
      unwritten := hinv.unwritten
      persisted :=
        { header := by
            rw [hneed, hpay, hlink]
            exact hinv.persisted.header
          needed_le := by
            rw [hneed, List.length_take]
            omega
          holds := by
            rw [hneed, hpay]
            exact hholds
          linked := fun i hi =>
            hholds.linked (by rw [List.length_take]; omega) hi
              (by rw [List.length_take] at hi; omega) } }

end Inv

/-! ## One put -/

namespace WriterState

variable (w : WriterState)

theorem payload_foldFrees (freed : List PageId) :
    (w.foldFrees freed).payload = w.payload ++ freed := by
  rw [foldFrees, payload, payload, List.append_assoc]

/-- The gate moves ids between the free and the pending pages, in order. -/
theorem payload_passGate (readers : ℕ) : (w.passGate readers).payload = w.payload := by
  rw [passGate]
  split_ifs
  · rw [promote, payload, payload, List.append_nil]
  · rfl

theorem freeListPageIds_passGate (readers : ℕ) :
    (w.passGate readers).freeListPageIds = w.freeListPageIds := by
  rw [passGate]
  split_ifs <;> rfl

theorem growChain_spec (pageSize : ℕ) : ∃ n,
    n = (w.growChain pageSize).pagesNeeded pageSize - w.freeListPageIds.length ∧
    (w.growChain pageSize).freeListPageIds =
      w.freeListPageIds ++ List.range' w.nextPageId n ∧
    (w.growChain pageSize).nextPageId = w.nextPageId + n :=
  ⟨_, rfl, rfl, rfl⟩

theorem nextPageId_passGate (readers : ℕ) : (w.passGate readers).nextPageId = w.nextPageId := by
  rw [passGate]
  split_ifs <;> rfl

end WriterState

/-- What a put does to a store `st` whose tree has height `h`: it writes pages that belong to no
one, then pages of the chain, then the header; and the pages of the tree that these writes build,
with what the writer `w` then holds, are the pages owned before and the freshly bumped ones. -/
structure PutStep (h : ℕ) (st : Store) (newRoot : PageId) (txn : WriteTxn) (w : WriterState)
    (chain : List (PageId × Bytes)) (header : Bytes) : Prop where
  io_eq : txn.store.io = st.io
  nodup : (treePages st.io h st.root ++ (txn.writes.map Prod.fst ++ w.freeListPageIds)).Nodup
  bounds : ∀ p ∈ txn.writes.map Prod.fst ++ w.freeListPageIds, 0 < p ∧ p < w.nextPageId
  next_le : st.writer.nextPageId ≤ w.nextPageId
  chain_grows : w.freeListPageIds = st.writer.freeListPageIds ++
    List.range' txn.store.writer.nextPageId
      (w.pagesNeeded st.io.pageSize - st.writer.freeListPageIds.length)
  alloc_next_le : st.writer.nextPageId ≤ txn.store.writer.nextPageId
  chainWrites_eq : w.chainWrites st.io.pageSize = some chain
  needed_le : w.pagesNeeded st.io.pageSize ≤ w.freeListPageIds.length
  payload_old : ∀ p ∈ w.payload, p < st.writer.nextPageId
  writes_pos : 0 < txn.writes.length
  /-- The chain lists the free pages that are left, the pending ones and pages of the old tree. -/
  payload_eq : ∃ F, F ≠ [] ∧ (∀ p ∈ F, p ∈ treePages st.io h st.root) ∧
    w.payload = st.writer.freeList.take (st.writer.freeList.length - txn.writes.length) ++
      (st.writer.pendingFree ++ F)
  header_eq : Header.toBytes ⟨st.io.pageSize, newRoot, w.nextPageId, linkId w.freeListPageIds
    (w.pagesNeeded st.io.pageSize) 0, w.payload.length⟩ st.io.pageSize = some header
  owned_perm : ∀ io : PageIo, io.pageSize = st.io.pageSize →
    (∀ p ∈ treePages st.io h st.root, io.readPage p = st.io.readPage p) → Flushed io txn →
    ∃ h', Shape io h' newRoot ∧ (owned io h' newRoot w).Perm (owned st.io h st.root st.writer ++
      List.range' st.writer.nextPageId (w.nextPageId - st.writer.nextPageId))

theorem prepare_spec {txn : WriteTxn} {readers : ℕ} {newRoot : PageId} {w : WriterState}
    {chain : List (PageId × Bytes)} {header : Bytes}
    (hp : txn.prepare readers newRoot = some (w, chain, header)) :
    w = ((txn.store.writer.foldFrees txn.freed).passGate readers).growChain txn.pageSize ∧
      w.chainWrites txn.pageSize = some chain ∧
      Header.toBytes ⟨txn.pageSize, newRoot, w.nextPageId, linkId w.freeListPageIds
        (w.pagesNeeded txn.pageSize) 0, w.payload.length⟩ txn.pageSize = some header := by
  obtain ⟨⟨w', chain', head, count⟩, hpersist, hp⟩ := Option.bind_eq_some_iff.1 hp
  obtain ⟨bytes, hb, hp⟩ := Option.bind_eq_some_iff.1 hp
  obtain ⟨rfl, rfl, rfl⟩ : w' = w ∧ chain' = chain ∧ bytes = header := by simpa using hp
  obtain ⟨rfl, hchain, rfl, rfl⟩ := WriterState.persistFreeList_spec hpersist
  exact ⟨rfl, hchain, hb⟩

/-- A range of ids beyond the mark, added to ids below it. -/
theorem nodup_append_range' {l : List PageId} {next n : ℕ} (hl : l.Nodup)
    (hlt : ∀ p ∈ l, p < next) : (l ++ List.range' next n).Nodup :=
  List.nodup_append'.2 ⟨hl, List.nodup_range', fun p hp hr =>
    absurd (hlt p hp) (not_lt.2 (List.mem_range'_1.1 hr).1)⟩

/-- **A put conserves the pages.** -/
theorem buildPut_step {h : ℕ} {st : Store} {key : Key} {val : Val} {newRoot : PageId}
    {txn : WriteTxn} {readers : ℕ} {w : WriterState} {chain : List (PageId × Bytes)}
    {header : Bytes} (hinv : Inv h st) (hb : buildPut st.beginWrite key val = some (newRoot, txn))
    (hp : txn.prepare readers newRoot = some (w, chain, header)) :
    PutStep h st newRoot txn w chain header := by
  obtain ⟨A, F, hext, ⟨hFlen, hAlen⟩, hFold, hreb⟩ :=
    (@buildPut_shape _ st.beginWrite) hinv.pageSize_lt rfl hinv.shape hb
  obtain ⟨hw, hchain, hheader⟩ := prepare_spec hp
  have hio : txn.store.io = st.io := hext.io_eq
  have hsize : txn.pageSize = st.io.pageSize := hext.pageSize_eq
  have hA : txn.writes.map Prod.fst = A := by
    obtain ⟨ws, hws, hm⟩ := hext.writes
    rw [hws]
    exact hm
  have hF : txn.freed = F := hext.freed
  have hnext₁ : st.writer.nextPageId ≤ txn.store.writer.nextPageId := hext.alloc.next_le
  have hids₁ : (txn.store.writer.foldFrees txn.freed).freeListPageIds =
      st.writer.freeListPageIds := hext.alloc.chain_eq
  have hnext₀ : (txn.store.writer.foldFrees txn.freed).nextPageId =
      txn.store.writer.nextPageId := rfl
  obtain ⟨n, hn, hids, hnext⟩ := ((txn.store.writer.foldFrees txn.freed).passGate
    readers).growChain_spec txn.pageSize
  rw [← hw, WriterState.freeListPageIds_passGate, hids₁] at hn
  rw [← hw, WriterState.freeListPageIds_passGate, WriterState.nextPageId_passGate, hids₁,
    hnext₀] at hids
  rw [← hw, WriterState.nextPageId_passGate, hnext₀] at hnext
  have hpay : w.payload = txn.store.writer.freeList ++ (st.writer.pendingFree ++ F) := by
    rw [hw, WriterState.payload_growChain, WriterState.payload_passGate,
      WriterState.payload_foldFrees, WriterState.payload, hext.alloc.pending_eq, hF,
      List.append_assoc]
    rfl
  have hrange : List.range' st.writer.nextPageId (w.nextPageId - st.writer.nextPageId) =
      List.range' st.writer.nextPageId (txn.store.writer.nextPageId - st.writer.nextPageId) ++
        List.range' txn.store.writer.nextPageId n := by
    rw [hnext, show txn.store.writer.nextPageId + n - st.writer.nextPageId =
      (txn.store.writer.nextPageId - st.writer.nextPageId) + n by omega, ← List.range'_append_1,
      Nat.add_sub_cancel' hnext₁]
  have hperm := hext.alloc.perm
  -- the old tree, the new pages and the new chain are among the owned and the bumped pages
  have hall : (treePages st.io h st.root ++ (A ++ w.freeListPageIds) ++
      (txn.store.writer.freeList ++ st.writer.pendingFree)).Perm
        (owned st.io h st.root st.writer ++
          List.range' st.writer.nextPageId (w.nextPageId - st.writer.nextPageId)) := by
    rw [owned, WriterState.payload, hids, hrange, List.perm_iff_count]
    intro a
    have hcount := hperm.count_eq a
    simp only [List.count_append, Store.beginWrite] at hcount ⊢
    omega
  have hnodup := hall.nodup_iff.2
    (nodup_append_range' hinv.nodup fun p hp => (hinv.bounds p hp).2)
  have hlt : ∀ p ∈ treePages st.io h st.root ++ (A ++ w.freeListPageIds) ++
      (txn.store.writer.freeList ++ st.writer.pendingFree), 0 < p ∧ p < w.nextPageId := by
    intro p hp
    have hle : st.writer.nextPageId ≤ w.nextPageId := by omega
    rcases List.mem_append.1 (hall.subset hp) with hp | hp
    · have hb := hinv.bounds p hp
      exact ⟨hb.1, hb.2.trans_le hle⟩
    · have hr := List.mem_range'_1.1 hp
      exact ⟨hinv.next_pos.trans_le hr.1, hr.2.trans_eq (Nat.add_sub_cancel' hle)⟩
  exact
    { io_eq := hio
      nodup := hA ▸ (List.nodup_append.1 hnodup).1
      bounds := fun p hp => hlt p
        (List.mem_append_left _ (List.mem_append_right _ (hA ▸ hp)))
      next_le := by omega
      chain_grows := by rw [hids, hn, hsize]
      alloc_next_le := hnext₁
      chainWrites_eq := hsize ▸ hchain
      needed_le := by
        rw [← hsize, hw]
        exact WriterState.pagesNeeded_le_growChain
          (w := (txn.store.writer.foldFrees txn.freed).passGate readers)
      payload_old := fun p hp => by
        rw [hpay, List.mem_append, List.mem_append] at hp
        rcases hp with hp | hp | hp
        · exact (hinv.bounds p (List.mem_append_right _ (List.mem_append_left _
            (List.mem_append_left _ (hext.alloc.isPrefix.subset hp))))).2
        · exact (hinv.bounds p (List.mem_append_right _ (List.mem_append_left _
            (List.mem_append_right _ hp)))).2
        · exact (hinv.tree_bounds (hFold p hp)).2
      writes_pos := by
        rw [← List.length_map (f := Prod.fst), hA]
        exact (Nat.succ_pos h).trans_le hAlen
      payload_eq := by
        refine ⟨F, List.ne_nil_of_length_pos (hFlen ▸ Nat.succ_pos h), hFold, ?_⟩
        rw [hpay, hext.alloc.freeList_eq, ← List.length_map (f := Prod.fst), hA]
        rfl
      header_eq := hsize ▸ hheader
      owned_perm := fun io hiosize hread hfl => by
        obtain ⟨h', hs', -, hperm'⟩ := hreb io hiosize hread hfl
        refine ⟨h', hs', ?_⟩
        rw [owned, owned, hpay, WriterState.payload, hids, hrange, List.perm_iff_count]
        intro a
        have h₁ := hperm.count_eq a
        have h₂ := hperm'.count_eq a
        have htree : treePages st.beginWrite.store.io h st.beginWrite.root =
          treePages st.io h st.root := rfl
        rw [htree] at h₂
        simp only [List.count_append, Store.beginWrite] at h₁ h₂ ⊢
        omega }

/-! ## The writes of a put -/

namespace PutStep

variable {h : ℕ} {st : Store} {newRoot : PageId} {txn : WriteTxn} {w : WriterState}
  {chain : List (PageId × Bytes)} {header : Bytes}

theorem map_fst (hstep : PutStep h st newRoot txn w chain header) :
    (txn.pageWrites chain header).map Prod.fst = txn.writes.map Prod.fst ++
      w.freeListPageIds.take (w.pagesNeeded st.io.pageSize) ++ [HEADER_PAGE_ID] := by
  rw [WriteTxn.pageWrites, List.map_append, List.map_append,
    (WriterState.chainWrites_spec hstep.needed_le hstep.chainWrites_eq).1]
  rfl

theorem length_writes (hstep : PutStep h st newRoot txn w chain header) :
    (txn.pageWrites chain header).length =
      txn.writes.length + w.pagesNeeded st.io.pageSize + 1 := by
  rw [WriteTxn.pageWrites, List.length_append, List.length_append,
    WriterState.length_chainWrites hstep.chainWrites_eq, List.length_singleton]

theorem length_chain (hstep : PutStep h st newRoot txn w chain header) :
    w.freeListPageIds.length = st.writer.freeListPageIds.length +
      (w.pagesNeeded st.io.pageSize - st.writer.freeListPageIds.length) := by
  rw [← List.length_range' (s := txn.store.writer.nextPageId)
    (n := w.pagesNeeded st.io.pageSize - st.writer.freeListPageIds.length), ← List.length_append,
    ← hstep.chain_grows]

/-- No page is written twice. -/
theorem nodup_writes (hstep : PutStep h st newRoot txn w chain header) :
    ((txn.pageWrites chain header).map Prod.fst).Nodup := by
  rw [hstep.map_fst]
  have hsub : (txn.writes.map Prod.fst ++
      w.freeListPageIds.take (w.pagesNeeded st.io.pageSize)).Sublist
        (txn.writes.map Prod.fst ++ w.freeListPageIds) := (List.take_sublist _ _).append_left _
  refine List.nodup_append'.2
    ⟨(List.nodup_append.1 hstep.nodup).2.1.sublist hsub, List.nodup_singleton _, fun p hp h0 => ?_⟩
  have hpos := (hstep.bounds p (hsub.subset hp)).1
  exact hpos.ne' (List.mem_singleton.1 h0)

theorem mem_writes (hstep : PutStep h st newRoot txn w chain header) {p : PageId}
    (hp : p ∈ (txn.pageWrites chain header).map Prod.fst) :
    p ∈ txn.writes.map Prod.fst ++ w.freeListPageIds ∨ p = HEADER_PAGE_ID := by
  rw [hstep.map_fst] at hp
  rcases List.mem_append.1 hp with hp | hp
  · refine Or.inl (List.mem_append.2 ((List.mem_append.1 hp).imp_right fun hp => ?_))
    exact List.mem_of_mem_take hp
  · exact Or.inr (List.mem_singleton.1 hp)

/-- **No page of the old tree is written.** -/
theorem notMem_of_tree (hstep : PutStep h st newRoot txn w chain header) (hinv : Inv h st)
    {p : PageId} (hp : p ∈ treePages st.io h st.root) :
    p ∉ (txn.pageWrites chain header).map Prod.fst := fun hmem => by
  rcases hstep.mem_writes hmem with hmem | rfl
  · exact List.disjoint_of_nodup_append hstep.nodup hp hmem
  · exact lt_irrefl 0 (hinv.tree_bounds hp).1

section Prefix

variable {n : ℕ} {io : PageIo}

/-- The first writes of a put leave the old tree alone. -/
theorem read_tree (hstep : PutStep h st newRoot txn w chain header) (hinv : Inv h st)
    {p : PageId} (hp : p ∈ treePages st.io h st.root) :
    (io.writePages ((txn.pageWrites chain header).take n)).readPage p = io.readPage p := by
  refine PageIo.readPage_writePages_of_notMem _ fun hmem => hstep.notMem_of_tree hinv hp ?_
  rw [List.map_take] at hmem
  exact List.mem_of_mem_take hmem

theorem read_written (hstep : PutStep h st newRoot txn w chain header) {p : PageId}
    {bytes : Bytes} (hp : (p, bytes) ∈ (txn.pageWrites chain header).take n) :
    (io.writePages ((txn.pageWrites chain header).take n)).readPage p = bytes := by
  refine PageIo.readPage_writePages_of_mem _ ?_ hp
  rw [List.map_take]
  exact hstep.nodup_writes.sublist (List.take_sublist _ _)

theorem read_unwritten {p : PageId}
    (hp : p ∉ ((txn.pageWrites chain header).take n).map Prod.fst) :
    (io.writePages ((txn.pageWrites chain header).take n)).readPage p = io.readPage p :=
  PageIo.readPage_writePages_of_notMem _ hp

/-- A chain page is among the first writes if its place is. -/
theorem mem_take_iff (hstep : PutStep h st newRoot txn w chain header) {i : ℕ}
    (hi : i < w.freeListPageIds.length) :
    w.freeListPageIds[i] ∈ ((txn.pageWrites chain header).take n).map Prod.fst ↔
      i < w.pagesNeeded st.io.pageSize ∧ txn.writes.length + i < n := by
  have hmem : w.freeListPageIds[i] ∈ w.freeListPageIds := List.getElem_mem hi
  have hids := List.nodup_append'.1 (List.nodup_append'.1 hstep.nodup).2.1
  have hwrites : w.freeListPageIds[i] ∉ txn.writes.map Prod.fst := fun hw => hids.2.2 hw hmem
  have hheader : w.freeListPageIds[i] ∉ [HEADER_PAGE_ID] := fun h0 =>
    (hstep.bounds _ (List.mem_append_right _ hmem)).1.ne' (List.mem_singleton.1 h0)
  have htake : ∀ m, w.freeListPageIds[i] ∈ w.freeListPageIds.take m ↔ i < m := fun m => by
    rw [List.mem_take_iff_getElem]
    constructor
    · rintro ⟨j, hj, heq⟩
      have hij := (List.Nodup.getElem_inj_iff hids.2.1).1 heq
      omega
    · exact fun him => ⟨i, lt_min him hi, rfl⟩
  rw [List.map_take, hstep.map_fst, List.take_append, List.take_append, List.mem_append,
    List.mem_append, or_iff_left fun h0 => hheader (List.mem_of_mem_take h0),
    or_iff_right fun hw => hwrites (List.mem_of_mem_take hw), List.take_take, htake,
    List.length_map]
  omega

/-- What is written to a chain page, and when. -/
theorem getElem?_writes (hstep : PutStep h st newRoot txn w chain header) {i : ℕ}
    (hi : i < w.freeListPageIds.length) (hlt : i < w.pagesNeeded st.io.pageSize) :
    ∃ bytes, (txn.pageWrites chain header)[txn.writes.length + i]? =
        some (w.freeListPageIds[i], bytes) ∧
      freeListEncode w.freeListPageIds[i] (linkId w.freeListPageIds (w.pagesNeeded st.io.pageSize)
        (i + 1)) (chunk w.payload (WriterState.chainCap st.io.pageSize) i) st.io.pageSize =
          some bytes := by
  have hw : i < chain.length := by
    rw [WriterState.length_chainWrites hstep.chainWrites_eq]
    exact hlt
  obtain ⟨hid, henc⟩ := WriterState.chainWrites_getElem hstep.chainWrites_eq hi hw
  refine ⟨chain[i].2, ?_, henc⟩
  rw [WriteTxn.pageWrites, List.append_assoc, List.getElem?_append_right (Nat.le_add_right _ _),
    Nat.add_sub_cancel_left, List.getElem?_append_left hw, List.getElem?_eq_getElem hw, ← hid]

theorem chain_mem_take (hstep : PutStep h st newRoot txn w chain header) {i : ℕ}
    (hi : i < w.freeListPageIds.length) (hlt : i < w.pagesNeeded st.io.pageSize)
    (hn : txn.writes.length + i < n) :
    ∃ bytes, (w.freeListPageIds[i], bytes) ∈ (txn.pageWrites chain header).take n ∧
      freeListEncode w.freeListPageIds[i] (linkId w.freeListPageIds (w.pagesNeeded st.io.pageSize)
        (i + 1)) (chunk w.payload (WriterState.chainCap st.io.pageSize) i) st.io.pageSize =
          some bytes := by
  obtain ⟨bytes, hget, henc⟩ := hstep.getElem?_writes hi hlt
  exact ⟨bytes, List.mem_iff_getElem?.2 ⟨_, (List.getElem?_take_of_lt hn).trans hget⟩, henc⟩

theorem decode_chunk {id next : PageId} {i : ℕ} {bytes : Bytes} (hP : st.io.pageSize < 65536)
    (henc : freeListEncode id next (chunk w.payload (WriterState.chainCap st.io.pageSize) i)
      st.io.pageSize = some bytes) :
    freeListDecode id bytes =
      some (next, chunk w.payload (WriterState.chainCap st.io.pageSize) i) := by
  refine freeListDecode_encode (lt_of_le_of_lt (WriterState.length_chunk_le _ _ _) ?_) id henc
  rw [WriterState.chainCap, freeListCapacity]
  omega

variable (n io) in
/-- A page of the new chain is either rewritten or as it was. -/
theorem read_chain (hstep : PutStep h st newRoot txn w chain header)
    (hP : st.io.pageSize < 65536) {i : ℕ} (hi : i < w.freeListPageIds.length) :
    (i < w.pagesNeeded st.io.pageSize ∧ txn.writes.length + i < n) ∧
      freeListDecode w.freeListPageIds[i] ((io.writePages
        ((txn.pageWrites chain header).take n)).readPage w.freeListPageIds[i]) =
          some (linkId w.freeListPageIds (w.pagesNeeded st.io.pageSize) (i + 1),
            chunk w.payload (WriterState.chainCap st.io.pageSize) i) ∨
    ¬(i < w.pagesNeeded st.io.pageSize ∧ txn.writes.length + i < n) ∧
      (io.writePages ((txn.pageWrites chain header).take n)).readPage w.freeListPageIds[i] =
        io.readPage w.freeListPageIds[i] := by
  by_cases hwritten : i < w.pagesNeeded st.io.pageSize ∧ txn.writes.length + i < n
  · obtain ⟨bytes, hmem, henc⟩ := hstep.chain_mem_take hi hwritten.1 hwritten.2
    exact Or.inl ⟨hwritten, by rw [hstep.read_written hmem, decode_chunk hP henc]⟩
  · exact Or.inr ⟨hwritten, read_unwritten fun hmem => hwritten ((hstep.mem_take_iff hi).1 hmem)⟩

theorem getElem_old (hstep : PutStep h st newRoot txn w chain header) {i : ℕ}
    (hi : i < st.writer.freeListPageIds.length) (hi' : i < w.freeListPageIds.length) :
    w.freeListPageIds[i] = st.writer.freeListPageIds[i] := by
  simp only [hstep.chain_grows, List.getElem_append_left hi]

/-- The chain grows by fresh pages. -/
theorem le_getElem_new (hstep : PutStep h st newRoot txn w chain header) {i : ℕ}
    (hi : st.writer.freeListPageIds.length ≤ i) (hi' : i < w.freeListPageIds.length) :
    st.writer.nextPageId ≤ w.freeListPageIds[i] := by
  have hmem : w.freeListPageIds[i] ∈ List.range' txn.store.writer.nextPageId
      (w.pagesNeeded st.io.pageSize - st.writer.freeListPageIds.length) := by
    simp only [hstep.chain_grows, List.getElem_append_right hi]
    exact List.getElem_mem _
  exact hstep.alloc_next_le.trans (List.mem_range'_1.1 hmem).1

theorem linkId_spec {ids : List PageId} {m i : ℕ} (hm : m ≤ ids.length) :
    linkId ids m i = 0 ∨ ids[i]? = some (linkId ids m i) := by
  rcases lt_or_ge i m with hi | hi
  · exact Or.inr (by rw [linkId_of_lt hi hm, List.getElem?_eq_getElem])
  · exact Or.inl (linkId_of_le hi)

/-- **The chain stays linked** after any number of the writes, as far as its fresh pages are
written or read as the end of a chain. -/
theorem linked_take (hstep : PutStep h st newRoot txn w chain header) (hinv : Inv h st) {m : ℕ}
    (hold : ∀ p ∈ st.writer.freeListPageIds, io.readPage p = st.io.readPage p)
    (hle : st.writer.freeListPageIds.length ≤ m)
    (hm : n < txn.writes.length + m ∨ w.freeListPageIds.length ≤ m)
    (hfresh : ∀ i (hi : i < w.freeListPageIds.length), st.writer.freeListPageIds.length ≤ i →
      i < m → n ≤ txn.writes.length + i →
        freeListDecode w.freeListPageIds[i] (io.readPage w.freeListPageIds[i]) = some (0, [])) :
    ChainLinked (io.writePages ((txn.pageWrites chain header).take n))
      (w.freeListPageIds.take m) := by
  intro i hi
  rw [List.length_take] at hi
  have hids := hstep.chain_grows
  have hlen := hstep.length_chain
  have hi' : i < w.freeListPageIds.length := by omega
  simp only [List.getElem_take, List.getElem?_take]
  rcases hstep.read_chain n io hinv.pageSize_lt hi' with ⟨hlt, hdec⟩ | ⟨hnot, hread⟩
  · refine ⟨_, _, hdec, (linkId_spec hstep.needed_le).imp_right fun hnext => ?_⟩
    obtain ⟨hnext', -⟩ := List.getElem?_eq_some_iff.1 hnext
    rw [if_pos (by omega), hnext]
  · rw [hread]
    by_cases hlt : i < st.writer.freeListPageIds.length
    · obtain ⟨next, list, hdec, hnext⟩ := hinv.persisted.linked i hlt
      rw [hstep.getElem_old hlt hi', hold _ (List.getElem_mem hlt), hdec]
      refine ⟨next, list, rfl, hnext.imp_right fun hnext => ?_⟩
      obtain ⟨hnext', -⟩ := List.getElem?_eq_some_iff.1 hnext
      rw [if_pos (by omega), hids, List.getElem?_append_left hnext', hnext]
    · -- a fresh page, which is not written yet
      exact ⟨0, [], hfresh i hi' (not_lt.1 hlt) (by omega) (by omega), Or.inl rfl⟩

/-- **The chain stays linked** after any number of the writes. -/
theorem linked (hstep : PutStep h st newRoot txn w chain header) (hinv : Inv h st) :
    ChainLinked (st.io.writePages ((txn.pageWrites chain header).take n)) w.freeListPageIds := by
  have hlinked := hstep.linked_take (n := n) hinv (m := w.freeListPageIds.length)
    (fun _ _ => rfl) (hstep.length_chain ▸ Nat.le_add_right _ _) (Or.inr le_rfl)
    fun i hi hge _ _ => by
      rw [PageIo.readPage, hinv.unwritten _ (hstep.le_getElem_new hge hi), Option.getD_none]
      refine freeListDecode_zeros ?_ _
      have := hinv.le_pageSize
      rw [FREE_LIST_HEADER]
      omega
  rwa [List.take_length] at hlinked

end Prefix

/-- After the commit the backend holds what the transaction wrote. -/
theorem flushed (hstep : PutStep h st newRoot txn w chain header) :
    Flushed (st.io.writePages (txn.pageWrites chain header)) txn := by
  intro wr hwr
  refine PageIo.readPage_writePages_of_mem _ hstep.nodup_writes ?_
  exact List.mem_append_left _ (List.mem_append_left _ hwr)

/-- After the commit the old tree is as it was. -/
theorem read_old (hstep : PutStep h st newRoot txn w chain header) (hinv : Inv h st)
    {p : PageId} (hp : p ∈ treePages st.io h st.root) :
    (st.io.writePages (txn.pageWrites chain header)).readPage p = st.io.readPage p :=
  PageIo.readPage_writePages_of_notMem _ (hstep.notMem_of_tree hinv hp)

/-- The store after the commit. -/
theorem inv (hstep : PutStep h st newRoot txn w chain header) (hinv : Inv h st) (readers : ℕ) :
    ∃ h', Inv h' ⟨st.io.writePages (txn.pageWrites chain header), newRoot, readers, w⟩ ∧
      (owned (st.io.writePages (txn.pageWrites chain header)) h' newRoot w).Perm
        (owned st.io h st.root st.writer ++
          List.range' st.writer.nextPageId (w.nextPageId - st.writer.nextPageId)) := by
  obtain ⟨io, hio⟩ : ∃ io, st.io.writePages (txn.pageWrites chain header) = io := ⟨_, rfl⟩
  have htake : io = st.io.writePages ((txn.pageWrites chain header).take
      (txn.pageWrites chain header).length) := by rw [List.take_length, hio]
  have hsize : io.pageSize = st.io.pageSize := by rw [← hio, PageIo.pageSize_writePages]
  have hwritten : ∀ p bytes, (p, bytes) ∈ txn.pageWrites chain header → io.readPage p = bytes :=
    fun p bytes hp => by
      rw [← hio]
      exact PageIo.readPage_writePages_of_mem _ hstep.nodup_writes hp
  obtain ⟨h', hs', hperm⟩ := hstep.owned_perm io hsize
    (fun p hp => hio ▸ hstep.read_old hinv hp) (hio ▸ hstep.flushed)
  have hle := hstep.next_le
  rw [hio]
  refine ⟨h', ⟨hsize ▸ hinv.le_pageSize, hsize ▸ hinv.pageSize_lt, hs', ?_, ?_, ?_, ?_⟩, hperm⟩
  · exact hperm.nodup_iff.2 (nodup_append_range' hinv.nodup fun p hp => (hinv.bounds p hp).2)
  · intro p hp
    rcases List.mem_append.1 (hperm.subset hp) with hp | hp
    · have hb := hinv.bounds p hp
      exact ⟨hb.1, hb.2.trans_le hle⟩
    · have hr := List.mem_range'_1.1 hp
      exact ⟨hinv.next_pos.trans_le hr.1, hr.2.trans_eq (Nat.add_sub_cancel' hle)⟩
  · intro p hp
    have hnot : p ∉ (txn.pageWrites chain header).map Prod.fst := fun hmem => by
      rcases hstep.mem_writes hmem with hmem | rfl
      · exact absurd (hstep.bounds p hmem).2 (not_lt.2 hp)
      · exact absurd (hinv.next_pos.trans_le hle) (not_lt.2 hp)
    rw [← hio]
    exact (PageIo.pages_writePages_of_notMem _ hnot).trans (hinv.unwritten p (hle.trans hp))
  · have hheader : io.readPage HEADER_PAGE_ID = header :=
      hwritten _ _ (List.mem_append_right _ (List.mem_singleton_self _))
    have hP := hinv.pageSize_lt
    have hholds : ChainHolds io w.freeListPageIds w.payload (w.pagesNeeded st.io.pageSize) := by
      intro i hi hlt
      obtain ⟨-, hspec⟩ := WriterState.chainWrites_spec hstep.needed_le hstep.chainWrites_eq
      obtain ⟨bytes, hmem, henc⟩ := hspec i hi hlt
      rw [hwritten _ bytes (List.mem_append_left _ (List.mem_append_right _ hmem)), hsize]
      exact decode_chunk hP henc
    refine ⟨?_, hsize ▸ hstep.needed_le, hsize ▸ hholds, ?_⟩
    · rw [hheader, hsize]
      exact Header.fromBytes_toBytes (hP.trans (by norm_num)) hstep.header_eq
    · rw [htake]
      exact hstep.linked hinv

/-- The new chain needs no more pages than there were ids before the put. -/
theorem needed_le_next (hstep : PutStep h st newRoot txn w chain header) (hinv : Inv h st) :
    w.pagesNeeded st.io.pageSize ≤ st.writer.nextPageId := by
  obtain ⟨h', hinv', -⟩ := hstep.inv hinv 0
  have hpay : w.payload.Nodup :=
    (List.nodup_append.1 (List.nodup_append.1 hinv'.nodup).2.1).1
  exact (WriterState.pagesNeeded_le_length w _).trans (length_le_of_nodup hpay hstep.payload_old)

end PutStep

end CowRaft.Btree
