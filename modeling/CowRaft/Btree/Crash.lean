import CowRaft.Btree.Runs

/-!
# A commit that is cut off

A put writes new tree pages, then pages of the free-list chain, then the header. The process stops
after any number of these writes (`crashed`). None of them touches a page of the old tree, and a
lookup reads nothing else (`get_congr`); before the last of them the header is the old one.
-/

namespace CowRaft.Btree

open Bytes HeapTree

variable {h n : ℕ} {st st' : Store} {key : Key} {val : Val} {ws : List (PageId × Bytes)}

/-! ## Lookups -/

/-- A lookup reads only pages of the tree. -/
theorem getLoop_congr {io io' : PageIo} {id : PageId} {nd : Node} {fuel : ℕ}
    (hnd : Holds io id nd) (hs : NodeShape io h nd)
    (hread : ∀ p ∈ pagesBelow io h nd, io'.readPage p = io.readPage p) :
    getLoop io' key fuel (nd.toPage id) = getLoop io key fuel (nd.toPage id) := by
  induction h generalizing id nd fuel with
  | zero =>
    cases nd with
    | internal ks cs => exact hs.elim
    | leaf es => rw [Node.toPage, getLoop_leaf, getLoop_leaf]
  | succ h ih =>
    cases nd with
    | leaf es => exact hs.elim
    | internal ks cs =>
      cases fuel with
      | zero => simp only [Node.toPage, getLoop]
      | succ fuel =>
        rw [Node.toPage, getLoop_internal, getLoop_internal]
        refine Option.bind_congr fun idx _ => Option.bind_congr fun c hc => ?_
        have hmem : c ∈ cs := List.mem_of_getElem? hc
        obtain ⟨ndc, hndc, hsc⟩ := shape_iff.1 (hs c hmem)
        have hreadc : ∀ p ∈ treePages io h c, io'.readPage p = io.readPage p := fun p hp =>
          hread p (List.mem_flatMap.2 ⟨c, hmem, hp⟩)
        rw [hreadc c (mem_treePages_self ..), hndc.decode_eq, Option.bind_some, Option.bind_some]
        refine ih hndc hsc fun p hp => hreadc p ?_
        rw [treePages_eq hndc]
        exact List.mem_cons_of_mem _ hp

theorem get_congr {io io' : PageIo} {root : PageId} {fuel : ℕ} (hs : Shape io h root)
    (hread : ∀ p ∈ treePages io h root, io'.readPage p = io.readPage p) :
    Btree.get io' fuel root key = Btree.get io fuel root key := by
  obtain ⟨nd, hnd, hsn⟩ := shape_iff.1 hs
  rw [treePages_eq hnd] at hread
  simp only [Btree.get, hread root List.mem_cons_self, hnd.decode_eq, Option.bind_eq_bind,
    Option.bind_some]
  exact getLoop_congr hnd hsn fun p hp => hread p (List.mem_cons_of_mem _ hp)

/-! ## The backend after a crash -/

/-- The backend after the first `n` writes of a put. -/
def crashed (st : Store) (ws : List (PageId × Bytes)) (n : ℕ) : PageIo :=
  st.io.writePages (ws.take n)

/-- The number of pages of the new tree, which are the first writes of a put. -/
def Store.newPages (st : Store) (key : Key) (val : Val) : ℕ :=
  (buildPut st.beginWrite key val).elim 0 fun r => r.2.writes.length

/-- What an accepted put writes, for the store it leaves. -/
theorem exists_putStep (hinv : Inv h st) (hput : st.put key val = some (.ok st'))
    (hws : st.putWrites key val = some ws) :
    ∃ newRoot txn w chain header, PutStep h st newRoot txn w chain header ∧
      ws = txn.pageWrites chain header ∧ st.newPages key val = txn.writes.length ∧
      st' = ⟨st.io.writePages ws, newRoot, st.readers, w⟩ := by
  rcases put_cases hinv hput with ⟨e, -, he⟩ |
    ⟨newRoot, txn, w, chain, header, -, hbuild, hprep, hws', hst⟩
  · cases he
  · obtain rfl := Option.some.inj (hws'.symm.trans hws)
    exact ⟨newRoot, txn, w, chain, header, buildPut_step hinv hbuild hprep, rfl,
      by rw [Store.newPages, hbuild]; rfl, Except.ok.inj hst⟩

/-- Before the last write the header is not written. -/
theorem PutStep.header_notMem {newRoot : PageId} {txn : WriteTxn} {w : WriterState}
    {chain : List (PageId × Bytes)} {header : Bytes}
    (hstep : PutStep h st newRoot txn w chain header)
    (hn : n < (txn.pageWrites chain header).length) :
    HEADER_PAGE_ID ∉ ((txn.pageWrites chain header).take n).map Prod.fst := by
  intro hmem
  have hnodup := hstep.nodup_writes
  rw [WriteTxn.pageWrites, List.length_append, List.length_singleton] at hn
  rw [WriteTxn.pageWrites, List.take_append_of_le_length (by omega), List.map_take] at hmem
  rw [WriteTxn.pageWrites, List.map_append] at hnodup
  exact List.disjoint_of_nodup_append hnodup (List.mem_of_mem_take hmem) List.mem_cons_self

end CowRaft.Btree
