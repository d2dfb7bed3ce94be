import CowRaft.Btree.Ownership

/-!
# Runs of a store

The states a store can be in between operations: puts, accepted or rejected, while any number of
read guards are held, and clean closing and reopening. Every one of them satisfies the store
invariant (`Reachable.inv`), and so the four owners of page ids never share one
(`exclusive_ownership`).

Page sizes go up to `u16::MAX`, the bound that both split functions assert.
-/

namespace CowRaft.Btree

open Bytes HeapTree

/-- What an operation does to a store, between operations. -/
inductive Step : Store → Store → Prop
  | accepted {st st' : Store} {key : Key} {val : Val} :
      st.put key val = some (.ok st') → Step st st'
  | rejected {st : Store} {key : Key} {val : Val} {e : Error} :
      st.put key val = some (.error e) → Step st st
  | enterRead (st : Store) : Step st st.enterRead
  | dropGuard {st : Store} : 0 < st.readers → Step st st.dropGuard
  | reopen {st st' : Store} : st.readers = 0 → Store.openOrCreate st.io = some (.ok st') →
      Step st st'

/-- The states reached from a store freshly created with this page size. -/
def Reachable (pageSize : ℕ) (st : Store) : Prop :=
  ∃ st₀, Store.inMemory pageSize = some (.ok st₀) ∧ Relation.ReflTransGen Step st₀ st

/-- The result of an operation that neither panics nor returns an error. -/
def succeeded {ε α : Type*} : Option (Except ε α) → Option α
  | some (.ok a) => some a
  | _ => none

theorem succeeded_eq_some {ε α : Type*} {r : Option (Except ε α)} {a : α}
    (h : succeeded r = some a) : r = some (.ok a) := by
  rcases r with _ | e | b
  · cases h
  · cases h
  · obtain rfl := Option.some.inj h
    rfl

/-- Puts in a row, each of which must be accepted. -/
def Store.putAll (st : Store) : List (Key × Val) → Option Store
  | [] => some st
  | (key, val) :: puts => (succeeded (st.put key val)).bind fun st' => st'.putAll puts

/-- A fresh store after some puts. -/
def session (pageSize : ℕ) (puts : List (Key × Val)) : Option Store :=
  (succeeded (Store.inMemory pageSize)).bind fun st => st.putAll puts

theorem Store.reachable_putAll {pageSize : ℕ} {st st' : Store} {puts : List (Key × Val)}
    (hreach : Reachable pageSize st) (hputs : st.putAll puts = some st') :
    Reachable pageSize st' := by
  induction puts generalizing st with
  | nil =>
    obtain rfl := Option.some.inj hputs
    exact hreach
  | cons e puts ih =>
    obtain ⟨st₁, hput, hputs⟩ := Option.bind_eq_some_iff.1 hputs
    obtain ⟨st₀, hst₀, hrun⟩ := hreach
    exact ih ⟨st₀, hst₀, hrun.tail (.accepted (succeeded_eq_some hput))⟩ hputs

theorem reachable_of_session {pageSize : ℕ} {puts : List (Key × Val)} {st : Store}
    (hst : session pageSize puts = some st) : Reachable pageSize st := by
  obtain ⟨st₀, hst₀, hputs⟩ := Option.bind_eq_some_iff.1 hst
  exact Store.reachable_putAll ⟨st₀, succeeded_eq_some hst₀, .refl⟩ hputs

/-! ## What a put returns -/

/-- **The two ends of a put**: it is rejected for the size of the entry, or it builds a tree and
commits it. -/
theorem put_cases {h : ℕ} {st : Store} {key : Key} {val : Val} {r : Except Error Store}
    (hinv : Inv h st) (hput : st.put key val = some r) :
    (∃ e, checkLimits st.io.pageSize key val = .error e ∧ r = .error e) ∨
    ∃ newRoot txn w chain header, checkLimits st.io.pageSize key val = .ok () ∧
      buildPut st.beginWrite key val = some (newRoot, txn) ∧
      txn.prepare st.readers newRoot = some (w, chain, header) ∧
      st.putWrites key val = some (txn.pageWrites chain header) ∧
      r = .ok ⟨st.io.writePages (txn.pageWrites chain header), newRoot, st.readers, w⟩ := by
  have hsize : st.beginWrite.pageSize = st.io.pageSize := rfl
  rw [Store.put, Btree.put, hsize] at hput
  rcases hlim : checkLimits st.io.pageSize key val with e | ⟨⟩
  · rw [hlim] at hput
    exact Or.inl ⟨e, rfl, (Option.some.inj hput).symm⟩
  · rw [hlim] at hput
    obtain ⟨⟨newRoot, txn⟩, hbuild, hput⟩ := Option.bind_eq_some_iff.1 hput
    obtain ⟨st', hcommit, rfl⟩ := Option.map_eq_some_iff.1 hput
    obtain ⟨⟨w, chain, header⟩, hprep, hcommit⟩ := Option.bind_eq_some_iff.1 hcommit
    obtain ⟨A, F, hext, -, -, -⟩ :=
      (@buildPut_shape _ st.beginWrite) hinv.pageSize_lt rfl hinv.shape hbuild
    have hreaders : txn.store.readers = st.readers := by
      rw [hext.store_eq]
      rfl
    have hio : txn.store.io = st.io := hext.io_eq
    rw [hreaders] at hprep
    refine Or.inr ⟨newRoot, txn, w, chain, header, rfl, hbuild, hprep, ?_, ?_⟩
    · simp only [Store.putWrites, hbuild, hprep, Option.bind_eq_bind, Option.bind_some]
    · rw [← Option.some.inj hcommit, hreaders, hio, WriteTxn.pageWrites, PageIo.writePages_append,
        PageIo.writePages_append]
      rfl

/-- **An accepted put keeps the invariant**, and its owned pages are those it found and the ones
it bumped. -/
theorem Inv.put {h : ℕ} {st st' : Store} {key : Key} {val : Val} (hinv : Inv h st)
    (hput : st.put key val = some (.ok st')) :
    ∃ h', Inv h' st' ∧ (owned st'.io h' st'.root st'.writer).Perm
      (owned st.io h st.root st.writer ++
        List.range' st.writer.nextPageId (st'.writer.nextPageId - st.writer.nextPageId)) := by
  rcases put_cases hinv hput with ⟨e, -, he⟩ |
    ⟨newRoot, txn, w, chain, header, -, hbuild, hprep, -, hst⟩
  · cases he
  · obtain rfl := Except.ok.inj hst
    exact (buildPut_step hinv hbuild hprep).inv hinv st.readers

/-! ## A fresh store -/

/-- The store that bootstrapping creates. -/
theorem inMemory_eq {pageSize : ℕ} {st : Store} (hst : Store.inMemory pageSize = some (.ok st)) :
    ∃ root bytes, LeafNode.empty.toBytes INITIAL_ROOT_PAGE_ID pageSize = some root ∧
      (Header.new pageSize INITIAL_ROOT_PAGE_ID (INITIAL_ROOT_PAGE_ID + 1)).toBytes pageSize =
        some bytes ∧
      st = ⟨((PageIo.new pageSize).writePage INITIAL_ROOT_PAGE_ID root).writePage HEADER_PAGE_ID
        bytes, INITIAL_ROOT_PAGE_ID, 0, ⟨INITIAL_ROOT_PAGE_ID + 1, [], [], []⟩⟩ := by
  have hheader : Header.fromBytes ((PageIo.new pageSize).readPage HEADER_PAGE_ID) =
      some (.error .notAHeader) := Header.fromBytes_zeros pageSize
  simp only [Store.inMemory, Store.openOrCreate, hheader, Option.bind_eq_bind,
    Option.bind_some] at hst
  obtain ⟨root, hroot, hst⟩ := Option.bind_eq_some_iff.1 hst
  obtain ⟨bytes, hbytes, hst⟩ := Option.bind_eq_some_iff.1 hst
  obtain ⟨st', hst', heq⟩ := Option.map_eq_some_iff.1 hst
  obtain rfl := Except.ok.inj heq
  have h0 : loadFreeListChain (((PageIo.new pageSize).writePage INITIAL_ROOT_PAGE_ID root).writePage
      HEADER_PAGE_ID bytes) (INITIAL_ROOT_PAGE_ID + 1 + 1) 0 = some ([], []) :=
    loadFreeListChain_zero _ _
  simp only [Store.ofHeader, Header.new, h0, Option.bind_eq_bind, Option.bind_some,
    Option.some.injEq] at hst'
  exact ⟨root, bytes, hroot, hbytes, hst'.symm⟩

theorem inMemory_spec {pageSize : ℕ} {st : Store} (hP : pageSize < 65536)
    (hst : Store.inMemory pageSize = some (.ok st)) :
    Inv 0 st ∧ Holds st.io st.root (.leaf []) ∧ st.io.pageSize = pageSize ∧ st.readers = 0 := by
  obtain ⟨root, bytes, hroot, hbytes, rfl⟩ := inMemory_eq hst
  have hleaf : Holds (((PageIo.new pageSize).writePage INITIAL_ROOT_PAGE_ID root).writePage
      HEADER_PAGE_ID bytes) INITIAL_ROOT_PAGE_ID (.leaf []) := by
    refine (@Holds.of_toBytes _ _ 0) hP trivial ?_
    rw [PageIo.readPage_writePage_of_ne _ _ (by decide), PageIo.readPage_writePage_self]
    exact hroot
  refine ⟨⟨Header.fortyNine_le_of_toBytes hbytes, hP, ⟨[], hleaf⟩, ?_, ?_, ?_, ?_⟩, hleaf, rfl, rfl⟩
  · exact List.nodup_singleton _
  · intro p hp
    obtain rfl := List.mem_singleton.1 hp
    exact ⟨one_pos, one_lt_two⟩
  · intro p hp
    have hp' : 2 ≤ p := hp
    have h₀ : p ≠ HEADER_PAGE_ID := ne_of_gt (lt_of_lt_of_le two_pos hp')
    have h₁ : p ≠ INITIAL_ROOT_PAGE_ID := ne_of_gt (lt_of_lt_of_le one_lt_two hp')
    simp only [PageIo.writePage, h₀, h₁, if_false]
    rfl
  · refine ⟨?_, (WriterState.pagesNeeded_eq_zero rfl).le, ?_, ?_⟩
    · rw [PageIo.readPage_writePage_self, show linkId [] _ 0 = 0 by simp [linkId]]
      exact Header.fromBytes_toBytes (h := Header.new pageSize 1 2) (hP.trans (by norm_num)) hbytes
    · exact fun i hi => absurd hi (Nat.not_lt_zero i)
    · exact fun i hi => absurd hi (Nat.not_lt_zero i)

/-! ## Every run -/

theorem Inv.step {h : ℕ} {st st' : Store} (hinv : Inv h st) (hstep : Step st st') :
    ∃ h', Inv h' st' := by
  cases hstep with
  | accepted hput =>
    obtain ⟨h', hinv', -⟩ := hinv.put hput
    exact ⟨h', hinv'⟩
  | rejected _ => exact ⟨h, hinv⟩
  | enterRead => exact ⟨h, ⟨hinv.1, hinv.2, hinv.3, hinv.4, hinv.5, hinv.6, hinv.7⟩⟩
  | dropGuard _ => exact ⟨h, ⟨hinv.1, hinv.2, hinv.3, hinv.4, hinv.5, hinv.6, hinv.7⟩⟩
  | reopen _ hst => exact ⟨h, hinv.reopen hst⟩

theorem Reachable.inv {pageSize : ℕ} {st : Store} (hP : pageSize < 65536)
    (hreach : Reachable pageSize st) : ∃ h, Inv h st := by
  obtain ⟨st₀, hst₀, hrun⟩ := hreach
  induction hrun with
  | refl => exact ⟨0, (inMemory_spec hP hst₀).1⟩
  | tail _ hstep ih =>
    obtain ⟨h, hinv⟩ := ih
    exact hinv.step hstep

/-! ## Exclusive ownership -/

/-- Page `p` is reachable from the published root. -/
def Store.Live (st : Store) (p : PageId) : Prop := Reaches (children st.io) st.root p

theorem Inv.live_iff {h : ℕ} {st : Store} (hinv : Inv h st) {p : PageId} :
    st.Live p ↔ p ∈ treePages st.io h st.root := hinv.shape.mem_treePages_iff.symm

/-- The lists of page ids that the writer keeps, and the live pages, share no page, and use only
ids from 1 up to the mark; the page that `alloc` hands out next belongs to no one. -/
structure ExclusiveOwnership (st : Store) : Prop where
  free_nodup : st.writer.freeList.Nodup
  pending_nodup : st.writer.pendingFree.Nodup
  chain_nodup : st.writer.freeListPageIds.Nodup
  free_pending : st.writer.freeList.Disjoint st.writer.pendingFree
  free_chain : st.writer.freeList.Disjoint st.writer.freeListPageIds
  pending_chain : st.writer.pendingFree.Disjoint st.writer.freeListPageIds
  not_live : ∀ p, st.Live p → p ∉ st.writer.freeList ∧ p ∉ st.writer.pendingFree ∧
    p ∉ st.writer.freeListPageIds
  not_header : HEADER_PAGE_ID ∉ st.writer.freeList ∧ HEADER_PAGE_ID ∉ st.writer.pendingFree ∧
    HEADER_PAGE_ID ∉ st.writer.freeListPageIds
  below_mark : ∀ p, st.Live p ∨ p ∈ st.writer.freeList ∨ p ∈ st.writer.pendingFree ∨
    p ∈ st.writer.freeListPageIds → p < st.writer.nextPageId
  alloc_fresh : ¬ st.Live st.writer.alloc.1 ∧ st.writer.alloc.1 ∉ st.writer.pendingFree ∧
    st.writer.alloc.1 ∉ st.writer.freeListPageIds

theorem Inv.exclusiveOwnership {h : ℕ} {st : Store} (hinv : Inv h st) : ExclusiveOwnership st := by
  obtain ⟨-, hrest, htree⟩ := List.nodup_append'.1 hinv.nodup
  obtain ⟨hpay, hchain, hpc⟩ := List.nodup_append'.1 hrest
  obtain ⟨hfree, hpend, hfp⟩ := List.nodup_append'.1 hpay
  have hlive : ∀ p, st.Live p → p ∉ st.writer.freeList ∧ p ∉ st.writer.pendingFree ∧
      p ∉ st.writer.freeListPageIds := fun p hp => by
    have hnot : p ∉ st.writer.payload ++ st.writer.freeListPageIds := htree (hinv.live_iff.1 hp)
    rw [List.mem_append, WriterState.payload, List.mem_append, not_or, not_or] at hnot
    exact ⟨hnot.1.1, hnot.1.2, hnot.2⟩
  have hmem : ∀ p, st.Live p ∨ p ∈ st.writer.freeList ∨ p ∈ st.writer.pendingFree ∨
      p ∈ st.writer.freeListPageIds → p ∈ owned st.io h st.root st.writer := fun p hp => by
    rw [owned, WriterState.payload, List.mem_append, List.mem_append, List.mem_append,
      ← hinv.live_iff, or_assoc]
    exact hp
  have hfree_chain : st.writer.freeList.Disjoint st.writer.freeListPageIds := fun p hp =>
    hpc (List.mem_append_left _ hp)
  have hpos : ∀ p ∈ owned st.io h st.root st.writer, p ≠ HEADER_PAGE_ID := fun p hp =>
    (hinv.bounds p hp).1.ne'
  refine ⟨hfree, hpend, hchain, hfp, hfree_chain, fun p hp => hpc (List.mem_append_right _ hp),
    hlive, ⟨?_, ?_, ?_⟩, fun p hp => (hinv.bounds p (hmem p hp)).2, ?_⟩
  · exact fun h0 => hpos _ (hmem _ (Or.inr (Or.inl h0))) rfl
  · exact fun h0 => hpos _ (hmem _ (Or.inr (Or.inr (Or.inl h0)))) rfl
  · exact fun h0 => hpos _ (hmem _ (Or.inr (Or.inr (Or.inr h0)))) rfl
  · have halloc := (Alloc.alloc st.writer).mem_or_le (List.mem_singleton_self _)
    rcases halloc with hfree' | ⟨hge, -⟩
    · exact ⟨fun hl => (hlive _ hl).1 hfree', fun hp => hfp hfree' hp,
        fun hc => hfree_chain hfree' hc⟩
    · refine ⟨fun hl => ?_, fun hp => ?_, fun hc => ?_⟩
      · exact absurd (hinv.bounds _ (hmem _ (Or.inl hl))).2 (not_lt.2 hge)
      · exact absurd (hinv.bounds _ (hmem _ (Or.inr (Or.inr (Or.inl hp))))).2 (not_lt.2 hge)
      · exact absurd (hinv.bounds _ (hmem _ (Or.inr (Or.inr (Or.inr hc))))).2 (not_lt.2 hge)

/-- **Page ownership is exclusive** in every state between operations. -/
theorem exclusive_ownership {pageSize : ℕ} {st : Store} (hP : pageSize ≤ 65535)
    (hreach : Reachable pageSize st) : ExclusiveOwnership st := by
  obtain ⟨h, hinv⟩ := hreach.inv (Nat.lt_succ_of_le hP)
  exact hinv.exclusiveOwnership

/-- The theorem on a store with a split root and a page in each of the four hands. -/
theorem exclusive_ownership_session : ∃ st, session 49 [([1], [1, 2]), ([2], [3, 4, 5]),
    ([3], [6, 7]), ([4], [8]), ([5], [9]), ([6], [1, 1, 1])] = some st ∧ ExclusiveOwnership st := by
  obtain ⟨st, hst⟩ := Option.isSome_iff_exists.1 (show (session 49 [([1], [1, 2]),
    ([2], [3, 4, 5]), ([3], [6, 7]), ([4], [8]), ([5], [9]), ([6], [1, 1, 1])]).isSome = true by
      decide +kernel)
  exact ⟨st, hst, exclusive_ownership (by decide) (reachable_of_session hst)⟩

end CowRaft.Btree
