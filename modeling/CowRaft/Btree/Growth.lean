import CowRaft.Btree.Reopen
import Mathlib.Algebra.Order.Floor.Div
import Mathlib.Data.Set.Card

/-!
# How far a store grows

In runs whose commits find no reader, a put takes at least as many pages as the tree has levels
and frees exactly as many. The free list, which holds at most as many pages, is used up by every
put and holds the freed ones after it: it never gets longer than the tree is high
(`Compact.put`), and its chain is never longer than it needs (so that reopening leaks nothing).

A tree whose leaves are not empty and whose internal pages have two children has fewer than twice
as many pages as it has keys. So the bump allocator's mark is bounded by the number of keys
(`bounded_growth`), however often they are overwritten.
-/

namespace CowRaft.Btree

open Bytes HeapTree

variable {h pageSize : ℕ} {io : PageIo} {st st' : Store} {lo : Key} {id : PageId} {hi : WithTop Key}

/-! ## Pages and keys -/

theorem length_flatMap_le {α β γ : Type*} {f : α → List β} {g : α → List γ} {l : List α}
    (hl : ∀ a ∈ l, (f a).length < 2 * (g a).length) :
    (l.flatMap f).length + l.length ≤ 2 * (l.flatMap g).length := by
  induction l with
  | nil => exact Nat.zero_le _
  | cons a l ih =>
    have ha := hl a List.mem_cons_self
    have ih := ih fun b hb => hl b (List.mem_cons_of_mem _ hb)
    simp only [List.flatMap_cons, List.length_append, List.length_cons]
    omega

/-- A search tree has fewer than twice as many pages as entries. -/
theorem TreeOK.length_treePages_lt (hP : io.pageSize < 65536) (hok : TreeOK io h lo id hi) :
    (treePages io h id).length < 2 * (entriesAt io h id).length := by
  induction h generalizing lo id hi with
  | zero =>
    obtain ⟨nd, hnd, hnok⟩ := hok
    cases nd with
    | internal ks cs => exact hnok.elim
    | leaf es =>
      have hentries : entriesAt io 0 id = es := hnd.leafEntries_eq hP
      have hpos := List.length_pos_iff.2 hnok.2.2.1
      rw [treePages_eq hnd, hentries]
      change 1 < 2 * es.length
      omega
  | succ h ih =>
    obtain ⟨nd, hnd, hnok⟩ := hok
    cases nd with
    | leaf es => exact hnok.elim
    | internal ks cs =>
      have hchildren : children io id = cs := hnd.children_eq
      have hlen : cs.length = ks.length + 1 := hnd.balanced
      have hpos := List.length_pos_iff.2 hnok.1
      have hsum := length_flatMap_le (f := treePages io h) (g := entriesAt io h)
        fun c hc => by
          obtain ⟨lo', hi', hcok⟩ := hnok.2.2.forall_mem c hc
          exact ih hcok
      rw [treePages_eq hnd, entriesAt, hchildren, List.length_cons]
      change (cs.flatMap (treePages io h)).length + 1 < _
      omega

/-- The number of keys that a store binds. -/
noncomputable def Store.keyCount (st : Store) : ℕ := {key | ∃ v, st.get key = some (some v)}.ncard

/-- The number of pages reachable from the root. -/
noncomputable def Store.liveCount (st : Store) : ℕ := {p | st.Live p}.ncard

theorem ncard_lookupKey {m : List (Key × Val)} (hs : SortedKeys m) :
    {key | ∃ v, lookupKey key m = some v}.ncard = m.length := by
  have hall := ncard_lookupKey_where hs.nodup_keys fun _ => True
  simpa using hall

theorem Inv.liveCount_eq (hinv : Inv h st) :
    st.liveCount = (treePages st.io h st.root).length := by
  have hnodup : (treePages st.io h st.root).Nodup := (List.nodup_append.1 hinv.nodup).1
  have hset : {p | st.Live p} = ((treePages st.io h st.root).toFinset : Set PageId) := by
    ext p
    rw [Set.mem_ofPred_eq, hinv.live_iff, Finset.mem_coe, List.mem_toFinset]
  rw [Store.liveCount, hset, Set.ncard_coe_finset, List.toFinset_card_of_nodup hnodup]

theorem Inv.keyCount_eq (hP : st.io.pageSize < 65536) (hinv : Inv h st)
    (hroot : RootOK st.io h st.root) :
    st.keyCount = (entriesAt st.io h st.root).length := by
  rw [← ncard_lookupKey (hroot.sortedKeys hP), Store.keyCount]
  congr 1
  ext key
  rw [Set.mem_ofPred_eq, Set.mem_ofPred_eq, Store.get, get_content hP hinv.height_le hroot]
  exact exists_congr fun v => by rw [Option.some.injEq]

theorem RootOK.liveCount_le (hP : st.io.pageSize < 65536) (hinv : Inv h st)
    (hroot : RootOK st.io h st.root) : st.liveCount ≤ 2 * max st.keyCount 1 - 1 := by
  rw [hinv.liveCount_eq, hinv.keyCount_eq hP hroot]
  rcases hroot with hok | ⟨rfl, hnd⟩
  · have hlt := hok.length_treePages_lt hP
    omega
  · rw [treePages_eq hnd]
    change 1 ≤ _
    omega

/-! ## One put -/

/-- The invariant of runs whose commits find no reader. -/
structure Compact (h : ℕ) (st : Store) : Prop where
  tiled : Tiled h st
  pending_eq : st.writer.pendingFree = []
  free_le : st.writer.freeList.length ≤ h + 1
  chain_eq : st.writer.freeListPageIds.length = st.writer.pagesNeeded st.io.pageSize

theorem Compact.length_payload_le (hc : Compact h st) : st.writer.payload.length ≤ h + 1 := by
  rw [WriterState.payload, hc.pending_eq, List.append_nil]
  exact hc.free_le

theorem pagesNeeded_mono {w w' : WriterState} (pageSize : ℕ)
    (hle : w.payload.length ≤ w'.payload.length) :
    w.pagesNeeded pageSize ≤ w'.pagesNeeded pageSize :=
  Nat.div_le_div_right (Nat.sub_le_sub_right (Nat.add_le_add_right hle _) 1)

/-- An allocator that gave away as many pages as it had free has none left. -/
theorem Alloc.freeList_eq_nil {w w' : WriterState} {A : List PageId} (ha : Alloc w A w')
    (hle : w.freeList.length ≤ A.length) : w'.freeList = [] := by
  rcases ha.frugal with hnext | hnil
  · have hlen := ha.perm.length_eq
    rw [hnext, Nat.sub_self, List.range'_zero, List.append_nil, List.length_append] at hlen
    exact List.eq_nil_of_length_eq_zero (by omega)
  · exact hnil

/-- The tree does not lose a level in a put. -/
theorem PutStep.height_le {key : Key} {val : Val} {h' : ℕ} {newRoot : PageId} {txn : WriteTxn}
    {w : WriterState} {chain : List (PageId × Bytes)} {header : Bytes} (hinv : Inv h st)
    (hstep : PutStep h st newRoot txn w chain header)
    (hbuild : buildPut st.beginWrite key val = some (newRoot, txn))
    (hs : Shape (st.io.writePages (txn.pageWrites chain header)) h' newRoot) : h ≤ h' := by
  obtain ⟨A, F, -, -, -, hreb⟩ :=
    (@buildPut_shape _ st.beginWrite) hinv.pageSize_lt rfl hinv.shape hbuild
  obtain ⟨h₁, hs₁, hle, -⟩ := hreb _ (PageIo.pageSize_writePages _ _)
    (fun p hp => hstep.read_old hinv hp) hstep.flushed
  exact hle.trans_eq (hs₁.height_unique hs)

/-- **A put that finds no reader** leaves a free list as long as the old tree was high. -/
theorem Compact.put {key : Key} {val : Val} (hinv : Inv h st) (hc : Compact h st)
    (hreaders : st.readers = 0) (hput : st.put key val = some (.ok st')) :
    ∃ h', Inv h' st' ∧ Compact h' st' := by
  obtain ⟨h', hinv', hperm⟩ := hinv.put hput
  have htiled := hc.tiled.put hinv (put_next_le hinv hput) hperm
  rcases put_cases hinv hput with ⟨e, -, he⟩ |
    ⟨newRoot, txn, w, chain, header, -, hbuild, hprep, -, hst⟩
  · cases he
  obtain rfl := Except.ok.inj hst
  have hstep := buildPut_step hinv hbuild hprep
  obtain ⟨A, F, hext, ⟨hF, hA⟩, -⟩ :=
    (@buildPut_shape _ st.beginWrite) hinv.pageSize_lt rfl hinv.shape hbuild
  obtain ⟨hw, -, -⟩ := prepare_spec hprep
  -- the free list is used up, so that what is free afterwards is what this put freed
  have hnil : txn.store.writer.freeList = [] :=
    hext.alloc.freeList_eq_nil (hc.free_le.trans hA)
  have hpend : txn.store.writer.pendingFree = [] := hext.alloc.pending_eq.trans hc.pending_eq
  have hfreed : txn.freed = F := hext.freed
  have hfree : w.freeList = F ∧ w.pendingFree = [] := by
    rw [hw, hreaders]
    simp [WriterState.growChain, WriterState.passGate, WriterState.promote,
      WriterState.foldFrees, hnil, hpend, hfreed]
  have hpay : w.payload.length = h + 1 := by
    rw [WriterState.payload, hfree.1, hfree.2, List.append_nil, hF]
  have hchain : w.freeListPageIds.length = w.pagesNeeded st.io.pageSize := by
    have hmono := pagesNeeded_mono st.io.pageSize
      (hc.length_payload_le.trans hpay.ge)
    have hold := hc.chain_eq
    have hlen := hstep.length_chain
    omega
  have hle := hstep.height_le hinv hbuild hinv'.shape
  refine ⟨h', hinv', htiled, hfree.2, ?_, ?_⟩
  · rw [hfree.1, hF]
    omega
  · rw [PageIo.pageSize_writePages]
    exact hchain

theorem Compact.reopen (hinv : Inv h st) (hc : Compact h st)
    (hst : Store.openOrCreate st.io = some (.ok st')) : Compact h st' := by
  have htiled := (hinv.tiled_reopen_iff hc.tiled hst).2 hc.chain_eq.le
  rw [hinv.openOrCreate_eq rfl rfl fun _ _ => rfl, Option.some.injEq, Except.ok.injEq] at hst
  subst hst
  refine ⟨htiled, rfl, hc.length_payload_le, ?_⟩
  rw [pagesNeeded_reopened, List.length_take, hc.chain_eq, min_self]

/-! ## Every run -/

/-- The states of the runs whose commits find no reader. -/
def ReachableQuietly (pageSize : ℕ) (st : Store) : Prop :=
  ReachableWhen (fun st => st.readers = 0) (fun _ => True) pageSize st

theorem ReachableQuietly.compact (hP : pageSize < 65536)
    (hreach : ReachableQuietly pageSize st) : ∃ h, Inv h st ∧ Compact h st := by
  obtain ⟨st₀, hst₀, hrun⟩ := hreach
  induction hrun with
  | refl =>
    have htiled := Tiled.inMemory hst₀
    refine ⟨0, (inMemory_spec hP hst₀).1, ?_⟩
    obtain ⟨root, bytes, -, -, rfl⟩ := inMemory_eq hst₀
    exact ⟨htiled, rfl, Nat.zero_le _, (WriterState.pagesNeeded_eq_zero rfl).symm⟩
  | tail _ hstep ih =>
    obtain ⟨h, hinv, hc⟩ := ih
    cases hstep with
    | accepted hreaders hput => exact hc.put hinv hreaders hput
    | rejected _ => exact ⟨h, hinv, hc⟩
    | enterRead => exact ⟨h, hinv.withReaders _, ⟨hc.1, hc.2, hc.3, hc.4⟩⟩
    | dropGuard _ => exact ⟨h, hinv.withReaders _, ⟨hc.1, hc.2, hc.3, hc.4⟩⟩
    | reopen _ _ hst => exact ⟨h, hinv.reopen hst, hc.reopen hinv hst⟩

/-- **What bounds the growth of a store** whose leaves are `h` levels below the root: `h + 1` is
the height of the tree in pages. -/
structure BoundedGrowth (h : ℕ) (st : Store) : Prop where
  levelled : Levelled (children st.io) h st.root
  free_le : st.writer.freeList.length ≤ h + 1
  live_le : st.liveCount ≤ 2 * max st.keyCount 1 - 1
  next_le : st.writer.nextPageId ≤
    1 + st.liveCount + (h + 1) + (h + 1) ⌈/⌉ freeListCapacity st.io.pageSize
  /-- The bound in terms of the keys alone. -/
  next_le_keys : st.writer.nextPageId ≤ 1 + (2 * max st.keyCount 1 - 1) +
    (2 * max st.keyCount 1 - 1) + (2 * max st.keyCount 1 - 1) ⌈/⌉ freeListCapacity st.io.pageSize

theorem ceilDiv_mono {m n : ℕ} (hle : m ≤ n) (c : ℕ) : m ⌈/⌉ c ≤ n ⌈/⌉ c :=
  Nat.div_le_div_right (Nat.sub_le_sub_right (Nat.add_le_add_right hle c) 1)

theorem Compact.boundedGrowth (hP : GoodPageSize st.io.pageSize) (hinv : Inv h st)
    (hc : Compact h st) (hroot : RootOK st.io h st.root) : BoundedGrowth h st := by
  have hlive := hroot.liveCount_le hP.lt hinv
  have hheight : h + 1 ≤ st.liveCount := by
    rw [hinv.liveCount_eq]
    exact hinv.shape.lt_length_treePages
  -- the pages below the mark are those of the tree, of the free list and of its chain
  have hmark : st.liveCount + (st.writer.payload.length + st.writer.freeListPageIds.length) =
      st.writer.nextPageId - 1 := by
    have hlen := hc.tiled.length_eq
    rwa [owned, List.length_append, List.length_append, List.length_range',
      ← hinv.liveCount_eq] at hlen
  have hpos := hinv.next_pos
  have hpay := hc.length_payload_le
  have hchain : st.writer.freeListPageIds.length ≤
      (h + 1) ⌈/⌉ freeListCapacity st.io.pageSize := by
    rw [hc.chain_eq, ← chainCap_eq hP.le]
    exact ceilDiv_mono hpay _
  have hkeys := ceilDiv_mono (hheight.trans hlive) (freeListCapacity st.io.pageSize)
  exact ⟨hinv.shape.levelled, hc.free_le, hlive, by omega, by omega⟩

/-- **Growth is bounded** in runs whose commits find no reader. -/
theorem bounded_growth (hle : 49 ≤ pageSize) (hge : pageSize ≤ 32768)
    (hreach : ReachableQuietly pageSize st) : ∃ h, BoundedGrowth h st := by
  have hP : GoodPageSize pageSize := ⟨hle, hge.trans (by norm_num)⟩
  obtain ⟨hsize, h, hinv, hroot⟩ := hreach.reachable.rootOK hP
  obtain ⟨h', hinv', hc⟩ := hreach.compact hP.lt
  obtain rfl := hinv.shape.height_unique hinv'.shape
  exact ⟨h, hc.boundedGrowth (hsize ▸ hP) hinv hroot⟩

/-- The theorem on a store whose root has split. -/
theorem bounded_growth_session : ∃ st, session 49 [([1], [1, 2]), ([2], [3, 4, 5]),
    ([3], [6, 7]), ([4], [8]), ([1], [9])] = some st ∧ ∃ h, BoundedGrowth h st := by
  obtain ⟨st, hst⟩ := Option.isSome_iff_exists.1 (show (session 49 [([1], [1, 2]),
    ([2], [3, 4, 5]), ([3], [6, 7]), ([4], [8]), ([1], [9])]).isSome = true by decide +kernel)
  exact ⟨st, hst, bounded_growth (by decide) (by decide)
    (reachableWhen_of_session (by decide) (fun _ h => h) hst)⟩

end CowRaft.Btree
