import CowRaft.Btree.Concurrent
import CowRaft.Btree.Crash

/-!
# What a reader sees

The commit in flight has performed some prefix of its page writes, on the version published last
(`InFlight`). Each of them goes to a page that this version neither reaches nor keeps pending
(`Kept`), and while a guard that was counted by the gate is held, what it reaches stays of this
kind: the gate is closed, and the freed pages stay pending.

A guard that is counted after the gate has opened and loads its root before the new one is
published is different. What it reaches is free as soon as the commit ends, and the first page the
next put writes is its root (`stale_guard_overwritten`). So the snapshot of every guard is kept in
the runs in which no put writes a page while such a guard is held (`snapshot_isolation`).
-/

namespace CowRaft.Btree

open Bytes HeapTree

/-! ## The reader count -/

/-- The same transaction, with another reader count. -/
def WriteTxn.withReaders (txn : WriteTxn) (readers : ℕ) : WriteTxn :=
  { txn with store := { txn.store with readers } }

section Readers

variable (txn : WriteTxn) (n : ℕ)

theorem allocWrite_withReaders (page : Page) : (txn.withReaders n).allocWrite page =
    (txn.allocWrite page).map fun r => (r.1, r.2.withReaders n) := by
  have halloc : (txn.withReaders n).alloc = (txn.alloc.1, txn.alloc.2.withReaders n) := rfl
  have hsize : (txn.alloc.2.withReaders n).pageSize = txn.alloc.2.pageSize := rfl
  simp only [WriteTxn.allocWrite, WriteTxn.write, halloc, hsize]
  cases page.toBytes txn.alloc.1 txn.alloc.2.pageSize <;> rfl

theorem absorb_withReaders (node : InternalNode) (idx pageSize : ℕ) (result : InsertResult) :
    absorb (txn.withReaders n) node idx pageSize result =
      (absorb txn node idx pageSize result).map fun r => (r.1.withReaders n, r.2) := by
  cases result with
  | single newChild =>
    simp only [absorb, allocWrite_withReaders, Option.bind_eq_bind, Option.bind_map,
      Option.map_bind]
    refine Option.bind_congr fun r _ => ?_
    simp only [Function.comp_apply, Option.map_bind]
    rfl
  | split left sep right =>
    simp only [absorb, allocWrite_withReaders, Option.bind_eq_bind, Option.bind_map,
      Option.map_bind]
    refine Option.bind_congr fun l _ => ?_
    simp only [Function.comp_apply, allocWrite_withReaders, Option.bind_map, Option.map_bind]
    refine Option.bind_congr fun r _ => ?_
    refine Option.bind_congr fun grown _ => ?_
    split_ifs
    · rfl
    · rw [Option.map_bind]
      rfl

theorem insertPage_withReaders {rec : WriteTxn → InternalNode → Option (WriteTxn × InsertResult)}
    (hrec : ∀ txn i, rec (txn.withReaders n) i = (rec txn i).map fun r => (r.1.withReaders n, r.2))
    (key : Key) (val : Val) (pageSize : ℕ) (page : Page) :
    insertPage rec (txn.withReaders n) key val pageSize page =
      (insertPage rec txn key val pageSize page).map fun r => (r.1.withReaders n, r.2) := by
  cases page with
  | leaf l => simp only [insertPage, Option.map_map]; rfl
  | internal i => exact hrec txn i

theorem insertInternal_withReaders (key : Key) (val : Val) (pageSize fuel : ℕ)
    (node : InternalNode) : insertInternal key val pageSize fuel (txn.withReaders n) node =
      (insertInternal key val pageSize fuel txn node).map fun r => (r.1.withReaders n, r.2) := by
  induction fuel generalizing txn node with
  | zero => rfl
  | succ fuel ih =>
    have hread : ∀ id, (txn.withReaders n).read id = txn.read id := fun _ => rfl
    simp only [insertInternal, hread, insertPage_withReaders _ n ih, Option.bind_eq_bind,
      Option.bind_map, Option.map_bind]
    refine Option.bind_congr fun idx _ => ?_
    simp only [Function.comp_apply, Option.map_bind]
    refine Option.bind_congr fun id _ => ?_
    refine Option.bind_congr fun page _ => ?_
    exact Option.bind_congr fun r _ => absorb_withReaders (r.1.free id) n node idx pageSize r.2

theorem placeRoot_withReaders (result : InsertResult) : placeRoot (txn.withReaders n) result =
    (placeRoot txn result).map fun r => (r.1, r.2.withReaders n) := by
  cases result with
  | single node => exact allocWrite_withReaders txn n node
  | split left sep right =>
    simp only [placeRoot, allocWrite_withReaders, Option.bind_eq_bind, Option.bind_map,
      Option.map_bind]
    refine Option.bind_congr fun l _ => ?_
    simp only [Function.comp_apply, allocWrite_withReaders, Option.bind_map, Option.map_bind]

/-- **Building a tree does not look at the reader count.** -/
theorem buildPut_withReaders (key : Key) (val : Val) : buildPut (txn.withReaders n) key val =
    (buildPut txn key val).map fun r => (r.1, r.2.withReaders n) := by
  have hread : ∀ id, (txn.withReaders n).read id = txn.read id := fun _ => rfl
  have hroot : (txn.withReaders n).root = txn.root := rfl
  have hsize : (txn.withReaders n).pageSize = txn.pageSize := rfl
  have hnext : (txn.withReaders n).store.writer = txn.store.writer := rfl
  simp only [buildPut, hread, hroot, hsize, hnext, Option.bind_eq_bind, Option.map_bind]
  refine Option.bind_congr fun page _ => ?_
  simp only [Function.comp_apply, Option.map_bind,
    insertPage_withReaders _ n fun t i => insertInternal_withReaders t n key val _ _ i,
    Option.bind_map]
  exact Option.bind_congr fun r _ => placeRoot_withReaders (r.1.free txn.root) n r.2

end Readers

/-! ## What building a tree writes -/

variable {ι : Type} {h pageSize : ℕ} {io : PageIo} {base st : Store} {newRoot p : PageId}
  {txn : WriteTxn} {w : WriterState} {chain : List (PageId × Bytes)} {header : Bytes}

/-- `txn` builds the tree of an accepted put on `base`, with root `newRoot`. -/
def Builds (base : Store) (newRoot : PageId) (txn : WriteTxn) : Prop :=
  ∃ key val, checkLimits base.io.pageSize key val = .ok () ∧
    buildPut base.beginWrite key val = some (newRoot, txn)

/-- The page is reached from the published root, or waits for readers to leave. -/
def Kept (base : Store) (p : PageId) : Prop := base.Live p ∨ p ∈ base.writer.pendingFree

theorem allocWrite_writes_ne {txn txn' : WriteTxn} {page : Page} {id : PageId}
    (h : txn.allocWrite page = some (id, txn')) : txn'.writes ≠ [] := by
  obtain ⟨t, ht, heq⟩ := Option.map_eq_some_iff.1 h
  obtain ⟨bytes, -, ht⟩ := Option.bind_eq_some_iff.1 ht
  rw [← (Prod.mk.inj heq).2, ← Option.some.inj ht]
  exact List.append_ne_nil_of_right_ne_nil _ (List.cons_ne_nil _ _)

theorem placeRoot_writes_ne {txn txn' : WriteTxn} {result : InsertResult}
    (h : placeRoot txn result = some (newRoot, txn')) : txn'.writes ≠ [] := by
  cases result with
  | single node => exact allocWrite_writes_ne h
  | split left sep right =>
    obtain ⟨l, -, h⟩ := Option.bind_eq_some_iff.1 h
    obtain ⟨r, -, h⟩ := Option.bind_eq_some_iff.1 h
    exact allocWrite_writes_ne h

namespace Builds

/-- A put writes at least the new root. -/
theorem writes_ne (hb : Builds base newRoot txn) : txn.writes ≠ [] := by
  obtain ⟨key, val, -, hb⟩ := hb
  obtain ⟨page, -, hb⟩ := Option.bind_eq_some_iff.1 hb
  obtain ⟨r, -, hb⟩ := Option.bind_eq_some_iff.1 hb
  exact placeRoot_writes_ne hb

theorem extends' (hb : Builds base newRoot txn) (hinv : Inv h base) :
    ∃ A F, Extends base.beginWrite A F txn ∧ txn.writes.map Prod.fst = A := by
  obtain ⟨key, val, -, hb⟩ := hb
  obtain ⟨A, F, hext, -⟩ :=
    (@buildPut_shape _ base.beginWrite) hinv.pageSize_lt rfl hinv.shape hb
  obtain ⟨ws, hws, hA⟩ := hext.writes
  exact ⟨A, F, hext, by rw [hws]; exact hA⟩

/-- What is written was free or beyond the mark. -/
theorem mem_writes (hb : Builds base newRoot txn) (hinv : Inv h base)
    (hp : p ∈ txn.writes.map Prod.fst) :
    p ∈ base.writer.freeList ∨ base.writer.nextPageId ≤ p := by
  obtain ⟨A, F, hext, rfl⟩ := hb.extends' hinv
  exact (hext.alloc.mem_or_le hp).imp_right And.left

theorem freeList_prefix (hb : Builds base newRoot txn) (hinv : Inv h base) :
    txn.store.writer.freeList <+: base.writer.freeList := by
  obtain ⟨A, F, hext, -⟩ := hb.extends' hinv
  exact hext.alloc.isPrefix

theorem step (hb : Builds base newRoot txn) (hinv : Inv h base) {readers : ℕ}
    (hp : txn.prepare readers newRoot = some (w, chain, header)) :
    PutStep h base newRoot txn w chain header := by
  obtain ⟨key, val, -, hb⟩ := hb
  exact buildPut_step hinv hb hp

/-- The commit of the put, seen as one sequential put with the gate's reader count. -/
theorem put_eq (hb : Builds base newRoot txn) (hinv : Inv h base) {readers : ℕ}
    (hp : txn.prepare readers newRoot = some (w, chain, header)) :
    ∃ key val, ({ base with readers } : Store).put key val =
      some (.ok ⟨base.io.writePages (txn.pageWrites chain header), newRoot, readers, w⟩) := by
  obtain ⟨key, val, hlim, hbuild⟩ := hb
  obtain ⟨A, F, hext, -⟩ :=
    (@buildPut_shape _ base.beginWrite) hinv.pageSize_lt rfl hinv.shape hbuild
  have hio : txn.store.io = base.io := hext.io_eq
  have hsize : ({ base with readers } : Store).beginWrite.pageSize = base.io.pageSize := rfl
  have hbuild' : buildPut ({ base with readers } : Store).beginWrite key val =
      some (newRoot, txn.withReaders readers) := by
    refine (buildPut_withReaders base.beginWrite readers key val).trans ?_
    rw [hbuild, Option.map_some]
  have hp' : (txn.withReaders readers).prepare readers newRoot = some (w, chain, header) := hp
  refine ⟨key, val, ?_⟩
  simp only [Store.put, Btree.put, hsize, hlim, hbuild', WriteTxn.commit, Option.bind_eq_bind,
    Option.bind_some]
  rw [show (txn.withReaders readers).store.readers = readers from rfl, hp', Option.bind_some,
    Option.map_some, WriteTxn.pageWrites, PageIo.writePages_append, PageIo.writePages_append,
    ← hio]
  rfl

end Builds

/-! ## What is kept -/

theorem Kept.notMem_free (ho : ExclusiveOwnership base) (hk : Kept base p) :
    p ∉ base.writer.freeList := by
  rcases hk with hl | hp
  · exact (ho.not_live p hl).1
  · exact fun hf => ho.free_pending hf hp

theorem Kept.lt_next (ho : ExclusiveOwnership base) (hk : Kept base p) :
    p < base.writer.nextPageId :=
  ho.below_mark p (hk.imp_right fun hp => Or.inr (Or.inl hp))

/-- No new tree page goes to a kept page. -/
theorem Kept.notMem_tree_writes (hinv : Inv h base) (hk : Kept base p)
    (hb : Builds base newRoot txn) : p ∉ txn.writes.map Prod.fst := fun hp => by
  have ho := hinv.exclusiveOwnership
  rcases hb.mem_writes hinv hp with hf | hge
  · exact hk.notMem_free ho hf
  · exact absurd (hk.lt_next ho) (not_lt.2 hge)

/-- No page of a new chain is a kept page. -/
theorem Kept.notMem_chain (hinv : Inv h base) (hk : Kept base p)
    (hstep : PutStep h base newRoot txn w chain header) : p ∉ w.freeListPageIds := fun hp => by
  have ho := hinv.exclusiveOwnership
  rw [hstep.chain_grows] at hp
  rcases List.mem_append.1 hp with hp | hp
  · rcases hk with hl | hk
    · exact (ho.not_live p hl).2.2 hp
    · exact ho.pending_chain hk hp
  · have hge := hstep.alloc_next_le.trans (List.mem_range'_1.1 hp).1
    exact absurd (hk.lt_next ho) (not_lt.2 hge)

/-- **No write of a commit goes to a kept page.** -/
theorem Kept.notMem_writes (hinv : Inv h base) (hk : Kept base p) (hb : Builds base newRoot txn)
    (hstep : PutStep h base newRoot txn w chain header) :
    p ∉ (txn.pageWrites chain header).map Prod.fst := fun hp => by
  have ho := hinv.exclusiveOwnership
  rcases hstep.mem_writes hp with hp | rfl
  · rcases List.mem_append.1 hp with hp | hp
    · exact hk.notMem_tree_writes hinv hb hp
    · exact hk.notMem_chain hinv hstep hp
  · rcases hk with hl | hk
    · exact absurd rfl (hinv.tree_bounds (hinv.live_iff.1 hl)).1.ne
    · exact ho.not_header.2.1 hk

/-- **A closed gate keeps what was kept.** -/
theorem Kept.publish (hinv : Inv h base) (hk : Kept base p) (hb : Builds base newRoot txn)
    {readers : ℕ} (hp : txn.prepare readers newRoot = some (w, chain, header))
    (hreaders : readers ≠ 0) {n : ℕ} :
    Kept ⟨base.io.writePages (txn.pageWrites chain header), newRoot, n, w⟩ p := by
  have ho := hinv.exclusiveOwnership
  have hstep := hb.step hinv hp
  obtain ⟨h', hinv', hperm⟩ := hstep.inv hinv n
  have hfree : w.freeList = txn.store.writer.freeList := by
    rw [(prepare_spec hp).1, WriterState.passGate, if_neg hreaders]
    rfl
  -- a kept page is owned before the put, so it is owned after it
  have hmem : p ∈ owned base.io h base.root base.writer := by
    rcases hk with hl | hpend
    · exact List.mem_append_left _ (hinv.live_iff.1 hl)
    · exact List.mem_append_right _ (List.mem_append_left _ (List.mem_append_right _ hpend))
  rcases List.mem_append.1 (hperm.symm.subset (List.mem_append_left _ hmem)) with ht | hp'
  · exact Or.inl (hinv'.live_iff.2 ht)
  · rcases List.mem_append.1 hp' with hpay | hchain
    · rcases List.mem_append.1 hpay with hf | hpend
      · rw [hfree] at hf
        exact absurd ((hb.freeList_prefix hinv).subset hf) (hk.notMem_free ho)
      · exact Or.inr hpend
    · exact absurd hchain (hk.notMem_chain hinv hstep)

/-! ## The commit in flight -/

/-- **How far the commit in flight has got**, from the version published last. -/
def InFlight (base st : Store) : WriterPhase → Prop
  | .idle => st.io = base.io ∧ st.writer = base.writer
  | .flush newRoot freed rest => ∃ txn done, Builds base newRoot txn ∧ txn.freed = freed ∧
      txn.writes = done ++ rest ∧ st.io = base.io.writePages done ∧
      st.writer = txn.store.writer
  | .gate newRoot | .promote newRoot => ∃ txn, Builds base newRoot txn ∧
      st.io = base.io.writePages txn.writes ∧
      st.writer = txn.store.writer.foldFrees txn.freed
  | .persist newRoot promoted rest => ∃ txn readers w chain header done,
      Builds base newRoot txn ∧ txn.prepare readers newRoot = some (w, chain, header) ∧
      (promoted = true ↔ readers = 0) ∧ txn.pageWrites chain header = done ++ rest ∧
      st.io = base.io.writePages done ∧ st.writer = w

/-- The pages written so far are not kept pages. -/
theorem InFlight.written {phase : WriterPhase} (hf : InFlight base st phase) (hinv : Inv h base) :
    ∃ ws, st.io = base.io.writePages ws ∧ ∀ p, Kept base p → p ∉ ws.map Prod.fst := by
  cases phase with
  | idle => exact ⟨[], hf.1, fun p _ => List.not_mem_nil⟩
  | flush newRoot freed rest =>
    obtain ⟨txn, done, hb, -, hw, hio, -⟩ := hf
    refine ⟨done, hio, fun p hk hp => hk.notMem_tree_writes hinv hb ?_⟩
    rw [hw, List.map_append]
    exact List.mem_append_left _ hp
  | gate newRoot =>
    obtain ⟨txn, hb, hio, -⟩ := hf
    exact ⟨txn.writes, hio, fun p hk => hk.notMem_tree_writes hinv hb⟩
  | promote newRoot =>
    obtain ⟨txn, hb, hio, -⟩ := hf
    exact ⟨txn.writes, hio, fun p hk => hk.notMem_tree_writes hinv hb⟩
  | persist newRoot promoted rest =>
    obtain ⟨txn, readers, w, chain, header, done, hb, hp, -, hw, hio, -⟩ := hf
    refine ⟨done, hio, fun p hk hmem => hk.notMem_writes hinv hb (hb.step hinv hp) ?_⟩
    rw [hw, List.map_append]
    exact List.mem_append_left _ hmem

theorem InFlight.read_kept {phase : WriterPhase} (hf : InFlight base st phase) (hinv : Inv h base)
    (hk : Kept base p) : st.io.readPage p = base.io.readPage p := by
  obtain ⟨ws, hio, hnot⟩ := hf.written hinv
  rw [hio]
  exact PageIo.readPage_writePages_of_notMem _ (hnot p hk)

theorem InFlight.pageSize_eq {phase : WriterPhase} (hf : InFlight base st phase)
    (hinv : Inv h base) : st.io.pageSize = base.io.pageSize := by
  obtain ⟨ws, hio, -⟩ := hf.written hinv
  rw [hio, PageIo.pageSize_writePages]

/-! ## The invariant -/

/-- No page of the next put is written yet. -/
def WriterPhase.quiet : WriterPhase → Bool
  | idle => true
  | flush _ _ (_ :: _) => true
  | _ => false

/-- What holds of a guard's view, whatever the writer does. -/
structure ViewBase (pageSize : ℕ) (v : View) : Prop where
  committed : Reachable pageSize v.version
  root_eq : v.version.root = v.root
  seen_eq : ∀ p, v.version.Live p → v.seen.readPage p = v.version.io.readPage p

/-- A lookup under way will end as one in its version, and a lookup at its end has. -/
def ReaderOK (pageSize : ℕ) : Reader → Prop
  | .reading key next v => ViewBase pageSize v ∧ ∃ h, Shape v.version.io h next ∧
      (∀ p ∈ treePages v.version.io h next, v.version.Live p) ∧
      Btree.get v.version.io h next key = v.version.get key
  | .finished key result v => ViewBase pageSize v ∧ result = v.version.get key
  | _ => True

/-- What the writer owes to a guard's view. -/
structure ViewOK (s : Concurrent ι) (v : View) : Prop where
  agree : ∀ p, v.version.Live p → s.store.io.readPage p = v.version.io.readPage p
  kept : v.window = false ∨ s.phase.inWindow = true →
    ∀ p, v.version.Live p → Kept s.published p
  stale : v.window = true → s.phase.inWindow = true ∨ s.phase.quiet = true

/-- **The invariant of the calm runs.** -/
structure SnapInv (pageSize : ℕ) (s : Concurrent ι) : Prop where
  published : Reachable pageSize s.published
  root_eq : s.store.root = s.published.root
  flight : InFlight s.published s.store s.phase
  counted : ∃ S : Finset ι, (∀ i, i ∈ S ↔ s.guards i ≠ .out) ∧ S.card = s.store.readers
  reader : ∀ i, ReaderOK pageSize (s.guards i)
  view : ∀ i v, (s.guards i).view = some v → ViewOK s v
  window : s.phase.inWindow = true → ∀ i v, (s.guards i).view = some v → v.window = true

theorem ReaderOK.viewBase {r : Reader} {v : View} (hr : ReaderOK pageSize r)
    (hv : r.view = some v) : ViewBase pageSize v := by
  cases r with
  | out => cases hv
  | entered key => cases hv
  | reading key next v' =>
    obtain rfl := Option.some.inj hv
    exact hr.1
  | finished key result v' =>
    obtain rfl := Option.some.inj hv
    exact hr.1

/-- Reachability is the same in a backend with the same live pages. -/
theorem Inv.reaches_congr (hinv : Inv h st) (hread : ∀ p, st.Live p →
    io.readPage p = st.io.readPage p) : Reaches (children io) st.root p ↔ st.Live p := by
  have hsucc : ∀ q ∈ unfold (children st.io) h st.root, children io q = children st.io q :=
    fun q hq => children_congr (hread q (hinv.live_iff.2 hq))
  rw [← mem_unfold_iff (hinv.shape.levelled.congr hsucc), unfold_congr hsucc]
  exact hinv.live_iff.symm

theorem SnapInv.isolated {s : Concurrent ι} (hP : pageSize ≤ 65535) (hs : SnapInv pageSize s) :
    Isolated pageSize s where
  pages i v hv p hp := by
    have hb := (hs.reader i).viewBase hv
    obtain ⟨h, hinv⟩ := hb.committed.inv (Nat.lt_succ_of_le hP)
    rw [← hb.root_eq] at hp
    have hl := (hinv.reaches_congr hb.seen_eq).1 hp
    rw [(hs.view i v hv).agree p hl, hb.seen_eq p hl]
  version i v hv := ⟨((hs.reader i).viewBase hv).committed, ((hs.reader i).viewBase hv).root_eq⟩
  result i key result v hg := by
    have hr := hs.reader i
    rw [hg] at hr
    exact hr.2

/-! ## The writer's steps -/

/-- The reader count does not matter to a reachable store. -/
theorem Reachable.withReaders (hreach : Reachable pageSize st) (n : ℕ) :
    Reachable pageSize { st with readers := n } := by
  have hstep : ∀ {st st' : Store}, Reachable pageSize st → Step st st' → Reachable pageSize st' :=
    fun ⟨st₀, hst₀, hrun⟩ hs => ⟨st₀, hst₀, hrun.tail hs⟩
  have hzero : ∀ m, Reachable pageSize { st with readers := m } →
      Reachable pageSize { st with readers := 0 } := by
    intro m hm
    induction m with
    | zero => exact hm
    | succ m ih => exact ih (hstep hm (.dropGuard (Nat.succ_pos m)))
  induction n with
  | zero => exact hzero st.readers hreach
  | succ n ih => exact hstep ih (.enterRead _)

theorem startPersist_spec {s s' : Concurrent ι} {promoted : Bool} {readers : ℕ}
    (hs : s.startPersist newRoot promoted = some s') (hsize : txn.pageSize = s.store.io.pageSize)
    (hw : s.store.writer = (txn.store.writer.foldFrees txn.freed).passGate readers) :
    ∃ w chain header, txn.prepare readers newRoot = some (w, chain, header) ∧
      s' = { s with
        store := { s.store with writer := w }
        phase := .persist newRoot promoted (chain ++ [(HEADER_PAGE_ID, header)]) } := by
  obtain ⟨⟨w, chain, head, count⟩, hpersist, hs⟩ := Option.bind_eq_some_iff.1 hs
  obtain ⟨header, hheader, hs⟩ := Option.bind_eq_some_iff.1 hs
  refine ⟨w, chain, header, ?_, (Option.some.inj hs).symm⟩
  rw [hw, ← hsize] at hpersist
  rw [← hsize] at hheader
  simp only [WriteTxn.prepare, hpersist, Option.bind_eq_bind, Option.bind_some, hheader]

/-- A view outlives a step of the writer after which its pages are kept as before. -/
theorem ViewOK.writer_step {s s' : Concurrent ι} {v : View} (hv : ViewOK s v)
    (hinv : Inv h s.published) (hpub : s'.published = s.published)
    (hf : InFlight s.published s.store s.phase) (hf' : InFlight s.published s'.store s'.phase)
    (hk : v.window = false ∨ s.phase.inWindow = true)
    (hstale : v.window = true → s'.phase.inWindow = true ∨ s'.phase.quiet = true) :
    ViewOK s' v where
  agree p hp := by
    have hkept := hv.kept hk p hp
    rw [hf'.read_kept hinv hkept, ← hf.read_kept hinv hkept, hv.agree p hp]
  kept _ p hp := hpub ▸ hv.kept hk p hp
  stale := hstale

/-- **One step of the writer within a commit** keeps the invariant, if the views it may disturb
are kept. -/
theorem SnapInv.writer_step {s s' : Concurrent ι} (hP : pageSize ≤ 65535)
    (hs : SnapInv pageSize s) (hguards : s'.guards = s.guards)
    (hpub : s'.published = s.published) (hroot : s'.store.root = s.store.root)
    (hreaders : s'.store.readers = s.store.readers)
    (hf' : InFlight s.published s'.store s'.phase)
    (hk : ∀ i v, (s.guards i).view = some v → v.window = false ∨ s.phase.inWindow = true)
    (hstale : ∀ i v, (s.guards i).view = some v → v.window = true →
      s'.phase.inWindow = true ∨ s'.phase.quiet = true)
    (hwindow : s'.phase.inWindow = true → ∀ i v, (s.guards i).view = some v → v.window = true) :
    SnapInv pageSize s' := by
  obtain ⟨h, hinv⟩ := hs.published.inv (Nat.lt_succ_of_le hP)
  exact
    { published := hpub ▸ hs.published
      root_eq := by rw [hroot, hpub, hs.root_eq]
      flight := hpub ▸ hf'
      counted := by rw [hguards, hreaders]; exact hs.counted
      reader := hguards ▸ hs.reader
      view := fun i v hv => by
        rw [hguards] at hv
        exact (hs.view i v hv).writer_step hinv hpub hs.flight hf' (hk i v hv) (hstale i v hv)
      window := hguards ▸ hwindow }

/-- In the middle of a commit, a view is not stale or the writer is in the window. -/
theorem ViewOK.of_not_quiet {s : Concurrent ι} {v : View} (hv : ViewOK s v)
    (hq : s.phase.quiet = false) : v.window = false ∨ s.phase.inWindow = true := by
  cases hw : v.window with
  | false => exact Or.inl rfl
  | true =>
    rcases hv.stale hw with h | h
    · exact Or.inr h
    · rw [hq] at h
      cases h

/-- No one uses a store that is not being read or written. -/
theorem SnapInv.init (hst : Reachable pageSize st) (hreaders : st.readers = 0) :
    SnapInv pageSize (Concurrent.init st : Concurrent ι) where
  published := hst
  root_eq := rfl
  flight := ⟨rfl, rfl⟩
  counted := ⟨∅, fun _ => iff_of_false (Finset.notMem_empty _) fun h => h rfl, hreaders.symm⟩
  reader _ := trivial
  view _ _ hv := by cases hv
  window _ _ _ hv := by cases hv

/-- The tree is built: the backend is untouched. -/
theorem SnapInv.beginPut {s s' : Concurrent ι} {key : Key} {val : Val} (hP : pageSize ≤ 65535)
    (hs : SnapInv pageSize s) (hphase : s.phase = .idle) (hstep : s.beginPut key val = some s') :
    SnapInv pageSize s' := by
  rw [Concurrent.beginPut] at hstep
  split at hstep
  · obtain rfl := Option.some.inj hstep
    exact hs
  · rename_i hlim
    obtain ⟨⟨newRoot, txn'⟩, hbuild, rfl⟩ := Option.map_eq_some_iff.1 hstep
    obtain ⟨h, hinv⟩ := hs.published.inv (Nat.lt_succ_of_le hP)
    have hflight := hs.flight
    rw [hphase] at hflight
    obtain ⟨hio, hw⟩ := hflight
    have hst : s.store.beginWrite = s.published.beginWrite.withReaders s.store.readers := by
      simp only [Store.beginWrite, WriteTxn.withReaders, ← hio, ← hw, ← hs.root_eq]
    rw [hst, buildPut_withReaders] at hbuild
    obtain ⟨⟨newRoot, txn⟩, hbuild₀, heq⟩ := Option.map_eq_some_iff.1 hbuild
    obtain ⟨rfl, rfl⟩ := Prod.mk.inj heq
    have hb : Builds s.published newRoot txn := ⟨key, val, hio ▸ hlim, hbuild₀⟩
    obtain ⟨A, F, hext, -⟩ := hb.extends' hinv
    have hroot : txn.store.root = s.published.root := by
      rw [hext.store_eq]
      rfl
    obtain ⟨wr, rest, hwrites⟩ := List.exists_cons_of_ne_nil hb.writes_ne
    have hphase' : WriterPhase.quiet (.flush newRoot (txn.withReaders s.store.readers).freed
        (txn.withReaders s.store.readers).writes) = true := by
      rw [show (txn.withReaders s.store.readers).writes = wr :: rest from hwrites]
      rfl
    have hio' : (txn.withReaders s.store.readers).store.io = s.store.io := by
      rw [hio]
      exact hext.io_eq
    exact
      { published := hs.published
        root_eq := hroot
        flight := ⟨txn, [], hb, rfl, rfl, hext.io_eq, rfl⟩
        counted := hs.counted
        reader := hs.reader
        view := fun i v hv =>
          { agree := fun p hp => by
              rw [← (hs.view i v hv).agree p hp]
              exact congrArg (fun io => io.readPage p) hio'
            kept := fun hk => (hs.view i v hv).kept (hk.imp_right fun hw => by cases hw)
            stale := fun _ => Or.inr hphase' }
        window := fun hw => by cases hw }

/-- The chain and the header are computed: no page is written. -/
theorem SnapInv.startPersist {s s' : Concurrent ι} (s₁ : Concurrent ι) (promoted : Bool)
    (readers : ℕ) (hP : pageSize ≤ 65535) (hs : SnapInv pageSize s)
    (hb : Builds s.published newRoot txn)
    (hio : s.store.io = s.published.io.writePages txn.writes)
    (hw : s₁.store.writer = (txn.store.writer.foldFrees txn.freed).passGate readers)
    (hs₁ : s₁ = s.setWriter s₁.store.writer) (hgate : promoted = true ↔ readers = 0)
    (hk : ∀ i v, (s.guards i).view = some v → v.window = false ∨ s.phase.inWindow = true)
    (hwindow : promoted = true → s.phase.inWindow = true)
    (hclosed : promoted = false → ∀ i v, (s.guards i).view = some v → v.window = false)
    (hstep : s₁.startPersist newRoot promoted = some s') : SnapInv pageSize s' := by
  obtain ⟨h, hinv⟩ := hs.published.inv (Nat.lt_succ_of_le hP)
  obtain ⟨A, F, hext, -⟩ := hb.extends' hinv
  have hsize : txn.pageSize = s₁.store.io.pageSize := by
    rw [hext.pageSize_eq, hs₁]
    exact (hs.flight.pageSize_eq hinv).symm
  obtain ⟨w, chain, header, hprep, rfl⟩ := startPersist_spec hstep hsize hw
  refine hs.writer_step hP ?_ ?_ ?_ ?_ ⟨txn, readers, w, chain, header, txn.writes, hb, hprep,
    hgate, ?_, ?_, rfl⟩ hk (fun i v hv hwin => Or.inl ?_) fun hp => hs.window (hwindow hp)
  · rw [hs₁]
    rfl
  · rw [hs₁]
    rfl
  · rw [hs₁]
    rfl
  · rw [hs₁]
    rfl
  · rw [WriteTxn.pageWrites, List.append_assoc]
  · rw [hs₁]
    exact hio
  · cases promoted with
    | true => rfl
    | false =>
      rw [hclosed rfl i v hv] at hwin
      cases hwin

/-- **The root store.** With the gate closed, what was kept is kept; with the gate open, the views
are those of the window. -/
theorem SnapInv.publish {s : Concurrent ι} {promoted : Bool} (hP : pageSize ≤ 65535)
    (hs : SnapInv pageSize s) (hphase : s.phase = .persist newRoot promoted []) :
    SnapInv pageSize (s.publish newRoot) := by
  obtain ⟨h, hinv⟩ := hs.published.inv (Nat.lt_succ_of_le hP)
  have hflight := hs.flight
  rw [hphase] at hflight
  obtain ⟨txn, readers, w, chain, header, done, hb, hp, hgate, hdone, hio, hw⟩ := hflight
  rw [List.append_nil] at hdone
  subst hdone
  have hstore : ({ s.store with root := newRoot } : Store) =
      ⟨s.published.io.writePages (txn.pageWrites chain header), newRoot, s.store.readers, w⟩ := by
    rw [← hio, ← hw]
  obtain ⟨key, val, hput⟩ := hb.put_eq hinv hp
  obtain ⟨st₀, hst₀, hrun⟩ := hs.published.withReaders readers
  have hreach : Reachable pageSize { s.store with root := newRoot } := by
    have hnew : Reachable pageSize ⟨s.published.io.writePages (txn.pageWrites chain header),
      newRoot, readers, w⟩ := ⟨st₀, hst₀, hrun.tail (.accepted hput)⟩
    rw [hstore]
    exact hnew.withReaders s.store.readers
  exact
    { published := hreach
      root_eq := rfl
      flight := ⟨rfl, rfl⟩
      counted := hs.counted
      reader := hs.reader
      view := fun i v hv =>
        { agree := (hs.view i v hv).agree
          kept := fun hk p hp' => by
            have hclean : v.window = false := hk.resolve_right (by intro h; cases h)
            have hclosed : readers ≠ 0 := fun h0 => by
              have hwin := hs.window (by rw [hphase]; exact hgate.2 h0) i v hv
              rw [hclean] at hwin
              cases hwin
            have hk' := ((hs.view i v hv).kept (Or.inl hclean) p hp').publish hinv hb hp hclosed
              (n := s.store.readers)
            rw [← hstore] at hk'
            exact hk'
          stale := fun _ => Or.inr rfl }
      window := fun hw => by cases hw }

/-! ## The readers' steps -/

section Readers

variable [DecidableEq ι] {s : Concurrent ι} {i : ι}

/-- A reader that changes its own state, and the reader count with it. -/
theorem SnapInv.setGuard (hs : SnapInv pageSize s) {r : Reader} {n : ℕ}
    (hcounted : ∃ S : Finset ι, (∀ j, j ∈ S ↔ Function.update s.guards i r j ≠ .out) ∧ S.card = n)
    (hr : ReaderOK pageSize r)
    (hview : ∀ v, r.view = some v → ViewOK s v ∧
      (s.phase.inWindow = true → v.window = true)) :
    SnapInv pageSize
      ({ s with store := { s.store with readers := n } }.setGuard i r : Concurrent ι) := by
  have hguard : ∀ j v, (Function.update s.guards i r j).view = some v → ViewOK s v ∧
      (s.phase.inWindow = true → v.window = true) := fun j v hv => by
    by_cases hj : j = i
    · subst hj
      rw [Function.update_self] at hv
      exact hview v hv
    · rw [Function.update_of_ne hj] at hv
      exact ⟨hs.view j v hv, fun hw => hs.window hw j v hv⟩
  have hreader : ∀ j, ReaderOK pageSize (Function.update s.guards i r j) := fun j => by
    by_cases hj : j = i
    · subst hj
      rw [Function.update_self]
      exact hr
    · rw [Function.update_of_ne hj]
      exact hs.reader j
  have hflight : InFlight s.published { s.store with readers := n } s.phase := by
    have hf := hs.flight
    cases hp : s.phase <;> rw [hp] at hf <;> exact hf
  exact
    { published := hs.published
      root_eq := hs.root_eq
      flight := hflight
      counted := hcounted
      reader := hreader
      view := fun j v hv => ⟨(hguard j v hv).1.agree, (hguard j v hv).1.kept,
        (hguard j v hv).1.stale⟩
      window := fun hw j v hv => (hguard j v hv).2 hw }

/-- The count of a reader that stays in. -/
theorem SnapInv.counted_in (hs : SnapInv pageSize s) {r : Reader} (hi : s.guards i ≠ .out)
    (hr : r ≠ .out) : ∃ S : Finset ι,
      (∀ j, j ∈ S ↔ Function.update s.guards i r j ≠ .out) ∧ S.card = s.store.readers := by
  obtain ⟨S, hS, hcard⟩ := hs.counted
  refine ⟨S, fun j => ?_, hcard⟩
  by_cases hj : j = i
  · subst hj
    rw [Function.update_self]
    exact iff_of_true ((hS j).2 hi) hr
  · rw [Function.update_of_ne hj]
    exact hS j

theorem SnapInv.enterRead (hs : SnapInv pageSize s) {key : Key} (hi : s.guards i = .out) :
    SnapInv pageSize ({ s with store := s.store.enterRead }.setGuard i (.entered key)) := by
  obtain ⟨S, hS, hcard⟩ := hs.counted
  refine hs.setGuard ⟨insert i S, fun j => ?_, ?_⟩ trivial fun v hv => by cases hv
  · by_cases hj : j = i
    · subst hj
      rw [Function.update_self]
      exact iff_of_true (Finset.mem_insert_self j S) nofun
    · rw [Function.update_of_ne hj, Finset.mem_insert, or_iff_right hj]
      exact hS j
  · rw [Finset.card_insert_of_notMem fun hmem => (hS i).1 hmem hi, hcard]

theorem SnapInv.dropGuard (hs : SnapInv pageSize s) (hi : s.guards i ≠ .out) :
    SnapInv pageSize ({ s with store := s.store.dropGuard }.setGuard i .out) := by
  obtain ⟨S, hS, hcard⟩ := hs.counted
  refine hs.setGuard ⟨S.erase i, fun j => ?_, ?_⟩ trivial fun v hv => by cases hv
  · by_cases hj : j = i
    · subst hj
      rw [Function.update_self]
      exact iff_of_false (Finset.notMem_erase j S) fun h => h rfl
    · rw [Function.update_of_ne hj, Finset.mem_erase, and_iff_right hj]
      exact hS j
  · rw [Finset.card_erase_of_mem ((hS i).2 hi), hcard]

/-- More fuel than the height of the tree changes nothing. -/
theorem getLoop_fuel {id : PageId} {nd : Node} {fuel : ℕ} {key : Key} (hfuel : h ≤ fuel)
    (hnd : Holds io id nd) (hs : NodeShape io h nd) :
    getLoop io key fuel (nd.toPage id) = getLoop io key h (nd.toPage id) := by
  induction h generalizing id nd fuel with
  | zero =>
    cases nd with
    | leaf es => rw [Node.toPage, getLoop_leaf, getLoop_leaf]
    | internal ks cs => exact hs.elim
  | succ h ih =>
    cases nd with
    | leaf es => exact hs.elim
    | internal ks cs =>
      obtain ⟨fuel, rfl⟩ := Nat.exists_eq_add_of_le' hfuel
      rw [Node.toPage, ← Nat.add_assoc, getLoop_internal, getLoop_internal]
      refine Option.bind_congr fun idx _ => Option.bind_congr fun c hc => ?_
      obtain ⟨ndc, hndc, hsc⟩ := shape_iff.1 (hs c (List.mem_of_getElem? hc))
      rw [hndc.decode_eq, Option.bind_some, Option.bind_some]
      exact ih (Nat.le_add_left h fuel) hndc hsc

theorem get_fuel {root : PageId} {fuel : ℕ} {key : Key} (hfuel : h ≤ fuel)
    (hs : Shape io h root) : Btree.get io fuel root key = Btree.get io h root key := by
  obtain ⟨nd, hnd, hsn⟩ := shape_iff.1 hs
  simp only [Btree.get, hnd.decode_eq, Option.bind_eq_bind, Option.bind_some]
  exact getLoop_fuel hfuel hnd hsn

/-- A guard that loads its root sees the version published last. -/
theorem SnapInv.loadRoot (hP : pageSize ≤ 65535) (hs : SnapInv pageSize s) {key : Key}
    (hi : s.guards i = .entered key) :
    SnapInv pageSize (s.setGuard i (.reading key s.store.root
      ⟨s.store.root, s.store.io, s.published, s.phase.inWindow⟩)) := by
  obtain ⟨h, hinv⟩ := hs.published.inv (Nat.lt_succ_of_le hP)
  have hread : ∀ p, s.published.Live p → s.store.io.readPage p = s.published.io.readPage p :=
    fun p hp => hs.flight.read_kept hinv (Or.inl hp)
  refine hs.setGuard (n := s.store.readers)
    (hs.counted_in (by rw [hi]; nofun) nofun) ⟨⟨hs.published, hs.root_eq.symm, hread⟩, h, ?_⟩
    fun v hv => ?_
  · rw [hs.root_eq]
    exact ⟨hinv.shape, fun p hp => hinv.live_iff.2 hp, (get_fuel hinv.height_le hinv.shape).symm⟩
  · obtain rfl := Option.some.inj hv
    exact ⟨⟨hread, fun _ p hp => Or.inl hp, fun hw => Or.inl hw⟩, fun hw => hw⟩

/-- **Reading a page** takes the lookup one level down in its version. -/
theorem ReaderOK.readPage {key : Key} {next : PageId} {v : View}
    (hr : ReaderOK pageSize (.reading key next v))
    (hread : ∀ p, v.version.Live p → io.readPage p = v.version.io.readPage p) :
    ReaderOK pageSize (.readPage io key next v) := by
  obtain ⟨hb, h, hs, hlive, hget⟩ := hr
  obtain ⟨nd, hnd, hsn⟩ := shape_iff.1 hs
  have hdec : Page.decode next (io.readPage next) = some (nd.toPage next) := by
    rw [hread next (hlive next (mem_treePages_self ..))]
    exact hnd.decode_eq
  simp only [Btree.get, hnd.decode_eq, Option.bind_eq_bind, Option.bind_some] at hget
  cases nd with
  | leaf es =>
    rw [Node.toPage, getLoop_leaf] at hget
    rw [Reader.readPage, hdec]
    exact ⟨hb, hget⟩
  | internal ks cs =>
    cases h with
    | zero => exact hsn.elim
    | succ h =>
      rw [Node.toPage, getLoop_internal, ← Option.bind_assoc] at hget
      simp only [Reader.readPage, hdec, Node.toPage]
      cases hc : (internalChildIndex (.ofKeys next ks cs) key).bind
          (InternalNode.ofKeys next ks cs).getChild with
      | none =>
        rw [hc] at hget
        exact ⟨hb, hget⟩
      | some c =>
        rw [hc, Option.bind_some] at hget
        obtain ⟨idx, -, hidx⟩ := Option.bind_eq_some_iff.1 hc
        have hmem : c ∈ cs := List.mem_of_getElem? hidx
        refine ⟨hb, h, hsn c hmem, fun p hp => hlive p ?_, hget⟩
        rw [treePages_eq hnd]
        exact List.mem_cons_of_mem _ (List.mem_flatMap.2 ⟨c, hmem, hp⟩)

theorem view_readPage (io : PageIo) (key : Key) (next : PageId) (v : View) :
    (Reader.readPage io key next v).view = some v := by
  rw [Reader.readPage]
  split
  · rfl
  · rfl
  · split <;> rfl

theorem SnapInv.readPage (hs : SnapInv pageSize s) {key : Key} {next : PageId} {v : View}
    (hi : s.guards i = .reading key next v) :
    SnapInv pageSize (s.setGuard i (.readPage s.store.io key next v)) := by
  have hvi : (s.guards i).view = some v := by rw [hi]; rfl
  have hview := view_readPage s.store.io key next v
  refine hs.setGuard (n := s.store.readers) (hs.counted_in (by rw [hi]; nofun) fun h => ?_)
    ((hi ▸ hs.reader i : ReaderOK pageSize (.reading key next v)).readPage
      (hs.view i v hvi).agree) fun v' hv' => ?_
  · rw [h] at hview
    cases hview
  · obtain rfl := Option.some.inj (hview.symm.trans hv')
    exact ⟨hs.view i v hvi, fun hw => hs.window hw i v hvi⟩

end Readers

/-! ## Every step -/

section Runs

variable [DecidableEq ι] {s s' : Concurrent ι}

/-- **Every calm step keeps the invariant.** -/
theorem SnapInv.step (hP : pageSize ≤ 65535) (hs : SnapInv pageSize s) {a : Action ι}
    (hcalm : Calm s a) (hstep : s.step a = some s') : SnapInv pageSize s' := by
  have hflight := hs.flight
  -- outside the quiet phases no view is stale
  have hguarded : s.phase.quiet = false → ∀ i v, (s.guards i).view = some v →
      v.window = false ∨ s.phase.inWindow = true :=
    fun hq i v hv => (hs.view i v hv).of_not_quiet hq
  cases a with
  | beginPut key val =>
    rw [Concurrent.step] at hstep
    split at hstep
    · exact hs.beginPut hP ‹_› hstep
    · cases hstep
  | flush =>
    rw [Concurrent.step] at hstep
    split at hstep
    · rename_i newRoot freed id bytes rest hphase
      obtain rfl := Option.some.inj hstep
      rw [hphase] at hflight
      obtain ⟨txn, done, hb, hfreed, hw, hio, hwr⟩ := hflight
      have hclean : ∀ i v, (s.guards i).view = some v → v.window = false := hcalm
      refine hs.writer_step hP rfl rfl rfl rfl ⟨txn, done ++ [(id, bytes)], hb, hfreed, ?_, ?_, hwr⟩
        (fun i v hv => Or.inl (hclean i v hv)) (fun i v hv hwin => ?_)
        fun h => absurd h Bool.false_ne_true
      · rw [hw, List.append_assoc, List.singleton_append]
      · rw [PageIo.writePages_append, ← hio]
        rfl
      · rw [hclean i v hv] at hwin
        cases hwin
    · cases hstep
  | fold =>
    rw [Concurrent.step] at hstep
    split at hstep
    · rename_i newRoot freed hphase
      obtain rfl := Option.some.inj hstep
      have hk := hguarded (by rw [hphase]; rfl)
      rw [hphase] at hflight
      obtain ⟨txn, done, hb, rfl, hw, hio, hwr⟩ := hflight
      rw [List.append_nil] at hw
      refine hs.writer_step hP rfl rfl rfl rfl ⟨txn, hb, hw ▸ hio, ?_⟩ hk
        (fun i v hv hwin => ?_)
        fun h => absurd h Bool.false_ne_true
      · rw [← hwr]
        rfl
      · rcases hk i v hv with hclean | hin
        · rw [hclean] at hwin
          cases hwin
        · rw [hphase] at hin
          cases hin
    · cases hstep
  | gate =>
    rw [Concurrent.step] at hstep
    split at hstep
    · rename_i newRoot hphase
      have hk := hguarded (by rw [hphase]; rfl)
      rw [hphase] at hflight
      obtain ⟨txn, hb, hio, hwr⟩ := hflight
      split_ifs at hstep with hzero
      · -- the gate is open: no reader is in
        obtain rfl := Option.some.inj hstep
        obtain ⟨S, hS, hcard⟩ := hs.counted
        rw [hzero, Finset.card_eq_zero] at hcard
        have hnone : ∀ i v, (s.guards i).view ≠ some v := fun i v hv => by
          have hout : ¬s.guards i ≠ .out := fun hne =>
            absurd ((hS i).2 hne) (hcard ▸ Finset.notMem_empty i)
          rw [not_not.1 hout] at hv
          cases hv
        exact hs.writer_step hP rfl rfl rfl rfl ⟨txn, hb, hio, hwr⟩ hk
          (fun i v hv => absurd hv (hnone i v)) fun _ i v hv => absurd hv (hnone i v)
      · refine hs.startPersist s false s.store.readers hP hb hio ?_ rfl
          (iff_of_false Bool.false_ne_true hzero) hk (fun h => absurd h Bool.false_ne_true)
          (fun _ i v hv => ?_) hstep
        · rw [hwr, WriterState.passGate, if_neg hzero]
        · refine (hk i v hv).resolve_right fun hin => ?_
          rw [hphase] at hin
          cases hin
    · cases hstep
  | promote =>
    rw [Concurrent.step] at hstep
    split at hstep
    · rename_i newRoot hphase
      have hk := hguarded (by rw [hphase]; rfl)
      rw [hphase] at hflight
      obtain ⟨txn, hb, hio, hwr⟩ := hflight
      refine hs.startPersist _ true 0 hP hb hio ?_ rfl (iff_of_true rfl rfl) hk
        (fun _ => by rw [hphase]; rfl) (fun h => absurd h.symm Bool.false_ne_true) hstep
      rw [WriterState.passGate, if_pos rfl, ← hwr]
      rfl
    · cases hstep
  | persist =>
    rw [Concurrent.step] at hstep
    split at hstep
    · rename_i newRoot promoted id bytes rest hphase
      obtain rfl := Option.some.inj hstep
      have hk := hguarded (by rw [hphase]; rfl)
      have hin : s.phase.inWindow = promoted := by rw [hphase]; rfl
      rw [hphase] at hflight
      obtain ⟨txn, readers, w, chain, header, done, hb, hprep, hgate, hdone, hio, hwr⟩ := hflight
      refine hs.writer_step hP rfl rfl rfl rfl ⟨txn, readers, w, chain, header,
        done ++ [(id, bytes)], hb, hprep, hgate, ?_, ?_, hwr⟩ hk (fun i v hv hwin => Or.inl ?_)
        fun hp => hs.window (hin.trans hp)
      · rw [hdone, List.append_assoc, List.singleton_append]
      · rw [PageIo.writePages_append, ← hio]
        rfl
      · rcases hk i v hv with hclean | hw
        · rw [hclean] at hwin
          cases hwin
        · exact hin.symm.trans hw
    · cases hstep
  | publish =>
    rw [Concurrent.step] at hstep
    split at hstep
    · obtain rfl := Option.some.inj hstep
      exact hs.publish hP ‹_›
    · cases hstep
  | enterRead i key =>
    rw [Concurrent.step] at hstep
    split at hstep
    · obtain rfl := Option.some.inj hstep
      exact hs.enterRead ‹_›
    · cases hstep
  | loadRoot i =>
    rw [Concurrent.step] at hstep
    split at hstep
    · obtain rfl := Option.some.inj hstep
      exact hs.loadRoot hP ‹_›
    · cases hstep
  | readPage i =>
    rw [Concurrent.step] at hstep
    split at hstep
    · obtain rfl := Option.some.inj hstep
      exact hs.readPage ‹_›
    · cases hstep
  | dropGuard i =>
    rw [Concurrent.step] at hstep
    split at hstep
    · rename_i hi
      obtain rfl := Option.some.inj hstep
      refine hs.dropGuard fun hout => ?_
      rw [hi] at hout
      cases hout
    · cases hstep

theorem SnapInv.run (hP : pageSize ≤ 65535) (hs : SnapInv pageSize s) {as : List (Action ι)}
    (hcalm : CalmRun s as) (hrun : s.run as = some s') : SnapInv pageSize s' := by
  induction as generalizing s with
  | nil =>
    obtain rfl := Option.some.inj hrun
    exact hs
  | cons a as ih =>
    obtain ⟨s₁, hstep, hrun⟩ := Option.bind_eq_some_iff.1 hrun
    exact ih (hs.step hP hcalm.1 hstep) (hcalm.2 s₁ hstep) hrun

/-- **Snapshot isolation in calm runs**: as long as no put writes a tree page while a guard is held
that loaded its root in the window of an earlier commit, every guard keeps its snapshot and every
lookup returns what its version has. -/
theorem snapshot_isolation (hP : pageSize ≤ 65535) (hst : Reachable pageSize st)
    (hreaders : st.readers = 0) {as : List (Action ι)}
    (hcalm : CalmRun (Concurrent.init st) as)
    (hrun : (Concurrent.init st).run as = some s) : Isolated pageSize s :=
  ((SnapInv.init hst hreaders).run hP hcalm hrun).isolated hP

end Runs

/-! ## Two runs -/

/-- One put on a store of 64-byte pages, with a reader that comes before it and leaves after it. -/
def readAcrossPut : List (Action Unit) :=
  [.enterRead () [1], .loadRoot (), .beginPut [1] [2], .flush, .fold, .gate, .persist, .persist,
    .publish, .readPage ()]

/-- The theorem on a reader that is in during a whole put. -/
theorem snapshot_isolation_session : ∃ st s, session 64 [([1], [1])] = some st ∧
    (Concurrent.init st).run readAcrossPut = some s ∧ Isolated 64 s := by
  have hrun : ((session 64 [([1], [1])]).bind fun st => ((Concurrent.init st).run
      readAcrossPut).map fun _ => (st.readers, decide (CalmRun (Concurrent.init st)
        readAcrossPut))) = some (0, true) := by decide +kernel
  obtain ⟨st, hst, hrun⟩ := Option.bind_eq_some_iff.1 hrun
  obtain ⟨s, hs, hrun⟩ := Option.map_eq_some_iff.1 hrun
  obtain ⟨hreaders, hcalm⟩ := Prod.mk.inj hrun
  exact ⟨st, s, hst, hs, snapshot_isolation (by decide) (reachable_of_session hst) hreaders
    (of_decide_eq_true hcalm) hs⟩

/-- Two puts, with a reader that comes after the gate of the first has opened, loads the old root,
and reads it after the first page write of the second. -/
def readInWindow : List (Action Unit) :=
  [.beginPut [1] [2], .flush, .fold, .gate, .promote, .enterRead () [1], .loadRoot (), .persist,
    .persist, .publish, .beginPut [2] [3], .flush, .readPage ()]

/-- **A stale guard is overwritten**: in a store of 64-byte pages that binds `[1]` to `[1]`, the
reader's root is reused by the second put, and its lookup of `[1]` returns `[2]`. -/
theorem stale_guard_overwritten : ∃ (st : Store) (s : Concurrent Unit), Reachable 64 st ∧
    st.readers = 0 ∧ (Concurrent.init st).run readInWindow = some s ∧ ¬Isolated 64 s := by
  have hrun : ((session 64 [([1], [1])]).bind fun st => ((Concurrent.init st).run
      readInWindow).bind fun s => (s.guards ()).outcome.map fun (key, result, view) =>
        (st.readers, decide (result = view.version.get key))) = some (0, false) := by
    decide +kernel
  obtain ⟨st, hst, hrun⟩ := Option.bind_eq_some_iff.1 hrun
  obtain ⟨s, hs, hrun⟩ := Option.bind_eq_some_iff.1 hrun
  obtain ⟨⟨key, result, view⟩, hout, hrun⟩ := Option.map_eq_some_iff.1 hrun
  obtain ⟨hreaders, hne⟩ := Prod.mk.inj hrun
  exact ⟨st, s, reachable_of_session hst, hreaders, hs, fun hiso => of_decide_eq_false hne
    (hiso.result () key result view (Reader.eq_of_outcome hout))⟩

end CowRaft.Btree
