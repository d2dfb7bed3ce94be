import CowRaft.Btree.Recovery

/-!
# Cuts in program order

The writes of a commit reach the backend one after another, and the process stops between two of
them. The pages of the free-list chain are rewritten in place, and up to the header they are the
chain of a tree that is not published: they list pages that the put has freed, but the old header
still reaches.

A cut is clean (`CleanCut`) if what it leaves of the old chain is the old chain. After a run whose
cuts were clean, the allocator of a store opened after one more cut is sound if and only if that cut
was clean, too (`crash_recovery_sound`); else it may give out a live page, say the root of the
tree (`crash_reuses_live_page`), or a page twice.

The contents survive every cut of such a run that can be opened at all (`Intact.recovered_get`). A
store is not opened again if a chain page was linked to a fresh page and the process stopped before
that page was written, with something left on it by an earlier crash (`crash_stops_reopening`); it
is after any other cut (`crash_atomicity`).
-/

namespace CowRaft.Btree

open Bytes HeapTree

variable {h n pageSize : ℕ} {io : PageIo} {st st' : Store} {key : Key} {val : Val}
  {ws : List (PageId × Bytes)}

/-! ## The pages of the chain -/

/-- What the pages of the chain hold, the spare ones behind the list included. -/
structure ChainPages (h : ℕ) (st : Store) : Prop where
  /-- The pages that the list needs hold the bytes that were written for it. -/
  encoded : ∀ i (hi : i < st.writer.freeListPageIds.length),
    i < st.writer.pagesNeeded st.io.pageSize → freeListEncode st.writer.freeListPageIds[i]
      (linkId st.writer.freeListPageIds (st.writer.pagesNeeded st.io.pageSize) (i + 1))
      (chunk st.writer.payload (WriterState.chainCap st.io.pageSize) i) st.io.pageSize =
        some (st.io.readPage st.writer.freeListPageIds[i])
  /-- Every page lists one that is live or reusable. -/
  lists : ∀ i (hi : i < st.writer.freeListPageIds.length), ∃ next p ids,
    freeListDecode st.writer.freeListPageIds[i] (st.io.readPage st.writer.freeListPageIds[i]) =
      some (next, p :: ids) ∧ p ∈ treePages st.io h st.root ++ st.writer.payload

theorem chunk_eq_cons {w : WriterState} {i : ℕ} (hi : i < w.pagesNeeded pageSize) :
    ∃ p ids, chunk w.payload (WriterState.chainCap pageSize) i = p :: ids ∧ p ∈ w.payload := by
  have hlt := (WriterState.pagesNeeded_spec i).1 hi
  have hchunk : chunk w.payload (WriterState.chainCap pageSize) i ≠ [] := by
    refine List.ne_nil_of_length_pos ?_
    have hcap := chainCap_pos pageSize
    rw [chunk, List.length_take, List.length_drop]
    omega
  obtain ⟨p, ids, heq⟩ := List.exists_cons_of_ne_nil hchunk
  have hmem : p ∈ chunk w.payload (WriterState.chainCap pageSize) i := heq ▸ List.mem_cons_self
  exact ⟨p, ids, heq, List.mem_of_mem_drop (List.mem_of_mem_take hmem)⟩

namespace ChainPages

theorem inMemory (hst : Store.inMemory pageSize = some (.ok st)) : ChainPages 0 st := by
  obtain ⟨root, bytes, -, -, rfl⟩ := inMemory_eq hst
  exact ⟨fun i hi => absurd hi (Nat.not_lt_zero i), fun i hi => absurd hi (Nat.not_lt_zero i)⟩

/-- A page that is live or reusable stays so in a put. -/
theorem mem_of_put {newRoot : PageId} {txn : WriteTxn} {w : WriterState}
    {chain : List (PageId × Bytes)} {header : Bytes} {h' : ℕ} (hinv : Inv h st)
    (hstep : PutStep h st newRoot txn w chain header)
    (hperm : (owned io h' newRoot w).Perm (owned st.io h st.root st.writer ++
      List.range' st.writer.nextPageId (w.nextPageId - st.writer.nextPageId))) {p : PageId}
    (hp : p ∈ treePages st.io h st.root ++ st.writer.payload) :
    p ∈ treePages io h' newRoot ++ w.payload := by
  have howned : p ∈ owned st.io h st.root st.writer := by
    rw [owned, ← List.append_assoc]
    exact List.mem_append_left _ hp
  have hnew := hperm.symm.subset (List.mem_append_left _ howned)
  rw [owned, ← List.append_assoc] at hnew
  refine (List.mem_append.1 hnew).resolve_right fun hchain => ?_
  rw [hstep.chain_grows] at hchain
  rcases List.mem_append.1 hchain with hold | hfresh
  · have hnodup := hinv.nodup
    rw [owned, ← List.append_assoc] at hnodup
    exact List.disjoint_of_nodup_append hnodup hp hold
  · have hge := hstep.alloc_next_le.trans (List.mem_range'_1.1 hfresh).1
    exact absurd (hinv.bounds p howned).2 (not_lt.2 hge)

theorem put (hc : ChainPages h st) (hinv : Inv h st) (hput : st.put key val = some (.ok st')) :
    ∃ h', Inv h' st' ∧ ChainPages h' st' := by
  rcases put_cases hinv hput with ⟨e, -, he⟩ |
    ⟨newRoot, txn, w, chain, header, -, hbuild, hprep, -, hst⟩
  · cases he
  obtain rfl := Except.ok.inj hst
  have hstep := buildPut_step hinv hbuild hprep
  obtain ⟨h', hinv', hperm⟩ := hstep.inv hinv st.readers
  have hsize : (st.io.writePages (txn.pageWrites chain header)).pageSize = st.io.pageSize :=
    PageIo.pageSize_writePages _ _
  refine ⟨h', hinv', fun i hi hlt => ?_, fun i hi => ?_⟩
  · change i < w.freeListPageIds.length at hi
    change i < w.pagesNeeded _ at hlt
    rw [hsize] at hlt
    obtain ⟨bytes, hget, henc⟩ := hstep.getElem?_writes hi hlt
    have hread := PageIo.readPage_writePages_of_mem st.io hstep.nodup_writes
      (List.mem_of_getElem? hget)
    simp only [hsize, hread]
    exact henc
  · change i < w.freeListPageIds.length at hi
    have hchain := hstep.read_chain (txn.pageWrites chain header).length st.io
      hinv.pageSize_lt hi
    rw [List.take_length] at hchain
    rcases hchain with ⟨⟨hlt, -⟩, hdec⟩ | ⟨hnot, hread⟩
    · obtain ⟨p, ids, hchunk, hp⟩ := chunk_eq_cons hlt
      exact ⟨_, p, ids, hchunk ▸ hdec, List.mem_append_right _ hp⟩
    · -- a spare page, which lists what it listed before
      have hlen := hstep.length_chain
      have hwrites := hstep.length_writes
      have hold : i < st.writer.freeListPageIds.length := by omega
      obtain ⟨next, p, ids, hdec, hp⟩ := hc.lists i hold
      refine ⟨next, p, ids, ?_, mem_of_put hinv hstep hperm hp⟩
      change freeListDecode w.freeListPageIds[i] (PageIo.readPage _ w.freeListPageIds[i]) = _
      rw [hread, hstep.getElem_old hold hi, hdec]

theorem reopen (hc : ChainPages h st) (hinv : Inv h st)
    (hst : Store.openOrCreate st.io = some (.ok st')) : ChainPages h st' := by
  rw [hinv.openOrCreate_eq rfl rfl fun _ _ => rfl, Option.some.injEq, Except.ok.injEq] at hst
  subst hst
  have hle := hinv.persisted.needed_le
  refine ⟨fun i hi hlt => ?_, fun i hi => ?_⟩
  · rw [pagesNeeded_reopened] at hlt ⊢
    rw [payload_reopened, linkId_take hle]
    simp only [List.getElem_take]
    exact hc.encoded i (lt_of_lt_of_le hlt hle) hlt
  · rw [payload_reopened]
    simp only [List.getElem_take]
    exact hc.lists i (lt_of_lt_of_le hi (List.length_take_le' _ _))

end ChainPages

/-! ## Clean cuts -/

/-- The cut leaves the chain that the old header names as it was: the header is written; or no
chain page is; or there was no chain; or the chain pages that are written list free pages that the
put has left, or pending ones when there are no free pages, and the old chain goes on behind them.
The `n - t` chain pages among the first `n` writes list `listed` pages. -/
def CleanCut (st : Store) (key : Key) (val : Val) (ws : List (PageId × Bytes)) (n : ℕ) : Prop :=
  let t := st.newPages key val
  let listed := (n - t) * WriterState.chainCap st.io.pageSize
  ws.length ≤ n ∨ n ≤ t ∨ st.writer.payload = [] ∨ listed + t ≤ st.writer.freeList.length ∨
    st.writer.freeList = [] ∧ listed < st.writer.pendingFree.length

instance : Decidable (CleanCut st key val ws n) :=
  inferInstanceAs (Decidable (_ ∨ _ ∨ _ ∨ _ ∨ _ ∧ _))

theorem Alike.newPages_eq (ha : Alike st st') (hinv : Inv h st)
    (hws : st'.putWrites key val = some ws) : st'.newPages key val = st.newPages key val := by
  obtain ⟨⟨newRoot, txn⟩, hbuild, -⟩ := Option.bind_eq_some_iff.1 hws
  rw [Store.newPages, Store.newPages, hbuild, (ha.buildPut_back hinv hbuild).1]
  rfl

theorem Alike.cleanCut_iff (ha : Alike st st') (hinv : Inv h st)
    (hws : st'.putWrites key val = some ws) :
    CleanCut st' key val ws n ↔ CleanCut st key val ws n := by
  rw [CleanCut, CleanCut, ha.newPages_eq hinv hws, ha.writer_eq, ha.pageSize_eq]

section PutStep

variable {newRoot : PageId} {txn : WriteTxn} {w : WriterState} {chain : List (PageId × Bytes)}
  {header : Bytes}

/-- The list that the put writes starts as the old one does. -/
theorem PutStep.take_payload (hstep : PutStep h st newRoot txn w chain header) {m : ℕ}
    (hm : m + txn.writes.length ≤ st.writer.freeList.length ∨
      st.writer.freeList = [] ∧ m < st.writer.pendingFree.length) :
    m < st.writer.payload.length ∧ m < w.payload.length ∧
      w.payload.take m = st.writer.payload.take m := by
  obtain ⟨F, hF, -, hpay⟩ := hstep.payload_eq
  have hpos := hstep.writes_pos
  have hFpos := List.length_pos_iff.2 hF
  rw [hpay, WriterState.payload]
  simp only [List.length_append, List.length_take]
  rcases hm with hfree | ⟨hnil, hpend⟩
  · refine ⟨by omega, by omega, ?_⟩
    rw [List.take_append_of_le_length (by rw [List.length_take]; omega), List.take_take,
      List.take_append_of_le_length (by omega), Nat.min_eq_left (by omega)]
  · rw [hnil, List.length_nil]
    refine ⟨by omega, by omega, ?_⟩
    rw [List.take_nil, List.nil_append, List.nil_append, List.take_append_of_le_length hpend.le]

theorem chunk_congr {l l' : List PageId} {cap i m : ℕ} (h : l.take (m * cap) = l'.take (m * cap))
    (hi : i < m) : chunk l cap i = chunk l' cap i := by
  have hle : i * cap + cap ≤ m * cap := by
    rw [← Nat.succ_mul]
    exact Nat.mul_le_mul_right _ hi
  have hchunk : ∀ l : List PageId, chunk l cap i = ((l.take (m * cap)).drop (i * cap)).take cap :=
    fun l => by
      rw [chunk, List.drop_take, List.take_take, Nat.min_eq_left (by omega)]
  rw [hchunk l, h, ← hchunk]

end PutStep

/-- **A clean cut** changes no page of the chain that the header names. -/
theorem Alike.torn_of_cleanCut (ha : Alike st st') (hinv : Inv h st) (hc : ChainPages h st)
    {u : Store} (hput : st.put key val = some (.ok u)) (hws : st.putWrites key val = some ws)
    (hn : n < ws.length) (hcut : CleanCut st key val ws n) : Torn st' ws (ws.take n) := by
  obtain ⟨newRoot, txn, w, chain, header, hstep, rfl, hpages, -⟩ := exists_putStep hinv hput hws
  refine ⟨(List.take_sublist _ _).subperm, hstep.header_notMem hn, fun page hpage hmem => ?_⟩
  rw [ha.writer_eq, ha.pageSize_eq] at hmem
  obtain ⟨i, hi, hid⟩ := List.mem_take_iff_getElem.1 hmem
  obtain ⟨hneeded, hold⟩ := lt_min_iff.1 hi
  have hlen := hstep.length_chain
  have hi' : i < w.freeListPageIds.length := by omega
  have hid' := (hstep.getElem_old hold hi').trans hid
  obtain ⟨hlt, htake⟩ := (hstep.mem_take_iff (n := n) hi').1 (by
    rw [hid']
    exact List.mem_map_of_mem hpage)
  obtain ⟨bytes, hbytes, henc⟩ := hstep.chain_mem_take hi' hlt htake
  have hsame : page.2 = bytes := by
    have hread : (st.io.writePages ((txn.pageWrites chain header).take n)).readPage page.1 =
        page.2 := hstep.read_written hpage
    rw [← hread, ← hid', hstep.read_written hbytes]
  rw [hsame, ← hid, ha.chain _ (List.getElem_mem hold)]
  -- what is written to the page is what it held
  refine Option.some.inj (henc.symm.trans (Eq.trans ?_ (hc.encoded i hold hneeded)))
  rcases hcut with hcut | hcut | hcut | hcut
  · omega
  · omega
  · rw [WriterState.pagesNeeded_eq_zero hcut] at hneeded
    exact absurd hneeded (Nat.not_lt_zero i)
  · rw [hpages] at hcut
    obtain ⟨hlisted, hlisted', htake'⟩ := hstep.take_payload hcut
    have hj := (WriterState.pagesNeeded_spec _).2 hlisted
    have hj' := (WriterState.pagesNeeded_spec _).2 hlisted'
    have hnext : linkId w.freeListPageIds (w.pagesNeeded st.io.pageSize) (i + 1) =
        linkId st.writer.freeListPageIds (st.writer.pagesNeeded st.io.pageSize) (i + 1) := by
      have hle := hinv.persisted.needed_le
      rw [linkId_of_lt (by omega) hstep.needed_le, linkId_of_lt (by omega) hle,
        hstep.getElem_old (by omega)]
    rw [hnext, hstep.getElem_old hold, chunk_congr htake' (by omega)]

/-! ## Runs -/

/-- The runs of a store that is closed and opened, ends between operations, and stops in the middle
of puts, each time at a clean cut. -/
inductive CutRun (pageSize : ℕ) : Store → Prop
  | create {st : Store} (hst : Store.inMemory pageSize = some (.ok st)) : CutRun pageSize st
  | step {st st' : Store} (hrun : CutRun pageSize st) (hstep : Step st st') : CutRun pageSize st'
  | restart {st st' : Store} (hrun : CutRun pageSize st)
      (hopen : Store.openOrCreate st.io = some (.ok st')) : CutRun pageSize st'
  | crash {st st' rec : Store} {key : Key} {val : Val} {ws : List (PageId × Bytes)} {n : ℕ}
      (hrun : CutRun pageSize st) (hput : st.put key val = some (.ok st'))
      (hws : st.putWrites key val = some ws) (hcut : CleanCut st key val ws n)
      (hrec : Store.openOrCreate (crashed st ws n) = some (.ok rec)) : CutRun pageSize rec

/-- The runs without crashes are among these. -/
theorem Reachable.cutRun (hreach : Reachable pageSize st) : CutRun pageSize st := by
  obtain ⟨st₀, hst₀, hrun⟩ := hreach
  induction hrun with
  | refl => exact .create hst₀
  | tail _ hstep ih => exact ih.step hstep

/-- The store agrees with one whose backend no crash has touched. -/
structure Intact (st : Store) : Prop where
  exists_alike : ∃ h st₁, Inv h st₁ ∧ ChainPages h st₁ ∧ Alike st₁ st

/-- A put that takes `st` to `st'` with the writes `ws`, and the same put on a store that `st`
agrees with. -/
structure PutAlike (h : ℕ) (st₁ st st' : Store) (key : Key) (val : Val)
    (ws : List (PageId × Bytes)) : Prop where
  inv : Inv h st₁
  chainPages : ChainPages h st₁
  alike : Alike st₁ st
  accepted : ∃ u, st₁.put key val = some (.ok u)
  putWrites : st₁.putWrites key val = some ws
  io_eq : st'.io = st.io.writePages ws
  intact : Intact st'

theorem PutAlike.putStep {st₁ : Store} (hp : PutAlike h st₁ st st' key val ws) :
    ∃ newRoot txn w chain header, PutStep h st₁ newRoot txn w chain header ∧
      ws = txn.pageWrites chain header ∧ st₁.newPages key val = txn.writes.length := by
  obtain ⟨u, hu⟩ := hp.accepted
  obtain ⟨newRoot, txn, w, chain, header, hstep, hws, hpages, -⟩ :=
    exists_putStep hp.inv hu hp.putWrites
  exact ⟨newRoot, txn, w, chain, header, hstep, hws, hpages⟩

namespace Intact

theorem withReaders (hi : Intact st) (readers : ℕ) : Intact { st with readers } := by
  obtain ⟨h, st₁, hinv, hc, ha⟩ := hi.exists_alike
  exact ⟨h, { st₁ with readers }, ⟨hinv.1, hinv.2, hinv.3, hinv.4, hinv.5, hinv.6, hinv.7⟩,
    ⟨hc.1, hc.2⟩, ha.withReaders readers⟩

theorem reopen (hi : Intact st) : ∃ rec, Store.openOrCreate st.io = some (.ok rec) ∧
    Intact rec ∧ ∀ k, rec.get k = st.get k := by
  obtain ⟨h, st₁, hinv, hc, ha⟩ := hi.exists_alike
  obtain ⟨rec', rec, hopen', hio, hroot, hopen, -, halike⟩ := hinv.open_alike ha.pageSize_eq
    ha.header ha.tree fun p hp => ha.chain p (List.mem_of_mem_take hp)
  have hinv' := hinv.reopen hopen'
  refine ⟨rec, hopen, ⟨h, rec', hinv', hc.reopen hinv hopen', halike⟩, fun k => ?_⟩
  rw [halike.get hinv', ha.get hinv]
  rw [hinv.openOrCreate_eq rfl rfl fun _ _ => rfl, Option.some.injEq, Except.ok.injEq] at hopen'
  rw [← hopen']
  rfl

theorem exists_put (hi : Intact st) (hput : st.put key val = some (.ok st')) :
    ∃ h st₁ ws, st.putWrites key val = some ws ∧ PutAlike h st₁ st st' key val ws := by
  obtain ⟨h, st₁, hinv, hc, ha⟩ := hi.exists_alike
  obtain ⟨u, hu⟩ := ha.put_accepted hinv hput
  obtain ⟨ws, u', hws, hws', hput', hio, halike⟩ := ha.put hinv hu
  obtain rfl : u' = st' := by simpa [hput'] using hput
  obtain ⟨h', hinv', hc'⟩ := hc.put hinv hu
  exact ⟨h, st₁, ws, hws', hinv, hc, ha, ⟨u, hu⟩, hws, by rw [hio], h', u, hinv', hc', halike⟩

theorem putAlike (hi : Intact st) (hput : st.put key val = some (.ok st'))
    (hws : st.putWrites key val = some ws) : ∃ h st₁, PutAlike h st₁ st st' key val ws := by
  obtain ⟨h, st₁, ws', hws', hp⟩ := hi.exists_put hput
  obtain rfl := Option.some.inj (hws'.symm.trans hws)
  exact ⟨h, st₁, hp⟩

theorem step (hi : Intact st) (hstep : Step st st') : Intact st' := by
  cases hstep with
  | accepted hput =>
    obtain ⟨h, st₁, ws, -, hp⟩ := hi.exists_put hput
    exact hp.intact
  | rejected _ => exact hi
  | enterRead => exact hi.withReaders _
  | dropGuard _ => exact hi.withReaders _
  | reopen _ hopen =>
    obtain ⟨rec, hopen', hi', -⟩ := hi.reopen
    obtain rfl : rec = st' := by simpa [hopen'] using hopen
    exact hi'

/-- **A clean cut** is opened as an intact store. -/
theorem cut (hi : Intact st) (hput : st.put key val = some (.ok st'))
    (hws : st.putWrites key val = some ws) (hcut : CleanCut st key val ws n) :
    ∃ rec, Store.openOrCreate (crashed st ws n) = some (.ok rec) ∧ Intact rec := by
  obtain ⟨h, st₁, hp⟩ := hi.putAlike hput hws
  by_cases hn : n < ws.length
  · obtain ⟨u, hu⟩ := hp.accepted
    have htorn := hp.alike.torn_of_cleanCut hp.inv hp.chainPages hu hp.putWrites hn
      ((hp.alike.cleanCut_iff hp.inv hws).1 hcut)
    obtain ⟨rec', rec, hopen', -, -, hopen, -, halike⟩ :=
      hp.alike.torn hp.inv hu hp.putWrites htorn
    exact ⟨rec, hopen, h, rec', hp.inv.reopen hopen', hp.chainPages.reopen hp.inv hopen', halike⟩
  · obtain ⟨rec, hopen, hrec, -⟩ := hp.intact.reopen
    rw [hp.io_eq] at hopen
    rw [crashed, List.take_of_length_le (not_lt.1 hn)]
    exact ⟨rec, hopen, hrec⟩

end Intact

/-- **Every run with clean cuts** leaves an intact store. -/
theorem CutRun.intact (hP : pageSize < 65536) (hrun : CutRun pageSize st) : Intact st := by
  induction hrun with
  | create hst => exact ⟨0, _, (inMemory_spec hP hst).1, .inMemory hst, .refl _⟩
  | step _ hstep ih => exact ih.step hstep
  | restart _ hopen ih =>
    obtain ⟨rec, hopen', hi, -⟩ := ih.reopen
    rw [hopen', Option.some.injEq, Except.ok.injEq] at hopen
    exact hopen ▸ hi
  | crash _ hput hws hcut hrec ih =>
    obtain ⟨rec, hopen, hi⟩ := ih.cut hput hws hcut
    rw [hopen, Option.some.injEq, Except.ok.injEq] at hrec
    exact hrec ▸ hi

/-! ## Sessions with cuts -/

/-- A step of a session; `cut` stops a put behind its first `n` writes and opens the store again. -/
inductive Act
  | put (key : Key) (val : Val)
  | enterRead
  | cut (key : Key) (val : Val) (n : ℕ)

def Store.act (st : Store) : Act → Option Store
  | .put key val => succeeded (st.put key val)
  | .enterRead => some st.enterRead
  | .cut key val n =>
    (succeeded (st.put key val)).bind fun _ => (st.putWrites key val).bind fun ws =>
      if CleanCut st key val ws n then succeeded (Store.openOrCreate (crashed st ws n)) else none

/-- A fresh store after some steps. -/
def cutSession (pageSize : ℕ) (acts : List Act) : Option Store :=
  (succeeded (Store.inMemory pageSize)).bind fun st => acts.foldlM Store.act st

theorem CutRun.act {a : Act} (hrun : CutRun pageSize st) (ha : st.act a = some st') :
    CutRun pageSize st' := by
  cases a with
  | put key val => exact hrun.step (.accepted (succeeded_eq_some ha))
  | enterRead => exact Option.some.inj ha ▸ hrun.step (.enterRead st)
  | cut key val n =>
    obtain ⟨u, hput, ha⟩ := Option.bind_eq_some_iff.1 ha
    obtain ⟨ws, hws, ha⟩ := Option.bind_eq_some_iff.1 ha
    split_ifs at ha with hcut
    exact hrun.crash (succeeded_eq_some hput) hws hcut (succeeded_eq_some ha)

theorem cutRun_of_cutSession {acts : List Act} (hst : cutSession pageSize acts = some st) :
    CutRun pageSize st := by
  obtain ⟨st₀, hst₀, hacts⟩ := Option.bind_eq_some_iff.1 hst
  have hrun := CutRun.create (succeeded_eq_some hst₀)
  clear hst hst₀
  induction acts generalizing st₀ with
  | nil => exact Option.some.inj hacts ▸ hrun
  | cons a acts ih =>
    obtain ⟨st₁, ha, hacts⟩ := Option.bind_eq_some_iff.1 hacts
    exact ih st₁ hacts (hrun.act ha)

/-! ## A cut before the header -/

section Cut

variable {newRoot : PageId} {txn : WriteTxn} {w : WriterState} {chain : List (PageId × Bytes)}
  {header : Bytes}

theorem PutStep.crashed_tree (hstep : PutStep h st newRoot txn w chain header) (hinv : Inv h st)
    (ha : Alike st st') :
    ∀ p ∈ treePages st.io h st.root,
      (crashed st' (txn.pageWrites chain header) n).readPage p = st.io.readPage p :=
  fun p hp => (hstep.read_tree hinv hp).trans (ha.treePages hinv p hp)

/-- The old tree is still reached from the old root. -/
theorem PutStep.crashed_live (hstep : PutStep h st newRoot txn w chain header) (hinv : Inv h st)
    (ha : Alike st st') {p : PageId} (hp : p ∈ treePages st.io h st.root) :
    Reaches (children (crashed st' (txn.pageWrites chain header) n)) st.root p := by
  have hread := hstep.crashed_tree (n := n) hinv ha
  have hsize : (crashed st' (txn.pageWrites chain header) n).pageSize = st.io.pageSize :=
    (PageIo.pageSize_writePages _ _).trans ha.pageSize_eq
  rw [← (hinv.shape.congr hsize hread).mem_treePages_iff, treePages_congr hread]
  exact hp

/-- **What is recovered before the header is written**: the old root and mark, with the list that
the walk from the head of the old chain collects. -/
theorem PutStep.openOrCreate_crashed_iff (hstep : PutStep h st newRoot txn w chain header)
    (hinv : Inv h st) (ha : Alike st st')
    (hn : n < (txn.pageWrites chain header).length) {rec : Store} :
    Store.openOrCreate (crashed st' (txn.pageWrites chain header) n) = some (.ok rec) ↔
      ∃ free ids, loadFreeListChain (crashed st' (txn.pageWrites chain header) n)
        (st.writer.nextPageId + 1)
        (linkId st.writer.freeListPageIds (st.writer.pagesNeeded st.io.pageSize) 0) =
          some (free, ids) ∧
        rec = ⟨crashed st' (txn.pageWrites chain header) n, st.root, 0,
          ⟨st.writer.nextPageId, free, [], ids⟩⟩ := by
  have hheader := hinv.persisted.header
  rw [← ha.header, ← PageIo.readPage_writePages_of_notMem st'.io (hstep.header_notMem hn)]
    at hheader
  exact openOrCreate_iff_of_header hheader
    (ha.pageSize_eq.symm.trans (PageIo.pageSize_writePages _ _).symm)

end Cut

/-! ## Contents -/

/-- **What is recovered is right**: it answers as before the put if the header was not written, and
as after it if it was. -/
theorem Intact.recovered_get (hi : Intact st) (hput : st.put key val = some (.ok st'))
    (hws : st.putWrites key val = some ws) {rec : Store}
    (hrec : Store.openOrCreate (crashed st ws n) = some (.ok rec)) (k : Key) :
    rec.get k = if n < ws.length then st.get k else st'.get k := by
  obtain ⟨h, st₁, hp⟩ := hi.putAlike hput hws
  by_cases hn : n < ws.length
  · obtain ⟨newRoot, txn, w, chain, header, hstep, rfl, -⟩ := hp.putStep
    obtain ⟨free, ids, -, rfl⟩ := (hstep.openOrCreate_crashed_iff hp.inv hp.alike hn).1 hrec
    rw [if_pos hn, hp.alike.get hp.inv]
    exact get_congr hp.inv.shape (hstep.crashed_tree hp.inv hp.alike)
  · obtain ⟨rec', hopen, -, hget⟩ := hp.intact.reopen
    rw [crashed, List.take_of_length_le (not_lt.1 hn), ← hp.io_eq, hopen, Option.some.injEq,
      Except.ok.injEq] at hrec
    rw [if_neg hn, ← hrec, hget]

/-- The first write that the cut loses goes to a page below the mark, or to one that reads as
zeros, as every page beyond the mark does that no crash has left anything on. -/
def BlankLoss (st : Store) (ws : List (PageId × Bytes)) (n : ℕ) : Prop :=
  ∀ w ∈ ws[n]?, w.1 < st.writer.nextPageId ∨
    st.io.readPage w.1 = List.replicate st.io.pageSize 0

/-- No cut after a run without crashes finds anything there. -/
theorem Reachable.blankLoss (hP : pageSize < 65536) (hreach : Reachable pageSize st)
    (ws : List (PageId × Bytes)) (n : ℕ) : BlankLoss st ws n := by
  obtain ⟨h, hinv⟩ := hreach.inv hP
  intro w _
  refine (lt_or_ge w.1 st.writer.nextPageId).imp_right fun hge => ?_
  rw [PageIo.readPage, hinv.unwritten _ hge, Option.getD_none]

/-- **The walk along a chain that is cut off ends**, if a link to a fresh page finds zeros. -/
theorem Intact.opens (hi : Intact st) (hput : st.put key val = some (.ok st'))
    (hws : st.putWrites key val = some ws)
    (hcut : CleanCut st key val ws n ∨ BlankLoss st ws n) :
    ∃ rec, Store.openOrCreate (crashed st ws n) = some (.ok rec) := by
  by_cases hclean : CleanCut st key val ws n
  · obtain ⟨rec, hopen, -⟩ := hi.cut hput hws hclean
    exact ⟨rec, hopen⟩
  have hblank := hcut.resolve_left hclean
  obtain ⟨h, st₁, hp⟩ := hi.putAlike hput hws
  have hinv := hp.inv
  have ha := hp.alike
  rw [ha.cleanCut_iff hinv hws, CleanCut, not_or, not_or] at hclean
  obtain ⟨hn, ht, -⟩ := hclean
  obtain ⟨newRoot, txn, w, chain, header, hstep, rfl, hpages⟩ := hp.putStep
  rw [hpages] at ht
  have hids := hstep.chain_grows
  have hlen := hstep.length_chain
  -- the old chain, and what is written of the new one up to the lost page
  have hlinked := hstep.linked_take (n := n) hinv
    (m := max st₁.writer.freeListPageIds.length (n - txn.writes.length + 1)) ha.chain
    (le_max_left _ _) (Or.inl (by omega)) fun i hi hge hlt hlost => by
      obtain ⟨bytes, hget, -⟩ := hstep.getElem?_writes hi (by omega)
      rw [show txn.writes.length + i = n by omega] at hget
      have hfresh := hstep.le_getElem_new hge hi
      rcases hblank _ hget with hold | hzero
      · rw [ha.writer_eq] at hold
        exact absurd hold (not_lt.2 hfresh)
      · rw [hzero]
        refine freeListDecode_zeros ?_ _
        have := hinv.le_pageSize
        rw [FREE_LIST_HEADER, ha.pageSize_eq]
        omega
  have hhead : linkId st₁.writer.freeListPageIds (st₁.writer.pagesNeeded st₁.io.pageSize) 0 = 0 ∨
      (w.freeListPageIds.take (max st₁.writer.freeListPageIds.length
        (n - txn.writes.length + 1)))[0]? = some
          (linkId st₁.writer.freeListPageIds (st₁.writer.pagesNeeded st₁.io.pageSize) 0) := by
    refine (PutStep.linkId_spec hinv.persisted.needed_le).imp_right fun hget => ?_
    obtain ⟨hlt, -⟩ := List.getElem?_eq_some_iff.1 hget
    rw [List.getElem?_take_of_lt (by omega), hids, List.getElem?_append_left hlt, hget]
  have hfuel : (w.freeListPageIds.take (max st₁.writer.freeListPageIds.length
      (n - txn.writes.length + 1))).length ≤ st₁.writer.nextPageId + 1 := by
    have hold := hinv.chain_length_le
    have hnew := hstep.needed_le_next hinv
    rw [List.length_take]
    omega
  obtain ⟨⟨free, ids⟩, hload⟩ := loadFreeListChain_isSome hlinked hhead hfuel
  exact ⟨_, (hstep.openOrCreate_crashed_iff hinv ha (not_le.1 hn)).2 ⟨free, ids, hload, rfl⟩⟩

/-- **Crash atomicity**, after any run whose crashes were clean: a put that is cut off has not
happened, and one whose header is written has, as long as the cut is clean or does not leave a link
to a fresh page that an earlier crash has left something on. -/
theorem crash_atomicity (hP : pageSize ≤ 65535) (hrun : CutRun pageSize st)
    (hput : st.put key val = some (.ok st')) (hws : st.putWrites key val = some ws)
    (hcut : CleanCut st key val ws n ∨ BlankLoss st ws n) :
    ∃ rec, Store.openOrCreate (crashed st ws n) = some (.ok rec) ∧
      ∀ k, rec.get k = if n < ws.length then st.get k else st'.get k := by
  have hi := hrun.intact (Nat.lt_succ_of_le hP)
  obtain ⟨rec, hopen⟩ := hi.opens hput hws hcut
  exact ⟨rec, hopen, hi.recovered_get hput hws hopen⟩

/-- A first crash, which is clean, leaves a leaf on the page 7, beyond the mark; then overwrites
under a read guard fill the only page of the chain. -/
def staleLeaf : List Act :=
  [.put [0] [1, 1, 1, 1], .put [1] [1, 1, 1, 1], .put [2] [1, 1, 1, 1], .put [3] [1, 1, 1, 1],
    .enterRead, .put [0] [1, 1, 1, 1], .put [0] [1, 1, 1, 1], .put [0] [1, 1, 1, 1],
    .cut [4] [1, 1, 1, 1] 3, .enterRead, .put [0] [1, 1, 1, 1], .put [0] [1, 1, 1, 1],
    .put [0] [1, 1, 1, 1]]

/-- **A store that is not opened again**: the next put writes the pages 6, 3, 7 and 0. Cut behind
page 3, it leaves a link to page 7, whose leaf is decoded as a page of the chain. -/
theorem crash_stops_reopening : ∃ st st' ws, CutRun 49 st ∧
    st.put [0] [1, 1, 1, 1] = some (.ok st') ∧ st.putWrites [0] [1, 1, 1, 1] = some ws ∧
    2 < ws.length ∧ Store.openOrCreate (crashed st ws 2) = none := by
  have hplay : ((cutSession 49 staleLeaf).bind fun st =>
      (succeeded (st.put [0] [1, 1, 1, 1])).bind fun _ => (st.putWrites [0] [1, 1, 1, 1]).map
        fun ws => (ws.length, (Store.openOrCreate (crashed st ws 2)).isNone)) =
          some (4, true) := by
    decide +kernel
  obtain ⟨st, hst, hplay⟩ := Option.bind_eq_some_iff.1 hplay
  obtain ⟨st', hst', hplay⟩ := Option.bind_eq_some_iff.1 hplay
  obtain ⟨ws, hws, hplay⟩ := Option.map_eq_some_iff.1 hplay
  obtain ⟨hlen, hnone⟩ := Prod.mk.inj hplay
  exact ⟨st, st', ws, cutRun_of_cutSession hst, succeeded_eq_some hst', hws, by omega,
    Option.isNone_iff_eq_none.1 hnone⟩

/-- The same put, cut behind page 7: the first write that is lost is that of the header. -/
theorem crash_atomicity_session : ∃ st st' ws rec, cutSession 49 staleLeaf = some st ∧
    st.put [0] [1, 1, 1, 1] = some (.ok st') ∧ st.putWrites [0] [1, 1, 1, 1] = some ws ∧
    Store.openOrCreate (crashed st ws 3) = some (.ok rec) ∧
      ∀ k, rec.get k = if 3 < ws.length then st.get k else st'.get k := by
  have hplay : ((cutSession 49 staleLeaf).bind fun st =>
      (succeeded (st.put [0] [1, 1, 1, 1])).bind fun _ => (st.putWrites [0] [1, 1, 1, 1]).map
        fun ws => (st.writer.nextPageId, ws[3]?.map Prod.fst)) = some (6, some 0) := by
    decide +kernel
  obtain ⟨st, hst, hplay⟩ := Option.bind_eq_some_iff.1 hplay
  obtain ⟨st', hst', hplay⟩ := Option.bind_eq_some_iff.1 hplay
  obtain ⟨ws, hws, hplay⟩ := Option.map_eq_some_iff.1 hplay
  obtain ⟨hmark, hlost⟩ := Prod.mk.inj hplay
  have hblank : BlankLoss st ws 3 := fun w hw => by
    rw [Option.mem_def.1 hw] at hlost
    rw [hmark, Option.some.inj hlost]
    exact Or.inl (by decide)
  obtain ⟨rec, hopen, hget⟩ := crash_atomicity (by decide) (cutRun_of_cutSession hst)
    (succeeded_eq_some hst') hws (Or.inr hblank)
  exact ⟨st, st', ws, rec, hst, succeeded_eq_some hst', hws, hopen, hget⟩

/-! ## The allocator -/

/-- The free list, the chain and the ids from the mark on are disjoint from the live pages and from
each other, neither list holds a page twice, and no put writes a live page. -/
structure AllocatorSound (st : Store) : Prop where
  free_nodup : st.writer.freeList.Nodup
  chain_nodup : st.writer.freeListPageIds.Nodup
  free_not_live : ∀ p ∈ st.writer.freeList, ¬st.Live p
  chain_not_live : ∀ p ∈ st.writer.freeListPageIds, ¬st.Live p
  live_below_mark : ∀ p, st.Live p → p < st.writer.nextPageId
  free_chain : st.writer.freeList.Disjoint st.writer.freeListPageIds
  free_below_mark : ∀ p ∈ st.writer.freeList, p < st.writer.nextPageId
  chain_below_mark : ∀ p ∈ st.writer.freeListPageIds, p < st.writer.nextPageId
  put_not_live : ∀ key val ws, st.putWrites key val = some ws → ∀ w ∈ ws, ¬st.Live w.1

theorem Intact.allocatorSound (hi : Intact st) : AllocatorSound st := by
  obtain ⟨h, st₁, hinv, -, ha⟩ := hi.exists_alike
  have ho := ha.exclusiveOwnership hinv
  exact
    { free_nodup := ho.free_nodup
      chain_nodup := ho.chain_nodup
      free_not_live := fun p hp hl => (ho.not_live p hl).1 hp
      chain_not_live := fun p hp hl => (ho.not_live p hl).2.2 hp
      live_below_mark := fun p hl => ho.below_mark p (Or.inl hl)
      free_chain := ho.free_chain
      free_below_mark := fun p hp => ho.below_mark p (Or.inr (Or.inl hp))
      chain_below_mark := fun p hp => ho.below_mark p (Or.inr (Or.inr (Or.inr hp)))
      put_not_live := fun _ _ _ hws => ha.putWrites_not_live hinv hws }

section Unsound

variable {newRoot : PageId} {txn : WriteTxn} {w : WriterState} {chain : List (PageId × Bytes)}
  {header : Bytes} {rec : Store}

/-- **The recovered list starts with the new one**: the walk reads the pages of the new chain that
are written, and goes on at the page that the last of them names. -/
theorem PutStep.recovered_list (hstep : PutStep h st newRoot txn w chain header) (hinv : Inv h st)
    (ha : Alike st st') (hn : n < (txn.pageWrites chain header).length)
    (ht : txn.writes.length ≤ n) (hpay : st.writer.payload ≠ [])
    (hrec : Store.openOrCreate (crashed st' (txn.pageWrites chain header) n) = some (.ok rec)) :
    ∃ fuel r, st.writer.nextPageId + 1 = fuel + (n - txn.writes.length) ∧
      loadFreeListChain (crashed st' (txn.pageWrites chain header) n) fuel
        (linkId w.freeListPageIds (w.pagesNeeded st.io.pageSize) (n - txn.writes.length)) =
          some r ∧
      rec = ⟨crashed st' (txn.pageWrites chain header) n, st.root, 0, ⟨st.writer.nextPageId,
        w.payload.take ((n - txn.writes.length) * WriterState.chainCap st.io.pageSize) ++ r.1, [],
        w.freeListPageIds.take (n - txn.writes.length) ++ r.2⟩⟩ := by
  obtain ⟨free, ids, hload, rfl⟩ := (hstep.openOrCreate_crashed_iff hinv ha hn).1 hrec
  have hsize : (crashed st' (txn.pageWrites chain header) n).pageSize = st.io.pageSize :=
    (PageIo.pageSize_writePages _ _).trans ha.pageSize_eq
  rw [hstep.length_writes] at hn
  have hfuel := hstep.needed_le_next hinv
  have hold := hinv.persisted.needed_le
  have hneeded : 0 < st.writer.pagesNeeded st.io.pageSize :=
    (WriterState.pagesNeeded_spec 0).2 (by simpa using List.length_pos_iff.2 hpay)
  obtain ⟨F, hF, -, hpay'⟩ := hstep.payload_eq
  have hneeded' : 0 < w.pagesNeeded st.io.pageSize :=
    (WriterState.pagesNeeded_spec 0).2 (by simp [hpay', hF, List.length_pos_iff])
  have hne : ∀ id ∈ w.freeListPageIds, id ≠ 0 := fun id hid =>
    (hstep.bounds id (List.mem_append_right _ hid)).1.ne'
  have hhead : linkId st.writer.freeListPageIds (st.writer.pagesNeeded st.io.pageSize) 0 =
      linkId w.freeListPageIds (w.pagesNeeded st.io.pageSize) 0 := by
    have hle := hstep.needed_le
    rw [linkId_of_lt hneeded hold, linkId_of_lt hneeded' hle, hstep.getElem_old (by omega)]
  obtain ⟨fuel, hfuel⟩ := Nat.exists_eq_add_of_le'
    (show n - txn.writes.length ≤ st.writer.nextPageId + 1 by omega)
  have hpages : ∀ k (hk : k < w.freeListPageIds.length), 0 ≤ k → k < 0 + (n - txn.writes.length) →
      freeListDecode w.freeListPageIds[k]
        ((crashed st' (txn.pageWrites chain header) n).readPage w.freeListPageIds[k]) =
          some (linkId w.freeListPageIds (w.pagesNeeded st.io.pageSize) (k + 1),
            chunk w.payload (WriterState.chainCap
              (crashed st' (txn.pageWrites chain header) n).pageSize) k) := by
    intro k hk _ hlt
    rcases hstep.read_chain n st'.io hinv.pageSize_lt hk with ⟨-, hdec⟩ | ⟨hnot, -⟩
    · rw [hsize]
      exact hdec
    · omega
  have hwalk := loadFreeListChain_walk hstep.needed_le hne (by omega) hpages fuel
  rw [hhead, hfuel, hwalk, hsize, Nat.zero_mul, List.drop_zero, List.drop_zero, Nat.zero_add]
    at hload
  obtain ⟨r, hr, heq⟩ := Option.map_eq_some_iff.1 hload
  obtain ⟨rfl, rfl⟩ := Prod.mk.inj heq
  exact ⟨fuel, r, hfuel, hr, rfl⟩

/-- A page of the old chain that is not written yet. -/
theorem PutStep.read_lost (hstep : PutStep h st newRoot txn w chain header) (hinv : Inv h st)
    (ha : Alike st st') {k : ℕ} (hk : k < st.writer.freeListPageIds.length)
    (hlost : n ≤ txn.writes.length + k) :
    (crashed st' (txn.pageWrites chain header) n).readPage st.writer.freeListPageIds[k] =
      st.io.readPage st.writer.freeListPageIds[k] := by
  have hlen := hstep.length_chain
  have hk' : k < w.freeListPageIds.length := by omega
  rcases hstep.read_chain n st'.io hinv.pageSize_lt hk' with ⟨⟨-, hlt⟩, -⟩ | ⟨-, hread⟩
  · omega
  · rw [hstep.getElem_old hk] at hread
    exact hread.trans (ha.chain _ (List.getElem_mem hk))

/-- The walk goes on along the old chain, if that is long enough. -/
theorem PutStep.load_rest (hstep : PutStep h st newRoot txn w chain header) (hinv : Inv h st)
    (ha : Alike st st') (fuel : ℕ)
    (hj : n - txn.writes.length < st.writer.pagesNeeded st.io.pageSize)
    (hj' : n - txn.writes.length < w.pagesNeeded st.io.pageSize)
    (hfuel : st.writer.nextPageId + 1 = fuel + (n - txn.writes.length)) :
    loadFreeListChain (crashed st' (txn.pageWrites chain header) n) fuel
      (linkId w.freeListPageIds (w.pagesNeeded st.io.pageSize) (n - txn.writes.length)) =
        some (st.writer.payload.drop
          ((n - txn.writes.length) * WriterState.chainCap st.io.pageSize),
          (st.writer.freeListPageIds.take (st.writer.pagesNeeded st.io.pageSize)).drop
            (n - txn.writes.length)) := by
  have hle := hinv.persisted.needed_le
  have hchain := hinv.chain_length_le
  have hsize : (crashed st' (txn.pageWrites chain header) n).pageSize = st.io.pageSize :=
    (PageIo.pageSize_writePages _ _).trans ha.pageSize_eq
  have hlink : linkId w.freeListPageIds (w.pagesNeeded st.io.pageSize) (n - txn.writes.length) =
      linkId st.writer.freeListPageIds (st.writer.pagesNeeded st.io.pageSize)
        (n - txn.writes.length) := by
    rw [linkId_of_lt hj' hstep.needed_le, linkId_of_lt hj hle, hstep.getElem_old (by omega)]
  have hpages : ∀ k (hk : k < st.writer.freeListPageIds.length), n - txn.writes.length ≤ k →
      k < st.writer.pagesNeeded st.io.pageSize → freeListDecode st.writer.freeListPageIds[k]
        ((crashed st' (txn.pageWrites chain header) n).readPage st.writer.freeListPageIds[k]) =
          some (linkId st.writer.freeListPageIds (st.writer.pagesNeeded st.io.pageSize) (k + 1),
            chunk st.writer.payload (WriterState.chainCap
              (crashed st' (txn.pageWrites chain header) n).pageSize) k) := by
    intro k hk hjk hlt
    rw [hstep.read_lost hinv ha hk (by omega), hsize]
    exact hinv.persisted.holds k hk hlt
  have hload := loadFreeListChain_eq hle (fun id hid => (hinv.chain_bounds hid).1.ne') hpages
    (hsize ▸ length_le_pagesNeeded st.writer st.io.pageSize) hj.le
    (show st.writer.pagesNeeded st.io.pageSize - (n - txn.writes.length) ≤ fuel by omega)
  rw [hlink, hload, hsize]

/-- The page that the walk goes on at is a fresh one, or one of the old chain, which lists a page
that is live or reusable. -/
theorem PutStep.runs_on (hstep : PutStep h st newRoot txn w chain header) (hinv : Inv h st)
    (hc : ChainPages h st) (ha : Alike st st') (ht : txn.writes.length ≤ n) {fuel : ℕ}
    {r : List PageId × List PageId}
    (hj : n - txn.writes.length < w.pagesNeeded st.io.pageSize)
    (hr : loadFreeListChain (crashed st' (txn.pageWrites chain header) n) fuel
      (linkId w.freeListPageIds (w.pagesNeeded st.io.pageSize) (n - txn.writes.length)) =
        some r) :
    (∃ p ∈ r.2, st.writer.nextPageId ≤ p) ∨
      ∃ p ∈ r.1, p ∈ treePages st.io h st.root ++ st.writer.payload := by
  have hids : n - txn.writes.length < w.freeListPageIds.length :=
    lt_of_lt_of_le hj hstep.needed_le
  rw [linkId_of_lt hj hstep.needed_le] at hr
  have hne := (hstep.bounds _ (List.mem_append_right _ (List.getElem_mem hids))).1.ne'
  obtain ⟨next, entries, hdec, hsub, hpage⟩ := mem_loadFreeListChain hne hr
  by_cases hold : n - txn.writes.length < st.writer.freeListPageIds.length
  · obtain ⟨next', p, ids, hlists, hp⟩ := hc.lists _ hold
    rw [hstep.getElem_old hold, hstep.read_lost hinv ha hold (by omega), hlists,
      Option.some.injEq, Prod.mk.injEq] at hdec
    exact Or.inr ⟨p, hsub (hdec.2 ▸ List.mem_cons_self), hp⟩
  · exact Or.inl ⟨_, hpage, hstep.le_getElem_new (not_lt.1 hold) hids⟩

theorem mem_take_append_cons {α : Type*} {l l' : List α} {a : α} {m : ℕ} (h : l.length < m) :
    a ∈ (l ++ a :: l').take m := by
  obtain ⟨k, hk⟩ := Nat.exists_eq_add_of_lt h
  rw [List.take_append, hk, show l.length + k + 1 - l.length = k + 1 by omega,
    List.take_succ_cons]
  exact List.mem_append_right _ List.mem_cons_self

/-- The pages that a put takes off the free list move the pending ones forward: a list that starts
as the new one and ends as the old one has one of them twice. -/
theorem not_nodup_of_moved {free pending F : List PageId} {t m : ℕ} (ht : 0 < t) (hm : 0 < m)
    (hfree : free ≠ []) (hlt : free.length < m + t)
    (hle : m ≤ (free.take (free.length - t)).length + pending.length)
    (hend : m < (free ++ pending).length) :
    ¬((free.take (free.length - t) ++ (pending ++ F)).take m ++
      (free ++ pending).drop m).Nodup := by
  have hpos := List.length_pos_iff.2 hfree
  rw [List.length_take] at hle
  rw [List.length_append] at hend
  have hi : m - free.length < pending.length := by omega
  refine fun hnodup => List.disjoint_of_nodup_append hnodup (a := pending[m - free.length]) ?_ ?_
  · refine List.mem_take_iff_getElem.2
      ⟨(free.take (free.length - t)).length + (m - free.length), ?_, ?_⟩
    · simp only [List.length_append, List.length_take]
      omega
    · rw [List.getElem_append_right (Nat.le_add_right _ _)]
      simp only [Nat.add_sub_cancel_left, List.getElem_append_left hi]
  · refine List.mem_drop_iff_getElem.2 ⟨free.length + (m - free.length) - m, ?_, ?_⟩
    · rw [List.length_append]
      omega
    · rw [List.getElem_append_right (by omega)]
      congr 1
      omega

/-- **Every other cut leaves an unsound allocator**: the recovered list holds a page that the put
has freed, and that is live; or it holds a page twice; or the chain runs on to a page beyond the
mark, or to a spare page, which lists a page that has another owner by now. -/
theorem PutStep.not_sound (hstep : PutStep h st newRoot txn w chain header) (hinv : Inv h st)
    (hc : ChainPages h st) (ha : Alike st st') (hpages : st.newPages key val = txn.writes.length)
    (hcut : ¬CleanCut st key val (txn.pageWrites chain header) n)
    (hrec : Store.openOrCreate (crashed st' (txn.pageWrites chain header) n) = some (.ok rec)) :
    ¬AllocatorSound rec := by
  intro hs
  simp only [CleanCut, hpages, not_or, not_and, not_le, not_lt] at hcut
  obtain ⟨hn, ht, hpay, hfree, hpend⟩ := hcut
  obtain ⟨fuel, r, hfuel, hr, rfl⟩ := hstep.recovered_list hinv ha hn ht.le hpay hrec
  have hlisted : 0 < (n - txn.writes.length) * WriterState.chainCap st.io.pageSize :=
    Nat.mul_pos (by omega) (chainCap_pos _)
  have hj : _ → n - txn.writes.length < st.writer.pagesNeeded st.io.pageSize :=
    (WriterState.pagesNeeded_spec _).2
  have hj' : _ → n - txn.writes.length < w.pagesNeeded st.io.pageSize :=
    (WriterState.pagesNeeded_spec _).2
  have hrest := hstep.load_rest (n := n) hinv ha fuel
  generalize (n - txn.writes.length) * WriterState.chainCap st.io.pageSize = listed
    at hfree hpend hlisted hj hj' hrest hs
  obtain ⟨F, hF, hFtree, hnew⟩ := hstep.payload_eq
  have hpos := hstep.writes_pos
  have hlive := fun p => hstep.crashed_live (n := n) (p := p) hinv ha
  -- the list ends before the pages that the put has freed
  have hle : listed ≤ (st.writer.freeList.take
      (st.writer.freeList.length - txn.writes.length)).length +
        st.writer.pendingFree.length := by
    by_contra hlt
    obtain ⟨p, F', rfl⟩ := List.exists_cons_of_ne_nil hF
    refine hs.free_not_live p (List.mem_append_left _ ?_) (hlive p (hFtree p List.mem_cons_self))
    rw [hnew, ← List.append_assoc]
    exact mem_take_append_cons (by rw [List.length_append]; omega)
  have hgoes := hj' (by
    have hFpos := List.length_pos_iff.2 hF
    simp only [hnew, List.length_append]
    omega)
  rcases lt_or_ge listed st.writer.payload.length with hlt | hge
  · -- the walk goes on along the old chain
    have hne : st.writer.freeList ≠ [] := fun hnil => by
      rw [WriterState.payload, hnil, List.nil_append] at hlt
      exact absurd hlt (not_lt.2 (hpend hnil))
    rw [hrest (hj hlt) hgoes hfuel, Option.some.injEq] at hr
    have hnodup := hs.free_nodup
    rw [← hr, hnew] at hnodup
    exact not_nodup_of_moved hpos hlisted hne hfree hle hlt hnodup
  · -- the pages of the old chain are used up
    rw [WriterState.payload, List.length_append] at hge
    rw [List.length_take] at hle
    have hnil : st.writer.freeList = [] := List.length_eq_zero_iff.1 (by omega)
    have hpend' : listed = st.writer.pendingFree.length := by
      rw [hnil, List.length_nil] at hge hle
      omega
    rcases hstep.runs_on hinv hc ha ht.le hgoes hr with ⟨p, hp, hmark⟩ | ⟨p, hp, hmem⟩
    · exact absurd (hs.chain_below_mark p (List.mem_append_right _ hp)) (not_lt.2 hmark)
    rcases List.mem_append.1 hmem with htree | hpayload
    · exact hs.free_not_live p (List.mem_append_right _ hp) (hlive p htree)
    · refine List.disjoint_of_nodup_append hs.free_nodup (a := p) ?_ hp
      rw [WriterState.payload, hnil, List.nil_append] at hpayload
      rw [hnew, hnil, List.take_nil, List.nil_append, hpend', List.take_left]
      exact hpayload

end Unsound

/-- **The allocator after a crash**: after any run whose cuts were clean it is sound, and a put
that is cut off leaves a backend that is opened with a sound allocator if and only if the cut is
clean. -/
theorem crash_recovery_sound (hP : pageSize ≤ 65535) (hrun : CutRun pageSize st)
    (hput : st.put key val = some (.ok st')) (hws : st.putWrites key val = some ws) (n : ℕ) :
    AllocatorSound st ∧
      ((∃ rec, Store.openOrCreate (crashed st ws n) = some (.ok rec) ∧ AllocatorSound rec) ↔
        CleanCut st key val ws n) := by
  have hi := hrun.intact (Nat.lt_succ_of_le hP)
  refine ⟨hi.allocatorSound, fun ⟨rec, hopen, hsound⟩ => ?_, fun hcut => ?_⟩
  · obtain ⟨h, st₁, hp⟩ := hi.putAlike hput hws
    obtain ⟨newRoot, txn, w, chain, header, hstep, rfl, hpages⟩ := hp.putStep
    by_contra hcut
    rw [hp.alike.cleanCut_iff hp.inv hws] at hcut
    exact hstep.not_sound hp.inv hp.chainPages hp.alike hpages hcut hopen hsound
  · obtain ⟨rec, hopen, hrec⟩ := hi.cut hput hws hcut
    exact ⟨rec, hopen, hrec.allocatorSound⟩

/-- **A torn free list**: after one put on a fresh store with 64-byte pages, a second one is cut
between the chain and the header. Its tree page and its chain page are written, and the recovered
store lists the root of the old tree, page 2, as free. -/
theorem crash_reuses_live_page : ∃ st st' ws rec, Reachable 64 st ∧
    st.put [2] [2] = some (.ok st') ∧ st.putWrites [2] [2] = some ws ∧ 2 < ws.length ∧
    Store.openOrCreate (crashed st ws 2) = some (.ok rec) ∧ ¬AllocatorSound rec := by
  have hrun : ((session 64 [([1], [1])]).bind fun st =>
      (succeeded (st.put [2] [2])).bind fun _ => (st.putWrites [2] [2]).bind fun ws =>
        (succeeded (Store.openOrCreate (crashed st ws 2))).map fun rec =>
          (ws.length, rec.root, rec.writer.freeList)) = some (3, 2, [2]) := by
    decide +kernel
  obtain ⟨st, hst, hrun⟩ := Option.bind_eq_some_iff.1 hrun
  obtain ⟨st', hst', hrun⟩ := Option.bind_eq_some_iff.1 hrun
  obtain ⟨ws, hws, hrun⟩ := Option.bind_eq_some_iff.1 hrun
  obtain ⟨rec, hrec, hrun⟩ := Option.map_eq_some_iff.1 hrun
  obtain ⟨hlen, hroot, hfree⟩ : ws.length = 3 ∧ rec.root = 2 ∧ rec.writer.freeList = [2] := by
    simpa using hrun
  refine ⟨st, st', ws, rec, reachable_of_session hst, succeeded_eq_some hst', hws, by omega,
    succeeded_eq_some hrec, fun hsound => ?_⟩
  exact hsound.free_not_live 2 (by rw [hfree]; exact List.mem_singleton_self 2)
    (hroot ▸ Relation.ReflTransGen.refl)

/-- The put that is not opened again behind its second write, at each of its cuts. -/
theorem crash_recovery_sound_session : ∃ st ws, cutSession 49 staleLeaf = some st ∧
    st.putWrites [0] [1, 1, 1, 1] = some ws ∧ ∀ n, AllocatorSound st ∧
      ((∃ rec, Store.openOrCreate (crashed st ws n) = some (.ok rec) ∧ AllocatorSound rec) ↔
        CleanCut st [0] [1, 1, 1, 1] ws n) := by
  have hplay : ((cutSession 49 staleLeaf).bind fun st =>
      (succeeded (st.put [0] [1, 1, 1, 1])).bind fun _ =>
        st.putWrites [0] [1, 1, 1, 1]).isSome = true := by
    decide +kernel
  obtain ⟨ws, hplay⟩ := Option.isSome_iff_exists.1 hplay
  obtain ⟨st, hst, hplay⟩ := Option.bind_eq_some_iff.1 hplay
  obtain ⟨st', hst', hws⟩ := Option.bind_eq_some_iff.1 hplay
  exact ⟨st, ws, hst, hws, crash_recovery_sound (by decide) (cutRun_of_cutSession hst)
    (succeeded_eq_some hst') hws⟩

end CowRaft.Btree
