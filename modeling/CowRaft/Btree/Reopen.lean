import CowRaft.Btree.Map

/-!
# Closing and reopening

A store reopened from its own backend has the root, the mark and the contents it had, and finds
all its reusable pages on the free list (`clean_reopen`).

What it does not find are the pages of the free-list chain that the last commit did not need: the
header names the chain that the commit wrote, while the writer in memory keeps the longer chain of
earlier commits. A store whose chain was longer than its free list needs leaks these pages when it
is reopened (`reopening_leaks`); in runs that never reopen such a store every page id below the
mark has an owner (`no_page_leaked`).
-/

namespace CowRaft.Btree

open Bytes HeapTree

variable {h pageSize : ℕ} {st st' : Store}

/-! ## What is recovered -/

/-- `st'` is what a clean reopening of `st` should be. -/
structure Recovers (st st' : Store) : Prop where
  root_eq : st'.root = st.root
  next_eq : st'.writer.nextPageId = st.writer.nextPageId
  free_eq : st'.writer.freeList = st.writer.freeList ++ st.writer.pendingFree
  pending_eq : st'.writer.pendingFree = []
  get_eq : ∀ key, st'.get key = st.get key
  /-- The header counts the recovered free list, and the walk of the chain it names ends. -/
  header : ∃ hd, Header.fromBytes (st.io.readPage HEADER_PAGE_ID) = some (.ok hd) ∧
    hd.freeCount = st'.writer.freeList.length ∧
    loadFreeListChain st.io (hd.nextPageId + 1) hd.freeListHead =
      some (st'.writer.freeList, st'.writer.freeListPageIds)

theorem Inv.recovers (hinv : Inv h st) :
    ∃ st', Store.openOrCreate st.io = some (.ok st') ∧ Recovers st st' := by
  have hopen := hinv.openOrCreate_eq rfl rfl fun _ _ => rfl
  refine ⟨_, hopen, rfl, rfl, rfl, rfl, fun key => rfl, _, hinv.persisted.header, rfl, ?_⟩
  -- the header decodes, so that the store was opened by the walk of its chain
  have hwalk := hopen
  simp only [Store.openOrCreate, hinv.persisted.header, Option.bind_eq_bind, Option.bind_some,
    if_true] at hwalk
  obtain ⟨st', hwalk, heq⟩ := Option.map_eq_some_iff.1 hwalk
  obtain rfl := Except.ok.inj heq
  obtain ⟨⟨free, ids⟩, hload, hwalk⟩ := Option.bind_eq_some_iff.1 hwalk
  rw [hload]
  have hst := Option.some.inj hwalk
  rw [Store.mk.injEq, WriterState.mk.injEq] at hst
  obtain ⟨-, -, -, -, rfl, -, rfl⟩ := hst
  rfl

/-- **A clean reopening recovers everything**: root, mark, contents and every reusable page. -/
theorem clean_reopen (hP : pageSize ≤ 65535) (hreach : Reachable pageSize st) :
    ∃ st', Store.openOrCreate st.io = some (.ok st') ∧ Recovers st st' := by
  obtain ⟨h, hinv⟩ := hreach.inv (Nat.lt_succ_of_le hP)
  exact hinv.recovers

/-! ## Leaks -/

/-- Every page id below the mark has an owner. -/
def NoLeak (st : Store) : Prop :=
  ∀ p, 1 ≤ p → p < st.writer.nextPageId → st.Live p ∨ p ∈ st.writer.freeList ∨
    p ∈ st.writer.pendingFree ∨ p ∈ st.writer.freeListPageIds

/-- The free list needs every page of its chain. -/
def Store.ChainFull (st : Store) : Prop :=
  st.writer.freeListPageIds.length ≤ st.writer.pagesNeeded st.io.pageSize

/-- The steps of the runs that commit only in the states of `C`, and reopen only in those of
`R`. -/
inductive StepWhen (C R : Store → Prop) : Store → Store → Prop
  | accepted {st st' : Store} {key : Key} {val : Val} :
      C st → st.put key val = some (.ok st') → StepWhen C R st st'
  | rejected {st : Store} {key : Key} {val : Val} {e : Error} :
      st.put key val = some (.error e) → StepWhen C R st st
  | enterRead (st : Store) : StepWhen C R st st.enterRead
  | dropGuard {st : Store} : 0 < st.readers → StepWhen C R st st.dropGuard
  | reopen {st st' : Store} : R st → st.readers = 0 → Store.openOrCreate st.io = some (.ok st') →
      StepWhen C R st st'

/-- The states of the runs from a fresh store that commit and reopen only in such states. -/
def ReachableWhen (C R : Store → Prop) (pageSize : ℕ) (st : Store) : Prop :=
  ∃ st₀, Store.inMemory pageSize = some (.ok st₀) ∧ Relation.ReflTransGen (StepWhen C R) st₀ st

section Tiled

variable {C R : Store → Prop}

theorem StepWhen.step (hstep : StepWhen C R st st') : Step st st' := by
  cases hstep with
  | accepted _ hput => exact .accepted hput
  | rejected hput => exact .rejected hput
  | enterRead => exact .enterRead _
  | dropGuard hpos => exact .dropGuard hpos
  | reopen _ hreaders hst => exact .reopen hreaders hst

theorem ReachableWhen.reachable (hreach : ReachableWhen C R pageSize st) :
    Reachable pageSize st := by
  obtain ⟨st₀, hst₀, hrun⟩ := hreach
  exact ⟨st₀, hst₀, Relation.ReflTransGen.mono (fun _ _ => StepWhen.step) _ _ hrun⟩

/-- The owned pages are those from 1 up to the mark. -/
def Tiled (h : ℕ) (st : Store) : Prop :=
  (owned st.io h st.root st.writer).Perm (List.range' 1 (st.writer.nextPageId - 1))

theorem Inv.mem_owned (hinv : Inv h st) {p : PageId} :
    p ∈ owned st.io h st.root st.writer ↔ st.Live p ∨ p ∈ st.writer.freeList ∨
      p ∈ st.writer.pendingFree ∨ p ∈ st.writer.freeListPageIds := by
  rw [owned, WriterState.payload, List.mem_append, List.mem_append, List.mem_append,
    ← hinv.live_iff, or_assoc]

/-- No page is leaked exactly if the owned pages fill the ids below the mark. -/
theorem Inv.noLeak_iff (hinv : Inv h st) : NoLeak st ↔ Tiled h st := by
  have hrange : ∀ p, p ∈ List.range' 1 (st.writer.nextPageId - 1) ↔
      1 ≤ p ∧ p < st.writer.nextPageId := fun p => by
    have hpos := hinv.next_pos
    rw [List.mem_range'_1]
    omega
  constructor
  · intro hleak
    refine (List.perm_ext_iff_of_nodup hinv.nodup List.nodup_range').2 fun p => ?_
    rw [hrange]
    refine ⟨hinv.bounds p, fun hp => ?_⟩
    exact hinv.mem_owned.2 (hleak p hp.1 hp.2)
  · intro htiled p hp hlt
    exact hinv.mem_owned.1 (htiled.mem_iff.2 ((hrange p).2 ⟨hp, hlt⟩))

/-- Adding the bumped ids to a full range leaves a full range. -/
theorem Tiled.put {h' : ℕ} (hinv : Inv h st) (htiled : Tiled h st)
    (hle : st.writer.nextPageId ≤ st'.writer.nextPageId)
    (hperm : (owned st'.io h' st'.root st'.writer).Perm (owned st.io h st.root st.writer ++
      List.range' st.writer.nextPageId (st'.writer.nextPageId - st.writer.nextPageId))) :
    Tiled h' st' := by
  have hpos := hinv.next_pos
  have hrange : List.range' 1 (st'.writer.nextPageId - 1) =
      List.range' 1 (st.writer.nextPageId - 1) ++
        List.range' st.writer.nextPageId (st'.writer.nextPageId - st.writer.nextPageId) := by
    rw [show st'.writer.nextPageId - 1 = (st.writer.nextPageId - 1) +
      (st'.writer.nextPageId - st.writer.nextPageId) by omega, ← List.range'_append_1,
      show 1 + (st.writer.nextPageId - 1) = st.writer.nextPageId by omega]
  rw [Tiled, hrange]
  exact hperm.trans (htiled.append_right _)

/-- What a reopened store owns. -/
theorem Inv.owned_reopen (hinv : Inv h st) (hst : Store.openOrCreate st.io = some (.ok st')) :
    owned st'.io h st'.root st'.writer = treePages st.io h st.root ++ (st.writer.payload ++
      st.writer.freeListPageIds.take (st.writer.pagesNeeded st.io.pageSize)) ∧
    st'.writer.nextPageId = st.writer.nextPageId := by
  rw [hinv.openOrCreate_eq rfl rfl fun _ _ => rfl, Option.some.injEq, Except.ok.injEq] at hst
  subst hst
  unfold owned WriterState.payload
  rw [List.append_nil]
  exact ⟨rfl, rfl⟩

/-- **Reopening leaks a page unless the chain is full.** -/
theorem Inv.tiled_reopen_iff (hinv : Inv h st) (htiled : Tiled h st)
    (hst : Store.openOrCreate st.io = some (.ok st')) : Tiled h st' ↔ st.ChainFull := by
  obtain ⟨howned, hnext⟩ := hinv.owned_reopen hst
  rw [Tiled, howned, hnext, Store.ChainFull, ← List.take_eq_self_iff]
  constructor
  · intro hperm
    have hlen := (hperm.trans htiled.symm).length_eq
    simp only [owned, List.length_append, Nat.add_left_cancel_iff] at hlen
    exact (List.take_sublist _ _).eq_of_length hlen
  · intro htake
    rw [htake]
    exact htiled

theorem put_next_le {key : Key} {val : Val} (hinv : Inv h st)
    (hput : st.put key val = some (.ok st')) :
    st.writer.nextPageId ≤ st'.writer.nextPageId := by
  rcases put_cases hinv hput with ⟨e, -, he⟩ |
    ⟨newRoot, txn, w, chain, header, -, hbuild, hprep, -, hst⟩
  · cases he
  · obtain rfl := Except.ok.inj hst
    exact (buildPut_step hinv hbuild hprep).next_le

theorem Tiled.inMemory (hst : Store.inMemory pageSize = some (.ok st)) :
    Tiled 0 st := by
  obtain ⟨root, bytes, -, -, rfl⟩ := inMemory_eq hst
  exact List.Perm.refl _

theorem ReachableWhen.tiled (hP : pageSize < 65536)
    (hreach : ReachableWhen C Store.ChainFull pageSize st) : ∃ h, Inv h st ∧ Tiled h st := by
  obtain ⟨st₀, hst₀, hrun⟩ := hreach
  induction hrun with
  | refl => exact ⟨0, (inMemory_spec hP hst₀).1, Tiled.inMemory hst₀⟩
  | tail _ hstep ih =>
    obtain ⟨h, hinv, htiled⟩ := ih
    cases hstep with
    | accepted _ hput =>
      obtain ⟨h', hinv', hperm⟩ := hinv.put hput
      exact ⟨h', hinv', htiled.put hinv (put_next_le hinv hput) hperm⟩
    | rejected _ => exact ⟨h, hinv, htiled⟩
    | enterRead => exact ⟨h, hinv.withReaders _, htiled⟩
    | dropGuard _ => exact ⟨h, hinv.withReaders _, htiled⟩
    | reopen hfull _ hst =>
      exact ⟨h, hinv.reopen hst, (hinv.tiled_reopen_iff htiled hst).2 hfull⟩

/-- **No page is leaked** in runs that reopen a store only while its free-list chain is full. -/
theorem no_page_leaked (hP : pageSize ≤ 65535)
    (hreach : ReachableWhen (fun _ => True) Store.ChainFull pageSize st) : NoLeak st := by
  obtain ⟨h, hinv, htiled⟩ := hreach.tiled (Nat.lt_succ_of_le hP)
  exact hinv.noLeak_iff.2 htiled

end Tiled

/-! ## Sessions with a guard -/

theorem put_readers {key : Key} {val : Val} (hinv : Inv h st)
    (hput : st.put key val = some (.ok st')) : st'.readers = st.readers := by
  rcases put_cases hinv hput with ⟨e, -, he⟩ | ⟨newRoot, txn, w, chain, header, -, -, -, -, hst⟩
  · cases he
  · obtain rfl := Except.ok.inj hst
    rfl

theorem ReachableWhen.putAll {C R : Store → Prop} {puts : List (Key × Val)} (hP : pageSize < 65536)
    (hC : ∀ st' : Store, st'.readers = st.readers → C st')
    (hreach : ReachableWhen C R pageSize st) (hputs : st.putAll puts = some st') :
    ReachableWhen C R pageSize st' ∧ st'.readers = st.readers := by
  induction puts generalizing st with
  | nil =>
    obtain rfl := Option.some.inj hputs
    exact ⟨hreach, rfl⟩
  | cons e puts ih =>
    obtain ⟨st₁, hput, hputs⟩ := Option.bind_eq_some_iff.1 hputs
    have hput := succeeded_eq_some hput
    obtain ⟨h, hinv⟩ := hreach.reachable.inv hP
    have hsame := put_readers hinv hput
    obtain ⟨st₀, hst₀, hrun⟩ := hreach
    obtain ⟨hreach', hreaders⟩ := ih (fun st' h => hC st' (h.trans hsame))
      ⟨st₀, hst₀, hrun.tail (.accepted (hC st rfl) hput)⟩ hputs
    exact ⟨hreach', hreaders.trans hsame⟩

theorem reachableWhen_of_session {C R : Store → Prop} {puts : List (Key × Val)}
    (hP : pageSize < 65536) (hC : ∀ st : Store, st.readers = 0 → C st)
    (hst : session pageSize puts = some st) : ReachableWhen C R pageSize st := by
  obtain ⟨st₀, hst₀, hputs⟩ := Option.bind_eq_some_iff.1 hst
  have hst₀ := succeeded_eq_some hst₀
  have h0 : st₀.readers = 0 := (inMemory_spec hP hst₀).2.2.2
  have hreach : ReachableWhen C R pageSize st₀ := ⟨st₀, hst₀, .refl⟩
  exact (hreach.putAll hP (fun st h => hC st (h.trans h0)) hputs).1

/-- A fresh store after some puts, of which the first `n` run while a read guard is held. -/
def guardedSession (pageSize n : ℕ) (puts : List (Key × Val)) : Option Store :=
  (succeeded (Store.inMemory pageSize)).bind fun st =>
    (st.enterRead.putAll (puts.take n)).bind fun st => st.dropGuard.putAll (puts.drop n)

theorem reachableWhen_guardedSession {R : Store → Prop} {n : ℕ} {puts : List (Key × Val)}
    (hP : pageSize < 65536) (hst : guardedSession pageSize n puts = some st) :
    ReachableWhen (fun _ => True) R pageSize st ∧ st.readers = 0 := by
  obtain ⟨st₀, hst₀, hst⟩ := Option.bind_eq_some_iff.1 hst
  obtain ⟨st₁, hst₁, hst⟩ := Option.bind_eq_some_iff.1 hst
  have hst₀ := succeeded_eq_some hst₀
  have hreach : ReachableWhen (fun _ => True) R pageSize st₀.enterRead :=
    ⟨st₀, hst₀, .single (.enterRead st₀)⟩
  obtain ⟨hreach₁, hreaders⟩ := hreach.putAll hP (fun _ _ => trivial) hst₁
  have h0 : st₀.readers = 0 := (inMemory_spec hP hst₀).2.2.2
  have h1 : st₁.readers = 1 := by rw [hreaders, Store.enterRead, h0]
  obtain ⟨st₀', hst₀', hrun⟩ := hreach₁
  have hreach₂ : ReachableWhen (fun _ => True) R pageSize st₁.dropGuard :=
    ⟨st₀', hst₀', hrun.tail (.dropGuard (h1 ▸ one_pos))⟩
  obtain ⟨hreach₃, hreaders'⟩ := hreach₂.putAll hP (fun _ _ => trivial) hst
  refine ⟨hreach₃, hreaders'.trans ?_⟩
  rw [Store.dropGuard, h1]

/-- Three overwrites under a read guard, then four new keys: the free list has taken two chain
pages, and needs one of them. -/
def shrinkingPuts : List (Key × Val) :=
  [([1], [1]), ([1], [2]), ([1], [3]), ([1], [4]), ([2], [1, 1, 1, 1]), ([3], [1, 1, 1, 1]),
    ([4], [1, 1, 1, 1]), ([5], [1, 1, 1, 1])]

/-- `clean_reopen` on that store. -/
theorem clean_reopen_session : ∃ st, guardedSession 49 4 shrinkingPuts = some st ∧
    ∃ st', Store.openOrCreate st.io = some (.ok st') ∧ Recovers st st' := by
  obtain ⟨st, hst⟩ := Option.isSome_iff_exists.1
    (show (guardedSession 49 4 shrinkingPuts).isSome = true by decide +kernel)
  obtain ⟨hreach, -⟩ :=
    reachableWhen_guardedSession (R := fun _ => True) (show 49 < 65536 by decide) hst
  exact ⟨st, hst, clean_reopen (by decide) hreach.reachable⟩

/-- `no_page_leaked` on that store, before it is reopened. -/
theorem no_page_leaked_session : ∃ st, guardedSession 49 4 shrinkingPuts = some st ∧
    NoLeak st := by
  obtain ⟨st, hst⟩ := Option.isSome_iff_exists.1
    (show (guardedSession 49 4 shrinkingPuts).isSome = true by decide +kernel)
  exact ⟨st, hst, no_page_leaked (by decide)
    (reachableWhen_guardedSession (by decide) hst).1⟩

/-- **Reopening leaks a page**: the store has a chain of two pages, of which the reopened one finds
the first. -/
theorem reopening_leaks : ∃ st st', Reachable 49 st ∧ NoLeak st ∧ Step st st' ∧
    Store.openOrCreate st.io = some (.ok st') ∧ ¬NoLeak st' := by
  have hrun : (guardedSession 49 4 shrinkingPuts).map (fun st =>
      decide (st.writer.freeListPageIds.length ≤ st.writer.pagesNeeded st.io.pageSize)) =
        some false := by decide +kernel
  obtain ⟨st, hst, hfull⟩ := Option.map_eq_some_iff.1 hrun
  obtain ⟨hreach, hreaders⟩ :=
    reachableWhen_guardedSession (R := Store.ChainFull) (show 49 < 65536 by decide) hst
  obtain ⟨h, hinv, htiled⟩ := hreach.tiled (by decide)
  obtain ⟨st', hst', -⟩ := hinv.recovers
  refine ⟨st, st', hreach.reachable, hinv.noLeak_iff.2 htiled, .reopen hreaders hst', hst', ?_⟩
  intro hleak
  refine of_decide_eq_false hfull ((hinv.tiled_reopen_iff htiled hst').1 ?_)
  exact (hinv.reopen hst').noLeak_iff.1 hleak

end CowRaft.Btree
