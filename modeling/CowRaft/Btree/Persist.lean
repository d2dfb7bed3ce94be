import CowRaft.Btree.Tree

/-!
# The free-list chain on disk

What `persist_free_list` writes and `load_free_list_chain` reads back. The chain of pages only ever
grows; a commit rewrites as many of its pages as the free list needs, each with one chunk of the
list and the id of the next page (`ChainHolds`). The pages beyond these keep what an earlier commit
left on them. Every page of the chain links to the next one or ends the walk (`ChainLinked`), also
in the middle of a commit, so that a walk always ends.
-/

namespace CowRaft.Btree

open Bytes

/-- The `i`-th piece of `cap` elements. -/
def chunk {α : Type*} (l : List α) (cap i : ℕ) : List α := (l.drop (i * cap)).take cap

/-- The id at position `i` of a chain of `n` pages, `0` at its end. -/
def linkId (ids : List PageId) (n i : ℕ) : PageId := if i < n then ids.getD i 0 else 0

/-- The first `n` pages of the chain hold the list. -/
def ChainHolds (io : PageIo) (ids list : List PageId) (n : ℕ) : Prop :=
  ∀ i (hi : i < ids.length), i < n → freeListDecode ids[i] (io.readPage ids[i]) =
    some (linkId ids n (i + 1), chunk list (WriterState.chainCap io.pageSize) i)

/-- Every page of the chain links to the next one, or ends the walk. -/
def ChainLinked (io : PageIo) (ids : List PageId) : Prop :=
  ∀ i (hi : i < ids.length), ∃ next list, freeListDecode ids[i] (io.readPage ids[i]) =
    some (next, list) ∧ (next = 0 ∨ ids[i + 1]? = some next)

theorem chainCap_pos (pageSize : ℕ) : 0 < WriterState.chainCap pageSize :=
  lt_of_lt_of_le one_pos (le_max_right _ _)

/-- A page that holds a header holds a free id. -/
theorem chainCap_eq {pageSize : ℕ} (hP : 49 ≤ pageSize) :
    WriterState.chainCap pageSize = freeListCapacity pageSize := by
  rw [WriterState.chainCap, freeListCapacity, FREE_LIST_HEADER]
  omega

/-! ## Writing the chain -/

theorem exists_of_mapM_range {α : Type*} {f : ℕ → Option α} {n : ℕ} {l : List α}
    (h : (List.range n).mapM f = some l) :
    l.length = n ∧ ∀ i (hi : i < l.length), f i = some l[i] := by
  induction n generalizing l with
  | zero =>
    obtain rfl : l = [] := by simpa using h.symm
    exact ⟨rfl, fun i hi => absurd hi (Nat.not_lt_zero i)⟩
  | succ n ih =>
    rw [List.range_succ, List.mapM_append] at h
    obtain ⟨l₁, hl₁, h⟩ := Option.bind_eq_some_iff.1 h
    obtain ⟨l₂, hl₂, h⟩ := Option.bind_eq_some_iff.1 h
    obtain ⟨a, ha, hl₂⟩ : ∃ a, f n = some a ∧ l₂ = [a] := by
      rw [List.mapM_cons] at hl₂
      obtain ⟨a, ha, hl₂⟩ := Option.bind_eq_some_iff.1 hl₂
      exact ⟨a, ha, by simpa using hl₂.symm⟩
    obtain rfl : l₁ ++ l₂ = l := Option.some.inj h
    obtain ⟨hlen, hget⟩ := ih hl₁
    subst hl₂
    refine ⟨by simp [hlen], fun i hi => ?_⟩
    rw [List.length_append, List.length_singleton] at hi
    rcases Nat.lt_succ_iff_lt_or_eq.1 hi with hi | rfl
    · rw [List.getElem_append_left hi]
      exact hget i hi
    · rw [List.getElem_append_right le_rfl]
      simpa [hlen] using ha

theorem mapM_range_isSome {α : Type*} {f : ℕ → Option α} {n : ℕ}
    (h : ∀ i < n, ∃ a, f i = some a) : ∃ l, (List.range n).mapM f = some l := by
  induction n with
  | zero => exact ⟨[], rfl⟩
  | succ n ih =>
    obtain ⟨l, hl⟩ := ih fun i hi => h i (Nat.lt_succ_of_lt hi)
    obtain ⟨a, ha⟩ := h n (Nat.lt_succ_self n)
    exact ⟨l ++ [a], by rw [List.range_succ, List.mapM_append, hl]; simp [ha]⟩

namespace WriterState

variable {w : WriterState} {pageSize : ℕ}

@[simp] theorem payload_growChain : (w.growChain pageSize).payload = w.payload := rfl

@[simp] theorem pagesNeeded_growChain :
    (w.growChain pageSize).pagesNeeded pageSize = w.pagesNeeded pageSize := rfl

theorem pagesNeeded_le_growChain :
    w.pagesNeeded pageSize ≤ (w.growChain pageSize).freeListPageIds.length := by
  rw [growChain, List.length_append, List.length_range']
  omega

/-- The pages needed are enough for the payload, and none of them stays empty. -/
theorem pagesNeeded_spec (i : ℕ) :
    i < w.pagesNeeded pageSize ↔ i * chainCap pageSize < w.payload.length := by
  have hc := chainCap_pos pageSize
  rw [pagesNeeded, ← Nat.succ_le_iff, Nat.le_div_iff_mul_le hc, Nat.succ_mul]
  omega

theorem pagesNeeded_eq_zero (h : w.payload = []) : w.pagesNeeded pageSize = 0 := by
  by_contra hne
  have hpos := (pagesNeeded_spec 0).1 (Nat.pos_of_ne_zero hne)
  rw [h] at hpos
  exact absurd hpos (Nat.not_lt_zero _)

theorem pagesNeeded_le_length (w : WriterState) (pageSize : ℕ) :
    w.pagesNeeded pageSize ≤ w.payload.length := by
  rcases hn : w.pagesNeeded pageSize with _ | n
  · exact Nat.zero_le _
  · have hlt := ((@pagesNeeded_spec w pageSize) n).1 (by omega)
    exact (Nat.le_mul_of_pos_right n (chainCap_pos pageSize)).trans_lt hlt

theorem slice_eq_chunk {i : ℕ} (hi : i * chainCap pageSize ≤ w.payload.length) :
    slice w.payload (i * chainCap pageSize) (min ((i + 1) * chainCap pageSize) w.payload.length) =
      some (chunk w.payload (chainCap pageSize) i) := by
  have hsucc : (i + 1) * chainCap pageSize = i * chainCap pageSize + chainCap pageSize :=
    Nat.succ_mul ..
  have hlen : (w.payload.drop (i * chainCap pageSize)).length =
      w.payload.length - i * chainCap pageSize := List.length_drop
  rw [slice, if_pos ⟨by omega, Nat.min_le_right _ _⟩, chunk, List.drop_take, Option.some.injEq,
    List.take_eq_take_iff, hlen]
  omega

/-- The `i`-th page write of the chain. -/
theorem chainWrites_getElem {writes : List (PageId × Bytes)} {i : ℕ}
    (h : w.chainWrites pageSize = some writes) (hi : i < w.freeListPageIds.length)
    (hw : i < writes.length) :
    writes[i].1 = w.freeListPageIds[i] ∧ freeListEncode w.freeListPageIds[i]
      (linkId w.freeListPageIds (w.pagesNeeded pageSize) (i + 1))
      (chunk w.payload (chainCap pageSize) i) pageSize = some writes[i].2 := by
  obtain ⟨hn, hget⟩ := exists_of_mapM_range h
  obtain ⟨id, hid, hp⟩ := Option.bind_eq_some_iff.1 (hget i hw)
  obtain ⟨next, hnext, hp⟩ := Option.bind_eq_some_iff.1 hp
  obtain ⟨c, hc, hp⟩ := Option.bind_eq_some_iff.1 hp
  obtain ⟨bytes, hb, hp⟩ := Option.bind_eq_some_iff.1 hp
  rw [List.getElem?_eq_getElem hi, Option.some.injEq] at hid
  have hchunk := (pagesNeeded_spec (w := w) i).1 (hn ▸ hw)
  rw [slice_eq_chunk hchunk.le, Option.some.injEq] at hc
  have hnext' : next = linkId w.freeListPageIds (w.pagesNeeded pageSize) (i + 1) := by
    rw [chainNext] at hnext
    rw [linkId]
    split_ifs at hnext ⊢
    · rw [List.getD_eq_getElem?_getD, hnext, Option.getD_some]
    · exact (Option.some.inj hnext).symm
  rw [← Option.some.inj hp, hid, hc, ← hnext']
  exact ⟨rfl, hb⟩

theorem length_chainWrites {writes : List (PageId × Bytes)}
    (h : w.chainWrites pageSize = some writes) : writes.length = w.pagesNeeded pageSize :=
  (exists_of_mapM_range h).1

/-- What the page writes of the chain are. -/
theorem chainWrites_spec {writes : List (PageId × Bytes)}
    (hlen : w.pagesNeeded pageSize ≤ w.freeListPageIds.length)
    (h : w.chainWrites pageSize = some writes) :
    writes.map Prod.fst = w.freeListPageIds.take (w.pagesNeeded pageSize) ∧
      ∀ i (hi : i < w.freeListPageIds.length), i < w.pagesNeeded pageSize → ∃ bytes,
        (w.freeListPageIds[i], bytes) ∈ writes ∧
        freeListEncode w.freeListPageIds[i]
          (linkId w.freeListPageIds (w.pagesNeeded pageSize) (i + 1))
          (chunk w.payload (chainCap pageSize) i) pageSize = some bytes := by
  have hn := length_chainWrites h
  refine ⟨List.ext_getElem (by simp; omega) fun i h₁ h₂ => ?_, fun i hi hw => ?_⟩
  · rw [List.getElem_map, List.getElem_take]
    rw [List.length_map] at h₁
    exact (chainWrites_getElem h (by omega) h₁).1
  · have hw' : i < writes.length := hn ▸ hw
    obtain ⟨h₁, h₂⟩ := chainWrites_getElem h hi hw'
    have hmem := List.getElem_mem hw'
    exact ⟨writes[i].2, by rw [← h₁]; exact hmem, h₂⟩

theorem chainHead_eq {head : PageId}
    (h : w.chainHead pageSize = some head) :
    head = linkId w.freeListPageIds (w.pagesNeeded pageSize) 0 := by
  rw [chainHead] at h
  rw [linkId]
  split_ifs at h ⊢
  · rw [List.getD_eq_getElem?_getD, h, Option.getD_some]
  · exact (Option.some.inj h).symm

theorem persistFreeList_spec {w' : WriterState} {writes : List (PageId × Bytes)} {head : PageId}
    {count : ℕ} (h : w.persistFreeList pageSize = some (w', writes, head, count)) :
    w' = w.growChain pageSize ∧ w'.chainWrites pageSize = some writes ∧
      head = linkId w'.freeListPageIds (w'.pagesNeeded pageSize) 0 ∧
      count = w'.payload.length := by
  obtain ⟨ws, hws, h⟩ := Option.bind_eq_some_iff.1 h
  obtain ⟨hd, hhd, h⟩ := Option.bind_eq_some_iff.1 h
  obtain ⟨rfl, rfl, rfl, rfl⟩ : w.growChain pageSize = w' ∧ ws = writes ∧ hd = head ∧
      w.payload.length = count := by simpa using h
  exact ⟨rfl, hws, chainHead_eq hhd, rfl⟩

theorem length_chunk_le {α : Type*} (l : List α) (cap i : ℕ) : (chunk l cap i).length ≤ cap :=
  List.length_take_le _ _

/-- The free list can be written on any page that holds a header. -/
theorem persistFreeList_isSome (w : WriterState) (hP : 49 ≤ pageSize) :
    ∃ r, w.persistFreeList pageSize = some r := by
  have hlen := (@pagesNeeded_le_growChain w pageSize)
  obtain ⟨ws, hws⟩ : ∃ ws, (w.growChain pageSize).chainWrites pageSize = some ws := by
    refine mapM_range_isSome fun i hi => ?_
    rw [pagesNeeded_growChain] at hi
    have hnext : ∃ next, (w.growChain pageSize).chainNext pageSize i = some next := by
      rw [chainNext]
      split_ifs with hlt
      · exact ⟨_, List.getElem?_eq_getElem (lt_of_lt_of_le hlt hlen)⟩
      · exact ⟨0, rfl⟩
    obtain ⟨next, hnext⟩ := hnext
    have hslice := slice_eq_chunk ((pagesNeeded_spec (w := w) i).1 hi).le
    obtain ⟨bytes, hb⟩ := freeListEncode_isSome (by rw [FREE_LIST_HEADER]; omega)
      ((length_chunk_le w.payload (chainCap pageSize) i).trans_eq (chainCap_eq hP))
      (w.growChain pageSize).freeListPageIds[i] next
    exact ⟨_, by
      simp only [chainPage, List.getElem?_eq_getElem (lt_of_lt_of_le hi hlen), hnext, hslice,
        payload_growChain, hb, Option.bind_eq_bind, Option.bind_some]
      rfl⟩
  obtain ⟨head, hhead⟩ : ∃ head, (w.growChain pageSize).chainHead pageSize = some head := by
    rw [chainHead]
    split_ifs with hpos
    · exact ⟨_, List.getElem?_eq_getElem (lt_of_lt_of_le hpos hlen)⟩
    · exact ⟨0, rfl⟩
  exact ⟨_, by simp only [persistFreeList, hws, hhead]; rfl⟩

end WriterState

/-! ## Reading the chain -/

theorem loadFreeListChain_zero (io : PageIo) (fuel : ℕ) :
    loadFreeListChain io fuel 0 = some ([], []) := by
  cases fuel <;> rw [loadFreeListChain, if_pos rfl]

theorem loadFreeListChain_succ {io : PageIo} {cur next : PageId} {entries : List PageId}
    (hcur : cur ≠ 0) (hdec : freeListDecode cur (io.readPage cur) = some (next, entries))
    (fuel : ℕ) : loadFreeListChain io (fuel + 1) cur =
      (loadFreeListChain io fuel next).map fun r => (entries ++ r.1, cur :: r.2) := by
  rw [loadFreeListChain, if_neg hcur]
  simp only [hdec, Option.bind_eq_bind, Option.bind_some]
  cases loadFreeListChain io fuel next <;> rfl

theorem linkId_of_lt {ids : List PageId} {n i : ℕ} (hi : i < n) (hn : n ≤ ids.length) :
    linkId ids n i = ids[i] := by
  rw [linkId, if_pos hi, List.getD_eq_getElem]

theorem linkId_of_le {ids : List PageId} {n i : ℕ} (hi : n ≤ i) : linkId ids n i = 0 :=
  if_neg (not_lt.2 hi)

theorem linkId_take {ids : List PageId} {n : ℕ} (hn : n ≤ ids.length) (i : ℕ) :
    linkId (ids.take n) n i = linkId ids n i := by
  rcases lt_or_ge i n with hi | hi
  · rw [linkId_of_lt hi hn, linkId_of_lt hi (by rw [List.length_take]; omega), List.getElem_take]
  · rw [linkId_of_le hi, linkId_of_le hi]

/-- **A walk over some pages of a chain** collects what they hold, and goes on behind them. -/
theorem loadFreeListChain_walk {io : PageIo} {ids list : List PageId} {n i m : ℕ}
    (hn : n ≤ ids.length) (hne : ∀ id ∈ ids, id ≠ 0) (hm : i + m ≤ n)
    (hc : ∀ k (hk : k < ids.length), i ≤ k → k < i + m →
      freeListDecode ids[k] (io.readPage ids[k]) =
        some (linkId ids n (k + 1), chunk list (WriterState.chainCap io.pageSize) k)) (fuel : ℕ) :
    loadFreeListChain io (fuel + m) (linkId ids n i) =
      (loadFreeListChain io fuel (linkId ids n (i + m))).map fun r =>
        ((list.drop (i * WriterState.chainCap io.pageSize)).take
          (m * WriterState.chainCap io.pageSize) ++ r.1, (ids.drop i).take m ++ r.2) := by
  induction m generalizing i with
  | zero => simp
  | succ m ih =>
    have hids : i < ids.length := by omega
    have htail := @ih (i + 1) (by omega) fun k hk hi hlt => hc k hk (by omega) (by omega)
    rw [linkId_of_lt (by omega) hn, ← Nat.add_assoc,
      loadFreeListChain_succ (hne _ (List.getElem_mem hids)) (hc i hids le_rfl (by omega)), htail,
      Option.map_map, show i + 1 + m = i + (m + 1) by omega]
    refine Option.map_congr fun r _ => Prod.ext ?_ ?_
    · -- the chunk of this page, then those of the pages behind it
      change chunk _ _ _ ++ (_ ++ r.1) = _ ++ r.1
      rw [← List.append_assoc, chunk, Nat.succ_mul i, ← List.drop_drop, Nat.succ_mul m,
        Nat.add_comm (m * _), List.take_add]
    · change ids[i] :: (_ ++ r.2) = _ ++ r.2
      rw [List.drop_eq_getElem_cons hids, List.take_succ_cons, List.cons_append]

/-- **The walk reads back the list**, and finds the pages that hold it. -/
theorem loadFreeListChain_eq {io : PageIo} {ids list : List PageId} {n i fuel : ℕ}
    (hn : n ≤ ids.length) (hne : ∀ id ∈ ids, id ≠ 0)
    (hc : ∀ k (hk : k < ids.length), i ≤ k → k < n →
      freeListDecode ids[k] (io.readPage ids[k]) =
        some (linkId ids n (k + 1), chunk list (WriterState.chainCap io.pageSize) k))
    (hlen : list.length ≤ n * WriterState.chainCap io.pageSize) (hi : i ≤ n)
    (hfuel : n - i ≤ fuel) : loadFreeListChain io fuel (linkId ids n i) =
      some (list.drop (i * WriterState.chainCap io.pageSize), (ids.take n).drop i) := by
  obtain ⟨f, rfl⟩ := Nat.exists_eq_add_of_le' hfuel
  rw [loadFreeListChain_walk hn hne (by omega) fun k hk hik hlt => hc k hk hik (by omega),
    Nat.add_sub_cancel' hi, linkId_of_le le_rfl, loadFreeListChain_zero, Option.map_some,
    List.append_nil, List.append_nil, List.drop_take, List.take_of_length_le]
  rw [List.length_drop, Nat.sub_mul]
  omega

/-- What a walk collects from the page it starts at. -/
theorem mem_loadFreeListChain {io : PageIo} {fuel : ℕ} {cur : PageId}
    {r : List PageId × List PageId} (hcur : cur ≠ 0) (h : loadFreeListChain io fuel cur = some r) :
    ∃ next entries, freeListDecode cur (io.readPage cur) = some (next, entries) ∧
      entries ⊆ r.1 ∧ cur ∈ r.2 := by
  cases fuel with
  | zero =>
    rw [loadFreeListChain, if_neg hcur] at h
    cases h
  | succ fuel =>
    rw [loadFreeListChain, if_neg hcur] at h
    obtain ⟨⟨next, entries⟩, hdec, h⟩ := Option.bind_eq_some_iff.1 h
    obtain ⟨⟨free, ids⟩, -, h⟩ := Option.bind_eq_some_iff.1 h
    obtain rfl := Option.some.inj h
    exact ⟨next, entries, hdec, List.subset_append_left _ _, List.mem_cons_self⟩

/-- **Every walk along a linked chain ends.** -/
theorem loadFreeListChain_isSome {io : PageIo} {ids : List PageId} (hl : ChainLinked io ids)
    {i fuel : ℕ} {cur : PageId} (hcur : cur = 0 ∨ ids[i]? = some cur)
    (hfuel : ids.length - i ≤ fuel) : ∃ r, loadFreeListChain io fuel cur = some r := by
  induction fuel generalizing i cur with
  | zero =>
    rcases hcur with rfl | hcur
    · exact ⟨_, loadFreeListChain_zero io 0⟩
    · rw [List.getElem?_eq_none (by omega)] at hcur
      cases hcur
  | succ fuel ih =>
    by_cases h0 : cur = 0
    · exact ⟨_, h0 ▸ loadFreeListChain_zero io _⟩
    · have hget := hcur.resolve_left h0
      obtain ⟨hlt, rfl⟩ := List.getElem?_eq_some_iff.1 hget
      obtain ⟨next, list, hdec, hnext⟩ := hl i hlt
      obtain ⟨r, hr⟩ := ih (i := i + 1) hnext (by omega)
      exact ⟨_, by rw [loadFreeListChain_succ h0 hdec, hr, Option.map_some]⟩

/-- The pages of the chain that hold the list are linked. -/
theorem ChainHolds.linked {io : PageIo} {ids list : List PageId} {n : ℕ} (hn : n ≤ ids.length)
    (hc : ChainHolds io ids list n) {i : ℕ} (hi : i < ids.length) (hlt : i < n) :
    ∃ next l, freeListDecode ids[i] (io.readPage ids[i]) = some (next, l) ∧
      (next = 0 ∨ ids[i + 1]? = some next) := by
  refine ⟨_, _, hc i hi hlt, ?_⟩
  rcases lt_or_ge (i + 1) n with h | h
  · exact Or.inr (by rw [linkId_of_lt h hn, List.getElem?_eq_getElem])
  · exact Or.inl (linkId_of_le h)

end CowRaft.Btree
