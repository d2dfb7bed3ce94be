import CowRaft.Btree.Tree

/-!
# What a write transaction takes and gives up

`Alloc w A w'` says that the pages `A`, and no others, went from the allocator to the transaction
between two states of the writer. `Extends txn A F txn'` says that a transaction went on by writing
the pages `A`, freshly allocated, and freeing the pages `F`. Nothing reaches the backend before the
commit: `Flushed io txn` says that a backend holds the transaction's writes.
-/

namespace CowRaft.Btree

open Bytes

/-- The ids `A` are taken from the allocator: those popped from the free list and those bumped,
which together with what is left are what there was. -/
structure Alloc (w : WriterState) (A : List PageId) (w' : WriterState) : Prop where
  next_le : w.nextPageId ≤ w'.nextPageId
  perm : (w.freeList ++ List.range' w.nextPageId (w'.nextPageId - w.nextPageId)).Perm
    (A ++ w'.freeList)
  isPrefix : w'.freeList <+: w.freeList
  pending_eq : w'.pendingFree = w.pendingFree
  chain_eq : w'.freeListPageIds = w.freeListPageIds
  /-- The mark moves only once the free list is used up. -/
  frugal : w'.nextPageId = w.nextPageId ∨ w'.freeList = []

namespace Alloc

variable {w w' w'' : WriterState} {A B : List PageId}

theorem refl (w : WriterState) : Alloc w [] w where
  next_le := le_rfl
  perm := by simp
  isPrefix := List.prefix_rfl
  pending_eq := rfl
  chain_eq := rfl
  frugal := Or.inl rfl

theorem trans (h₁ : Alloc w A w') (h₂ : Alloc w' B w'') : Alloc w (A ++ B) w'' where
  next_le := h₁.next_le.trans h₂.next_le
  perm := by
    have hsplit : List.range' w.nextPageId (w''.nextPageId - w.nextPageId) =
        List.range' w.nextPageId (w'.nextPageId - w.nextPageId) ++
          List.range' w'.nextPageId (w''.nextPageId - w'.nextPageId) := by
      have hle₁ := h₁.next_le
      have hle₂ := h₂.next_le
      rw [show w''.nextPageId - w.nextPageId =
          (w'.nextPageId - w.nextPageId) + (w''.nextPageId - w'.nextPageId) by omega,
        ← List.range'_append_1, show w.nextPageId + (w'.nextPageId - w.nextPageId) =
          w'.nextPageId by omega]
    rw [hsplit, ← List.append_assoc]
    have h := (h₁.perm.append_right _).trans ((List.append_assoc ..).symm ▸
      h₂.perm.append_left A)
    rwa [← List.append_assoc] at h
  isPrefix := h₂.isPrefix.trans h₁.isPrefix
  pending_eq := h₂.pending_eq.trans h₁.pending_eq
  chain_eq := h₂.chain_eq.trans h₁.chain_eq
  frugal := by
    rcases h₂.frugal with hnext | hnil
    · refine h₁.frugal.imp hnext.trans fun hnil => ?_
      exact List.prefix_nil.1 (hnil ▸ h₂.isPrefix)
    · exact Or.inr hnil

theorem alloc (w : WriterState) : Alloc w [w.alloc.1] w.alloc.2 := by
  rw [WriterState.alloc]
  rcases hl : w.freeList.getLast? with _ | id
  · rw [List.getLast?_eq_none_iff] at hl
    exact ⟨Nat.le_succ _, by simp [hl], List.prefix_rfl, rfl, rfl, Or.inr hl⟩
  · obtain ⟨l, hl'⟩ := List.getLast?_eq_some_iff.1 hl
    refine ⟨le_rfl, ?_, List.dropLast_prefix _, rfl, rfl, Or.inl rfl⟩
    simp only [hl', Nat.sub_self, List.range'_zero, List.append_nil, List.dropLast_concat]
    exact List.perm_append_comm

/-- What was allocated was free or beyond the mark. -/
theorem mem_or_le (h : Alloc w A w') {p : PageId} (hp : p ∈ A) :
    p ∈ w.freeList ∨ w.nextPageId ≤ p ∧ p < w'.nextPageId := by
  rcases List.mem_append.1 (h.perm.symm.subset (List.mem_append_left _ hp)) with hp | hp
  · exact Or.inl hp
  · rw [List.mem_range'_1] at hp
    exact Or.inr ⟨hp.1, hp.2.trans_eq (Nat.add_sub_cancel' h.next_le)⟩

/-- The free list loses its last pages, one for each page that was taken. -/
theorem freeList_eq (h : Alloc w A w') :
    w'.freeList = w.freeList.take (w.freeList.length - A.length) := by
  have hlen := h.perm.length_eq
  rw [List.length_append, List.length_append, List.length_range'] at hlen
  have hleft : w'.freeList.length = w.freeList.length - A.length := by
    rcases h.frugal with hnext | hnil
    · omega
    · rw [hnil, List.length_nil] at hlen ⊢
      omega
  rw [← hleft]
  exact List.prefix_iff_eq_take.1 h.isPrefix

end Alloc

/-- `txn'` continues `txn` by writing the fresh pages `A` and freeing the pages `F`. -/
structure Extends (txn : WriteTxn) (A F : List PageId) (txn' : WriteTxn) : Prop where
  alloc : Alloc txn.store.writer A txn'.store.writer
  store_eq : txn'.store = { txn.store with writer := txn'.store.writer }
  writes : ∃ ws, txn'.writes = txn.writes ++ ws ∧ ws.map Prod.fst = A
  freed : txn'.freed = txn.freed ++ F

/-- The backend holds what the transaction wrote. -/
def Flushed (io : PageIo) (txn : WriteTxn) : Prop := ∀ w ∈ txn.writes, io.readPage w.1 = w.2

namespace Extends

variable {txn txn' txn'' : WriteTxn} {A B F G : List PageId}

theorem refl (txn : WriteTxn) : Extends txn [] [] txn :=
  ⟨Alloc.refl _, rfl, ⟨[], by simp⟩, by simp⟩

theorem trans (h₁ : Extends txn A F txn') (h₂ : Extends txn' B G txn'') :
    Extends txn (A ++ B) (F ++ G) txn'' where
  alloc := h₁.alloc.trans h₂.alloc
  store_eq := by rw [h₂.store_eq, h₁.store_eq]
  writes := by
    obtain ⟨ws₁, hw₁, hm₁⟩ := h₁.writes
    obtain ⟨ws₂, hw₂, hm₂⟩ := h₂.writes
    exact ⟨ws₁ ++ ws₂, by rw [hw₂, hw₁, List.append_assoc], by rw [List.map_append, hm₁, hm₂]⟩
  freed := by rw [h₂.freed, h₁.freed, List.append_assoc]

theorem free (txn : WriteTxn) (id : PageId) : Extends txn [] [id] (txn.free id) :=
  ⟨Alloc.refl _, rfl, ⟨[], by simp [WriteTxn.free]⟩, rfl⟩

theorem io_eq (h : Extends txn A F txn') : txn'.store.io = txn.store.io := by rw [h.store_eq]

theorem pageSize_eq (h : Extends txn A F txn') : txn'.pageSize = txn.pageSize := by
  rw [WriteTxn.pageSize, h.io_eq, WriteTxn.pageSize]

theorem flushed (h : Extends txn A F txn') {io : PageIo} (hio : Flushed io txn') :
    Flushed io txn := by
  obtain ⟨ws, hw, -⟩ := h.writes
  exact fun w hmem => hio w (hw ▸ List.mem_append_left _ hmem)

end Extends

/-- **Allocating and writing a page**: once flushed, the page holds the node. -/
theorem allocWrite_spec {txn txn' : WriteTxn} {nd : Node} {id id₀ : PageId}
    (hP : txn.pageSize < 65536) (h : txn.allocWrite (nd.toPage id₀) = some (id, txn')) :
    Extends txn [id] [] txn' ∧ (nd.Balanced → ∀ io : PageIo, io.pageSize = txn.pageSize →
      Flushed io txn' → Holds io id nd) := by
  obtain ⟨t, ht, heq⟩ := Option.map_eq_some_iff.1 h
  obtain ⟨rfl, rfl⟩ := Prod.mk.inj heq
  obtain ⟨bytes, hb, ht⟩ := Option.bind_eq_some_iff.1 ht
  obtain rfl := Option.some.inj ht
  refine ⟨⟨Alloc.alloc _, rfl, ⟨[_], rfl, rfl⟩, by simp [WriteTxn.alloc]⟩, ?_⟩
  intro hbal io hsize hio
  have hread := hio _ (List.mem_append_right _ (List.mem_singleton_self _))
  refine (@Holds.of_toBytes _ _ id₀) (hsize ▸ hP) hbal ?_
  rw [hread, hsize]
  exact hb

/-- Two pages in a row. -/
theorem allocWrite_pair {txn t₁ t₂ : WriteTxn} {l r : Node} {lid rid id₀ : PageId}
    (hP : txn.pageSize < 65536) (ht₁ : txn.allocWrite (l.toPage id₀) = some (lid, t₁))
    (ht₂ : t₁.allocWrite (r.toPage id₀) = some (rid, t₂)) :
    Extends txn [lid, rid] [] t₂ ∧ (l.Balanced → r.Balanced → ∀ io : PageIo,
      io.pageSize = txn.pageSize → Flushed io t₂ →
        List.Forall₂ (Holds io) [lid, rid] [l, r]) := by
  obtain ⟨hext₁, hholds₁⟩ := allocWrite_spec hP ht₁
  obtain ⟨hext₂, hholds₂⟩ := allocWrite_spec (hext₁.pageSize_eq ▸ hP) ht₂
  refine ⟨hext₁.trans hext₂, fun hl hr io hsize hfl => ?_⟩
  have hl' := hholds₁ hl io hsize (hext₂.flushed hfl)
  have hr' := hholds₂ hr io (hsize.trans hext₁.pageSize_eq.symm) hfl
  exact .cons hl' (.cons hr' .nil)

/-- A node that fits a page can be written. -/
theorem allocWrite_isSome {txn : WriteTxn} {nd : Node} (id₀ : PageId)
    (h : nd.size ≤ txn.pageSize) : ∃ id txn', txn.allocWrite (nd.toPage id₀) = some (id, txn') := by
  obtain ⟨bytes, hb⟩ := Node.toBytes_isSome h txn.alloc.1 id₀
  have hsize : txn.alloc.2.pageSize = txn.pageSize := rfl
  exact ⟨_, _, by rw [WriteTxn.allocWrite, WriteTxn.write, hsize, hb]; rfl⟩

/-- A transaction that has written nothing reads the backend. -/
theorem read_eq {txn : WriteTxn} (hw : txn.writes = []) (id : PageId) :
    txn.read id = Page.decode id (txn.store.io.readPage id) := by
  rw [WriteTxn.read, hw]
  rfl

end CowRaft.Btree
