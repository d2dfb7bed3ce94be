import CowRaft.Btree.Alloc

/-!
# What a put does to the pages of the tree

`Shape io h id`: the pages below `id` decode to a tree of height `h`. This much holds whatever the
keys are, and even where 16-bit offsets wrap. A put builds a tree of the same kind out of the
untouched pages of the old one and of the pages it allocates, and frees exactly the old pages it
replaces: the new tree's pages with the freed ones are the old tree's pages with the allocated ones
(`buildPut_shape`).

The new tree is described on any backend that holds the transaction's writes and agrees with the
old one on the old tree.
-/

namespace CowRaft.Btree

open Bytes HeapTree

/-- The pages below `id` decode to a tree of height `h`. -/
def Shape (io : PageIo) : ℕ → PageId → Prop
  | 0, id => ∃ es, Holds io id (.leaf es)
  | h + 1, id => ∃ ks cs, Holds io id (.internal ks cs) ∧ ∀ c ∈ cs, Shape io h c

/-- The node is the root of a tree of height `h`, once it is written. -/
def NodeShape (io : PageIo) : ℕ → Node → Prop
  | 0, .leaf _ => True
  | h + 1, .internal _ cs => ∀ c ∈ cs, Shape io h c
  | _, _ => False

/-- The pages of the tree below `id`. -/
def treePages (io : PageIo) (h : ℕ) (id : PageId) : List PageId := unfold (children io) h id

/-- The pages below a node. -/
def pagesBelow (io : PageIo) (h : ℕ) (nd : Node) : List PageId :=
  below (children io) h nd.children

variable {io io' : PageIo} {h : ℕ} {id : PageId} {nd : Node}

theorem shape_iff : Shape io h id ↔ ∃ nd, Holds io id nd ∧ NodeShape io h nd := by
  cases h with
  | zero =>
    refine ⟨fun ⟨es, hes⟩ => ⟨.leaf es, hes, trivial⟩, fun ⟨nd, hnd, hs⟩ => ?_⟩
    cases nd with
    | leaf es => exact ⟨es, hnd⟩
    | internal ks cs => exact hs.elim
  | succ h =>
    refine ⟨fun ⟨ks, cs, hnd, hs⟩ => ⟨.internal ks cs, hnd, hs⟩, fun ⟨nd, hnd, hs⟩ => ?_⟩
    cases nd with
    | leaf es => exact hs.elim
    | internal ks cs => exact ⟨ks, cs, hnd, hs⟩

theorem treePages_eq (hnd : Holds io id nd) : treePages io h id = id :: pagesBelow io h nd := by
  rw [treePages, unfold_eq_cons, hnd.children_eq, pagesBelow]

theorem mem_treePages_self (io : PageIo) (h : ℕ) (id : PageId) : id ∈ treePages io h id :=
  mem_unfold_self h id

/-- A tree keeps its shape on a backend that agrees on its pages. -/
theorem Shape.congr (hs : Shape io h id) (hsize : io'.pageSize = io.pageSize)
    (hread : ∀ p ∈ treePages io h id, io'.readPage p = io.readPage p) : Shape io' h id := by
  induction h generalizing id with
  | zero =>
    obtain ⟨es, hes⟩ := hs
    exact ⟨es, hes.congr hsize (hread id (mem_treePages_self ..))⟩
  | succ h ih =>
    obtain ⟨ks, cs, hnd, hcs⟩ := hs
    refine ⟨ks, cs, hnd.congr hsize (hread id (mem_treePages_self ..)), fun c hc => ?_⟩
    refine ih (hcs c hc) fun p hp => hread p ?_
    rw [treePages_eq hnd]
    exact List.mem_cons_of_mem _ (List.mem_flatMap.2 ⟨c, hc, hp⟩)

theorem treePages_congr (hread : ∀ p ∈ treePages io h id, io'.readPage p = io.readPage p) :
    treePages io' h id = treePages io h id :=
  unfold_congr fun p hp => children_congr (hread p hp)

theorem Shape.levelled (hs : Shape io h id) : Levelled (children io) h id := by
  induction h generalizing id with
  | zero =>
    obtain ⟨es, hes⟩ := hs
    rw [Levelled, hes.children_eq, Node.children]
  | succ h ih =>
    obtain ⟨ks, cs, hnd, hcs⟩ := hs
    have hc : children io id = cs := hnd.children_eq
    have hlen : cs.length = ks.length + 1 := hnd.balanced
    rw [Levelled, hc]
    exact ⟨List.ne_nil_of_length_eq_add_one hlen, fun c hc => ih (hcs c hc)⟩

/-- The pages of a tree are those reachable from its root. -/
theorem Shape.mem_treePages_iff (hs : Shape io h id) {p : PageId} :
    p ∈ treePages io h id ↔ Reaches (children io) id p := mem_unfold_iff hs.levelled

theorem Shape.height_unique {h' : ℕ} (hs : Shape io h id) (hs' : Shape io h' id) : h = h' := by
  induction h generalizing h' id with
  | zero =>
    obtain ⟨es, hes⟩ := hs
    cases h' with
    | zero => rfl
    | succ h' =>
      obtain ⟨ks, cs, hnd, -⟩ := hs'
      have h := hes.decode_eq.symm.trans hnd.decode_eq
      cases h
  | succ h ih =>
    obtain ⟨ks, cs, hnd, hcs⟩ := hs
    cases h' with
    | zero =>
      obtain ⟨es, hes⟩ := hs'
      have h := hes.decode_eq.symm.trans hnd.decode_eq
      cases h
    | succ h' =>
      obtain ⟨ks', cs', hnd', hcs'⟩ := hs'
      have hcs_eq : cs = cs' := hnd.children_eq.symm.trans hnd'.children_eq
      have hlen : cs.length = ks.length + 1 := hnd.balanced
      obtain ⟨c, hc⟩ := List.exists_mem_of_length_pos (l := cs) (by omega)
      rw [ih (hcs c hc) (hcs' c (hcs_eq ▸ hc))]

theorem Shape.lt_length_treePages (hs : Shape io h id) :
    h < (treePages io h id).length := by
  induction h generalizing id with
  | zero => simp [treePages, unfold]
  | succ h ih =>
    obtain ⟨ks, cs, hnd, hcs⟩ := hs
    have hlen : cs.length = ks.length + 1 := hnd.balanced
    obtain ⟨c, hc⟩ := List.exists_mem_of_length_pos (l := cs) (by omega)
    have hsub : (treePages io h c).length ≤ (cs.flatMap (treePages io h)).length :=
      (List.sublist_flatten_of_mem (List.mem_map_of_mem hc)).length_le
    rw [treePages_eq hnd, List.length_cons]
    exact Nat.succ_lt_succ ((ih (hcs c hc)).trans_le hsub)

/-! ## Insertion results -/

/-- An insertion result, with what its pages say. -/
inductive NodeResult
  | single (nd : Node)
  | split (left : Node) (sep : Key) (right : Node)

namespace NodeResult

def toResult : NodeResult → InsertResult
  | single nd => .single (nd.toPage 0)
  | split l sep r => .split (l.toPage 0) sep (r.toPage 0)

def nodes : NodeResult → List Node
  | single nd => [nd]
  | split l _ r => [l, r]

end NodeResult

theorem exists_ofEntries_of_leafUpsert {node new : LeafNode} {key : Key} {val : Val}
    (hnew : leafUpsert node key val = some new) : ∃ es, new = .ofEntries 0 es := by
  obtain ⟨r, -, hnew⟩ := Option.bind_eq_some_iff.1 hnew
  cases r with
  | ok idx => exact exists_ofEntries_of_leafUpdate hnew
  | error idx => exact exists_ofEntries_of_leafInsert hnew

theorem insertLeaf_shape {node : LeafNode} {key : Key} {val : Val} {pageSize : ℕ}
    {r : InsertResult} (hr : insertLeaf node key val pageSize = some r) :
    ∃ res : NodeResult, r = res.toResult ∧ ∀ nd ∈ res.nodes, ∃ es, nd = .leaf es := by
  obtain ⟨built, hbuilt, hr⟩ := Option.bind_eq_some_iff.1 hr
  obtain ⟨es, rfl⟩ := exists_ofEntries_of_leafUpsert hbuilt
  split_ifs at hr
  · obtain rfl := Option.some.inj hr
    exact ⟨.single (.leaf es), rfl, by simp [NodeResult.nodes]⟩
  · obtain ⟨⟨l, r'⟩, hsplit, hr⟩ := Option.bind_eq_some_iff.1 hr
    obtain ⟨sep, -, hr⟩ := Option.bind_eq_some_iff.1 hr
    obtain rfl := Option.some.inj hr
    obtain ⟨es₁, es₂, rfl, rfl⟩ := exists_ofEntries_of_leafSplitBySize hsplit
    exact ⟨.split (.leaf es₁) sep (.leaf es₂), rfl, by simp [NodeResult.nodes]⟩

/-- The children of an internal node after child `idx` was replaced by `new`. -/
def spliced (cs : List PageId) (idx : ℕ) (new : List PageId) : List PageId :=
  cs.take idx ++ new ++ cs.drop (idx + 1)

/-- **One step up**: the pages that replace child `idx` are written, and the rebuilt node, in one
or two parts, points to them and to the other children. -/
theorem absorb_shape {txn txn' : WriteTxn} {ks : List Key} {cs : List PageId} {idx : ℕ}
    {res : NodeResult} {r : InsertResult} (hP : txn.pageSize < 65536)
    (hnd : Holds io id (.internal ks cs)) (hio : io.pageSize = txn.pageSize)
    (hidx : idx ≤ ks.length) (hbal : ∀ nd ∈ res.nodes, nd.Balanced)
    (hr : absorb txn (.ofKeys id ks cs) idx txn.pageSize res.toResult = some (txn', r)) :
    ∃ (new : List PageId) (res' : NodeResult), r = res'.toResult ∧ Extends txn new [] txn' ∧
      (∀ nd ∈ res'.nodes, nd.Balanced ∧ ∃ ks cs, nd = .internal ks cs) ∧
      res'.nodes.flatMap Node.children = spliced cs idx new ∧ 0 < new.length ∧
      ∀ io' : PageIo, io'.pageSize = txn.pageSize → Flushed io' txn' →
        List.Forall₂ (Holds io') new res.nodes := by
  have hlen : cs.length = ks.length + 1 := hnd.balanced
  have hsize := hnd.size_le
  rw [Node.size, hio] at hsize
  have hn : ks.length + 2 < 65536 := by
    have := length_le_keysLen ks
    omega
  cases res with
  | single nd =>
    obtain ⟨⟨nid, t⟩, ht, hr⟩ := Option.bind_eq_some_iff.1 hr
    obtain ⟨node, hnode, hr⟩ := Option.bind_eq_some_iff.1 hr
    obtain ⟨rfl, rfl⟩ := Prod.mk.inj (Option.some.inj hr)
    obtain ⟨hext, hholds⟩ := allocWrite_spec hP ht
    obtain ⟨ks', rfl, hcopy⟩ := internalReplaceChild_ofKeys (by omega) hlen hnode
    have hset : cs.set idx nid = spliced cs idx [nid] := by
      rw [List.set_eq_take_append_cons_drop, if_pos (by omega), spliced, List.append_assoc,
        List.singleton_append]
    refine ⟨[nid], .single (.internal ks' (cs.set idx nid)), rfl, hext, ?_, ?_, one_pos, ?_⟩
    · intro nd' hnd'
      obtain rfl := List.mem_singleton.1 hnd'
      exact ⟨by rw [Node.Balanced, List.length_set, hcopy.length_eq, hlen], _, _, rfl⟩
    · simp [NodeResult.nodes, Node.children, hset]
    · intro io' hsize' hfl
      exact .cons (hholds (hbal nd (List.mem_singleton_self _)) io' hsize' hfl) .nil
  | split l sep rt =>
    obtain ⟨⟨lid, t₁⟩, ht₁, hr⟩ := Option.bind_eq_some_iff.1 hr
    obtain ⟨⟨rid, t₂⟩, ht₂, hr⟩ := Option.bind_eq_some_iff.1 hr
    obtain ⟨grown, hgrown, hr⟩ := Option.bind_eq_some_iff.1 hr
    obtain ⟨hext, hplaced⟩ := allocWrite_pair hP ht₁ ht₂
    have hplaced := hplaced (hbal l (by simp [NodeResult.nodes]))
      (hbal rt (by simp [NodeResult.nodes]))
    obtain ⟨ks', rfl, hcopy⟩ := internalInsertSplitChild_ofKeys (by omega) hlen hidx hgrown
    have hspl : cs.take idx ++ lid :: rid :: cs.drop (idx + 1) = spliced cs idx [lid, rid] := by
      simp [spliced]
    rw [hspl] at hr
    have hlen' : (spliced cs idx [lid, rid]).length = ks'.length + 1 := by
      have := hcopy.length_eq
      simp [spliced] at this ⊢
      omega
    split_ifs at hr
    · obtain ⟨rfl, rfl⟩ := Prod.mk.inj (Option.some.inj hr)
      refine ⟨[lid, rid], .single (.internal ks' (spliced cs idx [lid, rid])), rfl, hext, ?_, ?_,
        two_pos, hplaced⟩
      · intro nd' hnd'
        obtain rfl := List.mem_singleton.1 hnd'
        exact ⟨hlen', _, _, rfl⟩
      · simp [NodeResult.nodes, Node.children]
    · obtain ⟨⟨l2, promoted, r2⟩, hsplit, hr⟩ := Option.bind_eq_some_iff.1 hr
      obtain ⟨rfl, rfl⟩ := Prod.mk.inj (Option.some.inj hr)
      have hklen : ks'.length = ks.length + 1 := by
        have := hcopy.length_eq
        simp at this
        omega
      obtain ⟨m, ks₁, ks₂, hm, rfl, rfl, hl₁, hl₂⟩ :=
        internalSplitWithPromotion_ofKeys (by omega) (by omega) hlen' hsplit
      refine ⟨[lid, rid], .split (.internal ks₁ ((spliced cs idx [lid, rid]).take (m + 1))) promoted
        (.internal ks₂ ((spliced cs idx [lid, rid]).drop (m + 1))), rfl, hext, ?_, ?_, two_pos,
        hplaced⟩
      · intro nd' hnd'
        rcases List.mem_cons.1 hnd' with rfl | hnd'
        · refine ⟨?_, _, _, rfl⟩
          rw [Node.Balanced, List.length_take]
          omega
        · obtain rfl := List.mem_singleton.1 hnd'
          refine ⟨?_, _, _, rfl⟩
          rw [Node.Balanced, List.length_drop]
          omega
      · simp [NodeResult.nodes, Node.children]

/-- The pages of freshly written subtrees. -/
theorem flatMap_treePages_perm {new : List PageId} {nds : List Node}
    (hnew : List.Forall₂ (Holds io) new nds) :
    (new.flatMap (treePages io h)).Perm (new ++ nds.flatMap (pagesBelow io h)) := by
  induction hnew with
  | nil => exact List.Perm.refl _
  | @cons p nd new nds hp _ ih =>
    rw [List.flatMap_cons, List.flatMap_cons, treePages_eq hp, List.cons_append, List.cons_append]
    refine List.Perm.cons _ ?_
    have hmid := (ih.append_left (pagesBelow io h nd)).trans (List.perm_append_comm_assoc ..)
    simpa using hmid

theorem shape_of_forall₂ {new : List PageId} {nds : List Node}
    (hnew : List.Forall₂ (Holds io) new nds) (hs : ∀ nd ∈ nds, NodeShape io h nd) :
    ∀ p ∈ new, Shape io h p := by
  induction hnew with
  | nil => simp
  | @cons p nd new nds hp _ ih =>
    intro q hq
    rcases List.mem_cons.1 hq with rfl | hq
    · exact shape_iff.2 ⟨nd, hp, hs nd (by simp)⟩
    · exact ih (fun nd hnd => hs nd (by simp [hnd])) q hq

/-- What an insertion into a subtree leaves behind, on a backend that holds its writes: trees of
the same height, made of the old pages that were not freed and of the allocated ones. -/
def Rebuilt (io : PageIo) (h : ℕ) (nd : Node) (txn : WriteTxn) (res : NodeResult)
    (A F : List PageId) (txn' : WriteTxn) : Prop :=
  ∀ io' : PageIo, io'.pageSize = txn.pageSize →
    (∀ p ∈ pagesBelow io h nd, io'.readPage p = io.readPage p) → Flushed io' txn' →
      (∀ nd' ∈ res.nodes, NodeShape io' h nd') ∧
        (res.nodes.flatMap (pagesBelow io' h) ++ F).Perm (pagesBelow io h nd ++ A)

/-- **Insertion into a subtree.** -/
theorem insertPage_shape {key : Key} {val : Val} {fuel : ℕ} {txn txn' : WriteTxn}
    {r : InsertResult} (hP : txn.pageSize < 65536) (hw : txn.writes = [])
    (hnd : Holds txn.store.io id nd) (hs : NodeShape txn.store.io h nd)
    (hr : insertPage (insertInternal key val txn.pageSize fuel) txn key val txn.pageSize
      (nd.toPage id) = some (txn', r)) :
    ∃ (res : NodeResult) (A F : List PageId), r = res.toResult ∧ Extends txn A F txn' ∧
      (F.length = h ∧ h ≤ A.length) ∧ (∀ p ∈ F, p ∈ pagesBelow txn.store.io h nd) ∧
      (∀ nd' ∈ res.nodes, nd'.Balanced) ∧ Rebuilt txn.store.io h nd txn res A F txn' := by
  induction h generalizing id nd fuel txn' r with
  | zero =>
    cases nd with
    | internal ks cs => exact hs.elim
    | leaf es =>
      obtain ⟨r', hr', heq⟩ := Option.map_eq_some_iff.1 hr
      obtain ⟨rfl, rfl⟩ := Prod.mk.inj heq
      obtain ⟨res, rfl, hleaf⟩ := insertLeaf_shape hr'
      refine ⟨res, [], [], rfl, Extends.refl _, ⟨rfl, le_rfl⟩, by simp, fun nd' hnd' => ?_, ?_⟩
      · obtain ⟨es', rfl⟩ := hleaf nd' hnd'
        trivial
      · refine fun io' _ _ _ => ⟨fun nd' hnd' => ?_, ?_⟩
        · obtain ⟨es', rfl⟩ := hleaf nd' hnd'
          trivial
        · simp [pagesBelow, below]
  | succ h ih =>
    cases nd with
    | leaf es => exact hs.elim
    | internal ks cs =>
      have hlen : cs.length = ks.length + 1 := hnd.balanced
      have hsize := hnd.size_le
      rw [Node.size] at hsize
      have hn : ks.length < 65536 := by
        have := length_le_keysLen ks
        have hP' : txn.store.io.pageSize < 65536 := hP
        omega
      cases fuel with
      | zero => cases hr
      | succ fuel =>
        obtain ⟨idx, hidx, hr⟩ := Option.bind_eq_some_iff.1 hr
        obtain ⟨c, hc, hr⟩ := Option.bind_eq_some_iff.1 hr
        obtain ⟨page, hpage, hr⟩ := Option.bind_eq_some_iff.1 hr
        obtain ⟨⟨txn₁, r₁⟩, hr₁, hr⟩ := Option.bind_eq_some_iff.1 hr
        have hle := internalChildIndex_le hn hidx
        have hcs : cs[idx]? = some c := hc
        have hmem : c ∈ cs := List.mem_of_getElem? hcs
        obtain ⟨ndc, hndc, hsc⟩ := shape_iff.1 (hs c hmem)
        rw [read_eq hw, hndc.decode_eq] at hpage
        obtain rfl := Option.some.inj hpage
        obtain ⟨res₁, A, F, rfl, hext₁, ⟨hF, hA⟩, hFold, hbal₁, hreb⟩ := ih hndc hsc hr₁
        have hextf := hext₁.trans (Extends.free txn₁ c)
        rw [← hextf.pageSize_eq] at hr
        obtain ⟨new, res, rfl, hext₂, hnodes, hchildren, hnew, hplaced⟩ :=
          absorb_shape (hextf.pageSize_eq ▸ hP) hnd hextf.pageSize_eq.symm hle hbal₁ hr
        refine ⟨res, A ++ new, F ++ [c], rfl, ?_, ⟨by simp [hF], ?_⟩, fun p hp => ?_,
          fun nd' h => (hnodes nd' h).1, ?_⟩
        · have hext := hextf.trans hext₂
          simpa using hext
        · rw [List.length_append]
          omega
        · refine List.mem_flatMap.2 ⟨c, hmem, ?_⟩
          change p ∈ treePages txn.store.io h c
          rw [treePages_eq hndc]
          rcases List.mem_append.1 hp with hp | hp
          · exact List.mem_cons_of_mem _ (hFold p hp)
          · exact List.mem_singleton.1 hp ▸ List.mem_cons_self
        -- the backend after the writes
        intro io' hsize' hread hfl
        have hsplit : cs = cs.take idx ++ c :: cs.drop (idx + 1) := by
          obtain ⟨hlt, hget⟩ := List.getElem?_eq_some_iff.1 hcs
          rw [← hget, ← List.drop_eq_getElem_cons hlt, List.take_append_drop]
        have hfl₁ : Flushed io' txn₁ := hext₂.flushed hfl
        have hchild : ∀ q ∈ cs, ∀ p ∈ treePages txn.store.io h q,
            io'.readPage p = txn.store.io.readPage p := fun q hq p hp =>
          hread p (List.mem_flatMap.2 ⟨q, hq, hp⟩)
        obtain ⟨hs₁, hperm⟩ := hreb io' hsize' (fun p hp => hchild c hmem p (by
          rw [treePages_eq hndc]
          exact List.mem_cons_of_mem _ hp)) hfl₁
        have hnew := hplaced io' (hsize'.trans hextf.pageSize_eq.symm) hfl
        have hsnew := shape_of_forall₂ hnew hs₁
        have hpnew := flatMap_treePages_perm (h := h) hnew
        have hold : ∀ q ∈ cs, Shape io' h q ∧ treePages io' h q = treePages txn.store.io h q :=
          fun q hq => ⟨(hs q hq).congr hsize' (hchild q hq), treePages_congr (hchild q hq)⟩
        have hflat : ∀ qs : List PageId, (∀ q ∈ qs, q ∈ cs) →
            qs.flatMap (treePages io' h) = qs.flatMap (treePages txn.store.io h) := fun qs hqs =>
          List.flatMap_congr fun q hq => (hold q (hqs q hq)).2
        constructor
        · intro nd' hnd'
          obtain ⟨-, ks', cs', rfl⟩ := hnodes nd' hnd'
          intro q hq
          have hq' : q ∈ spliced cs idx new := by
            rw [← hchildren]
            exact List.mem_flatMap.2 ⟨_, hnd', hq⟩
          rw [spliced, List.mem_append, List.mem_append] at hq'
          rcases hq' with (hq' | hq') | hq'
          · exact (hold q (List.mem_of_mem_take hq')).1
          · exact hsnew q hq'
          · exact (hold q (List.mem_of_mem_drop hq')).1
        · have hpages : res.nodes.flatMap (pagesBelow io' (h + 1)) =
              (spliced cs idx new).flatMap (treePages io' h) := by
            rw [← hchildren, List.flatMap_assoc]
            rfl
          have hbefore : pagesBelow txn.store.io (h + 1) (.internal ks cs) =
              (cs.take idx).flatMap (treePages txn.store.io h) ++
                (c :: pagesBelow txn.store.io h ndc ++
                  (cs.drop (idx + 1)).flatMap (treePages txn.store.io h)) := by
            rw [← treePages_eq hndc, ← List.flatMap_cons, ← List.flatMap_append, ← hsplit]
            rfl
          rw [hpages, hbefore, spliced, List.flatMap_append, List.flatMap_append,
            hflat _ fun q => List.mem_of_mem_take, hflat _ fun q => List.mem_of_mem_drop,
            List.perm_iff_count]
          intro a
          have h₁ := hpnew.count_eq a
          have h₂ := hperm.count_eq a
          simp only [List.count_append, List.count_cons, List.count_nil] at h₁ h₂ ⊢
          omega

/-! ## The root -/

theorem placeRoot_shape {txn txn' : WriteTxn} {res : NodeResult} {newRoot : PageId}
    (hP : txn.pageSize < 65536) (hbal : ∀ nd ∈ res.nodes, nd.Balanced)
    (hr : placeRoot txn res.toResult = some (newRoot, txn')) :
    ∃ A, Extends txn A [] txn' ∧ 0 < A.length ∧ ∀ io' : PageIo, io'.pageSize = txn.pageSize →
      Flushed io' txn' → (∀ nd ∈ res.nodes, NodeShape io' h nd) → ∃ h', Shape io' h' newRoot ∧
        h ≤ h' ∧ (treePages io' h' newRoot).Perm (A ++ res.nodes.flatMap (pagesBelow io' h)) := by
  cases res with
  | single nd =>
    obtain ⟨hext, hholds⟩ := allocWrite_spec hP hr
    refine ⟨[newRoot], hext, one_pos, fun io' hsize hfl hs => ⟨h, ?_⟩⟩
    have hnd := hholds (hbal nd (by simp [NodeResult.nodes])) io' hsize hfl
    refine ⟨shape_iff.2 ⟨nd, hnd, hs nd (by simp [NodeResult.nodes])⟩, le_rfl, ?_⟩
    rw [treePages_eq hnd]
    simp [NodeResult.nodes]
  | split l sep r =>
    obtain ⟨⟨lid, t₁⟩, ht₁, hr⟩ := Option.bind_eq_some_iff.1 hr
    obtain ⟨⟨rid, t₂⟩, ht₂, hr⟩ := Option.bind_eq_some_iff.1 hr
    have hroot : ((InternalNode.empty.pushKey sep).pushChild lid).pushChild rid =
        .ofKeys 0 [sep] [lid, rid] := by
      rw [InternalNode.empty_eq]
      simp
    obtain ⟨hext₁₂, hplaced⟩ := allocWrite_pair hP ht₁ ht₂
    simp only [hroot] at hr
    obtain ⟨hext₃, hholds₃⟩ := (@allocWrite_spec _ _ (.internal [sep] [lid, rid]))
      (hext₁₂.pageSize_eq ▸ hP) hr
    refine ⟨[lid, rid, newRoot], hext₁₂.trans hext₃, three_pos,
      fun io' hsize hfl hs => ⟨h + 1, ?_⟩⟩
    have hnew := hplaced (hbal l (by simp [NodeResult.nodes]))
      (hbal r (by simp [NodeResult.nodes])) io' hsize (hext₃.flushed hfl)
    have hnd := hholds₃ rfl io' (hsize.trans hext₁₂.pageSize_eq.symm) hfl
    refine ⟨⟨_, _, hnd, shape_of_forall₂ hnew hs⟩, Nat.le_succ h, ?_⟩
    have hp := flatMap_treePages_perm (h := h) hnew
    rw [treePages_eq hnd]
    change (newRoot :: [lid, rid].flatMap (treePages io' h)).Perm _
    rw [List.perm_iff_count]
    intro a
    have h₁ := hp.count_eq a
    simp only [NodeResult.nodes, List.count_append, List.count_cons, List.count_nil] at h₁ ⊢
    omega

/-- **A put rebuilds the tree**: the new tree's pages and the freed ones are the old tree's pages
and the allocated ones; one page is freed for each level of the old tree, and at least as many are
allocated. -/
theorem buildPut_shape {txn txn' : WriteTxn} {key : Key} {val : Val} {newRoot : PageId}
    (hP : txn.pageSize < 65536) (hw : txn.writes = []) (hs : Shape txn.store.io h txn.root)
    (hr : buildPut txn key val = some (newRoot, txn')) :
    ∃ A F, Extends txn A F txn' ∧ (F.length = h + 1 ∧ h + 1 ≤ A.length) ∧
      (∀ p ∈ F, p ∈ treePages txn.store.io h txn.root) ∧ ∀ io' : PageIo,
      io'.pageSize = txn.pageSize →
      (∀ p ∈ treePages txn.store.io h txn.root, io'.readPage p = txn.store.io.readPage p) →
      Flushed io' txn' → ∃ h', Shape io' h' newRoot ∧ h ≤ h' ∧
        (treePages io' h' newRoot ++ F).Perm (treePages txn.store.io h txn.root ++ A) := by
  obtain ⟨page, hpage, hr⟩ := Option.bind_eq_some_iff.1 hr
  obtain ⟨⟨txn₁, r₁⟩, hr₁, hr⟩ := Option.bind_eq_some_iff.1 hr
  obtain ⟨nd, hnd, hsn⟩ := shape_iff.1 hs
  rw [read_eq hw, hnd.decode_eq] at hpage
  obtain rfl := Option.some.inj hpage
  obtain ⟨res, A, F, rfl, hext, ⟨hF, hA⟩, hFold, hbal, hreb⟩ := insertPage_shape hP hw hnd hsn hr₁
  have hextf := hext.trans (Extends.free txn₁ txn.root)
  obtain ⟨B, hextr, hB, hroot⟩ := placeRoot_shape (h := h) (hextf.pageSize_eq ▸ hP) hbal hr
  refine ⟨A ++ B, F ++ [txn.root], by simpa using hextf.trans hextr, ⟨by simp [hF], ?_⟩, ?_, ?_⟩
  · rw [List.length_append]
    omega
  · intro p hp
    rw [treePages_eq hnd]
    rcases List.mem_append.1 hp with hp | hp
    · exact List.mem_cons_of_mem _ (hFold p hp)
    · exact List.mem_singleton.1 hp ▸ List.mem_cons_self
  intro io' hsize hread hfl
  rw [treePages_eq hnd] at hread ⊢
  obtain ⟨hsn', hperm⟩ := hreb io' hsize (fun p hp => hread p (List.mem_cons_of_mem _ hp))
    (hextr.flushed hfl)
  obtain ⟨h', hs', hle, hp'⟩ := hroot io' (hsize.trans hextf.pageSize_eq.symm) hfl hsn'
  refine ⟨h', hs', hle, ?_⟩
  rw [List.perm_iff_count]
  intro a
  have h₁ := hperm.count_eq a
  have h₂ := hp'.count_eq a
  simp only [List.count_append, List.count_cons, List.count_nil] at h₁ h₂ ⊢
  omega

end CowRaft.Btree
