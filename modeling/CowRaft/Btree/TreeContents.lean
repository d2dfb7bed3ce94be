import CowRaft.Btree.TreeShape

/-!
# What the tree contains

For page sizes from 49 to 43708 no 16-bit offset wraps, and every split finds a place to cut. The
tree is then a search tree: `TreeOK io h lo id hi` says that the pages below `id` hold a tree of
height `h` for the keys from `lo` up to `hi`. A lookup in it finds what looking the key up in its
entries finds (`get_content`), and a put builds a tree whose entries are those of the old one with
the new binding (`buildPut_content`).
-/

namespace CowRaft.Btree

open Bytes HeapTree

/-- The page sizes for which the tree is a search tree. -/
structure GoodPageSize (pageSize : ℕ) : Prop where
  le : 49 ≤ pageSize
  ge : pageSize ≤ 43708

theorem GoodPageSize.lt {pageSize : ℕ} (hP : GoodPageSize pageSize) : pageSize < 65536 :=
  lt_of_le_of_lt hP.ge (by norm_num)

/-- A page and one more entry of the greatest size have at most `2 ^ 16 - 1` bytes of entries. -/
theorem GoodPageSize.wrap {pageSize : ℕ} (hP : GoodPageSize pageSize) :
    pageSize + maxKvSize pageSize ≤ 65542 := by
  have := hP.ge
  rw [maxKvSize, INTERNAL_HEADER]
  omega

/-- Two separators of the greatest size and three children fit a page. -/
theorem GoodPageSize.fit {pageSize : ℕ} (hP : GoodPageSize pageSize) :
    39 + 2 * maxKvSize pageSize ≤ pageSize := by
  have := hP.le
  rw [maxKvSize, INTERNAL_HEADER]
  omega

/-- The entry is small enough to be accepted. -/
def Small (pageSize : ℕ) (e : Key × Val) : Prop :=
  e.1.length + e.2.length ≤ maxKvSize pageSize

/-- The node is the root of a search tree of height `h` for the keys from `lo` up to `hi`, once it
is written. -/
def NodeOK (io : PageIo) : ℕ → Key → Node → WithTop Key → Prop
  | 0, lo, .leaf es, hi =>
    SortedKeys es ∧ InRange lo hi es ∧ es ≠ [] ∧ ∀ e ∈ es, Small io.pageSize e
  | h + 1, lo, .internal ks cs, hi =>
    ks ≠ [] ∧ (∀ k ∈ ks, k.length ≤ maxKvSize io.pageSize) ∧
      Chain (fun lo c hi => ∃ nd, Holds io c nd ∧ NodeOK io h lo nd hi) lo ks cs hi
  | _, _, _, _ => False

/-- The pages below `id` hold a search tree of height `h` for the keys from `lo` up to `hi`. -/
def TreeOK (io : PageIo) (h : ℕ) (lo : Key) (id : PageId) (hi : WithTop Key) : Prop :=
  ∃ nd, Holds io id nd ∧ NodeOK io h lo nd hi

/-- The entries of the tree below a node. -/
def nodeEntries (io : PageIo) : ℕ → Node → List (Key × Val)
  | _, .leaf es => es
  | 0, .internal _ _ => []
  | h + 1, .internal _ cs => cs.flatMap (entriesAt io h)

variable {io io' : PageIo} {h : ℕ} {lo : Key} {id : PageId} {hi : WithTop Key} {nd : Node}

theorem NodeOK.shape (hok : NodeOK io h lo nd hi) : NodeShape io h nd := by
  induction h generalizing lo nd hi with
  | zero =>
    cases nd with
    | leaf es => trivial
    | internal ks cs => exact hok
  | succ h ih =>
    cases nd with
    | leaf es => exact hok
    | internal ks cs =>
      obtain ⟨-, -, hchain⟩ := hok
      intro c hc
      obtain ⟨lo', hi', nd', hnd', hok'⟩ := hchain.forall_mem c hc
      exact shape_iff.2 ⟨nd', hnd', ih hok'⟩

theorem NodeOK.balanced (hok : NodeOK io h lo nd hi) : nd.Balanced := by
  cases nd with
  | leaf es => trivial
  | internal ks cs =>
    cases h with
    | zero => exact hok.elim
    | succ h => exact hok.2.2.length_eq

theorem TreeOK.shape (hok : TreeOK io h lo id hi) : Shape io h id := by
  obtain ⟨nd, hnd, hok⟩ := hok
  exact shape_iff.2 ⟨nd, hnd, hok.shape⟩

theorem entriesAt_eq (hP : io.pageSize < 65536) (hnd : Holds io id nd) (hs : NodeShape io h nd) :
    entriesAt io h id = nodeEntries io h nd := by
  cases h with
  | zero =>
    cases nd with
    | leaf es => exact hnd.leafEntries_eq hP
    | internal ks cs => exact hs.elim
  | succ h =>
    cases nd with
    | leaf es => exact hs.elim
    | internal ks cs =>
      rw [entriesAt, hnd.children_eq]
      rfl

/-- A tree keeps its order on a backend that agrees on its pages. -/
theorem TreeOK.congr (hok : TreeOK io h lo id hi) (hsize : io'.pageSize = io.pageSize)
    (hread : ∀ p ∈ treePages io h id, io'.readPage p = io.readPage p) : TreeOK io' h lo id hi := by
  induction h generalizing lo id hi with
  | zero =>
    obtain ⟨nd, hnd, hok⟩ := hok
    refine ⟨nd, hnd.congr hsize (hread id (mem_treePages_self ..)), ?_⟩
    cases nd with
    | leaf es =>
      rw [NodeOK, hsize]
      exact hok
    | internal ks cs => exact hok
  | succ h ih =>
    obtain ⟨nd, hnd, hok⟩ := hok
    refine ⟨nd, hnd.congr hsize (hread id (mem_treePages_self ..)), ?_⟩
    cases nd with
    | leaf es => exact hok
    | internal ks cs =>
      obtain ⟨hne, hlen, hchain⟩ := hok
      refine ⟨hne, hsize ▸ hlen, hchain.mono fun lo' c hi' hc hc' => ih hc' fun p hp => hread p ?_⟩
      rw [treePages_eq hnd]
      exact List.mem_cons_of_mem _ (List.mem_flatMap.2 ⟨c, hc, hp⟩)

/-- **The entries of a search tree** are sorted, in its range, and not empty. -/
theorem TreeOK.piece (hP : io.pageSize < 65536) (hok : TreeOK io h lo id hi) :
    Piece (entriesAt io h) lo id hi := by
  induction h generalizing lo id hi with
  | zero =>
    obtain ⟨nd, hnd, hok⟩ := hok
    cases nd with
    | internal ks cs => exact hok.elim
    | leaf es =>
      obtain ⟨hs, hr, hne, -⟩ := hok
      have he : entriesAt io 0 id = es := hnd.leafEntries_eq hP
      exact ⟨he ▸ hs, he ▸ hr, he ▸ hne⟩
  | succ h ih =>
    obtain ⟨nd, hnd, hok⟩ := hok
    cases nd with
    | leaf es => exact hok.elim
    | internal ks cs =>
      obtain ⟨-, -, hchain⟩ := hok
      obtain ⟨hs, hr, hne⟩ := Chain.piece (fun lo' c hi' hc => @ih lo' c hi' hc) hchain
      have he : entriesAt io (h + 1) id = cs.flatMap (entriesAt io h) := by
        rw [entriesAt, hnd.children_eq]
        rfl
      exact ⟨he ▸ hs, he ▸ hr, he ▸ hne⟩

/-! ## Lookups -/

theorem leafGet_ofEntries {key : Key} {es : List (Key × Val)} (hs : SortedKeys es)
    (hlen : entriesLen es < 65536) :
    leafGet (.ofEntries id es) key = some (lookupKey key es) := by
  obtain ⟨r, hr, hres⟩ := (@leafSearch_spec _ id key) hs hlen
  rw [leafGet, hr, Option.bind_some, lookup_of_searchResult hs hres]
  cases r with
  | error i => rfl
  | ok i =>
    obtain ⟨v, hv⟩ := hres
    simp only [LeafNode.getVal_ofEntries hlen hv, hv, Option.map_some]

/-- **A lookup finds what the entries say.** -/
theorem getLoop_content (hP : io.pageSize < 65536) {fuel : ℕ} {key : Key} (hfuel : h ≤ fuel)
    (hnd : Holds io id nd) (hok : NodeOK io h lo nd hi) (hlo : lo ≤ key)
    (hhi : (key : WithTop Key) < hi) :
    getLoop io key fuel (nd.toPage id) = some (lookupKey key (nodeEntries io h nd)) := by
  induction h generalizing id nd lo hi fuel with
  | zero =>
    cases nd with
    | internal ks cs => exact hok.elim
    | leaf es =>
      have hsize := hnd.size_le
      rw [Node.size] at hsize
      rw [Node.toPage, getLoop_leaf]
      exact leafGet_ofEntries hok.1 (by omega)
  | succ h ih =>
    cases nd with
    | leaf es => exact hok.elim
    | internal ks cs =>
      obtain ⟨fuel, rfl⟩ : ∃ f, fuel = f + 1 := ⟨fuel - 1, by omega⟩
      obtain ⟨-, -, hchain⟩ := hok
      have hpiece : ∀ lo c hi, TreeOK io h lo c hi → Piece (entriesAt io h) lo c hi :=
        fun lo c hi hc => hc.piece hP
      have hsize := hnd.size_le
      rw [Node.size] at hsize
      have hsorted : ks.Pairwise (· < ·) :=
        Chain.pairwise_keys (fun lo c hi hc => (hpiece lo c hi hc).lt) hchain
      obtain ⟨idx, hidx, hle, hbelow, habove⟩ :=
        (@internalChildIndex_spec _ cs id key) hsorted (by omega)
      obtain ⟨a, c, b, hc, ⟨ndc, hndc, hokc⟩, hb, ha⟩ := hchain.focus hle
      have hak := hb.lower_le hlo hbelow
      have hbk := ha.lt_upper hhi habove
      have hget : (InternalNode.ofKeys id ks cs).getChild idx = some c := hc
      rw [Node.toPage, getLoop_internal, hidx, Option.bind_some, hget, Option.bind_some,
        hndc.decode_eq, Option.bind_some, ih (by omega) hndc hokc hak hbk,
        ← entriesAt_eq hP hndc hokc.shape]
      obtain ⟨hlt, hget⟩ := List.getElem?_eq_some_iff.1 hc
      have hsplit : cs = cs.take idx ++ c :: cs.drop (idx + 1) := by
        rw [← hget, ← List.drop_eq_getElem_cons hlt, List.take_append_drop]
      have hfocus := lookup_focus hpiece (c := c) hb ha hak hbk
      rw [← hsplit] at hfocus
      rw [nodeEntries, hfocus]

/-! ## Insertion into a leaf -/

theorem entriesLen_upsert_le (es : List (Key × Val)) (key : Key) (val : Val) :
    entriesLen (upsert key val es) ≤ entriesLen es + (4 + key.length + val.length) := by
  induction es with
  | nil => simp [upsert]
  | cons e es ih =>
    rw [upsert]
    split_ifs <;> simp only [entriesLen_cons] at ih ⊢ <;> omega

/-- An insertion result fits: each page does, and the separator is no longer than a key. -/
def NodeResult.Fits (pageSize : ℕ) : NodeResult → Prop
  | .single nd => nd.size ≤ pageSize
  | .split l sep r => l.size ≤ pageSize ∧ r.size ≤ pageSize ∧ sep.length ≤ maxKvSize pageSize

/-- An insertion result is a search tree, or two, for the keys from `lo` up to `hi`, with the
entries `m`. -/
def NodeResult.OK (io : PageIo) (h : ℕ) (lo : Key) (hi : WithTop Key) (m : List (Key × Val)) :
    NodeResult → Prop
  | .single nd => NodeOK io h lo nd hi ∧ nodeEntries io h nd = m
  | .split l sep r =>
    NodeOK io h lo l sep ∧ NodeOK io h sep r hi ∧ nodeEntries io h l ++ nodeEntries io h r = m

/-- **Insertion into a leaf.** -/
theorem insertLeaf_content {pageSize : ℕ} {key : Key} {val : Val} {es : List (Key × Val)}
    (hP : GoodPageSize pageSize) (hs : SortedKeys es) (hr : InRange lo hi es)
    (hmax : ∀ e ∈ es, Small pageSize e) (hsize : 11 + entriesLen es ≤ pageSize) (hlo : lo ≤ key)
    (hhi : (key : WithTop Key) < hi) (hkv : Small pageSize (key, val)) :
    ∃ res : NodeResult, insertLeaf (.ofEntries id es) key val pageSize = some res.toResult ∧
      res.Fits pageSize ∧ ∀ io : PageIo, io.pageSize = pageSize →
        res.OK io 0 lo hi (upsert key val es) := by
  have hfit := hP.fit
  have hwrap := hP.wrap
  have hlen := entriesLen_upsert_le es key val
  have hkv' : key.length + val.length ≤ maxKvSize pageSize := hkv
  have hbuilt : leafUpsert (.ofEntries id es) key val = some (.ofEntries 0 (upsert key val es)) :=
    leafUpsert_ofEntries hs (by omega)
  have hs' := hs.upsert key val
  have hr' := hr.upsert val hlo hhi
  have hmax' : ∀ e ∈ upsert key val es, Small pageSize e := fun e he => by
    rcases mem_upsert he with rfl | he
    · exact hkv
    · exact hmax e he
  by_cases hsmall : 11 + entriesLen (upsert key val es) ≤ pageSize
  · refine ⟨.single (.leaf (upsert key val es)), ?_, hsmall, fun io hio => ?_⟩
    · simp only [insertLeaf, hbuilt, Option.bind_eq_bind, Option.bind_some,
        LeafNode.nbytes_ofEntries, hsmall, if_true]
      rfl
    · exact ⟨⟨hs', hr', upsert_ne_nil _ _ _, hio ▸ hmax'⟩, rfl⟩
  · have hmax₄ : ∀ e ∈ upsert key val es,
        4 + e.1.length + e.2.length ≤ 4 + maxKvSize pageSize := fun e he => by
      have h : e.1.length + e.2.length ≤ maxKvSize pageSize := hmax' e he
      omega
    obtain ⟨m₁, m, hcut⟩ := (@exists_leafCut _ 0) (not_le.1 hsmall) hmax₄ (by omega) (by omega)
      (by omega)
    obtain ⟨hfl, hfr, hmlt⟩ := And.intro hcut.left_fits (And.intro hcut.right_fits hcut.lt)
    have hm : 0 < m := hcut.pos.trans_le hcut.le
    have hsplit := hcut.leafSplitBySize_eq hP.lt (by omega)
    obtain ⟨e, hget⟩ : ∃ e, (upsert key val es)[m]? = some e :=
      ⟨_, List.getElem?_eq_getElem hmlt⟩
    obtain ⟨es₁, es₂, heq, hlen₁⟩ := exists_eq_append_of_getElem? hget
    rw [heq, ← hlen₁, List.take_left] at hfl
    rw [heq, ← hlen₁, List.drop_left] at hfr
    rw [heq, ← hlen₁, List.take_left, List.drop_left] at hsplit
    have hsep : (LeafNode.ofEntries 0 (e :: es₂)).getKey 0 = some e.1 :=
      LeafNode.getKey_ofEntries (by omega) rfl
    have he : e ∈ upsert key val es := heq ▸ by simp
    rw [heq] at hs' hr' hmax'
    have hne : es₁ ≠ [] := List.ne_nil_of_length_pos (by omega)
    have hlt : ∀ x ∈ es₁, x.1 < e.1 := fun x hx =>
      (SortedKeys.append_iff.1 hs').2.2 x hx e (by simp)
    have hge : ∀ x ∈ e :: es₂, e.1 ≤ x.1 := fun x hx => by
      rcases List.mem_cons.1 hx with rfl | hx
      · exact le_rfl
      · exact ((SortedKeys.cons_iff.1 hs'.right).1 x hx).le
    refine ⟨.split (.leaf es₁) e.1 (.leaf (e :: es₂)), ?_, ⟨hfl, hfr, ?_⟩,
      fun io hio => ⟨?_, ?_, ?_⟩⟩
    · simp only [insertLeaf, hbuilt, Option.bind_eq_bind, Option.bind_some,
        LeafNode.nbytes_ofEntries, hsmall, if_false, heq ▸ hsplit, hsep]
      rfl
    · have h : e.1.length + e.2.length ≤ maxKvSize pageSize := hmax' e (by simp)
      omega
    · refine ⟨hs'.left, fun x hx => ⟨(hr' x (List.mem_append_left _ hx)).1, ?_⟩, hne,
        fun x hx => ?_⟩
      · exact WithTop.coe_lt_coe.2 (hlt x hx)
      · exact hio ▸ hmax' x (List.mem_append_left _ hx)
    · refine ⟨hs'.right, fun x hx => ⟨hge x hx, (hr' x (List.mem_append_right _ hx)).2⟩,
        List.cons_ne_nil _ _, fun x hx => ?_⟩
      exact hio ▸ hmax' x (List.mem_append_right _ hx)
    · exact heq.symm

/-! ## One level up -/

/-- An insertion result is written to one page or two, which can then replace a child in a chain:
`new` are the pages and `seps` the separators between them. -/
structure Attached (io : PageIo) (h : ℕ) (a : Key) (b : WithTop Key) (m : List (Key × Val))
    (seps : List Key) (new : List PageId) : Prop where
  chain : Chain (TreeOK io h) a seps new b
  entries : new.flatMap (entriesAt io h) = m

/-- The separator of an insertion result, if it has one. -/
def NodeResult.seps : NodeResult → List Key
  | .single _ => []
  | .split _ sep _ => [sep]

theorem NodeResult.OK.attached {res : NodeResult} {a : Key} {b : WithTop Key}
    {m : List (Key × Val)} {new : List PageId} (hP : io.pageSize < 65536)
    (hok : res.OK io h a b m) (hnew : List.Forall₂ (Holds io) new res.nodes) :
    Attached io h a b m res.seps new := by
  cases res with
  | single nd =>
    obtain ⟨p, hp, rfl⟩ : ∃ p, Holds io p nd ∧ new = [p] := by
      cases hnew with
      | cons hp hnil =>
        cases hnil
        exact ⟨_, hp, rfl⟩
    obtain ⟨hnd, hm⟩ := hok
    refine ⟨.last ⟨nd, hp, hnd⟩, ?_⟩
    rw [List.flatMap_singleton, entriesAt_eq hP hp hnd.shape, hm]
  | split l sep r =>
    obtain ⟨p, q, hp, hq, rfl⟩ : ∃ p q, Holds io p l ∧ Holds io q r ∧ new = [p, q] := by
      cases hnew with
      | cons hp hnew =>
        cases hnew with
        | cons hq hnil =>
          cases hnil
          exact ⟨_, _, hp, hq, rfl⟩
    obtain ⟨hl, hr, hm⟩ := hok
    refine ⟨.cons ⟨l, hp, hl⟩ (.last ⟨r, hq, hr⟩), ?_⟩
    rw [List.flatMap_cons, List.flatMap_singleton, entriesAt_eq hP hp hl.shape,
      entriesAt_eq hP hq hr.shape, hm]

theorem NodeResult.OK.balanced {res : NodeResult} {m : List (Key × Val)}
    (hok : res.OK io h lo hi m) : ∀ nd ∈ res.nodes, nd.Balanced := by
  cases res with
  | single nd =>
    intro nd' hnd'
    obtain rfl := List.mem_singleton.1 hnd'
    exact hok.1.balanced
  | split l sep r =>
    intro nd' hnd'
    rcases List.mem_cons.1 hnd' with rfl | hnd'
    · exact hok.1.balanced
    · obtain rfl := List.mem_singleton.1 hnd'
      exact hok.2.1.balanced

/-- The separators of an internal node around what replaces child `idx`. -/
def splicedKeys (ks : List Key) (idx : ℕ) (seps : List Key) : List Key :=
  ks.take idx ++ (seps ++ ks.drop idx)

/-- **One step up succeeds**, and rebuilds the node around what replaces child `idx`. -/
theorem absorb_isSome {txn : WriteTxn} {ks : List Key} {cs : List PageId} {idx : ℕ}
    {res : NodeResult} (hP : GoodPageSize txn.pageSize) (hlen : cs.length = ks.length + 1)
    (hsize : 11 + keysLen ks + 8 * cs.length ≤ txn.pageSize)
    (hks : ∀ k ∈ ks, k.length ≤ maxKvSize txn.pageSize) (hidx : idx ≤ ks.length)
    (hfit : res.Fits txn.pageSize) :
    ∃ (txn' : WriteTxn) (new : List PageId) (res' : NodeResult),
      absorb txn (.ofKeys id ks cs) idx txn.pageSize res.toResult = some (txn', res'.toResult) ∧
      res'.Fits txn.pageSize ∧ Extends txn new [] txn' ∧
      ((∀ nd ∈ res.nodes, nd.Balanced) → ∀ io' : PageIo, io'.pageSize = txn.pageSize →
        Flushed io' txn' → List.Forall₂ (Holds io') new res.nodes) ∧
      (res' = .single (.internal (splicedKeys ks idx res.seps) (spliced cs idx new)) ∨
        ∃ m p, 0 < m ∧ m + 1 < (splicedKeys ks idx res.seps).length ∧
          (splicedKeys ks idx res.seps)[m]? = some p ∧
          res' = .split (.internal ((splicedKeys ks idx res.seps).take m)
            ((spliced cs idx new).take (m + 1))) p
            (.internal ((splicedKeys ks idx res.seps).drop (m + 1))
              ((spliced cs idx new).drop (m + 1)))) := by
  have hmax := hP.fit
  have hwrap := hP.wrap
  have hP₂ := hP.ge
  have hklen := length_le_keysLen ks
  have hkf : keysLen ks < 65536 := by omega
  have hn : ks.length + 1 < 65536 := by omega
  cases res with
  | single nd =>
    obtain ⟨nid, t, ht⟩ := (@allocWrite_isSome txn) 0 hfit
    obtain ⟨node, hnode⟩ := (@internalReplaceChild_isSome _ _ id) hkf hn hlen idx nid
    obtain ⟨ks', rfl, hcopy⟩ := internalReplaceChild_ofKeys hn hlen hnode
    rw [hcopy.exact hkf] at hnode
    have hset : cs.set idx nid = spliced cs idx [nid] := by
      rw [List.set_eq_take_append_cons_drop, if_pos (by omega), spliced, List.append_assoc,
        List.singleton_append]
    have hkeys : splicedKeys ks idx (NodeResult.single nd).seps = ks := by
      simp [splicedKeys, NodeResult.seps]
    obtain ⟨hext, hholds⟩ := allocWrite_spec hP.lt ht
    refine ⟨t, [nid], .single (.internal ks (spliced cs idx [nid])), ?_, ?_, hext,
      fun hbal io' hio' hfl => .cons (hholds (hbal nd List.mem_cons_self) io' hio' hfl) .nil,
      Or.inl (by rw [hkeys])⟩
    · simp only [NodeResult.toResult, absorb, ht, hnode, Option.bind_eq_bind, Option.bind_some,
        hset]
      rfl
    · rw [NodeResult.Fits, Node.size, ← hset, List.length_set]
      exact hsize
  | split l sep r =>
    obtain ⟨hl, hr, hsep⟩ := hfit
    obtain ⟨lid, t₁, ht₁⟩ := (@allocWrite_isSome txn) 0 hl
    have hext₁ := (allocWrite_spec hP.lt ht₁).1
    obtain ⟨rid, t₂, ht₂⟩ := (@allocWrite_isSome t₁) 0 (hext₁.pageSize_eq ▸ hr)
    obtain ⟨hext, hplaced⟩ := allocWrite_pair hP.lt ht₁ ht₂
    have hplaced : (∀ nd ∈ (NodeResult.split l sep r).nodes, nd.Balanced) → _ := fun hbal =>
      hplaced (hbal l (by simp [NodeResult.nodes])) (hbal r (by simp [NodeResult.nodes]))
    obtain ⟨grown, hgrown⟩ :=
      (@internalInsertSplitChild_isSome _ _ id) hkf hn hlen hidx sep lid rid
    obtain ⟨ks', rfl, hcopy⟩ := internalInsertSplitChild_ofKeys hn hlen hidx hgrown
    have hkeys : splicedKeys ks idx (NodeResult.split l sep r).seps =
        ks.take idx ++ sep :: ks.drop idx := by
      simp [splicedKeys, NodeResult.seps]
    have hspl : cs.take idx ++ lid :: rid :: cs.drop (idx + 1) = spliced cs idx [lid, rid] := by
      simp [spliced]
    rw [hcopy.exact hkf, ← hkeys, hspl] at hgrown
    obtain ⟨gk, hgk⟩ : ∃ gk, splicedKeys ks idx (NodeResult.split l sep r).seps = gk := ⟨_, rfl⟩
    have hgsize : keysLen gk = keysLen ks + (2 + sep.length) := by
      have hsum : keysLen (ks.take idx) + keysLen (ks.drop idx) = keysLen ks := by
        rw [← keysLen_append, List.take_append_drop]
      rw [← hgk, hkeys, keysLen_append, keysLen_cons]
      omega
    have hglen : (spliced cs idx [lid, rid]).length = gk.length + 1 := by
      rw [← hgk, hkeys]
      simp [spliced]
      omega
    have hgk_len : gk.length = ks.length + 1 := by
      rw [← hgk, hkeys]
      simp
      omega
    have hgmax : ∀ k ∈ gk, k.length ≤ maxKvSize txn.pageSize := fun k hk => by
      rw [← hgk, hkeys, List.mem_append, List.mem_cons] at hk
      rcases hk with hk | rfl | hk
      · exact hks k (List.mem_of_mem_take hk)
      · exact hsep
      · exact hks k (List.mem_of_mem_drop hk)
    rw [hgk] at hgrown ⊢
    by_cases hsmall : 11 + keysLen gk + 8 * (spliced cs idx [lid, rid]).length ≤ txn.pageSize
    · refine ⟨t₂, [lid, rid], .single (.internal gk (spliced cs idx [lid, rid])), ?_, hsmall,
        hext, hplaced, Or.inl rfl⟩
      simp only [NodeResult.toResult, absorb, ht₁, ht₂, hgrown, Option.bind_eq_bind,
        Option.bind_some, InternalNode.nbytes_ofKeys, hsmall, if_true]
      rfl
    · obtain ⟨m₁, m, hcut⟩ := (@exists_internalCut _ _ 0) hglen hgmax hmax (not_le.1 hsmall)
        (by omega) hwrap
      obtain ⟨hfl, hfr, hmlt⟩ := And.intro hcut.left_fits (And.intro hcut.right_fits hcut.lt)
      have hm : 0 < m := hcut.pos.trans_le hcut.le
      obtain ⟨p, hp⟩ : ∃ p, gk[m]? = some p := ⟨_, List.getElem?_eq_getElem (by omega)⟩
      have hsplit := hcut.internalSplitWithPromotion_eq hP.lt (by omega) hglen hp
      refine ⟨t₂, [lid, rid], .split (.internal (gk.take m) ((spliced cs idx [lid, rid]).take
        (m + 1))) p (.internal (gk.drop (m + 1)) ((spliced cs idx [lid, rid]).drop (m + 1))), ?_,
        ⟨?_, ?_, hgmax p (List.mem_of_getElem? hp)⟩, hext, hplaced,
        Or.inr ⟨m, p, hm, hmlt, hp, rfl⟩⟩
      · simp only [NodeResult.toResult, absorb, ht₁, ht₂, hgrown, Option.bind_eq_bind,
          Option.bind_some, InternalNode.nbytes_ofKeys, hsmall, if_false, hsplit]
        rfl
      · rw [Node.size, List.length_take, hglen, Nat.min_eq_left (by omega)]
        exact hfl
      · rw [Node.size, List.length_drop, hglen,
          show gk.length + 1 - (m + 1) = gk.length - m by omega]
        exact hfr

/-- A chain of search trees makes a search tree, in one node or cut at a separator. -/
theorem NodeResult.ok_of_chain {ks : List Key} {cs : List PageId} {m : List (Key × Val)}
    {res : NodeResult} (hchain : Chain (TreeOK io h) lo ks cs hi) (hne : ks ≠ [])
    (hmax : ∀ k ∈ ks, k.length ≤ maxKvSize io.pageSize) (hm : cs.flatMap (entriesAt io h) = m)
    (hres : res = .single (.internal ks cs) ∨ ∃ i p, 0 < i ∧ i + 1 < ks.length ∧ ks[i]? = some p ∧
      res = .split (.internal (ks.take i) (cs.take (i + 1))) p
        (.internal (ks.drop (i + 1)) (cs.drop (i + 1)))) :
    res.OK io (h + 1) lo hi m := by
  rcases hres with rfl | ⟨i, p, hpos, hlt, hp, rfl⟩
  · exact ⟨⟨hne, hmax, hchain⟩, hm⟩
  · obtain ⟨hl, hr⟩ := hchain.cut hp
    refine ⟨⟨?_, fun k hk => hmax k (List.mem_of_mem_take hk), hl⟩,
      ⟨?_, fun k hk => hmax k (List.mem_of_mem_drop hk), hr⟩, ?_⟩
    · exact List.ne_nil_of_length_pos (by rw [List.length_take]; omega)
    · exact List.ne_nil_of_length_pos (by rw [List.length_drop]; omega)
    · rw [nodeEntries, nodeEntries, ← List.flatMap_append, List.take_append_drop, hm]

/-- What replaces child `idx` takes its place in the chain, and its entries theirs. -/
theorem Attached.splice {ks : List Key} {cs : List PageId} {idx : ℕ} {seps : List Key}
    {new : List PageId} {a : Key} {c : PageId} {b : WithTop Key} {key : Key} {val : Val}
    (hP : io.pageSize < 65536) (hsize : io'.pageSize = io.pageSize)
    (hread : ∀ q ∈ cs, ∀ p ∈ treePages io h q, io'.readPage p = io.readPage p)
    (hc : cs[idx]? = some c) (hb : ChainBefore (TreeOK io h) lo (ks.take idx) (cs.take idx) a)
    (ha : ChainAfter (TreeOK io h) b (ks.drop idx) (cs.drop (idx + 1)) hi) (hlo : a ≤ key)
    (hhi : (key : WithTop Key) < b)
    (hnew : Attached io' h a b (upsert key val (entriesAt io h c)) seps new) :
    Chain (TreeOK io' h) lo (splicedKeys ks idx seps) (spliced cs idx new) hi ∧
      (spliced cs idx new).flatMap (entriesAt io' h) =
        upsert key val (cs.flatMap (entriesAt io h)) := by
  have hmove : ∀ lo q hi, q ∈ cs → TreeOK io h lo q hi → TreeOK io' h lo q hi :=
    fun lo q hi hq hok => hok.congr hsize (hread q hq)
  have hsame : ∀ qs : List PageId, (∀ q ∈ qs, q ∈ cs) →
      qs.flatMap (entriesAt io' h) = qs.flatMap (entriesAt io h) := fun qs hqs =>
    List.flatMap_congr fun q hq => entriesAt_congr (hread q (hqs q hq))
  obtain ⟨hlt, hget⟩ := List.getElem?_eq_some_iff.1 hc
  have hsplit : cs = cs.take idx ++ c :: cs.drop (idx + 1) := by
    rw [← hget, ← List.drop_eq_getElem_cons hlt, List.take_append_drop]
  constructor
  · have hb' := hb.mono fun lo q hi hq => hmove lo q hi (List.mem_of_mem_take hq)
    have ha' := ha.mono fun lo q hi hq => hmove lo q hi (List.mem_of_mem_drop hq)
    have hchain := Chain.append hb' (hnew.chain.append_after ha')
    rwa [← List.append_assoc (cs.take idx)] at hchain
  · have hfocus := upsert_focus (fun lo c hi hc => hc.piece hP) val (c := c) hb ha hlo hhi
    rw [← hsplit] at hfocus
    rw [hfocus, spliced, List.flatMap_append, List.flatMap_append, hnew.entries,
      hsame _ fun q => List.mem_of_mem_take, hsame _ fun q => List.mem_of_mem_drop,
      List.append_assoc]

/-- **Insertion into a search tree.** -/
theorem insertPage_content {key : Key} {val : Val} {fuel : ℕ} {txn : WriteTxn}
    (hP : GoodPageSize txn.pageSize) (hw : txn.writes = []) (hfuel : h ≤ fuel)
    (hnd : Holds txn.store.io id nd) (hok : NodeOK txn.store.io h lo nd hi) (hlo : lo ≤ key)
    (hhi : (key : WithTop Key) < hi) (hkv : Small txn.pageSize (key, val)) :
    ∃ (txn' : WriteTxn) (res : NodeResult),
      insertPage (insertInternal key val txn.pageSize fuel) txn key val txn.pageSize
        (nd.toPage id) = some (txn', res.toResult) ∧ res.Fits txn.pageSize ∧
      ∀ io' : PageIo, io'.pageSize = txn.pageSize →
        (∀ p ∈ pagesBelow txn.store.io h nd, io'.readPage p = txn.store.io.readPage p) →
        Flushed io' txn' →
          res.OK io' h lo hi (upsert key val (nodeEntries txn.store.io h nd)) := by
  induction h generalizing id nd lo hi fuel with
  | zero =>
    cases nd with
    | internal ks cs => exact hok.elim
    | leaf es =>
      obtain ⟨hs, hr, -, hmax⟩ := hok
      obtain ⟨res, hres, hfit, hres_ok⟩ :=
        (@insertLeaf_content _ id) hP hs hr hmax hnd.size_le hlo hhi hkv
      refine ⟨txn, res, ?_, hfit, fun io' hio' _ _ => hres_ok io' hio'⟩
      simp only [Node.toPage, insertPage, hres, Option.map_some]
  | succ h ih =>
    cases nd with
    | leaf es => exact hok.elim
    | internal ks cs =>
      obtain ⟨fuel, rfl⟩ : ∃ f, fuel = f + 1 := ⟨fuel - 1, by omega⟩
      have hshape := hok.shape
      obtain ⟨hne, hmax, hchain⟩ := hok
      have hsize := hnd.size_le
      rw [Node.size] at hsize
      have hPio : txn.store.io.pageSize < 65536 := hP.lt
      have hsorted : ks.Pairwise (· < ·) :=
        Chain.pairwise_keys (fun lo c hi hc => (TreeOK.piece hPio hc).lt) hchain
      obtain ⟨idx, hidx, hle, hbelow, habove⟩ :=
        (@internalChildIndex_spec _ cs id key) hsorted (by omega)
      obtain ⟨a, c, b, hc, ⟨ndc, hndc, hokc⟩, hb, ha⟩ := hchain.focus hle
      have hak := hb.lower_le hlo hbelow
      have hbk := ha.lt_upper hhi habove
      obtain ⟨txn₁, res₁, hins, hfit₁, hres₁⟩ := ih (show h ≤ fuel by omega) hndc hokc hak hbk
      obtain ⟨-, A, F, -, hext₁, -⟩ := insertPage_shape hP.lt hw hndc hokc.shape hins
      have hextf := hext₁.trans (Extends.free txn₁ c)
      obtain ⟨txn', new, res, habs, hfit, hext₂, hplaced, hform⟩ :=
        (@absorb_isSome id (txn₁.free c) ks cs idx)
          (hextf.pageSize_eq ▸ hP) hnd.balanced (hextf.pageSize_eq ▸ hsize)
          (hextf.pageSize_eq ▸ hmax) hle (hextf.pageSize_eq ▸ hfit₁)
      rw [hextf.pageSize_eq] at habs hfit hplaced
      have hget : (InternalNode.ofKeys id ks cs).getChild idx = some c := hc
      refine ⟨txn', res, ?_, hfit, fun io' hio' hread hfl => ?_⟩
      · rw [Node.toPage, insertPage, insertInternal]
        simp only [hidx, hget, read_eq hw, hndc.decode_eq, hins, Option.bind_eq_bind,
          Option.bind_some]
        exact habs
      have hmem : c ∈ cs := List.mem_of_getElem? hc
      have hchild : ∀ q ∈ cs, ∀ p ∈ treePages txn.store.io h q,
          io'.readPage p = txn.store.io.readPage p := fun q hq p hp =>
        hread p (List.mem_flatMap.2 ⟨q, hq, hp⟩)
      have hok₁ := hres₁ io' hio' (fun p hp => hchild c hmem p (by
        rw [treePages_eq hndc]
        exact List.mem_cons_of_mem _ hp)) (hext₂.flushed hfl)
      rw [← entriesAt_eq hPio hndc hokc.shape] at hok₁
      have hatt := hok₁.attached (hio' ▸ hP.lt) (hplaced hok₁.balanced io' hio' hfl)
      obtain ⟨hchain', hentries⟩ := hatt.splice hPio hio' hchild hc hb ha hak hbk
      refine NodeResult.ok_of_chain hchain' ?_ ?_ hentries hform
      · have hpos := List.length_pos_of_ne_nil hne
        refine List.ne_nil_of_length_pos ?_
        simp only [splicedKeys, List.length_append, List.length_take, List.length_drop]
        omega
      · intro k hk
        rw [splicedKeys, List.mem_append, List.mem_append] at hk
        rw [hio']
        rcases hk with hk | hk | hk
        · exact hmax k (List.mem_of_mem_take hk)
        · cases res₁ with
          | single nd => exact absurd hk List.not_mem_nil
          | split l sep r =>
            obtain rfl := List.mem_singleton.1 hk
            exact hfit₁.2.2
        · exact hmax k (List.mem_of_mem_drop hk)

/-! ## The root -/

/-- The store's tree: a search tree for all keys, or the empty leaf of a fresh store. -/
def RootOK (io : PageIo) (h : ℕ) (root : PageId) : Prop :=
  TreeOK io h [] root ⊤ ∨ h = 0 ∧ Holds io root (.leaf [])

theorem nil_le_key (key : Key) : ([] : Key) ≤ key := not_lt.1 (List.not_lt_nil key)

theorem RootOK.sortedKeys (hP : io.pageSize < 65536) {root : PageId} (hroot : RootOK io h root) :
    SortedKeys (entriesAt io h root) := by
  rcases hroot with hok | ⟨rfl, hnd⟩
  · exact (hok.piece hP).sorted
  · have he : entriesAt io 0 root = [] := hnd.leafEntries_eq hP
    exact he ▸ SortedKeys.nil

/-- **`get` looks the key up in the entries of the tree.** -/
theorem get_content (hP : io.pageSize < 65536) {root : PageId} {fuel : ℕ} {key : Key}
    (hfuel : h ≤ fuel) (hroot : RootOK io h root) :
    Btree.get io fuel root key = some (lookupKey key (entriesAt io h root)) := by
  rcases hroot with ⟨nd, hnd, hok⟩ | ⟨rfl, hnd⟩
  · rw [Btree.get, hnd.decode_eq, entriesAt_eq hP hnd hok.shape]
    exact getLoop_content hP hfuel hnd hok (nil_le_key key) (WithTop.coe_lt_top _)
  · have he : entriesAt io 0 root = [] := hnd.leafEntries_eq hP
    rw [Btree.get, hnd.decode_eq, he]
    refine (getLoop_leaf io key fuel _).trans ?_
    exact leafGet_ofEntries SortedKeys.nil (by simp)

/-- **A put binds the key**: it always builds a tree, whose entries are the old ones with the new
binding. -/
theorem buildPut_content {txn : WriteTxn} {key : Key} {val : Val} (hP : GoodPageSize txn.pageSize)
    (hw : txn.writes = []) (hfuel : h ≤ txn.store.writer.nextPageId)
    (hroot : RootOK txn.store.io h txn.root) (hkv : Small txn.pageSize (key, val)) :
    ∃ newRoot txn', buildPut txn key val = some (newRoot, txn') ∧ ∀ io' : PageIo,
      io'.pageSize = txn.pageSize →
      (∀ p ∈ treePages txn.store.io h txn.root, io'.readPage p = txn.store.io.readPage p) →
      Flushed io' txn' → ∃ h', TreeOK io' h' [] newRoot ⊤ ∧
        entriesAt io' h' newRoot = upsert key val (entriesAt txn.store.io h txn.root) := by
  have hPio : txn.store.io.pageSize < 65536 := hP.lt
  have htop : (key : WithTop Key) < ⊤ := WithTop.coe_lt_top _
  -- the root page, and what inserting into it gives
  obtain ⟨nd, hnd, hsn, txn₁, res, hins, hfit, hres⟩ : ∃ nd, Holds txn.store.io txn.root nd ∧
      NodeShape txn.store.io h nd ∧ ∃ (txn₁ : WriteTxn) (res : NodeResult),
      insertPage (insertInternal key val txn.pageSize txn.store.writer.nextPageId) txn key val
        txn.pageSize (nd.toPage txn.root) = some (txn₁, res.toResult) ∧ res.Fits txn.pageSize ∧
      ∀ io' : PageIo, io'.pageSize = txn.pageSize →
        (∀ p ∈ pagesBelow txn.store.io h nd, io'.readPage p = txn.store.io.readPage p) →
        Flushed io' txn₁ →
          res.OK io' h [] ⊤ (upsert key val (nodeEntries txn.store.io h nd)) := by
    rcases hroot with ⟨nd, hnd, hok⟩ | ⟨rfl, hnd⟩
    · obtain ⟨txn₁, res, hins, hfit, hres⟩ :=
        insertPage_content hP hw hfuel hnd hok (nil_le_key key) htop hkv
      exact ⟨nd, hnd, hok.shape, txn₁, res, hins, hfit, hres⟩
    · obtain ⟨res, hins, hfit, hres⟩ := (@insertLeaf_content [] txn.root (⊤ : WithTop Key))
        hP SortedKeys.nil (by simp [InRange]) (by simp)
        hnd.size_le (nil_le_key key) htop hkv
      refine ⟨.leaf [], hnd, trivial, txn, res, ?_, hfit, fun io' hio' _ _ => hres io' hio'⟩
      simp only [Node.toPage, insertPage, hins, Option.map_some]
  obtain ⟨-, A, F, -, hext, -⟩ := insertPage_shape hP.lt hw hnd hsn hins
  have hextf := hext.trans (Extends.free txn₁ txn.root)
  have hP' : GoodPageSize (txn₁.free txn.root).pageSize := hextf.pageSize_eq ▸ hP
  have hbuild : ∀ newRoot txn', placeRoot (txn₁.free txn.root) res.toResult =
      some (newRoot, txn') → buildPut txn key val = some (newRoot, txn') := fun newRoot txn' h => by
    simp only [buildPut, read_eq hw, hnd.decode_eq, hins, Option.bind_eq_bind, Option.bind_some]
    exact h
  rw [entriesAt_eq hPio hnd hsn]
  have hbelow : ∀ io' : PageIo,
      (∀ p ∈ treePages txn.store.io h txn.root, io'.readPage p = txn.store.io.readPage p) →
      ∀ p ∈ pagesBelow txn.store.io h nd, io'.readPage p = txn.store.io.readPage p :=
    fun io' hread p hp => hread p (by
      rw [treePages_eq hnd]
      exact List.mem_cons_of_mem _ hp)
  cases res with
  | single nd' =>
    obtain ⟨newRoot, txn', ht⟩ := (@allocWrite_isSome (txn₁.free txn.root)) 0
      (hextf.pageSize_eq ▸ hfit)
    obtain ⟨hextr, hholds⟩ := allocWrite_spec hP'.lt ht
    refine ⟨newRoot, txn', hbuild _ _ ht, fun io' hio' hread hfl => ⟨h, ?_⟩⟩
    have hok := hres io' hio' (hbelow io' hread) (hextr.flushed hfl)
    have hnd' := hholds hok.1.balanced io' (hio'.trans hextf.pageSize_eq.symm) hfl
    exact ⟨⟨nd', hnd', hok.1⟩, (entriesAt_eq (hio' ▸ hP.lt) hnd' hok.1.shape).trans hok.2⟩
  | split l sep r =>
    obtain ⟨hl, hr, hsep⟩ := hfit
    have hmax := hP.fit
    obtain ⟨lid, t₁, ht₁⟩ := (@allocWrite_isSome (txn₁.free txn.root)) 0
      (hextf.pageSize_eq ▸ hl)
    have hext₁ := (allocWrite_spec hP'.lt ht₁).1
    obtain ⟨rid, t₂, ht₂⟩ := (@allocWrite_isSome t₁) 0
      (hext₁.pageSize_eq ▸ hextf.pageSize_eq ▸ hr)
    obtain ⟨hext₂, hplaced⟩ := allocWrite_pair hP'.lt ht₁ ht₂
    have hsize : t₂.pageSize = txn.pageSize := hext₂.pageSize_eq.trans hextf.pageSize_eq
    have hrootSize : (Node.internal [sep] [lid, rid]).size ≤ t₂.pageSize := by
      rw [hsize, Node.size, keysLen_cons, keysLen_nil]
      simp only [List.length_cons, List.length_nil]
      omega
    obtain ⟨newRoot, txn', ht⟩ := (@allocWrite_isSome t₂) 0 hrootSize
    obtain ⟨hextr, hholds⟩ := allocWrite_spec (hsize ▸ hP.lt) ht
    have hrootNode : ((InternalNode.empty.pushKey sep).pushChild lid).pushChild rid =
        .ofKeys 0 [sep] [lid, rid] := by
      rw [InternalNode.empty_eq]
      simp
    refine ⟨newRoot, txn', hbuild _ _ ?_, fun io' hio' hread hfl => ⟨h + 1, ?_⟩⟩
    · simp only [NodeResult.toResult, placeRoot, ht₁, ht₂, hrootNode, Option.bind_eq_bind,
        Option.bind_some]
      exact ht
    · have hok := hres io' hio' (hbelow io' hread) (hext₂.flushed (hextr.flushed hfl))
      have hnew := hplaced (hok.balanced l (by simp [NodeResult.nodes]))
        (hok.balanced r (by simp [NodeResult.nodes])) io'
        (hio'.trans hextf.pageSize_eq.symm) (hextr.flushed hfl)
      have hatt := hok.attached (hio' ▸ hP.lt) hnew
      have hnd' := hholds rfl io' (hio'.trans hsize.symm) hfl
      have hok' : NodeOK io' (h + 1) [] (.internal [sep] [lid, rid]) ⊤ :=
        ⟨List.cons_ne_nil _ _, fun k hk => by
          rw [List.mem_singleton.1 hk, hio']
          exact hsep, hatt.chain⟩
      exact ⟨⟨_, hnd', hok'⟩, (entriesAt_eq (hio' ▸ hP.lt) hnd' hok'.shape).trans hatt.entries⟩

end CowRaft.Btree
