import CowRaft.Btree.Page

/-!
# The page codec

A page is built by pushing entries, or separators and children, one after another (`Node.build`).
For page sizes below `2 ^ 16`, a page that fits is read back from its bytes with the same kind, id
and contents, at every index, and encodes to the same bytes again; so its bytes determine what it
says (`page_codec`).
-/

namespace CowRaft.Btree

open Bytes

variable {nd nd' : Node} {id id' : PageId} {pageSize : ℕ}

/-! ## Pages built by pushing -/

namespace Node

/-- The page that pushing builds. -/
def build : Node → Page
  | leaf es => .leaf (es.foldl (fun node e => node.push e.1 e.2) LeafNode.empty)
  | internal ks cs =>
    .internal (cs.foldl InternalNode.pushChild (ks.foldl InternalNode.pushKey InternalNode.empty))

theorem foldl_push (es₀ es : List (Key × Val)) :
    es.foldl (fun node e => node.push e.1 e.2) (LeafNode.ofEntries id es₀) =
      .ofEntries id (es₀ ++ es) := by
  induction es generalizing es₀ with
  | nil => simp
  | cons e es ih =>
    rw [List.foldl_cons, LeafNode.push_ofEntries, ih, List.append_assoc, List.singleton_append]

theorem foldl_pushKey (ks₀ ks : List Key) (cs : List PageId) :
    ks.foldl InternalNode.pushKey (InternalNode.ofKeys id ks₀ cs) = .ofKeys id (ks₀ ++ ks) cs := by
  induction ks generalizing ks₀ with
  | nil => simp
  | cons k ks ih =>
    rw [List.foldl_cons, InternalNode.pushKey_ofKeys, ih, List.append_assoc, List.singleton_append]

theorem foldl_pushChild (ks : List Key) (cs₀ cs : List PageId) :
    cs.foldl InternalNode.pushChild (InternalNode.ofKeys id ks cs₀) =
      .ofKeys id ks (cs₀ ++ cs) := by
  induction cs generalizing cs₀ with
  | nil => simp
  | cons c cs ih =>
    rw [List.foldl_cons, InternalNode.pushChild_ofKeys, ih, List.append_assoc,
      List.singleton_append]

theorem build_eq (nd : Node) : nd.build = nd.toPage 0 := by
  cases nd with
  | leaf es => rw [build, LeafNode.empty_eq, foldl_push, List.nil_append, toPage]
  | internal ks cs =>
    rw [build, InternalNode.empty_eq, foldl_pushKey, foldl_pushChild, List.nil_append,
      List.nil_append, toPage]

end Node

/-! ## What the accessors return -/

/-- The accessors of the page return what the node says, at every index. -/
def Page.Reads : Page → Node → Prop
  | .leaf l, .leaf es => l.nkeys = es.length ∧
    ∀ i : ℕ, l.getKey i = (es[i]?).map Prod.fst ∧ l.getVal i = (es[i]?).map Prod.snd
  | .internal n, .internal ks cs => n.nkeys = ks.length ∧ n.nchildren = cs.length ∧
    ∀ i : ℕ, n.getKey i = ks[i]? ∧ n.getChild i = cs[i]?
  | _, _ => False

/-- There is no entry to read behind the last one. -/
theorem LeafNode.readLe_of_le {es : List (Key × Val)} (h : entriesLen es < 65536) {i start : ℕ}
    (hi : es.length ≤ i) (hs : (entryStarts es)[i]? = some start) :
    readLe 2 (encodeEntries es) start = none := by
  have hlt : i < (entryStarts es).length := (List.getElem?_eq_some_iff.1 hs).1
  obtain rfl : es.length = i := by
    rw [length_entryStarts] at hlt
    omega
  rw [getElem?_entryStarts le_rfl, List.take_length, u16_of_lt h] at hs
  obtain rfl := Option.some.inj hs
  rw [readLe, slice, if_neg, Option.map_none]
  rw [entriesLen]
  omega

theorem LeafNode.reads_ofEntries {es : List (Key × Val)} (h : entriesLen es < 65536) :
    (Page.leaf (ofEntries id es)).Reads (.leaf es) := by
  refine ⟨nkeys_ofEntries_of_lt h, fun i => ?_⟩
  cases hi : es[i]? with
  | some e => exact ⟨getKey_ofEntries h hi, getVal_ofEntries h hi⟩
  | none =>
    have hread := @readLe_of_le es h i
    simp only [getKey, getVal, ofEntries]
    cases hs : (entryStarts es)[i]? with
    | none => exact ⟨rfl, rfl⟩
    | some start =>
      have hnone := hread (List.getElem?_eq_none_iff.1 hi) hs
      simp only [Option.bind_eq_bind, Option.bind_some, hnone, Option.bind_none, Option.map_none,
        and_self]

theorem InternalNode.reads_ofKeys {ks : List Key} {cs : List PageId} (h : keysLen ks < 65536)
    (hn : cs.length < 65536) (hbal : cs.length = ks.length + 1) :
    (Page.internal (ofKeys id ks cs)).Reads (.internal ks cs) := by
  have hnk : (ofKeys id ks cs).nkeys = ks.length := nkeys_ofKeys _ _ (by omega)
  refine ⟨hnk, ?_, fun i => ⟨?_, rfl⟩⟩
  · rw [nchildren, hnk, u16_of_lt (by omega), hbal]
  · cases hi : ks[i]? with
    | some k => exact getKey_ofKeys h hi
    | none =>
      have hnone : (ofKeys id ks cs).keyStart[i + 1]? = none := by
        have := List.getElem?_eq_none_iff.1 hi
        rw [ofKeys, keyStarts, List.getElem?_eq_none (by simp; omega)]
      simp only [getKey, hnone, Option.bind_eq_bind, Option.bind_none, Option.bind_fun_none]

theorem Node.reads_toPage (hsize : nd.size < 65536) (hbal : nd.Balanced) :
    (nd.toPage id).Reads nd := by
  cases nd with
  | leaf es =>
    rw [size] at hsize
    exact LeafNode.reads_ofEntries (by omega)
  | internal ks cs =>
    rw [size] at hsize
    exact InternalNode.reads_ofKeys (by omega) (by omega) hbal

/-- What the accessors of a page return determines the node. -/
theorem Page.Reads.unique {page : Page} (h : page.Reads nd) (h' : page.Reads nd') : nd = nd' := by
  cases page with
  | leaf l =>
    cases nd with
    | internal ks cs => exact h.elim
    | leaf es =>
      cases nd' with
      | internal ks cs => exact h'.elim
      | leaf es' =>
        refine congrArg Node.leaf (List.ext_getElem? fun i => ?_)
        have hk := (h.2 i).1.symm.trans (h'.2 i).1
        have hv := (h.2 i).2.symm.trans (h'.2 i).2
        cases hi : es[i]? <;> cases hi' : es'[i]? <;> rw [hi, hi'] at hk hv
        · cases hk
        · cases hk
        · exact congrArg some (Prod.ext (Option.some.inj hk) (Option.some.inj hv))
  | internal n =>
    cases nd with
    | leaf es => exact h.elim
    | internal ks cs =>
      cases nd' with
      | leaf es => exact h'.elim
      | internal ks' cs' =>
        have hk : ks = ks' :=
          List.ext_getElem? fun i => (h.2.2 i).1.symm.trans (h'.2.2 i).1
        have hc : cs = cs' :=
          List.ext_getElem? fun i => (h.2.2 i).2.symm.trans (h'.2.2 i).2
        rw [hk, hc]

/-! ## Round trip -/

/-- **The codec of tree pages**: a page that fits is read back as it was written, its accessors
return what was pushed, it encodes to the same bytes, and no other page has these bytes. -/
theorem page_codec (hP : pageSize ≤ 65535) (hbal : nd.Balanced)
    (hfit : nd.build.nbytes ≤ pageSize) (id : PageId) :
    ∃ bytes page, nd.build.toBytes id pageSize = some bytes ∧ bytes.length = pageSize ∧
      Page.decode id bytes = some page ∧ page.id = id ∧ page.Reads nd ∧
      page.toBytes id pageSize = some bytes ∧
      ∀ nd' : Node, nd'.Balanced → nd'.build.nbytes ≤ pageSize → ∀ id',
        nd'.build.toBytes id' pageSize = some bytes → nd' = nd ∧ id' = id := by
  have hlt : pageSize < 65536 := Nat.lt_succ_of_le hP
  rw [Node.build_eq, Node.nbytes_toPage] at hfit
  rw [Node.build_eq]
  obtain ⟨bytes, hbytes⟩ := Node.toBytes_isSome hfit id 0
  have hdec := Node.decode_toBytes hlt hbal id hbytes
  have hagain : (nd.toPage id).toBytes id pageSize = (nd.toPage 0).toBytes id pageSize := by
    cases nd <;> rfl
  refine ⟨bytes, nd.toPage id, hbytes, ?_, hdec, Node.id_toPage id nd,
    Node.reads_toPage (by omega) hbal, hagain.trans hbytes, ?_⟩
  · cases nd with
    | leaf es => exact length_of_padTo hbytes
    | internal ks cs => exact length_of_padTo hbytes
  · intro nd' hbal' hfit' id' hbytes'
    rw [Node.build_eq, Node.nbytes_toPage] at hfit'
    rw [Node.build_eq] at hbytes'
    have hpage : nd'.toPage id' = nd.toPage id :=
      Option.some.inj ((Node.decode_toBytes hlt hbal' id hbytes').symm.trans hdec)
    refine ⟨?_, ?_⟩
    · have hreads : (nd'.toPage id').Reads nd' := Node.reads_toPage (by omega) hbal'
      rw [hpage] at hreads
      exact hreads.unique (Node.reads_toPage (by omega) hbal)
    · have := congrArg Page.id hpage
      rwa [Node.id_toPage, Node.id_toPage] at this

/-- A leaf with an empty key and an empty value, and an internal page filled to the last byte. -/
theorem page_codec_small :
    (∃ bytes page, (Node.leaf [([], [7]), ([1], [])]).build.toBytes 5 21 = some bytes ∧
      Page.decode 5 bytes = some page ∧ page.Reads (.leaf [([], [7]), ([1], [])])) ∧
    ∃ bytes page, (Node.internal [[], [3]] [2, 300, 4]).build.toBytes 6 40 = some bytes ∧
      Page.decode 6 bytes = some page ∧ page.Reads (.internal [[], [3]] [2, 300, 4]) := by
  obtain ⟨bytes, page, h₁, -, h₂, -, h₃, -⟩ :=
    @page_codec (.leaf [([], [7]), ([1], [])]) 21 (by decide) trivial (by decide) 5
  obtain ⟨bytes', page', h₁', -, h₂', -, h₃', -⟩ :=
    @page_codec (.internal [[], [3]] [2, 300, 4]) 40 (by decide) rfl (by decide) 6
  exact ⟨⟨bytes, page, h₁, h₂, h₃⟩, bytes', page', h₁', h₂', h₃'⟩

end CowRaft.Btree
