import CowRaft.Btree.Map

/-!
# Insertions that split

What inserting into one page gives, for page sizes from 49 to 32768. Into a leaf: the sorted list
with the new entry, on one page if it fits (`leaf_insertion`), else cut in two at the point where
the two loops of `leaf_split_by_size` end. Into an internal node whose child has split: a node that
routes as before but for that child, and, if it is too large, two halves around a promoted separator
that together route as the node does (`internal_splice_and_split`). Routing counts separators
(`internalChildIndex_eq_countP`).
-/

namespace CowRaft.Btree

open Bytes LeafNode InternalNode

variable {es l r : List (Key × Val)} {ks : List Key} {cs : List PageId} {id : PageId} {key : Key}
  {val : Val} {pageSize : ℕ}

/-! ## Leaves -/

/-- The entries `es` of an oversized leaf are cut into `l` and `r`, with the separator `sep`. -/
structure SplitsLeaf (es : List (Key × Val)) (pageSize : ℕ) (l r : List (Key × Val)) (sep : Key) :
    Prop where
  entries : l ++ r = es
  left_ne_nil : l ≠ []
  right_ne_nil : r ≠ []
  left_fits : (ofEntries 0 l).nbytes ≤ pageSize
  right_fits : (ofEntries 0 r).nbytes ≤ pageSize
  sep_eq : r.head?.map Prod.fst = some sep
  lt_sep : ∀ e ∈ l, e.1 < sep
  /-- The first loop ends, and the second one ends at the cut. -/
  loops : ∃ m₁, shrinkLoop (leafLeftBytes (ofEntries 0 es)) pageSize (es.length / 2) = some m₁ ∧
    growLoop (leafRightBytes (ofEntries 0 es)) pageSize (es.length - 1 - m₁) m₁ = some l.length

theorem LeafCut.splitsLeaf {m₁ m : ℕ} (h : LeafCut 0 es pageSize m₁ m) (hs : SortedKeys es) :
    ∃ sep, SplitsLeaf es pageSize (es.take m) (es.drop m) sep ∧
      (es.drop m).head?.map Prod.fst = some sep := by
  obtain ⟨e, he⟩ : ∃ e, es[m]? = some e := ⟨_, List.getElem?_eq_getElem h.lt⟩
  have hhead : (es.drop m).head?.map Prod.fst = some e.1 := by
    rw [List.head?_drop, he, Option.map_some]
  have hmem : e ∈ es.drop m := List.mem_of_mem_head? (by rw [List.head?_drop, he]; rfl)
  rw [← List.take_append_drop m es] at hs
  have hlen : (es.take m).length = m := by
    rw [List.length_take, Nat.min_eq_left h.lt.le]
  refine ⟨e.1, ⟨List.take_append_drop m es, ?_, List.ne_nil_of_mem hmem, h.left_fits, h.right_fits,
    hhead, fun x hx => (SortedKeys.append_iff.1 hs).2.2 x hx e hmem, m₁, h.shrink, ?_⟩, hhead⟩
  · have hpos := h.pos.trans_le h.le
    exact List.ne_nil_of_length_pos (by omega)
  · rw [hlen]
    exact h.grow

/-- **Leaf insertion**: the sorted list of entries with the new one on one page if it fits, else on
two pages that both fit, cut where the loops end. -/
theorem leaf_insertion (hle : 49 ≤ pageSize) (hge : pageSize ≤ 32768) (hs : SortedKeys es)
    (hfit : (ofEntries id es).nbytes ≤ pageSize)
    (hlim : ∀ e ∈ es, checkLimits pageSize e.1 e.2 = .ok ())
    (hkv : checkLimits pageSize key val = .ok ()) :
    ((ofEntries 0 (upsert key val es)).nbytes ≤ pageSize →
      insertLeaf (ofEntries id es) key val pageSize =
        some (.single (.leaf (ofEntries 0 (upsert key val es))))) ∧
    (pageSize < (ofEntries 0 (upsert key val es)).nbytes →
      ∃ l r sep, insertLeaf (ofEntries id es) key val pageSize =
          some (.split (.leaf (ofEntries 0 l)) sep (.leaf (ofEntries 0 r))) ∧
        SplitsLeaf (upsert key val es) pageSize l r sep) := by
  have hP : GoodPageSize pageSize := ⟨hle, hge.trans (by norm_num)⟩
  have hmax := hP.fit
  have hwrap := hP.wrap
  have hlen := entriesLen_upsert_le es key val
  have hkv' : key.length + val.length ≤ maxKvSize pageSize := checkLimits_eq_ok_iff.1 hkv
  rw [nbytes_ofEntries] at hfit
  have hlen' : entriesLen es < 65536 := by omega
  have hbuilt : leafUpsert (ofEntries id es) key val = some (ofEntries 0 (upsert key val es)) :=
    leafUpsert_ofEntries hs hlen'
  rw [nbytes_ofEntries]
  refine ⟨fun hsmall => ?_, fun hover => ?_⟩
  · simp only [insertLeaf, hbuilt, Option.bind_eq_bind, Option.bind_some, nbytes_ofEntries]
    exact if_pos hsmall
  · have hmax₄ : ∀ e ∈ upsert key val es,
        4 + e.1.length + e.2.length ≤ 4 + maxKvSize pageSize := fun e he => by
      rcases mem_upsert he with rfl | he
      · exact (Nat.add_assoc ..).trans_le (Nat.add_le_add_left hkv' 4)
      · have h : e.1.length + e.2.length ≤ maxKvSize pageSize :=
          checkLimits_eq_ok_iff.1 (hlim e he)
        omega
    obtain ⟨m₁, m, hcut⟩ := (@exists_leafCut _ 0) hover hmax₄ (by omega) (by omega) (by omega)
    obtain ⟨sep, hsplits, hhead⟩ := hcut.splitsLeaf (hs.upsert key val)
    refine ⟨_, _, sep, ?_, hsplits⟩
    have hright := hcut.right_fits
    have hsep : (ofEntries 0 ((upsert key val es).drop m)).getKey 0 = some sep := by
      rw [List.head?_eq_getElem?] at hhead
      obtain ⟨e, he, rfl⟩ := Option.map_eq_some_iff.1 hhead
      exact getKey_ofEntries (by omega) he
    simp only [insertLeaf, hbuilt, Option.bind_eq_bind, Option.bind_some, nbytes_ofEntries,
      if_neg (not_le.2 hover), hcut.leafSplitBySize_eq hP.lt (by omega), hsep]

/-- A leaf of the smallest pages takes one entry more, and is split by another one. -/
theorem leaf_insertion_smallest :
    insertLeaf (ofEntries 3 [([2], [5]), ([4], [0, 1, 2, 3])]) [3] [7, 7] 49 =
        some (.single (.leaf (ofEntries 0 [([2], [5]), ([3], [7, 7]), ([4], [0, 1, 2, 3])]))) ∧
      ∃ l r sep, insertLeaf (ofEntries 3 [([1], [0, 1, 2, 3]), ([2], [0, 1, 2, 3]),
          ([4], [0, 1, 2, 3]), ([5], [0, 1, 2, 3])]) [3] [6, 7] 49 =
            some (.split (.leaf (ofEntries 0 l)) sep (.leaf (ofEntries 0 r))) ∧
        SplitsLeaf [([1], [0, 1, 2, 3]), ([2], [0, 1, 2, 3]), ([3], [6, 7]),
          ([4], [0, 1, 2, 3]), ([5], [0, 1, 2, 3])] 49 l r sep := by
  have hs₁ : SortedKeys [([2], [5]), (([4] : Key), ([0, 1, 2, 3] : Val))] := by
    unfold SortedKeys
    decide
  have hs₂ : SortedKeys [(([1] : Key), ([0, 1, 2, 3] : Val)), ([2], [0, 1, 2, 3]),
      ([4], [0, 1, 2, 3]), ([5], [0, 1, 2, 3])] := by
    unfold SortedKeys
    decide
  refine ⟨?_, ?_⟩
  · exact (leaf_insertion (by decide) (by decide) hs₁ (by decide) (by decide) (by decide)).1
      (by decide)
  · exact (leaf_insertion (by decide) (by decide) hs₂ (by decide) (by decide) (by decide)).2
      (by decide)

/-! ## Routing -/

/-- The child that a search for the key goes on to. -/
def internalChild (node : InternalNode) (key : Key) : Option PageId := do
  node.getChild (← internalChildIndex node key)

theorem RoutesTo.eq_countP {i : ℕ} (h : RoutesTo ks key i) : i = ks.countP (· ≤ key) := by
  obtain ⟨hle, hbelow, habove⟩ := h
  have htake : (ks.take i).countP (· ≤ key) = i := by
    rw [List.countP_eq_length.2 fun k hk => decide_eq_true (hbelow k hk), List.length_take,
      Nat.min_eq_left hle]
  have hdrop : (ks.drop i).countP (· ≤ key) = 0 :=
    List.countP_eq_zero.2 fun k hk => by
      rw [decide_eq_true_iff]
      exact not_le.2 (habove k hk)
  rw [← List.take_append_drop i ks, List.countP_append, htake, hdrop, Nat.add_zero]

/-- **A search goes to the child behind all separators up to the key.** -/
theorem internalChildIndex_eq_countP (hs : ks.Pairwise (· < ·)) (h : keysLen ks < 65536) :
    internalChildIndex (ofKeys id ks cs) key = some (ks.countP (· ≤ key)) := by
  obtain ⟨i, hi, hroute⟩ := (@internalChildIndex_spec _ cs id key) hs h
  rw [hi, hroute.eq_countP]

theorem internalChild_eq (hs : ks.Pairwise (· < ·)) (h : keysLen ks < 65536) :
    internalChild (ofKeys id ks cs) key = cs[ks.countP (· ≤ key)]? := by
  rw [internalChild, internalChildIndex_eq_countP hs h]
  rfl

/-! ## Splicing in a split child -/

/-- The node routes as `node` does, but for the keys of child `i`, which are shared out between
`left` and `right` at the separator. -/
structure SplicesChild (node grown : InternalNode) (i : ℕ) (sep : Key) (left right : PageId) :
    Prop where
  index : ∀ key, ∃ j, internalChildIndex node key = some j ∧
    internalChildIndex grown key = some (if j < i ∨ j = i ∧ key < sep then j else j + 1)
  before : ∀ j < i, grown.getChild j = node.getChild j
  left : grown.getChild i = some left
  right : grown.getChild (i + 1) = some right
  after : ∀ j > i, grown.getChild (j + 1) = node.getChild j

theorem SplicesChild.child {node grown : InternalNode} {i : ℕ} {sep : Key} {left right : PageId}
    (h : SplicesChild node grown i sep left right) {j : ℕ}
    (hj : internalChildIndex node key = some j) :
    internalChild grown key =
      if j = i then some (if key < sep then left else right) else internalChild node key := by
  obtain ⟨j', hj', hgrown⟩ := h.index key
  obtain rfl := Option.some.inj (hj.symm.trans hj')
  simp only [internalChild, hgrown, hj, Option.bind_eq_bind, Option.bind_some]
  rcases lt_trichotomy j i with hlt | rfl | hgt
  · rw [if_pos (Or.inl hlt), if_neg hlt.ne, h.before j hlt]
  · rw [if_pos rfl]
    split_ifs with h₁ h₂ h₂
    · exact h.left
    · exact absurd (h₁.resolve_left (lt_irrefl j)).2 h₂
    · exact absurd (Or.inr ⟨rfl, h₂⟩) h₁
    · exact h.right
  · rw [if_neg (by omega), if_neg hgt.ne', h.after j hgt]

/-- The separators and children around a split child. -/
def splicedChildren (cs : List PageId) (i : ℕ) (left right : PageId) : List PageId :=
  cs.take i ++ left :: right :: cs.drop (i + 1)

/-- A separator between its neighbours lies above all before it and below all behind it. -/
theorem between_of_neighbours {i : ℕ} {sep : Key} (hs : ks.Pairwise (· < ·)) (hi : i ≤ ks.length)
    (hleft : ∀ k, 0 < i → ks[i - 1]? = some k → k < sep) (hright : ∀ k, ks[i]? = some k → sep < k) :
    (∀ k ∈ ks.take i, k < sep) ∧ ∀ k ∈ ks.drop i, sep < k := by
  constructor
  · intro k hk
    obtain ⟨j, hj, rfl⟩ := List.mem_iff_getElem.1 hk
    rw [List.length_take] at hj
    rw [List.getElem_take]
    have hlast := List.getElem?_eq_getElem (show i - 1 < ks.length by omega)
    rcases Nat.lt_or_ge j (i - 1) with hlt | hge
    · exact (pairwise_getElem_lt hs hlt (by omega) (by omega)).trans (hleft _ (by omega) hlast)
    · obtain rfl : j = i - 1 := by omega
      exact hleft _ (by omega) hlast
  · intro k hk
    obtain ⟨j, hj, rfl⟩ := List.mem_iff_getElem.1 hk
    rw [List.length_drop] at hj
    rw [List.getElem_drop]
    have hfirst := List.getElem?_eq_getElem (show i < ks.length by omega)
    rcases Nat.eq_zero_or_pos j with rfl | hpos
    · exact hright _ hfirst
    · exact (hright _ hfirst).trans (pairwise_getElem_lt hs (by omega) (by omega) (by omega))

theorem pairwise_insert {i : ℕ} {sep : Key} (hs : ks.Pairwise (· < ·))
    (hlt : ∀ k ∈ ks.take i, k < sep) (hgt : ∀ k ∈ ks.drop i, sep < k) :
    (ks.take i ++ sep :: ks.drop i).Pairwise (· < ·) := by
  rw [← List.take_append_drop i ks, List.pairwise_append] at hs
  rw [List.pairwise_append, List.pairwise_cons]
  refine ⟨hs.1, ⟨hgt, hs.2.1⟩, fun a ha b hb => ?_⟩
  rcases List.mem_cons.1 hb with rfl | hb
  · exact hlt a ha
  · exact (hlt a ha).trans (hgt b hb)

theorem keysLen_insert (ks : List Key) (i : ℕ) (sep : Key) :
    keysLen (ks.take i ++ sep :: ks.drop i) = keysLen ks + (2 + sep.length) := by
  have hsum := keysLen_take_add_drop ks i
  rw [keysLen_append, keysLen_cons]
  omega

/-- **Splicing** in the halves of child `i`. -/
theorem splicesChild_ofKeys {i : ℕ} {sep : Key} {left right : PageId} {id' : PageId}
    (hs : ks.Pairwise (· < ·)) (hc : cs.length = ks.length + 1) (hi : i ≤ ks.length)
    (hlt : ∀ k ∈ ks.take i, k < sep) (hgt : ∀ k ∈ ks.drop i, sep < k)
    (hlen : keysLen (ks.take i ++ sep :: ks.drop i) < 65536) :
    SplicesChild (ofKeys id ks cs) (ofKeys id' (ks.take i ++ sep :: ks.drop i)
      (splicedChildren cs i left right)) i sep left right := by
  have hlen' : keysLen ks < 65536 := by
    rw [keysLen_insert] at hlen
    omega
  have htake : (cs.take i).length = i := by
    rw [List.length_take, Nat.min_eq_left (by omega)]
  refine ⟨fun key => ⟨_, internalChildIndex_eq_countP hs hlen', ?_⟩, fun j hj => ?_, ?_, ?_,
    fun j hj => ?_⟩
  · rw [internalChildIndex_eq_countP (pairwise_insert hs hlt hgt) hlen, List.countP_append,
      List.countP_cons]
    have hcount : ks.countP (· ≤ key) =
        (ks.take i).countP (· ≤ key) + (ks.drop i).countP (· ≤ key) := by
      rw [← List.countP_append, List.take_append_drop]
    by_cases hkey : key < sep
    · -- no separator behind the new one counts
      have hdrop : (ks.drop i).countP (· ≤ key) = 0 := List.countP_eq_zero.2 fun k hk => by
        rw [decide_eq_true_iff]
        exact not_le.2 (hkey.trans (hgt k hk))
      have hle : (ks.take i).countP (· ≤ key) ≤ i :=
        List.countP_le_length.trans (List.length_take_le i ks)
      rw [hcount, hdrop, decide_eq_false (not_le.2 hkey), if_neg Bool.false_ne_true,
        if_pos ((Nat.lt_or_ge _ i).imp_right fun h => ⟨by omega, hkey⟩)]
    · -- every separator before the new one counts
      have hall : (ks.take i).countP (· ≤ key) = i := by
        rw [List.countP_eq_length.2 fun k hk =>
          decide_eq_true ((hlt k hk).trans_le (not_lt.1 hkey)).le, List.length_take,
          Nat.min_eq_left hi]
      rw [hcount, hall, decide_eq_true (not_lt.1 hkey), if_pos rfl, if_neg]
      · rfl
      · rintro (h | ⟨-, h⟩)
        · omega
        · exact hkey h
  · change (splicedChildren cs i left right)[j]? = cs[j]?
    rw [splicedChildren, List.getElem?_append_left (by omega), List.getElem?_take_of_lt hj]
  · change (splicedChildren cs i left right)[i]? = some left
    rw [splicedChildren, List.getElem?_append_right htake.le, htake, Nat.sub_self]
    rfl
  · change (splicedChildren cs i left right)[i + 1]? = some right
    rw [splicedChildren, List.getElem?_append_right (by omega), htake, Nat.add_sub_cancel_left]
    rfl
  · change (splicedChildren cs i left right)[j + 1]? = cs[j]?
    obtain ⟨d, rfl⟩ : ∃ d, j = i + 1 + d := ⟨j - (i + 1), by omega⟩
    rw [splicedChildren, List.getElem?_append_right (by omega), htake,
      show i + 1 + d + 1 - i = d + 1 + 1 by omega, List.getElem?_cons_succ,
      List.getElem?_cons_succ, List.getElem?_drop]

/-! ## Splitting with promotion -/

/-- The node is cut into `l` and `r` around a promoted separator, and together they route as it
does. -/
structure SplitsAround (grown : InternalNode) (pageSize : ℕ) (l : InternalNode) (promoted : Key)
    (r : InternalNode) : Prop where
  keys : l.keyList ++ [promoted] ++ r.keyList = grown.keyList
  children : l.children ++ r.children = grown.children
  left_fits : l.nbytes ≤ pageSize
  right_fits : r.nbytes ≤ pageSize
  left_nkeys : 1 ≤ l.nkeys
  right_nkeys : 1 ≤ r.nkeys
  index_left : ∀ key, key < promoted → internalChildIndex l key = internalChildIndex grown key
  index_right : ∀ key, promoted ≤ key →
    (internalChildIndex r key).map (l.children.length + ·) = internalChildIndex grown key
  child : ∀ key, internalChild (if key < promoted then l else r) key = internalChild grown key

/-- **Splitting** around separator `m`. -/
theorem InternalCut.splitsAround {m₁ m : ℕ} {p : Key} (h : InternalCut id ks cs pageSize m₁ m)
    (hs : ks.Pairwise (· < ·)) (hc : cs.length = ks.length + 1) (hks : keysLen ks < 65536)
    (hp : ks[m]? = some p) : SplitsAround (ofKeys id ks cs) pageSize
      (ofKeys 0 (ks.take m) (cs.take (m + 1))) p
      (ofKeys 0 (ks.drop (m + 1)) (cs.drop (m + 1))) := by
  have hlt := h.lt
  have hpos := h.pos.trans_le h.le
  have hn : ks.length < 65536 := by
    have := length_le_keysLen ks
    omega
  have hsum := keysLen_take_add_drop ks
  have hl : keysLen (ks.take m) < 65536 := by
    have := hsum m
    omega
  have hr : keysLen (ks.drop (m + 1)) < 65536 := by
    have := hsum (m + 1)
    omega
  have hkeys : ks = ks.take m ++ p :: ks.drop (m + 1) := by
    obtain ⟨hm, rfl⟩ := List.getElem?_eq_some_iff.1 hp
    rw [← List.drop_eq_getElem_cons hm, List.take_append_drop]
  have hparts := hs
  rw [hkeys, List.pairwise_append, List.pairwise_cons] at hparts
  obtain ⟨hsl, ⟨hgt, hsr⟩, hbetween⟩ := hparts
  have hcount : ∀ key, ks.countP (· ≤ key) = (ks.take m).countP (· ≤ key) +
      ((ks.drop (m + 1)).countP (· ≤ key) + if p ≤ key then 1 else 0) := fun key => by
    conv_lhs => rw [hkeys, List.countP_append, List.countP_cons]
    simp only [decide_eq_true_eq]
  -- below the promoted separator nothing on the right counts, from it on all of the left
  have hleft : ∀ key, key < p → ks.countP (· ≤ key) = (ks.take m).countP (· ≤ key) :=
    fun key hkey => by
      have hzero : (ks.drop (m + 1)).countP (· ≤ key) = 0 := List.countP_eq_zero.2 fun k hk => by
        rw [decide_eq_true_iff]
        exact not_le.2 (hkey.trans (hgt k hk))
      rw [hcount, hzero, if_neg (not_le.2 hkey)]
      rfl
  have hright : ∀ key, p ≤ key →
      ks.countP (· ≤ key) = m + 1 + (ks.drop (m + 1)).countP (· ≤ key) := fun key hkey => by
    have hall : (ks.take m).countP (· ≤ key) = m := by
      rw [List.countP_eq_length.2 fun k hk =>
        decide_eq_true ((hbetween k hk p (List.mem_cons_self ..)).trans_le hkey).le,
        List.length_take, Nat.min_eq_left (by omega)]
    rw [hcount, hall, if_pos hkey]
    omega
  have hlc : (cs.take (m + 1)).length = m + 1 := by
    rw [List.length_take, Nat.min_eq_left (by omega)]
  refine ⟨?_, List.take_append_drop (m + 1) cs, ?_, ?_, ?_, ?_, fun key hkey => ?_,
    fun key hkey => ?_, fun key => ?_⟩
  · rw [keyList_ofKeys hl, keyList_ofKeys hr, keyList_ofKeys hks, List.append_assoc,
      List.singleton_append, ← hkeys]
  · rw [nbytes_ofKeys, hlc]
    exact h.left_fits
  · rw [nbytes_ofKeys, List.length_drop, hc, show ks.length + 1 - (m + 1) = ks.length - m by omega]
    exact h.right_fits
  · rw [nkeys_ofKeys _ _ (by rw [List.length_take]; omega), List.length_take]
    omega
  · rw [nkeys_ofKeys _ _ (by rw [List.length_drop]; omega), List.length_drop]
    omega
  · rw [internalChildIndex_eq_countP hsl hl, internalChildIndex_eq_countP hs hks, hleft key hkey]
  · rw [internalChildIndex_eq_countP hsr hr, internalChildIndex_eq_countP hs hks, hright key hkey,
      Option.map_some, children_ofKeys, hlc]
  · rw [internalChild_eq hs hks]
    split_ifs with hkey
    · have hle : (ks.take m).countP (· ≤ key) ≤ m :=
        List.countP_le_length.trans (List.length_take_le m ks)
      rw [internalChild_eq hsl hl, hleft key hkey, List.getElem?_take_of_lt (by omega)]
    · rw [internalChild_eq hsr hr, hright key (not_lt.1 hkey), List.getElem?_drop]

/-- **Splice and split**: the node that takes in a split child routes as before but for that child;
if it is too large, it is cut in two halves that fit, keep a separator each and route as it does. -/
theorem internal_splice_and_split (hle : 49 ≤ pageSize) (hge : pageSize ≤ 32768)
    (hc : cs.length = ks.length + 1) (hne : ks ≠ []) (hs : ks.Pairwise (· < ·))
    (hmax : ∀ k ∈ ks, k.length ≤ maxKvSize pageSize)
    (hfit : (ofKeys id ks cs).nbytes ≤ pageSize) {i : ℕ} (hi : i ≤ ks.length) {sep : Key}
    (hsep : sep.length ≤ maxKvSize pageSize)
    (hleft : ∀ k, 0 < i → ks[i - 1]? = some k → k < sep)
    (hright : ∀ k, ks[i]? = some k → sep < k) (left right : PageId) :
    ∃ grown, internalInsertSplitChild (ofKeys id ks cs) i sep left right = some grown ∧
      SplicesChild (ofKeys id ks cs) grown i sep left right ∧
      (∀ key j, internalChildIndex (ofKeys id ks cs) key = some j → internalChild grown key =
        if j = i then some (if key < sep then left else right)
        else internalChild (ofKeys id ks cs) key) ∧
      (pageSize < grown.nbytes → ∃ l promoted r,
        internalSplitWithPromotion grown pageSize = some (l, promoted, r) ∧
        SplitsAround grown pageSize l promoted r) := by
  have hP : GoodPageSize pageSize := ⟨hle, hge.trans (by norm_num)⟩
  have hmax₂ := hP.fit
  have hwrap := hP.wrap
  rw [nbytes_ofKeys] at hfit
  have hklen := length_le_keysLen ks
  have hkf : keysLen ks < 65536 := by omega
  have hpos := List.length_pos_of_ne_nil hne
  have hn : ks.length + 1 < 65536 := by omega
  obtain ⟨hlt, hgt⟩ := between_of_neighbours hs hi hleft hright
  obtain ⟨grown, hgrown⟩ :=
    (@internalInsertSplitChild_isSome _ _ id) hkf hn hc hi sep left right
  obtain ⟨ks', rfl, hcopy⟩ := internalInsertSplitChild_ofKeys hn hc hi hgrown
  rw [hcopy.exact hkf] at hgrown
  have hglen := keysLen_insert ks i sep
  have hgc : (splicedChildren cs i left right).length =
      (ks.take i ++ sep :: ks.drop i).length + 1 := by
    simp [splicedChildren]
    omega
  have hgk : (splicedChildren cs i left right).length = cs.length + 1 := by
    simp [splicedChildren]
    omega
  have hgs := pairwise_insert hs hlt hgt
  have hsplice := (@splicesChild_ofKeys ks cs id i sep left right 0) hs hc hi hlt hgt (by omega)
  refine ⟨_, hgrown, hsplice, fun key j hj => hsplice.child hj, fun hover => ?_⟩
  change pageSize < (ofKeys 0 _ (splicedChildren cs i left right)).nbytes at hover
  rw [nbytes_ofKeys] at hover
  have hgmax : ∀ k ∈ ks.take i ++ sep :: ks.drop i, k.length ≤ maxKvSize pageSize := fun k hk => by
    rw [List.mem_append, List.mem_cons] at hk
    rcases hk with hk | rfl | hk
    · exact hmax k (List.mem_of_mem_take hk)
    · exact hsep
    · exact hmax k (List.mem_of_mem_drop hk)
  obtain ⟨m₁, m, hcut⟩ := (@exists_internalCut _ _ 0) hgc hgmax hmax₂ hover (by omega) hwrap
  have hlt' := hcut.lt
  obtain ⟨p, hp⟩ : ∃ p, (ks.take i ++ sep :: ks.drop i)[m]? = some p :=
    ⟨_, List.getElem?_eq_getElem (by omega)⟩
  exact ⟨_, p, _, hcut.internalSplitWithPromotion_eq hP.lt (by omega) hgc hp,
    hcut.splitsAround hgs hgc (by omega) hp⟩

/-- A node of the smallest pages with two separators takes in a third one, and is split. -/
theorem internal_splice_and_split_smallest : ∃ grown,
    internalInsertSplitChild (ofKeys 4 [[2], [6]] [10, 11, 12]) 1 [4] 20 21 = some grown ∧
      SplicesChild (ofKeys 4 [[2], [6]] [10, 11, 12]) grown 1 [4] 20 21 ∧
      ∃ l promoted r, internalSplitWithPromotion grown 49 = some (l, promoted, r) ∧
        SplitsAround grown 49 l promoted r := by
  have h := @internal_splice_and_split [[2], [6]] [10, 11, 12] 4 49 (by decide) (by decide) rfl
    (by decide) (by decide) (by decide) (by decide) 1 (by decide) [4] (by decide)
    (fun k _ hk => Option.some.inj hk ▸ by decide) (fun k hk => Option.some.inj hk ▸ by decide)
    20 21
  obtain ⟨grown, hgrown, hsplice, -, hsplit⟩ := h
  refine ⟨grown, hgrown, hsplice, hsplit ?_⟩
  have hval : internalInsertSplitChild (ofKeys 4 [[2], [6]] [10, 11, 12]) 1 [4] 20 21 =
      some (ofKeys 0 [[2], [4], [6]] [10, 20, 21, 12]) := by decide
  obtain rfl := Option.some.inj (hgrown.symm.trans hval)
  decide

end CowRaft.Btree
