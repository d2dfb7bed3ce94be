import CowRaft.Btree.Map

/-!
# Sixteen-bit offsets

The nodes that a put builds on its way, before they are split (`BuildsFrom`), with the offsets they
store and the sums that a split compares. Up to a page size of 43708 all of these are exact and
both halves of every split fit. From there on a leaf can be built whose entries need `2 ^ 16` bytes:
two entries of the greatest size, a third one that fills the page, and a fourth one of the greatest
size. Its last offset wraps (`offsets_exact_iff`).
-/

namespace CowRaft.Btree

open Bytes HeapTree LeafNode InternalNode

variable {h pageSize : ℕ} {st : Store} {key : Key} {val : Val} {es : List (Key × Val)}
  {ks : List Key} {cs : List PageId} {id : PageId}

/-! ## What a put builds -/

/-- The nodes that inserting a key at or below a page builds: the leaf with the new entry, and
every internal node that takes in a split child. -/
inductive BuildsFrom (key : Key) (val : Val) (pageSize : ℕ) : ℕ → WriteTxn → Page → Page → Prop
  | leaf {fuel : ℕ} {txn : WriteTxn} {l built : LeafNode}
      (hbuilt : leafUpsert l key val = some built) :
      BuildsFrom key val pageSize fuel txn (.leaf l) (.leaf built)
  | child {fuel : ℕ} {txn : WriteTxn} {node : InternalNode} {idx : ℕ} {childId : PageId}
      {page built : Page} (hidx : internalChildIndex node key = some idx)
      (hchild : node.getChild idx = some childId) (hread : txn.read childId = some page)
      (hbuilt : BuildsFrom key val pageSize fuel txn page built) :
      BuildsFrom key val pageSize (fuel + 1) txn (.internal node) built
  | grown {fuel : ℕ} {txn txn₁ txn₂ txn₃ : WriteTxn} {node grown : InternalNode} {idx : ℕ}
      {childId lid rid : PageId} {page left right : Page} {sep : Key}
      (hidx : internalChildIndex node key = some idx)
      (hchild : node.getChild idx = some childId) (hread : txn.read childId = some page)
      (hsplit : insertPage (insertInternal key val pageSize fuel) txn key val pageSize page =
        some (txn₁, .split left sep right))
      (hleft : (txn₁.free childId).allocWrite left = some (lid, txn₂))
      (hright : txn₂.allocWrite right = some (rid, txn₃))
      (hgrown : internalInsertSplitChild node idx sep lid rid = some grown) :
      BuildsFrom key val pageSize (fuel + 1) txn (.internal node) (.internal grown)

/-- A put of the store, if it is accepted, builds the node on its way from the root. -/
def Store.BuildsNode (st : Store) (key : Key) (val : Val) (built : Page) : Prop :=
  checkLimits st.io.pageSize key val = .ok () ∧ ∃ page,
    st.beginWrite.read st.root = some page ∧
      BuildsFrom key val st.io.pageSize st.writer.nextPageId st.beginWrite page built

/-! ## Exact offsets -/

/-- Every offset that the node stores is the length it stands for. -/
def Page.OffsetsExact : Page → Prop
  | .leaf l => ∃ es, l = .ofEntries l.id es ∧
    ∀ i ≤ es.length, l.entryStart[i]? = some (entriesLen (es.take i))
  | .internal n => ∃ ks, n = .ofKeys n.id ks n.children ∧
    ∀ i ≤ ks.length, n.keyStart[i]? = some (keysLen (ks.take i))

/-- The sum of `left_bytes(m)` in `leaf_split_by_size` does not wrap. -/
def LeafNode.LeftExact (old : LeafNode) (m : ℕ) : Prop :=
  ∃ start, old.entryStart[m]? = some start ∧ LEAF_HEADER + start < 65536

/-- Nor do the length, the difference and the sum of `right_bytes(m)`. -/
def LeafNode.RightExact (old : LeafNode) (m : ℕ) : Prop :=
  ∃ start, old.entryStart[m]? = some start ∧ old.entries.length < 65536 ∧
    start ≤ old.entries.length ∧ LEAF_HEADER + (old.entries.length - start) < 65536

/-- The sums of `left_bytes(m)` in `internal_split_with_promotion` do not wrap. -/
def InternalNode.LeftExact (grown : InternalNode) (m : ℕ) : Prop :=
  ∃ start, grown.keyStart[m]? = some start ∧ INTERNAL_HEADER + start + 8 * (m + 1) < 65536

/-- Nor do the length, the differences and the sums of `right_bytes(m)`. -/
def InternalNode.RightExact (grown : InternalNode) (m : ℕ) : Prop :=
  ∃ start, grown.keyStart[m + 1]? = some start ∧ grown.keys.length < 65536 ∧
    start ≤ grown.keys.length ∧ m ≤ grown.nkeys ∧
    INTERNAL_HEADER + (grown.keys.length - start) + 8 * (grown.nkeys - m) < 65536

/-- The loops of the split compare exact sums, from where the first loop starts to where the second
one ends, and both halves fit. -/
def Page.SplitExact (pageSize : ℕ) : Page → Prop
  | .leaf old => ∃ m₁ m left right,
    shrinkLoop (leafLeftBytes old) (u16 pageSize) (old.nkeys / 2) = some m₁ ∧
    growLoop (leafRightBytes old) (u16 pageSize) (u16Sub old.nkeys 1 - m₁) m₁ = some m ∧
    (∀ j, m₁ ≤ j → j ≤ old.nkeys / 2 → old.LeftExact j) ∧
    (∀ j, m₁ ≤ j → j ≤ m → old.RightExact j) ∧
    leafSplitBySize old pageSize = some (left, right) ∧ left.nbytes ≤ pageSize ∧
    right.nbytes ≤ pageSize
  | .internal grown => ∃ m₁ m left promoted right,
    shrinkLoop (internalLeftBytes grown) (u16 pageSize) (grown.nkeys / 2) = some m₁ ∧
    growLoop (internalRightBytes grown) (u16 pageSize) (u16Sub grown.nkeys 1 - m₁) m₁ = some m ∧
    (∀ j, m₁ ≤ j → j ≤ grown.nkeys / 2 → grown.LeftExact j) ∧
    (∀ j, m₁ ≤ j → j ≤ m → grown.RightExact j) ∧
    internalSplitWithPromotion grown pageSize = some (left, promoted, right) ∧
    left.nbytes ≤ pageSize ∧ right.nbytes ≤ pageSize

/-- The node's offsets are exact, and so is its split, if it is too large for a page. -/
def Page.Exact (pageSize : ℕ) (built : Page) : Prop :=
  built.OffsetsExact ∧ (pageSize < built.nbytes → built.SplitExact pageSize)

theorem offsetsExact_ofEntries (h : entriesLen es < 65536) :
    (Page.leaf (ofEntries id es)).OffsetsExact := by
  refine ⟨es, rfl, fun i hi => ?_⟩
  have hget := getElem?_entryStarts hi
  rwa [u16_of_lt (lt_of_le_of_lt (entriesLen_take_le es i) h)] at hget

theorem offsetsExact_ofKeys (h : keysLen ks < 65536) :
    (Page.internal (ofKeys id ks cs)).OffsetsExact := by
  refine ⟨ks, rfl, fun i hi => ?_⟩
  have hget := getElem?_keyStarts hi
  rwa [u16_of_lt (lt_of_le_of_lt (keysLen_take_le ks i) h)] at hget

/-- A leaf that holds `2 ^ 16` bytes stores a wrapped offset. -/
theorem not_offsetsExact_ofEntries (h : 65536 ≤ entriesLen es) :
    ¬(Page.leaf (ofEntries id es)).OffsetsExact := by
  rintro ⟨es', heq, hexact⟩
  have hlen : entriesLen es = entriesLen es' := congrArg (·.entries.length) heq
  have hstart : (ofEntries id es).entryStart = entryStarts es' := congrArg (·.entryStart) heq
  have hlast := hexact es'.length le_rfl
  rw [hstart, getElem?_entryStarts le_rfl, List.take_length] at hlast
  have := u16_lt (entriesLen es')
  rw [Option.some.inj hlast] at this
  omega

theorem LeafCut.splitExact {m₁ m : ℕ} (hcut : LeafCut id es pageSize m₁ m)
    (hP : pageSize < 65536) (h : entriesLen es < 65536) :
    (Page.leaf (ofEntries id es)).SplitExact pageSize := by
  have hlt := hcut.lt
  have hsum := entriesLen_take_add_drop es
  have hn : es.length < 65536 := by
    have := length_le_entriesLen es
    omega
  have hstart : ∀ j ≤ es.length,
      (ofEntries id es).entryStart[j]? = some (entriesLen (es.take j)) := fun j hj => by
    have hget := getElem?_entryStarts hj
    rwa [u16_of_lt (lt_of_le_of_lt (entriesLen_take_le es j) h)] at hget
  have hlen : (ofEntries id es).entries.length = entriesLen es := rfl
  refine ⟨m₁, m, _, _, ?_, ?_, fun j _ hj => ?_, fun j hj hjm => ?_, hcut.leafSplitBySize_eq hP h,
    hcut.left_fits, hcut.right_fits⟩
  · rw [nkeys_ofEntries_of_lt h, u16_of_lt hP]
    exact hcut.shrink
  · rw [nkeys_ofEntries_of_lt h, u16_of_lt hP, u16Sub_of_le hn (by omega)]
    exact hcut.grow
  · rw [nkeys_ofEntries_of_lt h] at hj
    exact ⟨_, hstart j (by omega), hcut.left_lt j hj⟩
  · refine ⟨_, hstart j (by omega), h, entriesLen_take_le es j, ?_⟩
    have hr := hcut.right_lt j hj
    have hs := hsum j
    rw [hlen, LEAF_HEADER]
    omega

theorem InternalCut.splitExact {m₁ m : ℕ} (hcut : InternalCut id ks cs pageSize m₁ m)
    (hP : pageSize < 65536) (h : keysLen ks < 65536) (hc : cs.length = ks.length + 1) :
    (Page.internal (ofKeys id ks cs)).SplitExact pageSize := by
  have hlt := hcut.lt
  have hsum := keysLen_take_add_drop ks
  have hn : ks.length < 65536 := by
    have := length_le_keysLen ks
    omega
  have hnk : (ofKeys id ks cs).nkeys = ks.length := nkeys_ofKeys _ _ hn
  have hstart : ∀ j ≤ ks.length,
      (ofKeys id ks cs).keyStart[j]? = some (keysLen (ks.take j)) := fun j hj => by
    have hget := getElem?_keyStarts hj
    rwa [u16_of_lt (lt_of_le_of_lt (keysLen_take_le ks j) h)] at hget
  have hlen : (ofKeys id ks cs).keys.length = keysLen ks := rfl
  obtain ⟨p, hp⟩ : ∃ p, ks[m]? = some p := ⟨_, List.getElem?_eq_getElem (by omega)⟩
  refine ⟨m₁, m, _, p, _, ?_, ?_, fun j _ hj => ?_, fun j hj hjm => ?_,
    hcut.internalSplitWithPromotion_eq hP h hc hp, ?_, ?_⟩
  · rw [hnk, u16_of_lt hP]
    exact hcut.shrink
  · rw [hnk, u16_of_lt hP, u16Sub_of_le hn (by omega)]
    exact hcut.grow
  · rw [hnk] at hj
    exact ⟨_, hstart j (by omega), hcut.left_lt j hj⟩
  · refine ⟨_, hstart (j + 1) (by omega), h, keysLen_take_le ks (j + 1), by omega, ?_⟩
    have hr := hcut.right_lt j hj
    have hs := hsum (j + 1)
    rw [hlen, hnk, INTERNAL_HEADER]
    omega
  · rw [nbytes_ofKeys, List.length_take, hc, Nat.min_eq_left (by omega)]
    exact hcut.left_fits
  · rw [nbytes_ofKeys, List.length_drop, hc, show ks.length + 1 - (m + 1) = ks.length - m by omega]
    exact hcut.right_fits

/-! ## Small enough pages -/

theorem GoodPageSize.exact_leaf (hP : GoodPageSize pageSize) (hs : SortedKeys es)
    (hmax : ∀ e ∈ es, Small pageSize e) (hsize : 11 + entriesLen es ≤ pageSize)
    (hkv : Small pageSize (key, val)) {built : LeafNode}
    (hbuilt : leafUpsert (ofEntries id es) key val = some built) :
    (Page.leaf built).Exact pageSize := by
  have hfit := hP.fit
  have hwrap := hP.wrap
  have hP₂ := hP.ge
  have hlen := entriesLen_upsert_le es key val
  have hkv' : key.length + val.length ≤ maxKvSize pageSize := hkv
  obtain rfl : ofEntries 0 (upsert key val es) = built :=
    Option.some.inj ((leafUpsert_ofEntries hs (by omega)).symm.trans hbuilt)
  have hmax₄ : ∀ e ∈ upsert key val es,
      4 + e.1.length + e.2.length ≤ 4 + maxKvSize pageSize := fun e he => by
    have h : e.1.length + e.2.length ≤ maxKvSize pageSize := by
      rcases mem_upsert he with rfl | he
      · exact hkv
      · exact hmax e he
    omega
  have hlen' : entriesLen (upsert key val es) < 65536 := by omega
  refine ⟨offsetsExact_ofEntries hlen', fun hover => ?_⟩
  obtain ⟨m₁, m, hcut⟩ := (@exists_leafCut _ 0) hover hmax₄ (by omega) (by omega) (by omega)
  exact hcut.splitExact hP.lt hlen'

theorem GoodPageSize.exact_internal (hP : GoodPageSize pageSize) (hlen : cs.length = ks.length + 1)
    (hmax : ∀ k ∈ ks, k.length ≤ maxKvSize pageSize)
    (hsize : 11 + keysLen ks + 8 * cs.length ≤ pageSize) {i : ℕ} (hi : i ≤ ks.length) {sep : Key}
    (hsep : sep.length ≤ maxKvSize pageSize) {left right : PageId} {grown : InternalNode}
    (hgrown : internalInsertSplitChild (ofKeys id ks cs) i sep left right = some grown) :
    (Page.internal grown).Exact pageSize := by
  have hfit := hP.fit
  have hwrap := hP.wrap
  have hP₂ := hP.lt
  have hklen := length_le_keysLen ks
  have hkf : keysLen ks < 65536 := by omega
  obtain ⟨ks', rfl, hcopy⟩ := internalInsertSplitChild_ofKeys (by omega) hlen hi hgrown
  rw [hcopy.exact hkf]
  have hsum := keysLen_take_add_drop ks i
  have hglen : keysLen (ks.take i ++ sep :: ks.drop i) = keysLen ks + (2 + sep.length) := by
    rw [keysLen_append, keysLen_cons]
    omega
  have hgc : (cs.take i ++ left :: right :: cs.drop (i + 1)).length =
      (ks.take i ++ sep :: ks.drop i).length + 1 := by
    simp
    omega
  have hgk : (cs.take i ++ left :: right :: cs.drop (i + 1)).length = cs.length + 1 := by
    simp
    omega
  have hgmax : ∀ k ∈ ks.take i ++ sep :: ks.drop i, k.length ≤ maxKvSize pageSize := fun k hk => by
    rw [List.mem_append, List.mem_cons] at hk
    rcases hk with hk | rfl | hk
    · exact hmax k (List.mem_of_mem_take hk)
    · exact hsep
    · exact hmax k (List.mem_of_mem_drop hk)
  have hglt : keysLen (ks.take i ++ sep :: ks.drop i) < 65536 := by omega
  refine ⟨offsetsExact_ofKeys hglt, fun hover => ?_⟩
  change pageSize < (ofKeys 0 _ _).nbytes at hover
  rw [nbytes_ofKeys] at hover
  obtain ⟨m₁, m, hcut⟩ := (@exists_internalCut _ _ 0) hgc hgmax hfit hover (by omega) hwrap
  exact hcut.splitExact hP.lt hglt hgc

theorem BuildsFrom.of_leaf {fuel : ℕ} {txn : WriteTxn} {l : LeafNode} {built : Page}
    (hb : BuildsFrom key val pageSize fuel txn (.leaf l) built) :
    ∃ b, built = .leaf b ∧ leafUpsert l key val = some b := by
  cases hb with
  | leaf hbuilt => exact ⟨_, rfl, hbuilt⟩

/-- **Everything that is built in a search tree is exact.** -/
theorem BuildsFrom.exact {txn : WriteTxn} {nd : Node} {lo : Key} {hi : WithTop Key} {fuel : ℕ}
    {built : Page} (hP : GoodPageSize txn.pageSize) (hw : txn.writes = []) (hfuel : h ≤ fuel)
    (hnd : Holds txn.store.io id nd) (hok : NodeOK txn.store.io h lo nd hi) (hlo : lo ≤ key)
    (hhi : (key : WithTop Key) < hi) (hkv : Small txn.pageSize (key, val))
    (hb : BuildsFrom key val txn.pageSize fuel txn (nd.toPage id) built) :
    built.Exact txn.pageSize := by
  induction h generalizing id nd lo hi fuel with
  | zero =>
    cases nd with
    | internal ks cs => exact hok.elim
    | leaf es =>
      obtain ⟨hs, -, -, hmax⟩ := hok
      cases hb with
      | leaf hbuilt => exact hP.exact_leaf hs hmax hnd.size_le hkv hbuilt
  | succ h ih =>
    cases nd with
    | leaf es => exact hok.elim
    | internal ks cs =>
      obtain ⟨-, hmax, hchain⟩ := hok
      have hsize := hnd.size_le
      rw [Node.size] at hsize
      have hPio : txn.store.io.pageSize < 65536 := hP.lt
      have hsorted : ks.Pairwise (· < ·) :=
        Chain.pairwise_keys (fun lo c hi hc => (TreeOK.piece hPio hc).lt) hchain
      obtain ⟨idx, hidx, hle, hbelow, habove⟩ :=
        (@internalChildIndex_spec _ cs id key) hsorted (by omega)
      obtain ⟨a, c, b, hc, ⟨ndc, hndc, hokc⟩, hb', ha⟩ := hchain.focus hle
      have hak := hb'.lower_le hlo hbelow
      have hbk := ha.lt_upper hhi habove
      have hget : (ofKeys id ks cs).getChild idx = some c := hc
      have hreadc : txn.read c = some (ndc.toPage c) := (read_eq hw c).trans hndc.decode_eq
      cases hb with
      | child hidx' hchild hread hbuilt =>
        obtain rfl := Option.some.inj (hidx.symm.trans hidx')
        obtain rfl := Option.some.inj (hget.symm.trans hchild)
        obtain rfl := Option.some.inj (hreadc.symm.trans hread)
        exact ih (by omega) hndc hokc hak hbk hbuilt
      | grown hidx' hchild hread hsplit _ _ hgrown =>
        obtain rfl := Option.some.inj (hidx.symm.trans hidx')
        obtain rfl := Option.some.inj (hget.symm.trans hchild)
        obtain rfl := Option.some.inj (hreadc.symm.trans hread)
        obtain ⟨txn', res, hins, hfit, -⟩ :=
          insertPage_content hP hw (Nat.le_of_succ_le_succ hfuel) hndc hokc hak hbk hkv
        have hres := congrArg Prod.snd (Option.some.inj (hins.symm.trans hsplit))
        cases res with
        | single nd => cases hres
        | split l sep r =>
          cases hres
          exact hP.exact_internal hnd.balanced hmax hsize hle hfit.2.2 hgrown

theorem Reachable.exact (hP : GoodPageSize pageSize) (hreach : Reachable pageSize st)
    {built : Page} (hb : st.BuildsNode key val built) : built.Exact pageSize := by
  obtain ⟨hsize, h, hinv, hroot⟩ := hreach.rootOK hP
  obtain ⟨hlim, page, hread, hb⟩ := hb
  have hkv := checkLimits_eq_ok_iff.1 hlim
  have hP' : GoodPageSize st.io.pageSize := by
    rw [hsize]
    exact hP
  have hread' : st.beginWrite.read st.root = Page.decode st.root (st.io.readPage st.root) :=
    read_eq rfl st.root
  rw [hread'] at hread
  rw [← hsize]
  rcases hroot with ⟨nd, hnd, hok⟩ | ⟨rfl, hnd⟩
  · obtain rfl := Option.some.inj (hnd.decode_eq.symm.trans hread)
    exact (@BuildsFrom.exact _ _ _ _ st.beginWrite) hP' rfl hinv.height_le hnd hok (nil_le_key key)
      (WithTop.coe_lt_top _) hkv hb
  · obtain rfl := Option.some.inj (hnd.decode_eq.symm.trans hread)
    obtain ⟨b, rfl, hbuilt⟩ := hb.of_leaf
    exact hP'.exact_leaf SortedKeys.nil (by simp) hnd.size_le hkv hbuilt

/-! ## Larger pages -/

/-- A reachable store whose tree is the one leaf `es`. -/
structure LeafStore (pageSize : ℕ) (st : Store) (es : List (Key × Val)) : Prop where
  reachable : Reachable pageSize st
  pageSize_eq : st.io.pageSize = pageSize
  inv : Inv 0 st
  holds : Holds st.io st.root (.leaf es)
  sorted : SortedKeys es

/-- A leaf that does not overflow is replaced by the one with the new binding. -/
theorem LeafStore.put (hls : LeafStore pageSize st es) (hkv : Small pageSize (key, val))
    (hfits : 11 + entriesLen (upsert key val es) ≤ pageSize) :
    ∃ st', LeafStore pageSize st' (upsert key val es) := by
  have hsize := hls.pageSize_eq
  have hP : st.io.pageSize < 65536 := hls.inv.pageSize_lt
  have hlen : entriesLen es < 65536 := by
    have := hls.holds.size_le
    rw [Node.size] at this
    omega
  have hread : st.beginWrite.read st.root = some (.leaf (ofEntries st.root es)) :=
    (read_eq rfl _).trans hls.holds.decode_eq
  have hbuilt : leafUpsert (ofEntries st.root es) key val =
      some (ofEntries 0 (upsert key val es)) :=
    leafUpsert_ofEntries hls.sorted hlen
  have hnd : (Node.leaf (upsert key val es)).size ≤ (st.beginWrite.free st.root).pageSize := by
    rw [Node.size]
    exact hfits.trans_eq hsize.symm
  obtain ⟨newRoot, txn, ht⟩ := allocWrite_isSome 0 hnd
  have hfit' : (ofEntries 0 (upsert key val es)).nbytes ≤ st.beginWrite.pageSize := by
    rw [nbytes_ofEntries]
    exact hfits.trans_eq hsize.symm
  have hbuild : buildPut st.beginWrite key val = some (newRoot, txn) := by
    have hroot : st.beginWrite.root = st.root := rfl
    simp only [buildPut, hroot, hread, insertPage, insertLeaf, hbuilt, if_pos hfit',
      Option.bind_eq_bind, Option.bind_some, Option.map_some, placeRoot]
    exact ht
  obtain ⟨st', hput⟩ := hls.inv.put_of_buildPut (hsize ▸ hkv) hbuild
  rcases put_cases hls.inv hput with ⟨e, -, he⟩ |
    ⟨newRoot', txn', w, chain, header, -, hbuild', hprep, -, hst⟩
  · cases he
  obtain ⟨rfl, rfl⟩ := Prod.mk.inj (Option.some.inj (hbuild.symm.trans hbuild'))
  obtain rfl := Except.ok.inj hst
  have hstep := buildPut_step hls.inv hbuild hprep
  obtain ⟨h, hinv, -⟩ := hstep.inv hls.inv st.readers
  have hsize' : (st.io.writePages (txn.pageWrites chain header)).pageSize = st.io.pageSize :=
    PageIo.pageSize_writePages _ _
  have hholds := ((@allocWrite_spec (st.beginWrite.free st.root)) hP ht).2 trivial _ hsize'
    hstep.flushed
  have hleaf : Shape (st.io.writePages (txn.pageWrites chain header)) 0 newRoot := ⟨_, hholds⟩
  obtain rfl := hinv.shape.height_unique hleaf
  obtain ⟨st₀, hst₀, hrun⟩ := hls.reachable
  exact ⟨_, ⟨st₀, hst₀, hrun.tail (.accepted hput)⟩, hsize'.trans hsize, hinv, hholds,
    hls.sorted.upsert key val⟩

theorem leafStore_inMemory (hle : 49 ≤ pageSize) (hP : pageSize < 65536) :
    ∃ st, LeafStore pageSize st [] := by
  obtain ⟨st, hst⟩ := inMemory_isSome hle
  obtain ⟨hinv, hleaf, hsize, -⟩ := inMemory_spec hP hst
  exact ⟨st, ⟨st, hst, .refl⟩, hsize, hinv, hleaf, .nil⟩

/-- The least size for which a leaf's offset can wrap. -/
theorem le_maxKvSize_add (hP : 43709 ≤ pageSize) :
    65536 ≤ pageSize - 7 + maxKvSize pageSize ∧ 2 * maxKvSize pageSize + 24 ≤ pageSize ∧
      pageSize - 23 - 2 * maxKvSize pageSize ≤ maxKvSize pageSize := by
  rw [maxKvSize, INTERNAL_HEADER]
  omega

/-- The value with which a one-byte key and its value have `n` bytes. -/
def padding (n : ℕ) : Val := List.replicate (n - 1) 0

/-- Two entries of the greatest size, and a third one that fills the page. -/
def fullLeaf (pageSize : ℕ) : List (Key × Val) :=
  [([1], padding (maxKvSize pageSize)), ([2], padding (maxKvSize pageSize)),
    ([3], padding (pageSize - 23 - 2 * maxKvSize pageSize))]

theorem small_padding {n : ℕ} (hn : 0 < n) (hle : n ≤ maxKvSize pageSize) (i : ℕ) :
    Small pageSize ([i], padding n) := by
  rw [Small, padding, List.length_replicate, List.length_singleton]
  omega

theorem entriesLen_append_padding {n : ℕ} (hn : 0 < n) (es : List (Key × Val)) (i : ℕ) :
    entriesLen (es ++ [([i], padding n)]) = entriesLen es + (4 + n) := by
  rw [entriesLen_append, entriesLen_cons, entriesLen_nil, padding, List.length_replicate,
    List.length_singleton]
  omega

theorem upsert_eq_append (hlt : ∀ e ∈ es, e.1 < key) : upsert key val es = es ++ [(key, val)] := by
  have h := upsert_append_of_lt val [] hlt
  rwa [List.append_nil] at h

/-- A put of a greater key appends its entry. -/
theorem LeafStore.append (hls : LeafStore pageSize st es) {n i : ℕ} (hn : 0 < n)
    (hle : n ≤ maxKvSize pageSize) (hlt : ∀ e ∈ es, e.1 < [i])
    (hfits : 11 + (entriesLen es + (4 + n)) ≤ pageSize) :
    ∃ st', LeafStore pageSize st' (es ++ [([i], padding n)]) := by
  have happend : upsert [i] (padding n) es = es ++ [([i], padding n)] := upsert_eq_append hlt
  rw [← happend]
  refine hls.put (small_padding hn hle i) ?_
  rw [happend, entriesLen_append_padding hn]
  exact hfits

theorem entriesLen_fullLeaf (hge : 43709 ≤ pageSize) (hP : pageSize < 65536) :
    entriesLen (fullLeaf pageSize) = pageSize - 11 := by
  obtain ⟨hmax, hfit, hthird⟩ := le_maxKvSize_add hge
  simp only [fullLeaf, entriesLen_cons, entriesLen_nil, padding, List.length_replicate,
    List.length_singleton]
  omega

theorem exists_fullLeaf (hge : 43709 ≤ pageSize) (hP : pageSize < 65536) :
    ∃ st, LeafStore pageSize st (fullLeaf pageSize) := by
  obtain ⟨hmax, hfit, hthird⟩ := le_maxKvSize_add hge
  have hpos : 0 < maxKvSize pageSize := by omega
  obtain ⟨st₀, h₀⟩ := leafStore_inMemory (by omega) hP
  obtain ⟨st₁, h₁⟩ := (@LeafStore.append _ _ _ h₀ _ 1) hpos le_rfl (by simp) (by
    rw [entriesLen_nil]
    omega)
  obtain ⟨st₂, h₂⟩ := (@LeafStore.append _ _ _ h₁ _ 2) hpos le_rfl
    (by simp [List.cons_lt_cons_iff]) (by
      rw [entriesLen_append_padding hpos, entriesLen_nil]
      omega)
  obtain ⟨st₃, h₃⟩ := (@LeafStore.append _ _ _ h₂ (pageSize - 23 - 2 * maxKvSize pageSize) 3)
    (by omega) hthird (by simp [List.cons_lt_cons_iff]) (by
      rw [entriesLen_append_padding hpos, entriesLen_append_padding hpos, entriesLen_nil]
      omega)
  exact ⟨st₃, h₃⟩

/-- From a page size of 43709 on, one more put wraps the last offset of the leaf. -/
theorem exists_not_exact (hge : 43709 ≤ pageSize) (hP : pageSize < 65536) :
    ∃ st, Reachable pageSize st ∧ ∃ built,
      st.BuildsNode [4] (padding (maxKvSize pageSize)) built ∧ ¬built.Exact pageSize := by
  obtain ⟨hmax, hfit, hthird⟩ := le_maxKvSize_add hge
  have hpos : 0 < maxKvSize pageSize := by omega
  obtain ⟨st, hls⟩ := exists_fullLeaf hge hP
  have hlen := entriesLen_fullLeaf hge hP
  have happend : upsert [4] (padding (maxKvSize pageSize)) (fullLeaf pageSize) =
      fullLeaf pageSize ++ [([4], padding (maxKvSize pageSize))] :=
    upsert_eq_append (by simp [fullLeaf, List.cons_lt_cons_iff])
  have hread : st.beginWrite.read st.root = some (.leaf (ofEntries st.root (fullLeaf pageSize))) :=
    (read_eq rfl _).trans hls.holds.decode_eq
  have hbuilt : leafUpsert (ofEntries st.root (fullLeaf pageSize)) [4]
      (padding (maxKvSize pageSize)) = some (ofEntries 0 (upsert [4]
        (padding (maxKvSize pageSize)) (fullLeaf pageSize))) :=
    leafUpsert_ofEntries hls.sorted (by omega)
  refine ⟨st, hls.reachable, _, ⟨?_, _, hread, .leaf hbuilt⟩, fun hexact => ?_⟩
  · rw [hls.pageSize_eq]
    exact checkLimits_eq_ok_iff.2 (small_padding hpos le_rfl 4)
  · refine not_offsetsExact_ofEntries ?_ hexact.1
    rw [happend, entriesLen_append_padding hpos, hlen]
    omega

/-- **The 16-bit offsets never wrap** exactly on pages of at most 43708 bytes: there, in every
run, whatever a put builds stores exact offsets and is split by exact sums into halves that fit. -/
theorem offsets_exact_iff (hle : 49 ≤ pageSize) (hge : pageSize ≤ 65535) :
    (∀ st, Reachable pageSize st → ∀ key val built, st.BuildsNode key val built →
      built.Exact pageSize) ↔ pageSize ≤ 43708 := by
  refine ⟨fun hexact => ?_, fun hP st hreach key val built hb => hreach.exact ⟨hle, hP⟩ hb⟩
  by_contra hlt
  obtain ⟨st, hreach, built, hb, hnot⟩ := exists_not_exact (not_le.1 hlt) (by omega)
  exact hnot (hexact st hreach _ _ built hb)

/-- The theorem for the smallest pages. -/
theorem offsets_exact_iff_smallest :
    (∀ st, Reachable 49 st → ∀ key val built, st.BuildsNode key val built →
      built.Exact 49) ↔ 49 ≤ 43708 :=
  offsets_exact_iff (by decide) (by decide)

/-- The four puts that wrap an offset on a page of 43709 bytes. -/
theorem offset_wraps : ∃ st, Reachable 43709 st ∧ ∃ built,
    st.BuildsNode [4] (padding (maxKvSize 43709)) built ∧ ¬built.Exact 43709 :=
  exists_not_exact (by decide) (by decide)

end CowRaft.Btree
