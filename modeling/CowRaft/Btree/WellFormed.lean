import CowRaft.Btree.Map

/-!
# The shape of the tree

What the pages reachable from a published root look like, in the terms of the pages themselves
(`WellFormedTree`): each decodes under its own id and fits a page, they form a tree whose leaves
are all at the same depth, internal pages have separators and one more child, leaves are not empty,
and the keys are in order and within the separators above them. Every root that is published has
such a tree (`tree_well_formed`).
-/

namespace CowRaft.Btree

open Bytes HeapTree

/-- The entry is in a leaf at or below page `c`. -/
def EntryBelow (io : PageIo) (c : PageId) (e : Key × Val) : Prop :=
  ∃ q, Reaches (children io) c q ∧ e ∈ leafEntries io q

/-- **The shape of the store's tree**, whose leaves are `h` levels below the root. -/
structure WellFormedTree (h : ℕ) (st : Store) : Prop where
  /-- All leaves are at the same depth. -/
  levelled : Levelled (children st.io) h st.root
  /-- No page is reached twice. -/
  nodup : (unfold (children st.io) h st.root).Nodup
  decodes : ∀ p, st.Live p → ∃ page, Page.decode p (st.io.readPage p) = some page ∧
    page.id = p ∧ page.nbytes ≤ st.io.pageSize
  branching : ∀ p node, st.Live p → Page.decode p (st.io.readPage p) = some (.internal node) →
    1 ≤ node.nkeys ∧ node.children.length = node.nkeys + 1
  /-- A leaf is empty only as the root of an empty store. -/
  nonempty : ∀ p leaf, st.Live p → Page.decode p (st.io.readPage p) = some (.leaf leaf) →
    leaf.nkeys = 0 → p = st.root ∧ entriesAt st.io h st.root = []
  sorted : SortedKeys (entriesAt st.io h st.root)
  /-- The keys under a child lie between the separators next to it. -/
  separated : ∀ p node i c e, st.Live p →
    Page.decode p (st.io.readPage p) = some (.internal node) → node.getChild i = some c →
    EntryBelow st.io c e →
      (∀ s, 0 < i → i - 1 < node.nkeys → node.getKey (i - 1) = some s → s ≤ e.1) ∧
      ∀ s, i < node.nkeys → node.getKey i = some s → e.1 < s

variable {h pageSize : ℕ} {io : PageIo} {st : Store} {lo : Key} {id p : PageId} {hi : WithTop Key}

/-- Every page of a search tree is the root of one. -/
theorem TreeOK.of_mem (hok : TreeOK io h lo id hi) (hp : p ∈ treePages io h id) :
    ∃ h' lo' hi', TreeOK io h' lo' p hi' := by
  induction h generalizing lo id hi with
  | zero =>
    obtain rfl := List.mem_singleton.1 hp
    exact ⟨0, lo, hi, hok⟩
  | succ h ih =>
    obtain ⟨nd, hnd, hnok⟩ := hok
    rw [treePages_eq hnd] at hp
    rcases List.mem_cons.1 hp with rfl | hp
    · exact ⟨h + 1, lo, hi, nd, hnd, hnok⟩
    · cases nd with
      | leaf es => exact hnok.elim
      | internal ks cs =>
        obtain ⟨c, hc, hp⟩ := List.mem_flatMap.1 hp
        obtain ⟨lo', hi', hcok⟩ := hnok.2.2.forall_mem c hc
        exact ih hcok hp

/-- The entries in the leaves below a page are the entries of its tree. -/
theorem EntryBelow.mem_entriesAt {c : PageId} {e : Key × Val} (hl : Levelled (children io) h c)
    (he : EntryBelow io c e) : e ∈ entriesAt io h c := by
  obtain ⟨q, hq, he⟩ := he
  induction h generalizing c with
  | zero =>
    rcases hq.cases_head with rfl | ⟨c', hc', -⟩
    · exact he
    · exact absurd (hl ▸ hc') List.not_mem_nil
  | succ h ih =>
    rcases hq.cases_head with rfl | ⟨c', hc', hq⟩
    · -- a page with children is no leaf, and has no entries of its own
      have hne := hl.1
      rw [children] at hne
      rw [leafEntries] at he
      split at he
      · rename_i l hdec
        rw [hdec] at hne
        exact absurd rfl hne
      · exact absurd he List.not_mem_nil
    · exact List.mem_flatMap.2 ⟨c', hc', ih (hl.2 c' hc') hq⟩

/-- The entries under a child of an internal page of a search tree are within the separators. -/
theorem TreeOK.separated (hP : io.pageSize < 65536) {node : InternalNode} {i : ℕ} {c : PageId}
    {e : Key × Val} (hok : TreeOK io h lo p hi)
    (hdec : Page.decode p (io.readPage p) = some (.internal node))
    (hc : node.getChild i = some c) (he : EntryBelow io c e) :
    (∀ s, 0 < i → i - 1 < node.nkeys → node.getKey (i - 1) = some s → s ≤ e.1) ∧
      ∀ s, i < node.nkeys → node.getKey i = some s → e.1 < s := by
  obtain ⟨nd, hnd, hnok⟩ := hok
  cases nd with
  | leaf es =>
    have heq := hdec.symm.trans hnd.decode_eq
    cases heq
  | internal ks cs =>
    obtain rfl : node = .ofKeys p ks cs :=
      Page.internal.inj (Option.some.inj (hdec.symm.trans hnd.decode_eq))
    cases h with
    | zero => exact hnok.elim
    | succ h =>
      have hsize := hnd.size_le
      rw [Node.size] at hsize
      have hlen : keysLen ks < 65536 := by omega
      have hkeys := length_le_keysLen ks
      have hn : ks.length < 65536 := by omega
      have hget : ∀ j s, j < (InternalNode.ofKeys p ks cs).nkeys →
          (InternalNode.ofKeys p ks cs).getKey j = some s → ks[j]? = some s := fun j s hj hs => by
        rw [InternalNode.nkeys_ofKeys _ _ hn] at hj
        rw [InternalNode.getKey_ofKeys hlen (List.getElem?_eq_getElem hj)] at hs
        rw [List.getElem?_eq_getElem hj, hs]
      obtain ⟨a, b, hcok, hleft, hright⟩ := hnok.2.2.bounds (i := i) hc
      have hpiece := TreeOK.piece hP hcok
      have hrange := hpiece.inRange e (he.mem_entriesAt (TreeOK.shape hcok).levelled)
      refine ⟨fun s hi₀ hj hs => hleft s hi₀ (hget _ s hj hs) ▸ hrange.1, fun s hj hs => ?_⟩
      have hb := hright s (hget _ s hj hs)
      rw [hb] at hrange
      exact WithTop.coe_lt_coe.1 hrange.2

theorem TreeOK.branching (hP : io.pageSize < 65536) {node : InternalNode}
    (hok : TreeOK io h lo p hi) (hdec : Page.decode p (io.readPage p) = some (.internal node)) :
    1 ≤ node.nkeys ∧ node.children.length = node.nkeys + 1 := by
  obtain ⟨nd, hnd, hnok⟩ := hok
  cases nd with
  | leaf es =>
    have heq := hdec.symm.trans hnd.decode_eq
    cases heq
  | internal ks cs =>
    obtain rfl : node = .ofKeys p ks cs :=
      Page.internal.inj (Option.some.inj (hdec.symm.trans hnd.decode_eq))
    cases h with
    | zero => exact hnok.elim
    | succ h =>
      have hsize := hnd.size_le
      rw [Node.size] at hsize
      have hkeys := length_le_keysLen ks
      have hn : ks.length < 65536 := by omega
      rw [InternalNode.nkeys_ofKeys _ _ hn]
      exact ⟨List.length_pos_iff.2 hnok.1, hnd.balanced⟩

theorem TreeOK.leaf_nkeys (hP : io.pageSize < 65536) {leaf : LeafNode} (hok : TreeOK io h lo p hi)
    (hdec : Page.decode p (io.readPage p) = some (.leaf leaf)) : leaf.nkeys ≠ 0 := by
  obtain ⟨nd, hnd, hnok⟩ := hok
  cases nd with
  | internal ks cs =>
    have heq := hdec.symm.trans hnd.decode_eq
    cases heq
  | leaf es =>
    obtain rfl : leaf = .ofEntries p es :=
      Page.leaf.inj (Option.some.inj (hdec.symm.trans hnd.decode_eq))
    cases h with
    | succ h => exact hnok.elim
    | zero =>
      have hsize := hnd.size_le
      rw [Node.size] at hsize
      rw [LeafNode.nkeys_ofEntries_of_lt (by omega)]
      exact (List.length_pos_iff.2 hnok.2.2.1).ne'

theorem Shape.decodes (hs : Shape io h p) : ∃ page, Page.decode p (io.readPage p) = some page ∧
    page.id = p ∧ page.nbytes ≤ io.pageSize := by
  obtain ⟨nd, hnd, -⟩ := shape_iff.1 hs
  exact ⟨_, hnd.decode_eq, Node.id_toPage .., (Node.nbytes_toPage ..).trans_le hnd.size_le⟩

theorem Inv.wellFormedTree (hP : st.io.pageSize < 65536) (hinv : Inv h st)
    (hroot : RootOK st.io h st.root) : WellFormedTree h st := by
  have hlevelled := hinv.shape.levelled
  have hnodup : (treePages st.io h st.root).Nodup := (List.nodup_append.1 hinv.nodup).1
  have hsorted := hroot.sortedKeys hP
  rcases hroot with hok | ⟨rfl, hnd⟩
  · have htree : ∀ p, st.Live p → ∃ h' lo' hi', TreeOK st.io h' lo' p hi' := fun p hp =>
      hok.of_mem (hinv.live_iff.1 hp)
    refine ⟨hlevelled, hnodup, fun p hp => ?_, fun p node hp hdec => ?_,
      fun p leaf hp hdec h0 => ?_, hsorted, fun p node i c e hp hdec hc he => ?_⟩
    · obtain ⟨h', lo', hi', hp⟩ := htree p hp
      exact hp.shape.decodes
    · obtain ⟨h', lo', hi', hp⟩ := htree p hp
      exact hp.branching hP hdec
    · obtain ⟨h', lo', hi', hp⟩ := htree p hp
      exact absurd h0 (hp.leaf_nkeys hP hdec)
    · obtain ⟨h', lo', hi', hp⟩ := htree p hp
      exact hp.separated hP hdec hc he
  · have hlive : ∀ p, st.Live p → p = st.root := fun p hp =>
      List.mem_singleton.1 (hinv.live_iff.1 hp)
    have hleaf : ∀ p node, st.Live p →
        Page.decode p (st.io.readPage p) ≠ some (.internal node) := fun p node hp hdec => by
      rw [hlive p hp, hnd.decode_eq] at hdec
      cases hdec
    refine ⟨hlevelled, hnodup, fun p hp => ?_, fun p node hp hdec => absurd hdec (hleaf p node hp),
      fun p leaf hp _ _ => ⟨hlive p hp, hnd.leafEntries_eq hP⟩, hsorted,
      fun p node i c e hp hdec => absurd hdec (hleaf p node hp)⟩
    rw [hlive p hp]
    exact hinv.shape.decodes

/-- **The tree is well formed** in every state between operations. -/
theorem tree_well_formed (hle : 49 ≤ pageSize) (hge : pageSize ≤ 32768)
    (hreach : Reachable pageSize st) : ∃ h, WellFormedTree h st := by
  have hP : GoodPageSize pageSize := ⟨hle, hge.trans (by norm_num)⟩
  obtain ⟨hsize, h, hinv, hroot⟩ := hreach.rootOK hP
  exact ⟨h, hinv.wellFormedTree (hsize ▸ hP.lt) hroot⟩

/-- The theorem on a store whose root has split. -/
theorem tree_well_formed_session : ∃ st, session 49 [([1], [1, 2]), ([2], [3, 4, 5]),
    ([3], [6, 7]), ([4], [8])] = some st ∧ ∃ h, WellFormedTree h st := by
  obtain ⟨st, hst⟩ := Option.isSome_iff_exists.1 (show (session 49 [([1], [1, 2]),
    ([2], [3, 4, 5]), ([3], [6, 7]), ([4], [8])]).isSome = true by decide +kernel)
  exact ⟨st, hst, tree_well_formed (by decide) (by decide) (reachable_of_session hst)⟩

end CowRaft.Btree
