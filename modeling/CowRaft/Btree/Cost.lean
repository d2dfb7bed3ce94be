import CowRaft.Btree.Growth
import Mathlib.Data.Nat.Log

/-!
# What an operation costs

No leaf is empty but that of an empty store, and an internal page has two children at least. So
`2 ^ h` keys are the fewest for a tree whose leaves are `h` levels below the root. A lookup reads
one page on each level, and a put reads and frees one page on each level, writes at most two pages
for each, and at most one for a new root (`logarithmic_cost`). Where no commit finds a reader the
free list stays as long as the tree is high, so that all a put writes, with the chain and the
header, is logarithmic in the number of keys (`put_amplification`).
-/

namespace CowRaft.Btree

open Bytes HeapTree

variable {h pageSize : ℕ} {io : PageIo} {st st' : Store} {lo : Key} {id : PageId} {hi : WithTop Key}
  {key : Key} {val : Val} {txn u : WriteTxn} {r : InsertResult}

/-! ## The height of the tree -/

theorem le_length_flatMap {α β : Type*} {f : α → List β} {l : List α} {n : ℕ}
    (hl : ∀ a ∈ l, n ≤ (f a).length) : l.length * n ≤ (l.flatMap f).length := by
  induction l with
  | nil => rw [List.length_nil, Nat.zero_mul]; exact Nat.zero_le _
  | cons a l ih =>
    have ha := hl a List.mem_cons_self
    have ih := ih fun b hb => hl b (List.mem_cons_of_mem _ hb)
    rw [List.flatMap_cons, List.length_append, List.length_cons, Nat.succ_mul]
    omega

/-- **A high tree has many entries.** -/
theorem TreeOK.two_pow_le (hP : io.pageSize < 65536) (hok : TreeOK io h lo id hi) :
    2 ^ h ≤ (entriesAt io h id).length := by
  induction h generalizing lo id hi with
  | zero =>
    obtain ⟨nd, hnd, hnok⟩ := hok
    cases nd with
    | internal ks cs => exact hnok.elim
    | leaf es =>
      have hentries : entriesAt io 0 id = es := hnd.leafEntries_eq hP
      rw [hentries]
      exact List.length_pos_iff.2 hnok.2.2.1
  | succ h ih =>
    obtain ⟨nd, hnd, hnok⟩ := hok
    cases nd with
    | leaf es => exact hnok.elim
    | internal ks cs =>
      have hchildren : children io id = cs := hnd.children_eq
      have hlen : cs.length = ks.length + 1 := hnd.balanced
      have hpos := List.length_pos_iff.2 hnok.1
      have hsum := le_length_flatMap (f := entriesAt io h) fun c hc => by
        obtain ⟨lo', hi', hcok⟩ := hnok.2.2.forall_mem c hc
        exact ih hcok
      rw [entriesAt, hchildren]
      calc 2 ^ (h + 1) = 2 * 2 ^ h := by rw [pow_succ, Nat.mul_comm]
        _ ≤ cs.length * 2 ^ h := Nat.mul_le_mul_right _ (by omega)
        _ ≤ _ := hsum

theorem RootOK.height_le_log (hP : st.io.pageSize < 65536) (hinv : Inv h st)
    (hroot : RootOK st.io h st.root) : h ≤ Nat.log 2 st.keyCount := by
  rw [hinv.keyCount_eq hP hroot]
  rcases hroot with hok | ⟨rfl, -⟩
  · exact Nat.le_log_of_pow_le one_lt_two (hok.two_pow_le hP)
  · exact Nat.zero_le _

/-! ## The pages that a put writes -/

theorem allocWrite_length {page : Page} (hw : txn.allocWrite page = some (id, u)) :
    u.writes.length = txn.writes.length + 1 := by
  obtain ⟨t, ht, heq⟩ := Option.map_eq_some_iff.1 hw
  obtain ⟨rfl, rfl⟩ := Prod.mk.inj heq
  obtain ⟨bytes, -, ht⟩ := Option.bind_eq_some_iff.1 ht
  obtain rfl := Option.some.inj ht
  exact List.length_append

/-- One step up writes one page or two. -/
theorem absorb_length {node : InternalNode} {idx P : ℕ} {result : InsertResult}
    (hr : absorb txn node idx P result = some (u, r)) :
    u.writes.length ≤ txn.writes.length + 2 := by
  cases result with
  | single newChild =>
    obtain ⟨⟨cid, t⟩, ht, hr⟩ := Option.bind_eq_some_iff.1 hr
    obtain ⟨node', -, hr⟩ := Option.bind_eq_some_iff.1 hr
    obtain ⟨rfl, rfl⟩ := Prod.mk.inj (Option.some.inj hr)
    have hlen := allocWrite_length ht
    omega
  | split left sep right =>
    obtain ⟨⟨lid, t₁⟩, ht₁, hr⟩ := Option.bind_eq_some_iff.1 hr
    obtain ⟨⟨rid, t₂⟩, ht₂, hr⟩ := Option.bind_eq_some_iff.1 hr
    obtain ⟨grown, -, hr⟩ := Option.bind_eq_some_iff.1 hr
    have hlen₁ := allocWrite_length ht₁
    have hlen₂ := allocWrite_length ht₂
    split_ifs at hr
    · obtain ⟨rfl, rfl⟩ := Prod.mk.inj (Option.some.inj hr)
      omega
    · obtain ⟨⟨l2, promoted, r2⟩, -, hr⟩ := Option.bind_eq_some_iff.1 hr
      obtain ⟨rfl, rfl⟩ := Prod.mk.inj (Option.some.inj hr)
      omega

theorem placeRoot_length {result : InsertResult} (hr : placeRoot txn result = some (id, u)) :
    u.writes.length ≤ txn.writes.length + 3 := by
  cases result with
  | single node =>
    have hlen := allocWrite_length hr
    omega
  | split left sep right =>
    obtain ⟨⟨lid, t₁⟩, ht₁, hr⟩ := Option.bind_eq_some_iff.1 hr
    obtain ⟨⟨rid, t₂⟩, ht₂, hr⟩ := Option.bind_eq_some_iff.1 hr
    have hlen₁ := allocWrite_length ht₁
    have hlen₂ := allocWrite_length ht₂
    have hlen₃ := allocWrite_length hr
    omega

/-- Insertion into a subtree writes at most two pages for each level. -/
theorem insertPage_length {nd : Node} {fuel P : ℕ} (hw : txn.writes = [])
    (hnd : Holds txn.store.io id nd) (hs : NodeShape txn.store.io h nd)
    (hr : insertPage (insertInternal key val P fuel) txn key val P (nd.toPage id) = some (u, r)) :
    u.writes.length ≤ 2 * h := by
  induction h generalizing id nd fuel u r with
  | zero =>
    cases nd with
    | internal ks cs => exact hs.elim
    | leaf es =>
      obtain ⟨r', -, heq⟩ := Option.map_eq_some_iff.1 hr
      obtain ⟨rfl, rfl⟩ := Prod.mk.inj heq
      rw [hw, List.length_nil]
  | succ h ih =>
    cases nd with
    | leaf es => exact hs.elim
    | internal ks cs =>
      cases fuel with
      | zero => cases hr
      | succ fuel =>
        obtain ⟨idx, -, hr⟩ := Option.bind_eq_some_iff.1 hr
        obtain ⟨c, hc, hr⟩ := Option.bind_eq_some_iff.1 hr
        obtain ⟨page, hpage, hr⟩ := Option.bind_eq_some_iff.1 hr
        obtain ⟨⟨txn₁, r₁⟩, hr₁, habs⟩ := Option.bind_eq_some_iff.1 hr
        obtain ⟨ndc, hndc, hsc⟩ := shape_iff.1 (hs c (List.mem_of_getElem? hc))
        rw [read_eq hw, hndc.decode_eq] at hpage
        obtain rfl := Option.some.inj hpage
        have hbelow := ih hndc hsc hr₁
        have hup := absorb_length habs
        have hfree : (txn₁.free c).writes = txn₁.writes := rfl
        rw [hfree] at hup
        omega

/-- **A put writes at most two pages for each level**, and one more for a new root. -/
theorem buildPut_length {newRoot : PageId} (hinv : Inv h st)
    (hr : buildPut st.beginWrite key val = some (newRoot, txn)) :
    txn.freed.length = h + 1 ∧ h + 1 ≤ txn.writes.length ∧
      txn.writes.length ≤ 2 * (h + 1) + 1 := by
  obtain ⟨A, F, hext, ⟨hF, hA⟩, -, -⟩ :=
    (@buildPut_shape _ st.beginWrite) hinv.pageSize_lt rfl hinv.shape hr
  obtain ⟨ws, hws, hfst⟩ := hext.writes
  have hlen : txn.writes.length = A.length := by
    rw [← hfst, List.length_map, hws]
    rfl
  refine ⟨?_, hlen ▸ hA, ?_⟩
  · rw [hext.freed, List.length_append, hF]
    exact Nat.zero_add _
  obtain ⟨page, hpage, hr⟩ := Option.bind_eq_some_iff.1 hr
  obtain ⟨⟨txn₁, r₁⟩, hr₁, hroot⟩ := Option.bind_eq_some_iff.1 hr
  obtain ⟨nd, hnd, hsn⟩ := shape_iff.1 hinv.shape
  rw [(@read_eq st.beginWrite) rfl] at hpage
  obtain rfl := Option.some.inj (hnd.decode_eq.symm.trans hpage)
  have hbelow := insertPage_length rfl hnd hsn hr₁
  have hup := placeRoot_length hroot
  have hfree : (txn₁.free st.beginWrite.root).writes = txn₁.writes := rfl
  rw [hfree] at hup
  omega

/-! ## Every run -/

/-- **What operations cost** on a store whose leaves are `h` levels below the root. -/
structure LogCost (h : ℕ) (st : Store) : Prop where
  levelled : Levelled (children st.io) h st.root
  height_le : h ≤ Nat.log 2 st.keyCount
  /-- The loop of a lookup ends after `h` steps. -/
  lookup : ∀ key, ∃ v, st.get key = some v ∧ Btree.get st.io h st.root key = some v
  build : ∀ key val, Small st.io.pageSize (key, val) → ∃ newRoot txn,
    buildPut st.beginWrite key val = some (newRoot, txn) ∧ txn.freed.length = h + 1 ∧
      h + 1 ≤ txn.writes.length ∧ txn.writes.length ≤ 2 * (h + 1) + 1

/-- **Lookups and puts are logarithmic** in the number of keys, in every run. -/
theorem logarithmic_cost (hle : 49 ≤ pageSize) (hge : pageSize ≤ 32768)
    (hreach : Reachable pageSize st) : ∃ h, LogCost h st := by
  have hP : GoodPageSize pageSize := ⟨hle, hge.trans (by norm_num)⟩
  obtain ⟨hsize, h, hinv, hroot⟩ := hreach.rootOK hP
  rw [← hsize] at hP
  refine ⟨h, hinv.shape.levelled, hroot.height_le_log hP.lt hinv, fun key => ?_,
    fun key val hkv => ?_⟩
  · exact ⟨_, get_content hP.lt hinv.height_le hroot, get_content hP.lt le_rfl hroot⟩
  · obtain ⟨newRoot, txn, hbuild, -⟩ := (@buildPut_content _ st.beginWrite) hP rfl
      hinv.height_le hroot hkv
    exact ⟨newRoot, txn, hbuild, buildPut_length hinv hbuild⟩

/-- The theorem on a store whose root has split. -/
theorem logarithmic_cost_session : ∃ st, session 49 [([1], [1, 2]), ([2], [3, 4, 5]),
    ([3], [6, 7]), ([4], [8]), ([1], [9])] = some st ∧ ∃ h, LogCost h st := by
  obtain ⟨st, hst⟩ := Option.isSome_iff_exists.1 (show (session 49 [([1], [1, 2]),
    ([2], [3, 4, 5]), ([3], [6, 7]), ([4], [8]), ([1], [9])]).isSome = true by decide +kernel)
  exact ⟨st, hst, logarithmic_cost (by decide) (by decide) (reachable_of_session hst)⟩

/-- What a put of a run whose commits find no reader writes, where the new tree has height `h`. -/
theorem Compact.putWrites_length {ws : List (PageId × Bytes)} (hP : GoodPageSize st.io.pageSize)
    (hinv : Inv h st) (hc : Compact h st) (hreaders : st.readers = 0)
    (hput : st.put key val = some (.ok st')) (hws : st.putWrites key val = some ws) :
    ∃ h', Inv h' st' ∧
      ws.length ≤ 2 * (h' + 1) + 2 + (h' + 1) ⌈/⌉ freeListCapacity st.io.pageSize := by
  obtain ⟨h', hinv', hc'⟩ := hc.put hinv hreaders hput
  refine ⟨h', hinv', ?_⟩
  rcases put_cases hinv hput with ⟨e, -, he⟩ |
    ⟨newRoot, txn, w, chain, header, -, hbuild, hprep, hws', hst⟩
  · cases he
  obtain rfl := Except.ok.inj hst
  obtain rfl := Option.some.inj (hws'.symm.trans hws)
  have hstep := buildPut_step hinv hbuild hprep
  obtain ⟨-, -, hwrites⟩ := buildPut_length hinv hbuild
  have hheight := hstep.height_le hinv hbuild hinv'.shape
  have hneeded : w.pagesNeeded st.io.pageSize ≤
      (h' + 1) ⌈/⌉ freeListCapacity st.io.pageSize := by
    rw [← chainCap_eq hP.le]
    exact ceilDiv_mono hc'.length_payload_le _
  have hlen := hstep.length_writes
  omega

/-- **A put writes logarithmically many pages**, tree, chain and header together, in the runs whose
commits find no reader. -/
theorem put_amplification {ws : List (PageId × Bytes)} (hle : 49 ≤ pageSize)
    (hge : pageSize ≤ 32768) (hreach : ReachableQuietly pageSize st) (hreaders : st.readers = 0)
    (hput : st.put key val = some (.ok st')) (hws : st.putWrites key val = some ws) :
    ws.length ≤ 2 * (Nat.log 2 st'.keyCount + 1) + 2 +
      (Nat.log 2 st'.keyCount + 1) ⌈/⌉ freeListCapacity pageSize := by
  have hP : GoodPageSize pageSize := ⟨hle, hge.trans (by norm_num)⟩
  obtain ⟨st₀, hst₀, hrun⟩ := hreach.reachable
  have hreach' : Reachable pageSize st' := ⟨st₀, hst₀, hrun.tail (.accepted hput)⟩
  obtain ⟨hsize, -⟩ := hreach.reachable.rootOK hP
  obtain ⟨hsize', h₁, hinv₁, hroot₁⟩ := hreach'.rootOK hP
  obtain ⟨h, hinv, hc⟩ := hreach.compact hP.lt
  obtain ⟨h', hinv', hlen⟩ := hc.putWrites_length (hsize ▸ hP) hinv hreaders hput hws
  obtain rfl := hinv₁.shape.height_unique hinv'.shape
  have hlog := hroot₁.height_le_log (hsize' ▸ hP.lt) hinv₁
  have hchain : (h₁ + 1) ⌈/⌉ freeListCapacity pageSize ≤
      (Nat.log 2 st'.keyCount + 1) ⌈/⌉ freeListCapacity pageSize :=
    ceilDiv_mono (Nat.succ_le_succ hlog) _
  rw [hsize] at hlen
  omega

/-- The fourth put on a store splits its root. -/
theorem put_amplification_session : ∃ st st' ws, session 49 [([1], [1, 2]), ([2], [3, 4, 5]),
    ([3], [6, 7])] = some st ∧ st.put [4] [8] = some (.ok st') ∧
      st.putWrites [4] [8] = some ws ∧ ws.length ≤ 2 * (Nat.log 2 st'.keyCount + 1) + 2 +
        (Nat.log 2 st'.keyCount + 1) ⌈/⌉ freeListCapacity 49 := by
  have hplay : ((session 49 [([1], [1, 2]), ([2], [3, 4, 5]), ([3], [6, 7])]).bind fun st =>
      (succeeded (st.put [4] [8])).bind fun _ => (st.putWrites [4] [8]).map fun _ =>
        st.readers) = some 0 := by decide +kernel
  obtain ⟨st, hst, hplay⟩ := Option.bind_eq_some_iff.1 hplay
  obtain ⟨st', hst', hplay⟩ := Option.bind_eq_some_iff.1 hplay
  obtain ⟨ws, hws, hreaders⟩ := Option.map_eq_some_iff.1 hplay
  exact ⟨st, st', ws, hst, succeeded_eq_some hst', hws, put_amplification (by decide) (by decide)
    (reachableWhen_of_session (by decide) (fun _ h => h) hst) hreaders (succeeded_eq_some hst') hws⟩

end CowRaft.Btree
