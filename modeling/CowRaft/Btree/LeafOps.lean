import CowRaft.Btree.Leaf

/-!
# What the leaf operations do to the entries

Each operation of `page/leaf.rs`, read through `LeafNode.ofEntries`. As long as the entries are
shorter than `2 ^ 16` bytes no offset wraps, and the operations are those of lists: the search is
the search in a sorted list, insertion and update together are `upsert`, and the split cuts the
list at a point that leaves two pages that fit.

Beyond that size offsets wrap and an operation may read other bytes, or panic. What it still
returns is a leaf built by pushing (`exists_ofEntries_of_pushRange`).
-/

namespace CowRaft.Btree

open Bytes LeafNode

variable {es es₀ : List (Key × Val)} {id id₀ : PageId} {key : Key} {val : Val} {pageSize : ℕ}

/-! ## Copying a range -/

namespace LeafNode

theorem pushRange_loop (h : entriesLen es < 65536) {a n : ℕ} (hn : a + n ≤ es.length) :
    (List.range' a n).foldlM (fun node i => do
        some (node.push (← (ofEntries id es).getKey i) (← (ofEntries id es).getVal i)))
      (ofEntries id₀ es₀) = some (ofEntries id₀ (es₀ ++ (es.drop a).take n)) := by
  induction n generalizing a es₀ with
  | zero => simp
  | succ n ih =>
    have ha : a < es.length := by omega
    have hget : es[a]? = some es[a] := List.getElem?_eq_getElem ha
    rw [List.range'_succ, List.foldlM_cons, getKey_ofEntries h hget, getVal_ofEntries h hget]
    simp only [Option.bind_eq_bind, Option.bind_some, push_ofEntries]
    refine (ih (by omega)).trans ?_
    rw [List.drop_eq_getElem_cons ha, List.take_succ_cons, List.append_assoc,
      List.singleton_append]

theorem pushRange_ofEntries (h : entriesLen es < 65536) {a b : ℕ} (hab : a ≤ b)
    (hb : b ≤ es.length) :
    (ofEntries id₀ es₀).pushRange (ofEntries id es) a b =
      some (ofEntries id₀ (es₀ ++ (es.drop a).take (b - a))) :=
  pushRange_loop h (by omega)

/-- Whatever a range copy reads, what it builds was built by pushing. -/
theorem exists_ofEntries_of_pushRange {src new : LeafNode} {a b : ℕ}
    (h : (ofEntries id₀ es₀).pushRange src a b = some new) :
    ∃ es, new = ofEntries id₀ es := by
  rw [pushRange] at h
  generalize List.range' a (b - a) = is at h
  induction is generalizing es₀ with
  | nil => exact ⟨es₀, (Option.some.inj h).symm⟩
  | cons i is ih =>
    rw [List.foldlM_cons] at h
    obtain ⟨node, hnode, h⟩ := Option.bind_eq_some_iff.1 h
    obtain ⟨k, -, hnode⟩ := Option.bind_eq_some_iff.1 hnode
    obtain ⟨v, -, hnode⟩ := Option.bind_eq_some_iff.1 hnode
    obtain rfl := Option.some.inj hnode
    exact ih (push_ofEntries .. ▸ h)

theorem nkeys_ofEntries_of_lt (h : entriesLen es < 65536) :
    (ofEntries id es).nkeys = es.length := by
  rw [nkeys_ofEntries, u16_of_lt]
  have := length_le_entriesLen es
  omega

end LeafNode

/-! ## Search -/

/-- What a search result says about the entries. -/
def SearchResult (es : List (Key × Val)) (key : Key) : Except ℕ ℕ → Prop
  | .ok i => ∃ v, es[i]? = some (key, v)
  | .error i => i ≤ es.length ∧ (∀ e ∈ es.take i, e.1 < key) ∧ ∀ e ∈ es.drop i, key < e.1

theorem forall_mem_take_of_getElem {P : Key × Val → Prop} {i : ℕ}
    (h : ∀ j (hj : j < es.length), j < i → P es[j]) : ∀ e ∈ es.take i, P e := by
  intro e he
  obtain ⟨j, hj, rfl⟩ := List.mem_iff_getElem.1 he
  rw [List.length_take] at hj
  rw [List.getElem_take]
  exact h j (by omega) (by omega)

theorem forall_mem_drop_of_getElem {P : Key × Val → Prop} {i : ℕ}
    (h : ∀ j (hj : j < es.length), i ≤ j → P es[j]) : ∀ e ∈ es.drop i, P e := by
  intro e he
  obtain ⟨j, hj, rfl⟩ := List.mem_iff_getElem.1 he
  rw [List.length_drop] at hj
  rw [List.getElem_drop]
  exact h (i + j) (by omega) (by omega)

/-- The window `lo..=hi` always holds the place of the key. -/
theorem leafSearchLoop_spec (hs : SortedKeys es) (h : entriesLen es < 65536) {fuel : ℕ}
    {lo hi : ℤ} (hlo : 0 ≤ lo) (hhi : hi < es.length) (hle : lo ≤ hi + 1)
    (hfuel : hi - lo + 1 < fuel)
    (hbelow : ∀ j (hj : j < es.length), (j : ℤ) < lo → es[j].1 < key)
    (habove : ∀ j (hj : j < es.length), hi < (j : ℤ) → key < es[j].1) :
    ∃ r, leafSearchLoop (ofEntries id es) key fuel lo hi = some r ∧ SearchResult es key r := by
  induction fuel generalizing lo hi with
  | zero => omega
  | succ fuel ih =>
    rw [leafSearchLoop]
    split_ifs with hw
    · obtain ⟨mid, hmid⟩ : ∃ mid : ℕ, lo + (hi - lo) / 2 = mid :=
        ⟨(lo + (hi - lo) / 2).toNat, by omega⟩
      have hlt : mid < es.length := by omega
      simp only [hmid, Int.toNat_natCast, getKey_ofEntries h (List.getElem?_eq_getElem hlt),
        Option.bind_eq_bind, Option.bind_some]
      rcases lt_trichotomy es[mid].1 key with hc | hc | hc
      · rw [if_neg (ne_of_lt hc), if_pos hc]
        refine ih (by omega) hhi (by omega) (by omega) (fun j hj hjm => ?_) habove
        rcases lt_or_eq_of_le (show j ≤ mid by omega) with hjm | rfl
        · exact (hs.getElem_lt hjm hj hlt).trans hc
        · exact hc
      · rw [if_pos hc]
        exact ⟨_, rfl, es[mid].2, by rw [List.getElem?_eq_getElem hlt, ← hc]⟩
      · rw [if_neg (ne_of_gt hc), if_neg (lt_asymm hc)]
        refine ih hlo (by omega) (by omega) (by omega) hbelow fun j hj hjm => ?_
        rcases lt_or_eq_of_le (show mid ≤ j by omega) with hjm | rfl
        · exact hc.trans (hs.getElem_lt hjm hlt hj)
        · exact hc
    · refine ⟨_, rfl, by omega, ?_, ?_⟩
      · exact forall_mem_take_of_getElem fun j hj hjl => hbelow j hj (by omega)
      · exact forall_mem_drop_of_getElem fun j hj hjl => habove j hj (by omega)

theorem leafSearch_spec (hs : SortedKeys es) (h : entriesLen es < 65536) :
    ∃ r, leafSearch (ofEntries id es) key = some r ∧ SearchResult es key r := by
  rw [leafSearch, nkeys_ofEntries_of_lt h]
  exact leafSearchLoop_spec hs h le_rfl (by omega) (by omega) (by omega)
    (fun j _ hj => by omega) fun j hj hjl => by omega

/-- A search that finds the key finds the binding that looking it up finds. -/
theorem lookup_of_searchResult {r : Except ℕ ℕ} (hs : SortedKeys es) (hr : SearchResult es key r) :
    lookupKey key es = match r with | .ok i => (es[i]?).map Prod.snd | .error _ => none := by
  cases r with
  | ok i =>
    obtain ⟨v, hv⟩ := hr
    obtain ⟨es₁, es₂, rfl, rfl⟩ := exists_eq_append_of_getElem? hv
    have hlt : ∀ e ∈ es₁, e.1 ≠ key := fun e he =>
      ne_of_lt ((SortedKeys.append_iff.1 hs).2.2 e he (key, v) (by simp))
    simp only [lookupKey_append, lookupKey_of_forall_ne hlt, Option.none_or, lookupKey, if_pos, hv,
      Option.map_some]
  | error i =>
    obtain ⟨-, hlt, hgt⟩ := hr
    refine lookupKey_of_forall_ne fun e he => ?_
    rw [← List.take_append_drop i es] at he
    rcases List.mem_append.1 he with he | he
    · exact ne_of_lt (hlt e he)
    · exact ne_of_gt (hgt e he)

/-! ## Insertion and update -/

theorem leafInsert_ofEntries (h : entriesLen es < 65536) {idx : ℕ} (hi : idx ≤ es.length) :
    leafInsert (ofEntries id es) idx key val =
      some (ofEntries 0 (es.take idx ++ (key, val) :: es.drop idx)) := by
  rw [leafInsert, empty_eq, pushRange_ofEntries h (Nat.zero_le _) hi, nkeys_ofEntries_of_lt h]
  simp only [Option.bind_eq_bind, Option.bind_some, push_ofEntries,
    pushRange_ofEntries h hi le_rfl, ← List.length_drop, List.take_length]
  simp

theorem leafUpdate_ofEntries (h : entriesLen es < 65536) {idx : ℕ} (hi : idx < es.length) :
    leafUpdate (ofEntries id es) idx key val =
      some (ofEntries 0 (es.take idx ++ (key, val) :: es.drop (idx + 1))) := by
  rw [leafUpdate, empty_eq, pushRange_ofEntries h (Nat.zero_le _) hi.le, nkeys_ofEntries_of_lt h]
  simp only [Option.bind_eq_bind, Option.bind_some, push_ofEntries,
    pushRange_ofEntries h (Nat.succ_le_of_lt hi) le_rfl, ← List.length_drop, List.take_length]
  simp

/-- **Search, then insert or update, is `upsert`.** -/
theorem leafUpsert_ofEntries (hs : SortedKeys es) (h : entriesLen es < 65536) :
    (do match ← leafSearch (ofEntries id es) key with
        | .ok idx => leafUpdate (ofEntries id es) idx key val
        | .error idx => leafInsert (ofEntries id es) idx key val) =
      some (ofEntries 0 (upsert key val es)) := by
  obtain ⟨r, hr, hres⟩ := (@leafSearch_spec _ id key) hs h
  simp only [hr, Option.bind_eq_bind, Option.bind_some]
  cases r with
  | ok i =>
    obtain ⟨v, hv⟩ := hres
    obtain ⟨hlt, hget⟩ := List.getElem?_eq_some_iff.1 hv
    obtain ⟨es₁, es₂, rfl, rfl⟩ := exists_eq_append_of_getElem? hv
    have hbelow : ∀ e ∈ es₁, e.1 < key := fun e he =>
      (SortedKeys.append_iff.1 hs).2.2 e he (key, v) (by simp)
    refine (leafUpdate_ofEntries h hlt).trans ?_
    rw [upsert_replace val v es₂ hbelow]
    simp
  | error i =>
    obtain ⟨hi, hlt, hgt⟩ := hres
    refine (leafInsert_ofEntries h hi).trans ?_
    rw [← upsert_insert val hlt hgt, List.take_append_drop]

/-! ## Split -/

theorem shrinkLoop_spec {bytes : ℕ → Option ℕ} {f : ℕ → ℕ} {m : ℕ}
    (hb : ∀ i, 1 ≤ i → i ≤ m → bytes i = some (f i)) (h₁ : f 1 ≤ pageSize) (hm : 1 ≤ m) :
    ∃ m', shrinkLoop bytes pageSize m = some m' ∧ 1 ≤ m' ∧ m' ≤ m ∧ f m' ≤ pageSize ∧
      (m' = m ∨ pageSize < f (m' + 1)) := by
  induction m with
  | zero => omega
  | succ m ih =>
    simp only [shrinkLoop, hb (m + 1) (by omega) le_rfl, Option.bind_eq_bind, Option.bind_some]
    split_ifs with hgt
    · have hm' : 1 ≤ m := by
        by_contra h0
        obtain rfl : m = 0 := by omega
        exact absurd h₁ (not_le.2 hgt)
      obtain ⟨m', h, h1, h2, h3, h4⟩ := ih (fun i h1 h2 => hb i h1 (by omega)) hm'
      refine ⟨m', h, h1, by omega, h3, Or.inr ?_⟩
      rcases h4 with rfl | h4
      · exact hgt
      · exact h4
    · exact ⟨m + 1, rfl, by omega, le_rfl, not_lt.1 hgt, Or.inl rfl⟩

theorem growLoop_spec {bytes : ℕ → Option ℕ} {f : ℕ → ℕ} (fuel m : ℕ)
    (hb : ∀ i, m ≤ i → i < m + fuel → bytes i = some (f i)) :
    ∃ m', growLoop bytes pageSize fuel m = some m' ∧ m ≤ m' ∧ m' ≤ m + fuel ∧
      (f m' ≤ pageSize ∨ m' = m + fuel) ∧ (m' = m ∨ pageSize < f (m' - 1)) := by
  induction fuel generalizing m with
  | zero => exact ⟨m, rfl, le_rfl, le_rfl, Or.inr rfl, Or.inl rfl⟩
  | succ fuel ih =>
    simp only [growLoop, hb m le_rfl (by omega), Option.bind_eq_bind, Option.bind_some]
    split_ifs with hgt
    · obtain ⟨m', h, h1, h2, h3, h4⟩ := ih (m + 1) fun i h1 h2 => hb i (by omega) (by omega)
      refine ⟨m', h, by omega, by omega, h3.imp_right (by omega), Or.inr ?_⟩
      rcases h4 with rfl | h4
      · exact hgt
      · exact h4
    · exact ⟨m, rfl, le_rfl, by omega, Or.inl (not_lt.1 hgt), Or.inl rfl⟩

/-- The two loops of `leaf_split_by_size` end at `m₁` and at `m`, where both halves fit; the sums
that they compare on the way are those of the entries, and none of them wraps. -/
structure LeafCut (id : PageId) (es : List (Key × Val)) (pageSize m₁ m : ℕ) : Prop where
  shrink : shrinkLoop (leafLeftBytes (ofEntries id es)) pageSize (es.length / 2) = some m₁
  grow : growLoop (leafRightBytes (ofEntries id es)) pageSize (es.length - 1 - m₁) m₁ = some m
  pos : 0 < m₁
  le : m₁ ≤ m
  lt : m < es.length
  left_fits : 11 + entriesLen (es.take m) ≤ pageSize
  right_fits : 11 + entriesLen (es.drop m) ≤ pageSize
  left_lt : ∀ j ≤ es.length / 2, 11 + entriesLen (es.take j) < 65536
  right_lt : ∀ j ≥ m₁, 11 + entriesLen (es.drop j) < 65536

theorem entriesLen_take_add_drop (es : List (Key × Val)) (m : ℕ) :
    entriesLen (es.take m) + entriesLen (es.drop m) = entriesLen es := by
  rw [← entriesLen_append, List.take_append_drop]

theorem entriesLen_le {c : ℕ} (hmax : ∀ e ∈ es, 4 + e.1.length + e.2.length ≤ c) :
    entriesLen es ≤ es.length * c := by
  induction es with
  | nil => simp
  | cons e es ih =>
    have he := hmax e (by simp)
    have hes := ih fun x hx => hmax x (by simp [hx])
    rw [entriesLen_cons, List.length_cons, Nat.succ_mul]
    omega

theorem leafLeftBytes_ofEntries (h : entriesLen es < 65536) {m : ℕ} (hm : m ≤ es.length)
    (hlt : 11 + entriesLen (es.take m) < 65536) :
    leafLeftBytes (ofEntries id es) m = some (11 + entriesLen (es.take m)) := by
  have hstart : (ofEntries id es).entryStart[m]? = some (entriesLen (es.take m)) := by
    have hget := getElem?_entryStarts hm
    rwa [u16_of_lt (lt_of_le_of_lt (entriesLen_take_le es m) h)] at hget
  simp only [leafLeftBytes, hstart, Option.bind_eq_bind, Option.bind_some]
  rw [LEAF_HEADER, u16_of_lt hlt]

theorem leafRightBytes_ofEntries (h : entriesLen es < 65536) {m : ℕ} (hm : m ≤ es.length)
    (hlt : 11 + entriesLen (es.drop m) < 65536) :
    leafRightBytes (ofEntries id es) m = some (11 + entriesLen (es.drop m)) := by
  have hstart : (ofEntries id es).entryStart[m]? = some (entriesLen (es.take m)) := by
    have hget := getElem?_entryStarts hm
    rwa [u16_of_lt (lt_of_le_of_lt (entriesLen_take_le es m) h)] at hget
  have hsum := entriesLen_take_add_drop es m
  have hlen : (ofEntries id es).entries.length = entriesLen es := rfl
  simp only [leafRightBytes, hstart, Option.bind_eq_bind, Option.bind_some]
  rw [LEAF_HEADER, hlen, u16_of_lt h, u16Sub_of_le h (entriesLen_take_le es m),
    show entriesLen es - entriesLen (es.take m) = entriesLen (es.drop m) by omega, u16_of_lt hlt]

/-- A list of entries of at most `c` bytes that does not fit a page can be cut where both halves
fit, as long as it is at most one entry larger than the page. -/
theorem exists_leafCut {c : ℕ} (hover : pageSize < 11 + entriesLen es)
    (hmax : ∀ e ∈ es, 4 + e.1.length + e.2.length ≤ c) (hc : 31 + 2 * c ≤ pageSize)
    (hlen : entriesLen es + 11 ≤ pageSize + c) (hwrap : pageSize + c ≤ 65546) :
    ∃ m₁ m, LeafCut id es pageSize m₁ m := by
  have hwrap' : entriesLen es < 65536 := by omega
  have hsum := entriesLen_take_add_drop es
  have htake : ∀ m, entriesLen (es.take m) ≤ m * c := fun m => by
    have := (@entriesLen_le (es.take m)) fun e he => hmax e (List.mem_of_mem_take he)
    exact this.trans (Nat.mul_le_mul_right c (List.length_take_le m es))
  have hdrop : ∀ m, entriesLen (es.drop m) ≤ (es.length - m) * c := fun m => by
    have := (@entriesLen_le (es.drop m)) fun e he => hmax e (List.mem_of_mem_drop he)
    rwa [List.length_drop] at this
  have hmany : ∀ m, 4 * (es.length - m) ≤ entriesLen (es.drop m) := fun m => by
    have := length_le_entriesLen (es.drop m)
    rwa [List.length_drop] at this
  have hfew : ∀ m ≤ es.length, 4 * m ≤ entriesLen (es.take m) := fun m hm => by
    have := length_le_entriesLen (es.take m)
    rwa [List.length_take, Nat.min_eq_left hm] at this
  have hstep : ∀ m, entriesLen (es.take (m + 1)) ≤ entriesLen (es.take m) + c := fun m => by
    rw [List.take_add_one, entriesLen_append]
    rcases hm : es[m]? with _ | e
    · simp
    · simpa using hmax e (List.mem_of_getElem? hm)
  have hone := htake 1
  -- at least three entries, since two fit
  have hnk : 3 ≤ es.length := by
    by_contra hlt
    have h2 := htake 2
    rw [List.take_of_length_le (by omega)] at h2
    omega
  -- up to three entries are small, and behind more than three as many follow
  have hleft : ∀ m ≤ es.length / 2, 11 + entriesLen (es.take m) < 65536 := fun m hm => by
    rcases Nat.lt_or_ge 3 m with h3 | h3
    · have h1 := hmany m
      have h2 := hsum m
      omega
    · have := (htake m).trans (Nat.mul_le_mul_right c h3)
      omega
  obtain ⟨m₁, hm₁, hpos, hle, hfit₁, hstop⟩ := (@shrinkLoop_spec pageSize)
    (fun m _ hm => (@leafLeftBytes_ofEntries _ id) hwrap' (by omega) (hleft m hm))
    (show 11 + entriesLen (es.take 1) ≤ pageSize by omega) (by omega)
  have hright₁ : 11 + entriesLen (es.drop m₁) < 65536 := by
    have hs := hsum m₁
    rcases hstop with heq | hstop
    · rcases Nat.lt_or_ge m₁ 3 with h3 | h3
      · have h1 := (hdrop m₁).trans (Nat.mul_le_mul_right c (show es.length - m₁ ≤ 3 by omega))
        omega
      · have h1 := hfew m₁ (by omega)
        omega
    · have h1 := hstep m₁
      omega
  have hright : ∀ m ≥ m₁, 11 + entriesLen (es.drop m) < 65536 := fun m hm => by
    have hsub : entriesLen (es.drop m) ≤ entriesLen (es.drop m₁) := by
      have h := entriesLen_take_add_drop (es.drop m₁) (m - m₁)
      rw [List.drop_drop, show m₁ + (m - m₁) = m by omega] at h
      omega
    omega
  obtain ⟨m₂, hm₂, hge, hle₂, hfit₂, hprev⟩ := (@growLoop_spec pageSize)
    (es.length - 1 - m₁) m₁ fun i h1 hi =>
      (@leafRightBytes_ofEntries _ id) hwrap' (show i ≤ es.length by omega) (hright i h1)
  have hlt : m₂ < es.length := by omega
  refine ⟨m₁, m₂, hm₁, hm₂, hpos, hge, hlt, ?_, ?_, hleft, hright⟩
  · -- the last step of the second loop started from a right half that was too large
    rcases hprev with rfl | hprev
    · exact hfit₁
    · obtain ⟨k, rfl⟩ : ∃ k, m₂ = k + 1 := ⟨m₂ - 1, by omega⟩
      have h1 := hstep k
      have h2 := hsum k
      rw [Nat.add_sub_cancel] at hprev
      omega
  · rcases hfit₂ with h | h
    · exact h
    · -- only the last entry is left
      have h1 := hdrop m₂
      rw [show es.length - m₂ = 1 by omega] at h1
      omega

/-- **The split** returns the two parts of the entries. -/
theorem LeafCut.leafSplitBySize_eq {m₁ m : ℕ} (h : LeafCut id es pageSize m₁ m)
    (hP : pageSize < 65536) (hlen : entriesLen es < 65536) :
    leafSplitBySize (ofEntries id es) pageSize =
      some (ofEntries 0 (es.take m), ofEntries 0 (es.drop m)) := by
  have hlt := h.lt
  have htail : (es.drop m).take (es.length - m) = es.drop m := List.take_of_length_le (by simp)
  have hsub : u16Sub es.length 1 = es.length - 1 :=
    u16Sub_of_le (by have := length_le_entriesLen es; omega) (by omega)
  rw [leafSplitBySize, nkeys_ofEntries_of_lt hlen, u16_of_lt hP, h.shrink]
  simp only [Option.bind_eq_bind, Option.bind_some, hsub, h.grow, empty_eq,
    pushRange_ofEntries hlen (Nat.zero_le m) hlt.le, pushRange_ofEntries hlen hlt.le le_rfl, htail]
  simp

/-- Whatever the offsets, a split returns leaves built by pushing. -/
theorem exists_ofEntries_of_leafSplitBySize {old l r : LeafNode}
    (h : leafSplitBySize old pageSize = some (l, r)) :
    ∃ es₁ es₂, l = ofEntries 0 es₁ ∧ r = ofEntries 0 es₂ := by
  obtain ⟨m₁, -, h⟩ := Option.bind_eq_some_iff.1 h
  obtain ⟨m₂, -, h⟩ := Option.bind_eq_some_iff.1 h
  obtain ⟨l', hl, h⟩ := Option.bind_eq_some_iff.1 h
  obtain ⟨r', hr, h⟩ := Option.bind_eq_some_iff.1 h
  obtain ⟨rfl, rfl⟩ := Prod.mk.inj (Option.some.inj h)
  obtain ⟨es₁, rfl⟩ := exists_ofEntries_of_pushRange (empty_eq ▸ hl)
  obtain ⟨es₂, rfl⟩ := exists_ofEntries_of_pushRange (empty_eq ▸ hr)
  exact ⟨es₁, es₂, rfl, rfl⟩

theorem exists_ofEntries_of_leafInsert {old new : LeafNode} {idx : ℕ}
    (h : leafInsert old idx key val = some new) : ∃ es, new = ofEntries 0 es := by
  obtain ⟨n, hn, h⟩ := Option.bind_eq_some_iff.1 h
  obtain ⟨es, rfl⟩ := exists_ofEntries_of_pushRange (empty_eq ▸ hn)
  exact exists_ofEntries_of_pushRange (push_ofEntries .. ▸ h)

theorem exists_ofEntries_of_leafUpdate {old new : LeafNode} {idx : ℕ}
    (h : leafUpdate old idx key val = some new) : ∃ es, new = ofEntries 0 es := by
  obtain ⟨n, hn, h⟩ := Option.bind_eq_some_iff.1 h
  obtain ⟨es, rfl⟩ := exists_ofEntries_of_pushRange (empty_eq ▸ hn)
  exact exists_ofEntries_of_pushRange (push_ofEntries .. ▸ h)

end CowRaft.Btree
