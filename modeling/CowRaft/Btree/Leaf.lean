import CowRaft.Btree.Io
import CowRaft.Foundations.SortedAssoc

/-!
# Leaf pages (`page/leaf.rs`)

A leaf keeps its entries as one byte string, `key_len | key | val_len | val` back to back, and an
in-memory table of 16-bit offsets. Every operation reads entries through that table, so that a
wrapped offset reads somewhere else: `none` stands for the panic of an index or a slice out of
range. Debug assertions are off and `u16` arithmetic wraps, as in a release build.

`LeafNode.ofEntries` is the leaf that pushing a list of entries builds. The second half of the file
reads the operations through it: what encoding and decoding give back, what the search finds, and
where the split cuts.
-/

namespace CowRaft.Btree

open Bytes

abbrev Key := Bytes
abbrev Val := Bytes

/-- `as u16`. -/
def u16 (n : ℕ) : ℕ := n % 65536

theorem u16_of_lt {n : ℕ} (h : n < 65536) : u16 n = n := Nat.mod_eq_of_lt h

theorem u16_lt (n : ℕ) : u16 n < 65536 := Nat.mod_lt n (by norm_num)

/-- `a - b` on `u16`. -/
def u16Sub (a b : ℕ) : ℕ := u16 (a + 65536 - b)

theorem u16Sub_of_le {a b : ℕ} (ha : a < 65536) (h : b ≤ a) : u16Sub a b = a - b := by
  rw [u16Sub, u16, show a + 65536 - b = a - b + 65536 by omega, Nat.add_mod_right,
    Nat.mod_eq_of_lt (by omega)]

def PAGE_TYPE_LEAF : Byte := 0x01

/-- 1B type tag + 8B page id + 2B key count. -/
def LEAF_HEADER : ℕ := 11

structure LeafNode where
  id : PageId
  entries : Bytes
  entryStart : List ℕ
  deriving DecidableEq

namespace LeafNode

/-- `LeafNode::empty`; the capacity hint only sizes the buffer. -/
def empty : LeafNode := ⟨0, [], [0]⟩

/-- The loop of `LeafNode::decode` over the remaining `nkeys`. -/
def decodeLoop (entries : Bytes) : ℕ → ℕ → List ℕ → Option (ℕ × List ℕ)
  | 0, pos, entryStart => some (pos, entryStart)
  | nkeys + 1, pos, entryStart => do
    let klen ← readLe 2 entries pos
    let vpos := pos + 2 + klen
    let vlen ← readLe 2 entries vpos
    let pos := u16 (pos + (4 + klen + vlen))
    decodeLoop entries nkeys pos (entryStart ++ [pos])

def decode (_expectedId : PageId) (bytes : Bytes) : Option LeafNode := do
  let id ← readLe 8 bytes 1
  let nkeys ← readLe 2 bytes 9
  let entries ← slice bytes LEAF_HEADER bytes.length
  let (pos, entryStart) ← decodeLoop entries nkeys 0 [0]
  some ⟨id, entries.take pos, entryStart⟩

def nkeys (node : LeafNode) : ℕ := u16 (node.entryStart.length - 1)

def getKey (node : LeafNode) (idx : ℕ) : Option Key := do
  let start ← node.entryStart[idx]?
  let klen ← readLe 2 node.entries start
  slice node.entries (start + 2) (start + 2 + klen)

def getVal (node : LeafNode) (idx : ℕ) : Option Val := do
  let start ← node.entryStart[idx]?
  let klen ← readLe 2 node.entries start
  let vstart := start + 2 + klen
  let vlen ← readLe 2 node.entries vstart
  slice node.entries (vstart + 2) (vstart + 2 + vlen)

def nbytes (node : LeafNode) : ℕ := LEAF_HEADER + node.entries.length

def push (node : LeafNode) (key : Key) (val : Val) : LeafNode :=
  let entries := node.entries ++ toLe 2 (u16 key.length) ++ key ++ toLe 2 (u16 val.length) ++ val
  { node with entries, entryStart := node.entryStart ++ [u16 entries.length] }

/-- `push_range`: the loop `for i in from..to`. -/
def pushRange (node src : LeafNode) (start stop : ℕ) : Option LeafNode :=
  (List.range' start (stop - start)).foldlM
    (fun node i => do some (node.push (← src.getKey i) (← src.getVal i))) node

def toBytes (node : LeafNode) (id : PageId) (pageSize : ℕ) : Option Bytes :=
  padTo pageSize (nodeImage PAGE_TYPE_LEAF id node.nkeys node.entries)

end LeafNode

/-- The loop of `leaf_search`, with the window `lo..=hi` of `i32`. Each turn shrinks the window;
`none` also stands for running out of turns. -/
def leafSearchLoop (node : LeafNode) (key : Key) : ℕ → ℤ → ℤ → Option (Except ℕ ℕ)
  | 0, _, _ => none
  | fuel + 1, lo, hi =>
    if lo ≤ hi then do
      let mid := lo + (hi - lo) / 2
      let k ← node.getKey mid.toNat
      if k = key then some (.ok mid.toNat)
      else if k < key then leafSearchLoop node key fuel (mid + 1) hi
      else leafSearchLoop node key fuel lo (mid - 1)
    else some (.error lo.toNat)

/-- `leaf_search`: `ok` with the index of the key, or `error` with the index where it belongs. -/
def leafSearch (node : LeafNode) (key : Key) : Option (Except ℕ ℕ) :=
  leafSearchLoop node key (node.nkeys + 1) 0 (node.nkeys - 1)

def leafInsert (old : LeafNode) (idx : ℕ) (key : Key) (val : Val) : Option LeafNode := do
  let new ← LeafNode.empty.pushRange old 0 idx
  (new.push key val).pushRange old idx old.nkeys

def leafUpdate (old : LeafNode) (idx : ℕ) (key : Key) (val : Val) : Option LeafNode := do
  let new ← LeafNode.empty.pushRange old 0 idx
  (new.push key val).pushRange old (idx + 1) old.nkeys

/-- The closure `left_bytes` of `leaf_split_by_size`. -/
def leafLeftBytes (old : LeafNode) (m : ℕ) : Option ℕ := do
  some (u16 (LEAF_HEADER + (← old.entryStart[m]?)))

/-- The closure `right_bytes` of `leaf_split_by_size`. -/
def leafRightBytes (old : LeafNode) (m : ℕ) : Option ℕ := do
  some (u16 (LEAF_HEADER + u16Sub (u16 old.entries.length) (← old.entryStart[m]?)))

/-- `while m >= 1 && bytes(m) > page_size { m -= 1; }` -/
def shrinkLoop (bytes : ℕ → Option ℕ) (pageSize : ℕ) : ℕ → Option ℕ
  | 0 => some 0
  | m + 1 => do
    if (← bytes (m + 1)) > pageSize then shrinkLoop bytes pageSize m else some (m + 1)

/-- `while m < last && bytes(m) > page_size { m += 1; }`, with `fuel` turns left before `last`. -/
def growLoop (bytes : ℕ → Option ℕ) (pageSize : ℕ) : ℕ → ℕ → Option ℕ
  | 0, m => some m
  | fuel + 1, m => do
    if (← bytes m) > pageSize then growLoop bytes pageSize fuel (m + 1) else some m

def leafSplitBySize (old : LeafNode) (pageSize : ℕ) : Option (LeafNode × LeafNode) := do
  let pageSize := u16 pageSize
  let m ← shrinkLoop (leafLeftBytes old) pageSize (old.nkeys / 2)
  let m ← growLoop (leafRightBytes old) pageSize (u16Sub old.nkeys 1 - m) m
  let left ← LeafNode.empty.pushRange old 0 m
  let right ← LeafNode.empty.pushRange old m old.nkeys
  some (left, right)

/-! ## Leaves built by pushing -/

theorem exists_eq_append_of_getElem? {α : Type*} {l : List α} {i : ℕ} {a : α}
    (h : l[i]? = some a) : ∃ l₁ l₂, l = l₁ ++ a :: l₂ ∧ l₁.length = i := by
  obtain ⟨hlt, rfl⟩ := List.getElem?_eq_some_iff.1 h
  exact ⟨l.take i, l.drop (i + 1), by simp, by simp; omega⟩

/-- One entry as it is stored. -/
def entryBytes (e : Key × Val) : Bytes :=
  toLe 2 (u16 e.1.length) ++ e.1 ++ toLe 2 (u16 e.2.length) ++ e.2

def encodeEntries (es : List (Key × Val)) : Bytes := es.flatMap entryBytes

/-- The stored size of a list of entries. -/
def entriesLen (es : List (Key × Val)) : ℕ := (encodeEntries es).length

@[simp] theorem length_entryBytes (e : Key × Val) :
    (entryBytes e).length = 4 + e.1.length + e.2.length := by
  simp only [entryBytes, List.length_append, length_toLe]
  omega

@[simp] theorem encodeEntries_nil : encodeEntries [] = [] := rfl

theorem encodeEntries_cons (e : Key × Val) (es : List (Key × Val)) :
    encodeEntries (e :: es) = entryBytes e ++ encodeEntries es := rfl

theorem encodeEntries_append (es₁ es₂ : List (Key × Val)) :
    encodeEntries (es₁ ++ es₂) = encodeEntries es₁ ++ encodeEntries es₂ := List.flatMap_append

@[simp] theorem entriesLen_nil : entriesLen [] = 0 := rfl

@[simp] theorem entriesLen_cons (e : Key × Val) (es : List (Key × Val)) :
    entriesLen (e :: es) = 4 + e.1.length + e.2.length + entriesLen es := by
  rw [entriesLen, encodeEntries_cons, List.length_append, length_entryBytes, entriesLen]

@[simp] theorem entriesLen_append (es₁ es₂ : List (Key × Val)) :
    entriesLen (es₁ ++ es₂) = entriesLen es₁ + entriesLen es₂ := by
  rw [entriesLen, encodeEntries_append, List.length_append, entriesLen, entriesLen]

theorem length_le_entriesLen (es : List (Key × Val)) : 4 * es.length ≤ entriesLen es := by
  induction es with
  | nil => simp
  | cons e es ih => simp only [List.length_cons, entriesLen_cons]; omega

theorem entriesLen_take_le (es : List (Key × Val)) (i : ℕ) :
    entriesLen (es.take i) ≤ entriesLen es := by
  conv_rhs => rw [← List.take_append_drop i es, entriesLen_append]
  omega

namespace LeafNode

/-- The offset table of a list of entries. -/
def entryStarts (es : List (Key × Val)) : List ℕ :=
  (List.range (es.length + 1)).map fun i => u16 (entriesLen (es.take i))

/-- The leaf with the given entries. -/
def ofEntries (id : PageId) (es : List (Key × Val)) : LeafNode :=
  ⟨id, encodeEntries es, entryStarts es⟩

@[simp] theorem length_entryStarts (es : List (Key × Val)) :
    (entryStarts es).length = es.length + 1 := by
  simp [entryStarts]

theorem getElem?_entryStarts {es : List (Key × Val)} {i : ℕ} (h : i ≤ es.length) :
    (entryStarts es)[i]? = some (u16 (entriesLen (es.take i))) := by
  rw [entryStarts, List.getElem?_map, List.getElem?_range (by omega), Option.map_some]

theorem entryStarts_concat (es : List (Key × Val)) (e : Key × Val) :
    entryStarts (es ++ [e]) = entryStarts es ++ [u16 (entriesLen (es ++ [e]))] := by
  rw [entryStarts, entryStarts, List.length_append, List.length_singleton,
    List.range_succ, List.map_append, List.map_singleton]
  congr 1
  · refine List.map_congr_left fun i hi => ?_
    rw [List.take_append_of_le_length (by simpa [Nat.lt_succ_iff] using hi)]
  · rw [List.take_of_length_le (by simp)]

theorem empty_eq : empty = ofEntries 0 [] := rfl

@[simp] theorem push_ofEntries (id : PageId) (es : List (Key × Val)) (k : Key) (v : Val) :
    (ofEntries id es).push k v = ofEntries id (es ++ [(k, v)]) := by
  have henc : encodeEntries (es ++ [(k, v)]) =
      encodeEntries es ++ toLe 2 (u16 k.length) ++ k ++ toLe 2 (u16 v.length) ++ v := by
    rw [encodeEntries_append]
    simp [encodeEntries, entryBytes]
  simp only [push, ofEntries, ← henc, entryStarts_concat, entriesLen]

theorem nkeys_ofEntries (id : PageId) (es : List (Key × Val)) :
    (ofEntries id es).nkeys = u16 es.length := by
  simp [nkeys, ofEntries]

@[simp] theorem nbytes_ofEntries (id : PageId) (es : List (Key × Val)) :
    (ofEntries id es).nbytes = 11 + entriesLen es := rfl

section Reads

variable {es es₁ es₂ : List (Key × Val)} {e : Key × Val} {id : PageId}

/-- A stored key is found at its offset. -/
theorem readLe_key (z : Bytes) (h : entriesLen (es₁ ++ [e]) < 65536) :
    readLe 2 (encodeEntries (es₁ ++ e :: es₂) ++ z) (entriesLen es₁) = some e.1.length := by
  simp only [entriesLen_append, entriesLen_cons, entriesLen_nil] at h
  have henc : encodeEntries (es₁ ++ e :: es₂) ++ z = encodeEntries es₁ ++
      toLe 2 (u16 e.1.length) ++ (e.1 ++ toLe 2 (u16 e.2.length) ++ e.2 ++
        encodeEntries es₂ ++ z) := by
    simp [encodeEntries_append, encodeEntries_cons, entryBytes]
  rw [henc, readLe_append two_pos _ _ _ (by simp [entriesLen]), u16_of_lt (by omega)]

/-- A stored value length is found after the key. -/
theorem readLe_val (z : Bytes) (h : entriesLen (es₁ ++ [e]) < 65536) :
    readLe 2 (encodeEntries (es₁ ++ e :: es₂) ++ z) (entriesLen es₁ + 2 + e.1.length) =
      some e.2.length := by
  simp only [entriesLen_append, entriesLen_cons, entriesLen_nil] at h
  have henc : encodeEntries (es₁ ++ e :: es₂) ++ z = (encodeEntries es₁ ++
      toLe 2 (u16 e.1.length) ++ e.1) ++ toLe 2 (u16 e.2.length) ++ (e.2 ++
        encodeEntries es₂ ++ z) := by
    simp [encodeEntries_append, encodeEntries_cons, entryBytes]
  rw [henc, readLe_append two_pos _ _ _ (by simp [entriesLen]; omega), u16_of_lt (by omega)]

theorem getElem?_entryStarts_mid (h : entriesLen (es₁ ++ e :: es₂) < 65536) :
    (entryStarts (es₁ ++ e :: es₂))[es₁.length]? = some (entriesLen es₁) := by
  rw [getElem?_entryStarts (by simp), List.take_left, u16_of_lt]
  rw [entriesLen_append] at h
  omega

theorem getKey_ofEntries (h : entriesLen es < 65536) {i : ℕ} (hi : es[i]? = some e) :
    (ofEntries id es).getKey i = some e.1 := by
  obtain ⟨es₁, es₂, rfl, rfl⟩ := exists_eq_append_of_getElem? hi
  have hread := (@readLe_key es₁ es₂ e) [] (by simp at h ⊢; omega)
  have henc : encodeEntries (es₁ ++ e :: es₂) = (encodeEntries es₁ ++
      toLe 2 (u16 e.1.length)) ++ e.1 ++ (toLe 2 (u16 e.2.length) ++ e.2 ++
        encodeEntries es₂) := by
    simp [encodeEntries_append, encodeEntries_cons, entryBytes]
  rw [List.append_nil] at hread
  simp only [getKey, ofEntries, getElem?_entryStarts_mid h, Option.bind_eq_bind,
    Option.bind_some, hread]
  rw [henc]
  exact slice_append _ _ _ (by simp [entriesLen]) (by simp [entriesLen])

theorem getVal_ofEntries (h : entriesLen es < 65536) {i : ℕ} (hi : es[i]? = some e) :
    (ofEntries id es).getVal i = some e.2 := by
  obtain ⟨es₁, es₂, rfl, rfl⟩ := exists_eq_append_of_getElem? hi
  have hfit : entriesLen (es₁ ++ [e]) < 65536 := by simp at h ⊢; omega
  have hkey := (@readLe_key _ es₂) [] hfit
  have hval := (@readLe_val _ es₂) [] hfit
  have henc : encodeEntries (es₁ ++ e :: es₂) = (encodeEntries es₁ ++
      toLe 2 (u16 e.1.length) ++ e.1 ++ toLe 2 (u16 e.2.length)) ++ e.2 ++
        encodeEntries es₂ := by
    simp [encodeEntries_append, encodeEntries_cons, entryBytes]
  rw [List.append_nil] at hkey hval
  simp only [getVal, ofEntries, getElem?_entryStarts_mid h, Option.bind_eq_bind,
    Option.bind_some, hkey, hval]
  rw [henc]
  refine slice_append _ _ _ ?_ ?_ <;> simp [entriesLen] <;> omega

/-! ## Encoding and decoding -/

/-- The decoding loop rebuilds the offset table. -/
theorem decodeLoop_eq (z : Bytes) (h : entriesLen (es₁ ++ es₂) < 65536) :
    decodeLoop (encodeEntries (es₁ ++ es₂) ++ z) es₂.length (entriesLen es₁) (entryStarts es₁) =
      some (entriesLen (es₁ ++ es₂), entryStarts (es₁ ++ es₂)) := by
  induction es₂ generalizing es₁ with
  | nil => simp [decodeLoop]
  | cons e es₂ ih =>
    have hle : entriesLen (es₁ ++ [e]) ≤ entriesLen (es₁ ++ e :: es₂) := by simp
    have hpos : u16 (entriesLen es₁ + (4 + e.1.length + e.2.length)) =
        entriesLen (es₁ ++ [e]) := by
      rw [u16_of_lt (by simp at h; omega)]
      simp
    have hstarts : entryStarts es₁ ++ [entriesLen (es₁ ++ [e])] = entryStarts (es₁ ++ [e]) := by
      rw [entryStarts_concat, u16_of_lt (by omega)]
    simp only [List.length_cons, decodeLoop, readLe_key z (lt_of_le_of_lt hle h),
      readLe_val z (lt_of_le_of_lt hle h), Option.bind_eq_bind, Option.bind_some, hpos, hstarts]
    simpa using @ih (es₁ ++ [e]) (by simpa using h)

/-- **Round trip of a leaf page.** -/
theorem decode_toBytes {pageSize : ℕ} {bytes : Bytes} (expected : PageId)
    (h : entriesLen es < 65536) {id₀ : PageId}
    (hb : (ofEntries id₀ es).toBytes id pageSize = some bytes) :
    decode expected bytes = some (ofEntries id es) := by
  have hn : (ofEntries id₀ es).nkeys = es.length := by
    rw [nkeys_ofEntries, u16_of_lt]
    have := length_le_entriesLen es
    omega
  obtain ⟨z, rfl⟩ : ∃ z, bytes = nodeImage PAGE_TYPE_LEAF id es.length (encodeEntries es ++ z) := by
    rw [toBytes, hn, padTo_eq (length_le_of_padTo hb), nodeImage_append, Option.some.injEq] at hb
    exact ⟨_, hb.symm⟩
  have hslice := slice_nodeImage PAGE_TYPE_LEAF id es.length (encodeEntries es ++ z) []
  rw [List.append_nil, ← length_nodeImage PAGE_TYPE_LEAF id es.length] at hslice
  have hloop := (@decodeLoop_eq [] es) z (by simpa using h)
  simp only [List.nil_append, entriesLen_nil, show entryStarts [] = [0] from rfl] at hloop
  simp only [decode, readLe_id_nodeImage, readLe_nkeys_nodeImage, LEAF_HEADER, hslice, hloop,
    Option.bind_eq_bind, Option.bind_some, ofEntries]
  rw [entriesLen, List.take_left]

end Reads

end LeafNode

end CowRaft.Btree
