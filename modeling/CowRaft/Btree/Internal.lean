import CowRaft.Btree.Leaf

/-!
# Internal pages (`page/internal.rs`)

An internal page keeps its separators as one byte string, `key_len | key` back to back, with an
in-memory table of 16-bit offsets, and its children as a list of page ids. `InternalNode.ofKeys` is
the node that pushing a list of separators and a list of children builds; the codec is read through
it at the end of the file.
-/

namespace CowRaft.Btree

open Bytes

def PAGE_TYPE_INTERNAL : Byte := 0x02

/-- 1B type tag + 8B page id + 2B key count. -/
def INTERNAL_HEADER : ℕ := 11

structure InternalNode where
  id : PageId
  keys : Bytes
  keyStart : List ℕ
  children : List PageId
  deriving DecidableEq

namespace InternalNode

/-- `InternalNode::empty`; the capacity hint only sizes the buffer. -/
def empty : InternalNode := ⟨0, [], [0], []⟩

/-- The first loop of `InternalNode::decode`, over the remaining `nkeys`. -/
def decodeKeys (bytes : Bytes) : ℕ → ℕ → List ℕ → Option (ℕ × List ℕ)
  | 0, pos, keyStart => some (pos, keyStart)
  | nkeys + 1, pos, keyStart => do
    let klen ← readLe 2 bytes pos
    let pos := pos + (2 + klen)
    decodeKeys bytes nkeys pos (keyStart ++ [u16 (pos - INTERNAL_HEADER)])

/-- The second loop of `InternalNode::decode`, over the remaining children. -/
def decodeChildren (bytes : Bytes) : ℕ → ℕ → List PageId → Option (List PageId)
  | 0, _, children => some children
  | n + 1, cpos, children => do
    let child ← readLe 8 bytes cpos
    decodeChildren bytes n (cpos + 8) (children ++ [child])

def decode (_expectedId : PageId) (bytes : Bytes) : Option InternalNode := do
  let id ← readLe 8 bytes 1
  let nkeys ← readLe 2 bytes 9
  let (keysEnd, keyStart) ← decodeKeys bytes nkeys INTERNAL_HEADER [0]
  let keys ← slice bytes INTERNAL_HEADER keysEnd
  let children ← decodeChildren bytes (nkeys + 1) keysEnd []
  some ⟨id, keys, keyStart, children⟩

def nkeys (node : InternalNode) : ℕ := u16 (node.keyStart.length - 1)

def nchildren (node : InternalNode) : ℕ := u16 (node.nkeys + 1)

def getKey (node : InternalNode) (idx : ℕ) : Option Key := do
  let start ← node.keyStart[idx]?
  let stop ← node.keyStart[idx + 1]?
  slice node.keys (start + 2) stop

def getChild (node : InternalNode) (idx : ℕ) : Option PageId := node.children[idx]?

def nbytes (node : InternalNode) : ℕ :=
  INTERNAL_HEADER + node.keys.length + 8 * node.children.length

def pushKey (node : InternalNode) (key : Key) : InternalNode :=
  let keys := node.keys ++ toLe 2 (u16 key.length) ++ key
  { node with keys, keyStart := node.keyStart ++ [u16 keys.length] }

def pushChild (node : InternalNode) (child : PageId) : InternalNode :=
  { node with children := node.children ++ [child] }

/-- `for i in start..stop { new.push_key(node.get_key(i)); }` -/
def pushKeyRange (new node : InternalNode) (start stop : ℕ) : Option InternalNode :=
  (List.range' start (stop - start)).foldlM (fun new i => do
    some (new.pushKey (← node.getKey i))) new

/-- `for i in start..stop { new.push_child(node.get_child(i)); }` -/
def pushChildRange (new node : InternalNode) (start stop : ℕ) : Option InternalNode :=
  (List.range' start (stop - start)).foldlM (fun new i => do
    some (new.pushChild (← node.getChild i))) new

def toBytes (node : InternalNode) (id : PageId) (pageSize : ℕ) : Option Bytes :=
  padTo pageSize (nodeImage PAGE_TYPE_INTERNAL id node.nkeys
    (node.keys ++ node.children.flatMap (toLe 8)))

end InternalNode

open InternalNode

/-- The loop of `internal_child_index`, with the window `lo..hi`; `none` also stands for running
out of turns. -/
def internalChildIndexLoop (node : InternalNode) (key : Key) : ℕ → ℕ → ℕ → Option ℕ
  | 0, _, _ => none
  | fuel + 1, lo, hi =>
    if lo < hi then do
      let mid := lo + (hi - lo) / 2
      let k ← node.getKey mid
      if k ≤ key then internalChildIndexLoop node key fuel (mid + 1) hi
      else internalChildIndexLoop node key fuel lo mid
    else some lo

def internalChildIndex (node : InternalNode) (key : Key) : Option ℕ :=
  internalChildIndexLoop node key (node.nkeys + 1) 0 node.nkeys

def internalReplaceChild (node : InternalNode) (idx : ℕ) (newChild : PageId) :
    Option InternalNode := do
  let new ← InternalNode.empty.pushKeyRange node 0 node.nkeys
  (List.range node.nchildren).foldlM (fun new i =>
    (if i = idx then some newChild else node.getChild i).map new.pushChild) new

def internalInsertSplitChild (node : InternalNode) (childIdx : ℕ) (sepKey : Key)
    (left right : PageId) : Option InternalNode := do
  let new ← InternalNode.empty.pushKeyRange node 0 childIdx
  let new ← (new.pushKey sepKey).pushKeyRange node childIdx node.nkeys
  let new ← new.pushChildRange node 0 childIdx
  ((new.pushChild left).pushChild right).pushChildRange node (childIdx + 1) node.nchildren

/-- The closure `left_bytes` of `internal_split_with_promotion`. -/
def internalLeftBytes (grown : InternalNode) (m : ℕ) : Option ℕ := do
  some (u16 (INTERNAL_HEADER + (← grown.keyStart[m]?) + 8 * (m + 1)))

/-- The closure `right_bytes` of `internal_split_with_promotion`. -/
def internalRightBytes (grown : InternalNode) (m : ℕ) : Option ℕ := do
  some (u16 (INTERNAL_HEADER + u16Sub (u16 grown.keys.length) (← grown.keyStart[m + 1]?) +
    8 * u16Sub grown.nkeys m))

/-- `internal_split_with_promotion`: the left half, the promoted key, the right half. -/
def internalSplitWithPromotion (grown : InternalNode) (pageSize : ℕ) :
    Option (InternalNode × Key × InternalNode) := do
  let pageSize := u16 pageSize
  let np := grown.nkeys
  let m ← shrinkLoop (internalLeftBytes grown) pageSize (np / 2)
  let m ← growLoop (internalRightBytes grown) pageSize (u16Sub np 1 - m) m
  let left ← InternalNode.empty.pushKeyRange grown 0 m
  let left ← left.pushChildRange grown 0 (m + 1)
  let promoted ← grown.getKey m
  let right ← InternalNode.empty.pushKeyRange grown (m + 1) np
  let right ← right.pushChildRange grown (m + 1) (np + 1)
  some (left, promoted, right)

/-! ## Nodes built by pushing -/

/-- One separator as it is stored. -/
def keyBytes (k : Key) : Bytes := toLe 2 (u16 k.length) ++ k

def encodeKeys (ks : List Key) : Bytes := ks.flatMap keyBytes

/-- The stored size of a list of separators. -/
def keysLen (ks : List Key) : ℕ := (encodeKeys ks).length

@[simp] theorem length_keyBytes (k : Key) : (keyBytes k).length = 2 + k.length := by
  simp [keyBytes]

theorem encodeKeys_cons (k : Key) (ks : List Key) :
    encodeKeys (k :: ks) = keyBytes k ++ encodeKeys ks := rfl

theorem encodeKeys_append (ks₁ ks₂ : List Key) :
    encodeKeys (ks₁ ++ ks₂) = encodeKeys ks₁ ++ encodeKeys ks₂ := List.flatMap_append

@[simp] theorem keysLen_nil : keysLen [] = 0 := rfl

@[simp] theorem keysLen_cons (k : Key) (ks : List Key) :
    keysLen (k :: ks) = 2 + k.length + keysLen ks := by
  rw [keysLen, encodeKeys_cons, List.length_append, length_keyBytes, keysLen]

@[simp] theorem keysLen_append (ks₁ ks₂ : List Key) :
    keysLen (ks₁ ++ ks₂) = keysLen ks₁ + keysLen ks₂ := by
  rw [keysLen, encodeKeys_append, List.length_append, keysLen, keysLen]

theorem length_le_keysLen (ks : List Key) : 2 * ks.length ≤ keysLen ks := by
  induction ks with
  | nil => simp
  | cons k ks ih => simp only [List.length_cons, keysLen_cons]; omega

theorem keysLen_take_le (ks : List Key) (i : ℕ) : keysLen (ks.take i) ≤ keysLen ks := by
  conv_rhs => rw [← List.take_append_drop i ks, keysLen_append]
  omega

theorem length_le_keysLen_of_mem {ks : List Key} {k : Key} (h : k ∈ ks) :
    2 + k.length ≤ keysLen ks := by
  obtain ⟨ks₁, ks₂, rfl⟩ := List.append_of_mem h
  simp
  omega

namespace InternalNode

/-- The offset table of a list of separators. -/
def keyStarts (ks : List Key) : List ℕ :=
  (List.range (ks.length + 1)).map fun i => u16 (keysLen (ks.take i))

/-- The internal node with the given separators and children. -/
def ofKeys (id : PageId) (ks : List Key) (cs : List PageId) : InternalNode :=
  ⟨id, encodeKeys ks, keyStarts ks, cs⟩

theorem getElem?_keyStarts {ks : List Key} {i : ℕ} (h : i ≤ ks.length) :
    (keyStarts ks)[i]? = some (u16 (keysLen (ks.take i))) := by
  rw [keyStarts, List.getElem?_map, List.getElem?_range (by omega), Option.map_some]

theorem keyStarts_concat (ks : List Key) (k : Key) :
    keyStarts (ks ++ [k]) = keyStarts ks ++ [u16 (keysLen (ks ++ [k]))] := by
  rw [keyStarts, keyStarts, List.length_append, List.length_singleton,
    List.range_succ, List.map_append, List.map_singleton]
  congr 1
  · refine List.map_congr_left fun i hi => ?_
    rw [List.take_append_of_le_length (by simpa [Nat.lt_succ_iff] using hi)]
  · rw [List.take_of_length_le (by simp)]

theorem empty_eq : empty = ofKeys 0 [] [] := rfl

@[simp] theorem pushKey_ofKeys (id : PageId) (ks : List Key) (cs : List PageId) (k : Key) :
    (ofKeys id ks cs).pushKey k = ofKeys id (ks ++ [k]) cs := by
  have henc : encodeKeys (ks ++ [k]) = encodeKeys ks ++ toLe 2 (u16 k.length) ++ k := by
    simp [encodeKeys, keyBytes]
  simp only [pushKey, ofKeys, ← henc, keyStarts_concat, keysLen]

@[simp] theorem pushChild_ofKeys (id : PageId) (ks : List Key) (cs : List PageId) (c : PageId) :
    (ofKeys id ks cs).pushChild c = ofKeys id ks (cs ++ [c]) := rfl

@[simp] theorem children_ofKeys (id : PageId) (ks : List Key) (cs : List PageId) :
    (ofKeys id ks cs).children = cs := rfl

theorem nkeys_ofKeys (id : PageId) {ks : List Key} (cs : List PageId) (h : ks.length < 65536) :
    (ofKeys id ks cs).nkeys = ks.length := by
  simp [nkeys, ofKeys, keyStarts, u16_of_lt h]

@[simp] theorem nbytes_ofKeys (id : PageId) (ks : List Key) (cs : List PageId) :
    (ofKeys id ks cs).nbytes = 11 + keysLen ks + 8 * cs.length := rfl

section Reads

variable {ks ks₁ ks₂ : List Key} {cs : List PageId} {k : Key} {id : PageId}

theorem getKey_ofKeys (h : keysLen ks < 65536) {i : ℕ} (hi : ks[i]? = some k) :
    (ofKeys id ks cs).getKey i = some k := by
  obtain ⟨ks₁, ks₂, rfl, rfl⟩ := exists_eq_append_of_getElem? hi
  simp only [keysLen_append, keysLen_cons] at h
  have h₁ : (keyStarts (ks₁ ++ k :: ks₂))[ks₁.length]? = some (keysLen ks₁) := by
    rw [getElem?_keyStarts (by simp), List.take_left, u16_of_lt (by omega)]
  have h₂ : (keyStarts (ks₁ ++ k :: ks₂))[ks₁.length + 1]? =
      some (keysLen ks₁ + 2 + k.length) := by
    rw [getElem?_keyStarts (by simp), List.take_append, List.take_of_length_le (by omega)]
    simp only [Nat.add_sub_cancel_left, List.take_succ_cons, List.take_zero, keysLen_append,
      keysLen_cons, keysLen_nil]
    rw [u16_of_lt (by omega)]
    exact congrArg some (by omega)
  have henc : encodeKeys (ks₁ ++ k :: ks₂) =
      (encodeKeys ks₁ ++ toLe 2 (u16 k.length)) ++ k ++ encodeKeys ks₂ := by
    simp [encodeKeys_append, encodeKeys_cons, keyBytes]
  simp only [getKey, ofKeys, h₁, h₂, Option.bind_eq_bind, Option.bind_some]
  rw [henc]
  exact slice_append _ _ _ (by simp [keysLen]) (by simp [keysLen])

/-! ## Encoding and decoding -/

theorem decodeKeys_eq {x : Bytes} (z : Bytes) (hx : x.length = 11)
    (h : ∀ k ∈ ks₂, k.length < 65536) :
    decodeKeys (x ++ (encodeKeys (ks₁ ++ ks₂) ++ z)) ks₂.length (11 + keysLen ks₁)
        (keyStarts ks₁) = some (11 + keysLen (ks₁ ++ ks₂), keyStarts (ks₁ ++ ks₂)) := by
  induction ks₂ generalizing ks₁ with
  | nil => simp [decodeKeys]
  | cons k ks₂ ih =>
    have hread : readLe 2 (x ++ (encodeKeys (ks₁ ++ k :: ks₂) ++ z)) (11 + keysLen ks₁) =
        some k.length := by
      have henc : x ++ (encodeKeys (ks₁ ++ k :: ks₂) ++ z) = (x ++ encodeKeys ks₁) ++
          toLe 2 (u16 k.length) ++ (k ++ encodeKeys ks₂ ++ z) := by
        simp [encodeKeys_append, encodeKeys_cons, keyBytes]
      rw [henc, readLe_append two_pos _ _ _ (by simp [hx, keysLen]), u16_of_lt (h k (by simp))]
    have hpos : 11 + keysLen ks₁ + (2 + k.length) = 11 + keysLen (ks₁ ++ [k]) := by
      simp
      omega
    have hstart : keyStarts ks₁ ++ [u16 (11 + keysLen (ks₁ ++ [k]) - INTERNAL_HEADER)] =
        keyStarts (ks₁ ++ [k]) := by
      rw [keyStarts_concat, INTERNAL_HEADER, Nat.add_sub_cancel_left]
    simp only [List.length_cons, decodeKeys, hread, Option.bind_eq_bind, Option.bind_some, hpos,
      hstart]
    simpa using @ih (ks₁ ++ [k]) fun k hk => h k (by simp [hk])

theorem decodeChildren_eq {x : Bytes} (z : Bytes) {pos : ℕ} (hx : x.length = pos)
    (done : List PageId) :
    decodeChildren (x ++ (cs.flatMap (toLe 8) ++ z)) cs.length pos done = some (done ++ cs) := by
  induction cs generalizing x pos done with
  | nil => simp [decodeChildren]
  | cons c cs ih =>
    have hread : readLe 8 (x ++ ((c :: cs).flatMap (toLe 8) ++ z)) pos = some c := by
      have h := readLe_append (w := 8) (by norm_num) x (cs.flatMap (toLe 8) ++ z) c hx.symm
      simpa using h
    have h := @ih (x ++ toLe 8 c) (pos + 8) (by simp [hx]) (done ++ [c])
    simp only [List.length_cons, decodeChildren, hread, Option.bind_eq_bind, Option.bind_some]
    simpa using h

/-- **Round trip of an internal page.** -/
theorem decode_toBytes {pageSize : ℕ} {bytes : Bytes} (expected : PageId) {id₀ : PageId}
    (hks : keysLen ks < 65536) (hc : cs.length = ks.length + 1)
    (hb : (ofKeys id₀ ks cs).toBytes id pageSize = some bytes) :
    decode expected bytes = some (ofKeys id ks cs) := by
  have hk : ∀ k ∈ ks, k.length < 65536 := fun k hk => by
    have := length_le_keysLen_of_mem hk
    omega
  have hn : ks.length < 65536 := by
    have := length_le_keysLen ks
    omega
  obtain ⟨z, rfl⟩ : ∃ z, bytes = nodeImage PAGE_TYPE_INTERNAL id ks.length
      (encodeKeys ks ++ (cs.flatMap (toLe 8) ++ z)) := by
    rw [toBytes, nkeys_ofKeys _ _ hn, padTo_eq (length_le_of_padTo hb), nodeImage_append,
      Option.some.injEq, List.append_assoc] at hb
    exact ⟨_, hb.symm⟩
  have hkeys := (@decodeKeys_eq [] _ (PAGE_TYPE_INTERNAL :: (toLe 8 id ++ toLe 2 ks.length)))
    (cs.flatMap (toLe 8) ++ z) (by simp) hk
  have hslice := slice_nodeImage PAGE_TYPE_INTERNAL id ks.length (encodeKeys ks)
    (cs.flatMap (toLe 8) ++ z)
  have hchildren := @decodeChildren_eq cs
    (PAGE_TYPE_INTERNAL :: (toLe 8 id ++ toLe 2 ks.length) ++ encodeKeys ks) z (11 + keysLen ks)
    (by simp [keysLen]; omega) []
  simp only [List.nil_append, keysLen_nil, Nat.add_zero, show keyStarts [] = [0] from rfl]
    at hkeys
  rw [hc, List.append_assoc, List.nil_append] at hchildren
  have himage : nodeImage PAGE_TYPE_INTERNAL id ks.length
      (encodeKeys ks ++ (cs.flatMap (toLe 8) ++ z)) =
        PAGE_TYPE_INTERNAL :: (toLe 8 id ++ toLe 2 ks.length) ++
          (encodeKeys ks ++ (cs.flatMap (toLe 8) ++ z)) := rfl
  simp only [decode, readLe_id_nodeImage, readLe_nkeys_nodeImage, Option.bind_eq_bind,
    Option.bind_some, INTERNAL_HEADER]
  rw [himage, hkeys, ← himage]
  simp only [Option.bind_some, keysLen, hslice]
  rw [himage, ← keysLen, hchildren]
  rfl

end Reads

end InternalNode

end CowRaft.Btree
