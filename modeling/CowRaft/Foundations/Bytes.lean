import Mathlib

/-!
# Byte strings and little-endian fields

The conversions a fixed-layout page format is made of: a number becomes `w` little-endian
base-256 digits (`toLe`), a field is read back at an offset (`readLe`), and a range of a buffer is
taken with the bounds check of a slice expression (`slice`).

A byte is a natural number, and the last digit of `toLe` keeps whatever is left of the number. On
numbers below `256 ^ w` the digits are bytes; above, the encoding stays injective, so that page
ids, which are idealised as natural numbers, need no bound.
-/

namespace CowRaft

abbrev Byte := ℕ

/-- A byte string; the order on byte strings is the lexicographic one. -/
abbrev Bytes := List Byte

namespace Bytes

/-! ## Digits -/

/-- The `w` little-endian digits of `n`. -/
def toLe : ℕ → ℕ → Bytes
  | 0, _ => []
  | 1, n => [n]
  | w + 2, n => n % 256 :: toLe (w + 1) (n / 256)

/-- The number with the given little-endian digits. -/
def ofLe : Bytes → ℕ
  | [] => 0
  | b :: bs => b + 256 * ofLe bs

@[simp] theorem length_toLe (w n : ℕ) : (toLe w n).length = w := by
  induction w, n using toLe.induct with
  | case1 n => rfl
  | case2 n => rfl
  | case3 w n ih => simp only [toLe, List.length_cons, ih]

theorem ofLe_toLe {w : ℕ} (hw : 0 < w) (n : ℕ) : ofLe (toLe w n) = n := by
  induction w, n using toLe.induct with
  | case1 n => exact absurd hw (lt_irrefl 0)
  | case2 n => simp [toLe, ofLe]
  | case3 w n ih =>
    rw [toLe, ofLe, ih (Nat.succ_pos w)]
    exact Nat.mod_add_div n 256

/-! ## Slices -/

/-- `l[a..b]`: `none` where the slice expression is out of range. -/
def slice {α : Type*} (l : List α) (a b : ℕ) : Option (List α) :=
  if a ≤ b ∧ b ≤ l.length then some ((l.take b).drop a) else none

theorem slice_append {α : Type*} (x y z : List α) {a b : ℕ} (ha : a = x.length)
    (hb : b = x.length + y.length) : slice (x ++ y ++ z) a b = some y := by
  subst ha hb
  have hlen : (x ++ y).length = x.length + y.length := List.length_append
  rw [slice, if_pos ⟨by omega, by simp⟩, ← hlen, List.take_left, List.drop_left]

/-- The `w`-digit field at offset `pos`. -/
def readLe (w : ℕ) (bytes : Bytes) (pos : ℕ) : Option ℕ :=
  (slice bytes pos (pos + w)).map ofLe

theorem readLe_append {w : ℕ} (hw : 0 < w) (x z : Bytes) (n : ℕ) {pos : ℕ} (h : pos = x.length) :
    readLe w (x ++ toLe w n ++ z) pos = some n := by
  rw [readLe, slice_append x (toLe w n) z h (by simp [h]), Option.map_some, ofLe_toLe hw]

/-- The bytes `content` at the start of a zeroed buffer of `size` bytes; `none` when a write would
be out of the buffer's range. -/
def padTo (size : ℕ) (content : Bytes) : Option Bytes :=
  if content.length ≤ size then some (content ++ List.replicate (size - content.length) 0)
  else none

theorem padTo_eq {size : ℕ} {content : Bytes} (h : content.length ≤ size) :
    padTo size content = some (content ++ List.replicate (size - content.length) 0) := if_pos h

theorem length_le_of_padTo {size : ℕ} {content b : Bytes} (h : padTo size content = some b) :
    content.length ≤ size := by
  rw [padTo] at h
  split at h
  · assumption
  · cases h

theorem length_of_padTo {size : ℕ} {content b : Bytes} (h : padTo size content = some b) :
    b.length = size := by
  have hle := length_le_of_padTo h
  rw [padTo_eq hle, Option.some.injEq] at h
  rw [← h, List.length_append, List.length_replicate]
  omega

/-- Reading a buffer in which the range from `a` was overwritten. -/
theorem getD_overwrite {l b : Bytes} {a : ℕ} (h : a + b.length ≤ l.length) (i : ℕ) :
    (l.take a ++ b ++ l.drop (a + b.length)).getD i 0 =
      if a ≤ i ∧ i < a + b.length then b.getD (i - a) 0 else l.getD i 0 := by
  have htake : (l.take a).length = a := by
    rw [List.length_take]
    omega
  simp only [List.getD_eq_getElem?_getD]
  split_ifs with hi
  · rw [List.append_assoc, List.getElem?_append_right (htake.le.trans hi.1), htake,
      List.getElem?_append_left (by omega)]
  · rcases lt_or_ge i a with hlt | hge
    · rw [List.append_assoc, List.getElem?_append_left (by omega), List.getElem?_take_of_lt hlt]
    · rw [List.getElem?_append_right (by rw [List.length_append, htake]; omega),
        List.length_append, htake, List.getElem?_drop]
      congr 2
      omega

end Bytes

end CowRaft
