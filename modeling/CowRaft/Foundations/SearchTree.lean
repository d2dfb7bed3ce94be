import CowRaft.Foundations.SortedAssoc

/-!
# Separators and children

An internal node of a search tree holds `N` separators and `N + 1` children; child `i` is
responsible for the keys from separator `i - 1` up to separator `i`. `Chain P lo ks cs hi` says
this for the range from `lo` to `hi`, each child satisfying `P` within its own bounds. Upper bounds
are in `WithTop`, so that the rightmost node of a level has none.

The lemmas cut a chain at a child (`Chain.focus`) and put it together again around whatever
replaces that child, cut it at a separator (`Chain.cut`), and read off the contents from left to
right (`Chain.piece`).
-/

namespace CowRaft

variable {α β ν : Type*}

/-- Children `cs` separated by `ks`, covering the keys from `lo` up to `hi`. -/
inductive Chain (P : α → β → WithTop α → Prop) : α → List α → List β → WithTop α → Prop
  | last {lo : α} {c : β} {hi : WithTop α} : P lo c hi → Chain P lo [] [c] hi
  | cons {lo k : α} {c : β} {ks : List α} {cs : List β} {hi : WithTop α} :
      P lo c k → Chain P k ks cs hi → Chain P lo (k :: ks) (c :: cs) hi

/-- The part of a chain before a child whose lower bound is `a`. -/
inductive ChainBefore (P : α → β → WithTop α → Prop) : α → List α → List β → α → Prop
  | nil {lo : α} : ChainBefore P lo [] [] lo
  | cons {lo k a : α} {c : β} {ks : List α} {cs : List β} :
      P lo c k → ChainBefore P k ks cs a → ChainBefore P lo (k :: ks) (c :: cs) a

/-- The part of a chain after a child whose upper bound is `b`. -/
inductive ChainAfter (P : α → β → WithTop α → Prop) :
    WithTop α → List α → List β → WithTop α → Prop
  | nil {hi : WithTop α} : ChainAfter P hi [] [] hi
  | cons {k : α} {ks : List α} {cs : List β} {hi : WithTop α} :
      Chain P k ks cs hi → ChainAfter P k (k :: ks) cs hi

variable {P Q : α → β → WithTop α → Prop} {lo a : α} {b hi : WithTop α} {ks ks₁ ks₂ : List α}
  {cs cs₁ cs₂ : List β}

namespace Chain

theorem length_eq (h : Chain P lo ks cs hi) : cs.length = ks.length + 1 := by
  induction h with
  | last h => rfl
  | cons h₁ h₂ ih => simp only [List.length_cons, ih]

theorem mono (hPQ : ∀ lo c hi, c ∈ cs → P lo c hi → Q lo c hi) (h : Chain P lo ks cs hi) :
    Chain Q lo ks cs hi := by
  induction h with
  | last h => exact .last (hPQ _ _ _ (by simp) h)
  | cons h₁ h₂ ih =>
    exact .cons (hPQ _ _ _ (by simp) h₁) (ih fun lo c hi hc => hPQ lo c hi (by simp [hc]))

theorem forall_mem (h : Chain P lo ks cs hi) : ∀ c ∈ cs, ∃ lo hi, P lo c hi := by
  induction h with
  | last h =>
    intro c hc
    obtain rfl := List.mem_singleton.1 hc
    exact ⟨_, _, h⟩
  | cons h₁ h₂ ih =>
    intro c hc
    rcases List.mem_cons.1 hc with rfl | hc
    · exact ⟨_, _, h₁⟩
    · exact ih c hc

theorem append (h₁ : ChainBefore P lo ks₁ cs₁ a) (h₂ : Chain P a ks₂ cs₂ hi) :
    Chain P lo (ks₁ ++ ks₂) (cs₁ ++ cs₂) hi := by
  induction h₁ with
  | nil => exact h₂
  | cons h h' ih => exact .cons h (ih h₂)

theorem append_after (h₁ : Chain P lo ks₁ cs₁ b) (h₂ : ChainAfter P b ks₂ cs₂ hi) :
    Chain P lo (ks₁ ++ ks₂) (cs₁ ++ cs₂) hi := by
  induction h₁ with
  | last h =>
    cases h₂ with
    | nil => exact .last h
    | cons h' => exact .cons h h'
  | cons h h' ih => exact .cons h (ih h₂)

/-- **Focus on child `i`**: its bounds, and the chain before and after it. -/
theorem focus (h : Chain P lo ks cs hi) {i : ℕ} (hi' : i ≤ ks.length) :
    ∃ (a : α) (c : β) (b : WithTop α), cs[i]? = some c ∧ P a c b ∧
      ChainBefore P lo (ks.take i) (cs.take i) a ∧
      ChainAfter P b (ks.drop i) (cs.drop (i + 1)) hi := by
  induction h generalizing i with
  | last h =>
    obtain rfl : i = 0 := by simpa using hi'
    exact ⟨_, _, _, rfl, h, .nil, .nil⟩
  | cons h₁ h₂ ih =>
    cases i with
    | zero => exact ⟨_, _, _, rfl, h₁, .nil, .cons h₂⟩
    | succ i =>
      obtain ⟨a, c, b, hc, hP, hb, ha⟩ := ih (i := i) (by simpa using hi')
      exact ⟨a, c, b, hc, hP, .cons h₁ hb, ha⟩

/-- **Cut at separator `m`**, which goes to neither side. -/
theorem cut (h : Chain P lo ks cs hi) {m : ℕ} {p : α} (hm : ks[m]? = some p) :
    Chain P lo (ks.take m) (cs.take (m + 1)) p ∧
      Chain P p (ks.drop (m + 1)) (cs.drop (m + 1)) hi := by
  induction h generalizing m with
  | last h => simp at hm
  | cons h₁ h₂ ih =>
    cases m with
    | zero =>
      obtain rfl : _ = p := by simpa using hm
      exact ⟨.last h₁, by simpa using h₂⟩
    | succ m =>
      obtain ⟨hl, hr⟩ := ih (m := m) (by simpa using hm)
      exact ⟨.cons h₁ hl, hr⟩

/-- The bounds of child `i` are the separators on its two sides, where there are any. -/
theorem bounds (h : Chain P lo ks cs hi) {i : ℕ} {c : β} (hc : cs[i]? = some c) :
    ∃ (a : α) (b : WithTop α), P a c b ∧ (∀ k, 0 < i → ks[i - 1]? = some k → k = a) ∧
      ∀ k, ks[i]? = some k → b = k := by
  induction h generalizing i with
  | @last lo d hi h =>
    obtain ⟨rfl, rfl⟩ : i = 0 ∧ d = c := by
      cases i with
      | zero => exact ⟨rfl, by simpa using hc⟩
      | succ i => simp at hc
    exact ⟨_, _, h, by simp, by simp⟩
  | @cons lo k d ks cs hi h₁ h₂ ih =>
    cases i with
    | zero =>
      obtain rfl : d = c := by simpa using hc
      exact ⟨_, _, h₁, fun _ h0 => absurd h0 (lt_irrefl 0), fun k' hk => by
        rw [List.getElem?_cons_zero, Option.some.injEq] at hk
        rw [hk]⟩
    | succ i =>
      obtain ⟨a, b, hP, hleft, hright⟩ := ih (i := i) (by simpa using hc)
      cases i with
      | zero =>
        -- the lower bound of the second child is the first separator
        cases h₂ with
        | last h =>
          obtain rfl : _ = c := by simpa using hc
          exact ⟨k, _, h, fun k' _ hk => by simpa using hk.symm, by simp⟩
        | cons h _ =>
          obtain rfl : _ = c := by simpa using hc
          refine ⟨k, _, h, fun k' _ hk => by simpa using hk.symm, fun k' hk => ?_⟩
          obtain rfl : _ = k' := by simpa using hk
          rfl
      | succ i =>
        refine ⟨a, b, hP, fun k' _ hk => hleft k' (Nat.succ_pos i) ?_, fun k' hk => hright k' ?_⟩
        · simpa using hk
        · simpa using hk

end Chain

namespace ChainBefore

theorem mono (hPQ : ∀ lo c hi, c ∈ cs → P lo c hi → Q lo c hi)
    (h : ChainBefore P lo ks cs a) : ChainBefore Q lo ks cs a := by
  induction h with
  | nil => exact .nil
  | cons h₁ h₂ ih =>
    exact .cons (hPQ _ _ _ (by simp) h₁) (ih fun lo c hi hc => hPQ lo c hi (by simp [hc]))

end ChainBefore

namespace ChainAfter

theorem mono (hPQ : ∀ lo c hi, c ∈ cs → P lo c hi → Q lo c hi)
    (h : ChainAfter P b ks cs hi) : ChainAfter Q b ks cs hi := by
  cases h with
  | nil => exact .nil
  | cons h => exact .cons (h.mono hPQ)

end ChainAfter

/-! ## Bounds -/

variable [LinearOrder α]

namespace Chain

theorem lt (hlt : ∀ lo c hi, P lo c hi → (lo : WithTop α) < hi) (h : Chain P lo ks cs hi) :
    (lo : WithTop α) < hi := by
  induction h with
  | last h => exact hlt _ _ _ h
  | cons h₁ h₂ ih => exact (hlt _ _ _ h₁).trans ih

theorem lt_keys (hlt : ∀ lo c hi, P lo c hi → (lo : WithTop α) < hi) (h : Chain P lo ks cs hi) :
    ∀ k ∈ ks, lo < k ∧ (k : WithTop α) < hi := by
  induction h with
  | last h => simp
  | cons h₁ h₂ ih =>
    intro k hk
    have h₁' := WithTop.coe_lt_coe.1 (hlt _ _ _ h₁)
    rcases List.mem_cons.1 hk with rfl | hk
    · exact ⟨h₁', h₂.lt hlt⟩
    · exact ⟨h₁'.trans (ih k hk).1, (ih k hk).2⟩

/-- The separators are strictly increasing. -/
theorem pairwise_keys (hlt : ∀ lo c hi, P lo c hi → (lo : WithTop α) < hi)
    (h : Chain P lo ks cs hi) : ks.Pairwise (· < ·) := by
  induction h with
  | last h => exact List.Pairwise.nil
  | cons h₁ h₂ ih => exact List.pairwise_cons.2 ⟨fun k hk => (h₂.lt_keys hlt k hk).1, ih⟩

end Chain

/-- The focused child's lower bound is the last separator before it, if there is one. -/
theorem ChainBefore.lower_le {key : α} (h : ChainBefore P lo ks cs a) (hlo : lo ≤ key)
    (hks : ∀ k ∈ ks, k ≤ key) : a ≤ key := by
  induction h with
  | nil => exact hlo
  | cons h₁ h₂ ih => exact ih (hks _ (by simp)) fun k hk => hks k (by simp [hk])

/-- The focused child's upper bound is the first separator after it, if there is one. -/
theorem ChainAfter.lt_upper {key : α} (h : ChainAfter P b ks cs hi) (hhi : (key : WithTop α) < hi)
    (hks : ∀ k ∈ ks, key < k) : (key : WithTop α) < b := by
  cases h with
  | nil => exact hhi
  | cons h => exact WithTop.coe_lt_coe.2 (hks _ (by simp))

/-! ## Contents, from left to right -/

/-- The keys of `m` lie from `lo` up to `hi`. -/
def InRange (lo : α) (hi : WithTop α) (m : List (α × ν)) : Prop :=
  ∀ e ∈ m, lo ≤ e.1 ∧ (e.1 : WithTop α) < hi

theorem InRange.upsert {key : α} {m : List (α × ν)} (hr : InRange lo hi m) (v : ν)
    (hlo : lo ≤ key) (hhi : (key : WithTop α) < hi) :
    InRange lo hi (CowRaft.upsert key v m) := fun e he => by
  rcases mem_upsert he with rfl | he
  · exact ⟨hlo, hhi⟩
  · exact hr e he

section Contents

variable (f : β → List (α × ν))

/-- A child contributes a sorted, non-empty piece within its bounds. -/
structure Piece (lo : α) (c : β) (hi : WithTop α) : Prop where
  sorted : SortedKeys (f c)
  inRange : InRange lo hi (f c)
  ne_nil : f c ≠ []

variable {f}

theorem Piece.lt {c : β} (h : Piece f lo c hi) : (lo : WithTop α) < hi := by
  obtain ⟨e, he⟩ := List.exists_mem_of_ne_nil _ h.ne_nil
  exact lt_of_le_of_lt (WithTop.coe_le_coe.2 (h.inRange e he).1) (h.inRange e he).2

theorem ChainBefore.inRange (hP : ∀ lo c hi, P lo c hi → Piece f lo c hi)
    (h : ChainBefore P lo ks cs a) : InRange lo a (cs.flatMap f) ∧ lo ≤ a := by
  induction h with
  | nil => exact ⟨by simp [InRange], le_rfl⟩
  | @cons lo k a c ks cs h₁ h₂ ih =>
    have hp := hP _ _ _ h₁
    have hlt : lo < k := WithTop.coe_lt_coe.1 hp.lt
    refine ⟨fun e he => ?_, hlt.le.trans ih.2⟩
    rw [List.flatMap_cons] at he
    rcases List.mem_append.1 he with he | he
    · exact ⟨(hp.inRange e he).1,
        lt_of_lt_of_le (hp.inRange e he).2 (WithTop.coe_le_coe.2 ih.2)⟩
    · exact ⟨hlt.le.trans (ih.1 e he).1, (ih.1 e he).2⟩

/-- The contents of a chain are sorted, within its bounds and not empty. -/
theorem Chain.piece (hP : ∀ lo c hi, P lo c hi → Piece f lo c hi) (h : Chain P lo ks cs hi) :
    SortedKeys (cs.flatMap f) ∧ InRange lo hi (cs.flatMap f) ∧ cs.flatMap f ≠ [] := by
  induction h with
  | last h =>
    have hp := hP _ _ _ h
    simpa using And.intro hp.sorted (And.intro hp.inRange hp.ne_nil)
  | @cons lo k c ks cs hi h₁ h₂ ih =>
    obtain ⟨hs, hr, hn⟩ := ih
    have hp := hP _ _ _ h₁
    have hlt : lo < k := WithTop.coe_lt_coe.1 hp.lt
    have hk : (k : WithTop α) < hi := h₂.lt fun lo c hi h => (hP lo c hi h).lt
    rw [List.flatMap_cons]
    refine ⟨SortedKeys.append_iff.2 ⟨hp.sorted, hs, fun x hx y hy => ?_⟩, fun e he => ?_, ?_⟩
    · have hxk := WithTop.coe_lt_coe.1 (hp.inRange x hx).2
      exact lt_of_lt_of_le hxk (hr y hy).1
    · rcases List.mem_append.1 he with he | he
      · exact ⟨(hp.inRange e he).1, (hp.inRange e he).2.trans hk⟩
      · exact ⟨hlt.le.trans (hr e he).1, (hr e he).2⟩
    · simp [hn]

theorem ChainAfter.inRange (hP : ∀ lo c hi, P lo c hi → Piece f lo c hi)
    (h : ChainAfter P b ks cs hi) : ∀ e ∈ cs.flatMap f, b ≤ (e.1 : WithTop α) := by
  cases h with
  | nil => simp
  | cons h =>
    intro e he
    exact WithTop.coe_le_coe.2 ((h.piece hP).2.1 e he).1

/-- A key within the focused child's bounds is looked up in that child alone. -/
theorem lookup_focus (hP : ∀ lo c hi, P lo c hi → Piece f lo c hi) {key : α} {c : β}
    (hb : ChainBefore P lo ks₁ cs₁ a) (ha : ChainAfter P b ks₂ cs₂ hi) (hlo : a ≤ key)
    (hhi : (key : WithTop α) < b) :
    lookupKey key ((cs₁ ++ c :: cs₂).flatMap f) = lookupKey key (f c) := by
  rw [List.flatMap_append, List.flatMap_cons]
  refine lookupKey_middle (fun e he => ?_) fun e he => ?_
  · exact lt_of_lt_of_le (WithTop.coe_lt_coe.1 ((hb.inRange hP).1 e he).2) hlo
  · exact WithTop.coe_lt_coe.1 (lt_of_lt_of_le hhi (ha.inRange hP e he))

/-- A key within the focused child's bounds is inserted in that child alone. -/
theorem upsert_focus (hP : ∀ lo c hi, P lo c hi → Piece f lo c hi) {key : α} (v : ν) {c : β}
    (hb : ChainBefore P lo ks₁ cs₁ a) (ha : ChainAfter P b ks₂ cs₂ hi) (hlo : a ≤ key)
    (hhi : (key : WithTop α) < b) :
    upsert key v ((cs₁ ++ c :: cs₂).flatMap f) =
      cs₁.flatMap f ++ (upsert key v (f c) ++ cs₂.flatMap f) := by
  rw [List.flatMap_append, List.flatMap_cons, upsert_append_of_lt v, upsert_append_of_gt v]
  · exact fun e he => WithTop.coe_lt_coe.1 (lt_of_lt_of_le hhi (ha.inRange hP e he))
  · exact fun e he => lt_of_lt_of_le (WithTop.coe_lt_coe.1 ((hb.inRange hP).1 e he).2) hlo

end Contents

end CowRaft
