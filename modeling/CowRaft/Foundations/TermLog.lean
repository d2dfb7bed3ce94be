import Mathlib

/-!
# Replicated logs

Logs whose entries carry the term in which they were created, the comparison `UpToDate` of two
such logs by their last entries, and `Matched`: a log every prefix of which is a prefix of the log
that the leader of its last entry's term wrote. Two matched logs that hold entries of one term at
one index agree up to it (`Matched.agree`), and a matched log that is up to date with another one
carries what the other holds of a term's leader log, unless it follows a later leader
(`Matched.carries`).
-/

namespace CowRaft.Consensus

variable {α : Type*}

/-- An entry of a replicated log. -/
structure Entry (α : Type*) where
  term : ℕ
  command : α
  deriving DecidableEq, Repr

/-- The term of the last entry, zero for the empty log. -/
def lastTerm (l : List (Entry α)) : ℕ :=
  (l.getLast?.map Entry.term).getD 0

/-- The first log is at least as up to date as the second. -/
def UpToDate (l m : List (Entry α)) : Prop :=
  lastTerm m < lastTerm l ∨ lastTerm l = lastTerm m ∧ m.length ≤ l.length

/-- The log is not empty, and its last entry is of term `t`. -/
def Ends (t : ℕ) (l : List (Entry α)) : Prop :=
  ∃ p e, l = p ++ [e] ∧ e.term = t

/-- Terms do not decrease along the log. -/
def TermSorted (l : List (Entry α)) : Prop :=
  l.Pairwise fun a b => a.term ≤ b.term

/-- Every prefix of the log is a prefix of what the leader of its last entry's term wrote. -/
def Matched (lead : ℕ → List (Entry α)) (l : List (Entry α)) : Prop :=
  ∀ p e, p ++ [e] <+: l → p ++ [e] <+: lead e.term

/-- Where the two logs hold entries of one term, they agree up to there. -/
def Matching (l m : List (Entry α)) : Prop :=
  ∀ (k : ℕ) (a b : Entry α), l[k]? = some a → m[k]? = some b → a.term = b.term →
    l.take (k + 1) = m.take (k + 1)

/-! ## Prefixes -/

section Prefixes

variable {β : Type*} {l m x : List β}

theorem snoc_nonempty (p : List β) (e : β) : p ++ [e] ≠ [] := by
  simp

/-- The cut at `i` of a list is the cut of any list it is a prefix of. -/
theorem take_eq_of_start (h : l <+: m) {i : ℕ} (hi : i ≤ l.length) : m.take i = l.take i := by
  obtain ⟨s, rfl⟩ := h
  exact List.take_append_of_le_length hi

/-- A cut that lies within a prefix does not notice the rest. -/
theorem take_start_of_start (h : l <+: m) {i : ℕ} (hi : i ≤ l.length) : m.take i <+: l := by
  rw [take_eq_of_start h hi]
  exact List.take_prefix i l

/-- What a prefix holds is where it is in the list. -/
theorem getElem?_of_start (h : l <+: m) {i : ℕ} {e : β} (hi : l[i]? = some e) :
    m[i]? = some e := by
  obtain ⟨s, rfl⟩ := h
  rw [List.getElem?_append_left (List.getElem?_eq_some_iff.1 hi).1, hi]

theorem take_start_mono (l : List β) {i j : ℕ} (h : i ≤ j) : l.take i <+: l.take j := by
  apply List.prefix_of_prefix_length_le (List.take_prefix i l) (List.take_prefix j l)
  rw [List.length_take, List.length_take]
  omega

end Prefixes

variable {l m x : List (Entry α)} {lead lead' : ℕ → List (Entry α)} {t u i : ℕ}

/-! ## Last terms -/

@[simp] theorem lastTerm_nil : lastTerm ([] : List (Entry α)) = 0 := rfl

@[simp] theorem lastTerm_snoc (p : List (Entry α)) (e : Entry α) :
    lastTerm (p ++ [e]) = e.term := by
  simp [lastTerm]

theorem Ends.lastTerm_eq (h : Ends t l) : lastTerm l = t := by
  obtain ⟨p, e, rfl, rfl⟩ := h
  exact lastTerm_snoc p e

theorem Ends.length_pos (h : Ends t l) : 0 < l.length := by
  obtain ⟨p, e, rfl, -⟩ := h
  simp

theorem exists_snoc_of_length_pos (h : 0 < l.length) : ∃ p e, l = p ++ [e] := by
  refine ⟨l.dropLast, l.getLast (List.length_pos_iff.1 h), ?_⟩
  exact (List.dropLast_append_getLast _).symm

/-- The entry before a cut decides the term the cut ends with. -/
theorem ends_take {e : Entry α} (h : l[i]? = some e) : Ends e.term (l.take (i + 1)) := by
  refine ⟨l.take i, e, ?_, rfl⟩
  rw [List.take_add_one, h]
  rfl

/-- Among finitely many logs one is up to date with all of them. -/
theorem exists_upToDate {ι : Type*} {S : Finset ι} (f : ι → List (Entry α)) (hS : S.Nonempty) :
    ∃ i ∈ S, ∀ j ∈ S, UpToDate (f i) (f j) := by
  obtain ⟨i, hi, hmax⟩ :=
    Finset.exists_max_image S (fun j => toLex (lastTerm (f j), (f j).length)) hS
  refine ⟨i, hi, fun j hj => ?_⟩
  rcases Prod.Lex.toLex_le_toLex.1 (hmax j hj) with hlt | ⟨heq, hle⟩
  · exact Or.inl hlt
  · exact Or.inr ⟨heq.symm, hle⟩

namespace TermSorted

theorem nil : TermSorted ([] : List (Entry α)) := List.Pairwise.nil

theorem start (h : TermSorted m) (hl : l <+: m) : TermSorted l :=
  List.Pairwise.sublist hl.sublist h

theorem snoc (h : TermSorted l) {e : Entry α} (he : ∀ a ∈ l, a.term ≤ e.term) :
    TermSorted (l ++ [e]) := by
  rw [TermSorted, List.pairwise_append]
  refine ⟨h, List.pairwise_singleton _ e, ?_⟩
  intro a ha b hb
  rw [List.mem_singleton.1 hb]
  exact he a ha

/-- No entry is of a later term than the last one. -/
theorem le_lastTerm (h : TermSorted l) {a : Entry α} (ha : a ∈ l) : a.term ≤ lastTerm l := by
  obtain ⟨p, e, rfl⟩ := exists_snoc_of_length_pos (List.length_pos_of_mem ha)
  rw [lastTerm_snoc]
  rcases List.mem_append.1 ha with ha | ha
  · exact (List.pairwise_append.1 h).2.2 a ha e (List.mem_singleton_self e)
  · rw [List.mem_singleton.1 ha]

theorem le_lastTerm_of_ends (h : TermSorted l) (hx : Ends t x) (hl : x <+: l) :
    t ≤ lastTerm l := by
  obtain ⟨p, e, rfl, rfl⟩ := hx
  exact h.le_lastTerm (hl.subset (by simp))

end TermSorted

/-! ## Matched logs -/

namespace Matched

theorem nil (lead : ℕ → List (Entry α)) : Matched lead [] := by
  intro p e h
  exact absurd (List.prefix_nil.1 h) (snoc_nonempty p e)

theorem start (h : Matched lead m) (hl : l <+: m) : Matched lead l := by
  intro p e hp
  exact h p e (hp.trans hl)

/-- Leaders that write more explain no less. -/
theorem mono (h : Matched lead l) (hlead : ∀ t, lead t <+: lead' t) : Matched lead' l := by
  intro p e hp
  exact (h p e hp).trans (hlead e.term)

theorem snoc (h : Matched lead l) {e : Entry α} (he : l ++ [e] <+: lead e.term) :
    Matched lead (l ++ [e]) := by
  intro p a hp
  rcases List.prefix_concat_iff.1 hp with hp | hp
  · obtain ⟨rfl, ha⟩ := List.append_inj' hp rfl
    obtain rfl := List.singleton_inj.1 ha
    exact he
  · exact h p a hp

theorem of_ends (h : Matched lead l) (hx : Ends t x) (hl : x <+: l) : x <+: lead t := by
  obtain ⟨p, e, rfl, rfl⟩ := hx
  exact h p e hl

/-- **Log matching**: two matched logs with entries of one term at one index agree up to it. -/
theorem agree (hl : Matched lead l) (hm : Matched lead m) {e f : Entry α} (he : l[i]? = some e)
    (hf : m[i]? = some f) (h : e.term = f.term) : l.take (i + 1) = m.take (i + 1) := by
  have hl' := hl.of_ends (ends_take he) (List.take_prefix _ l)
  have hm' := hm.of_ends (ends_take hf) (List.take_prefix _ m)
  rw [h] at hl'
  have hi : i < l.length := (List.getElem?_eq_some_iff.1 he).1
  have hj : i < m.length := (List.getElem?_eq_some_iff.1 hf).1
  have hlen : (l.take (i + 1)).length = (m.take (i + 1)).length := by
    rw [List.length_take, List.length_take]
    omega
  exact (List.prefix_of_prefix_length_le hl' hm' hlen.le).eq_of_length hlen

theorem matching (hl : Matched lead l) (hm : Matched lead m) : Matching l m :=
  fun _ _ _ he hf h => hl.agree hm he hf h

/-- A log that is up to date with another carries what the other holds of the log of term `t`,
or it ends with an entry of a later term. -/
theorem carries (hl : Matched lead l) (hm : Matched lead m) (hs : TermSorted m)
    (h : UpToDate l m) (hx : Ends t x) (hxm : x <+: m) :
    x <+: l ∨ ∃ u, t < u ∧ Ends u l ∧ l <+: lead u := by
  have ht : t ≤ lastTerm m := hs.le_lastTerm_of_ends hx hxm
  have hpos : 0 < l.length := by
    rcases Nat.eq_zero_or_pos l.length with h0 | h0
    · rw [List.length_eq_zero_iff.1 h0, UpToDate, lastTerm_nil, List.length_nil] at h
      have := hxm.length_le
      have := hx.length_pos
      omega
    · exact h0
  obtain ⟨p, e, hp⟩ := exists_snoc_of_length_pos hpos
  have hends : Ends e.term l := ⟨p, e, hp, rfl⟩
  have hlead : l <+: lead e.term := hl.of_ends hends List.prefix_rfl
  have hlast : lastTerm l = e.term := hends.lastTerm_eq
  rcases Nat.lt_or_ge t e.term with hlt | hge
  · exact Or.inr ⟨e.term, hlt, hends, hlead⟩
  · left
    -- both logs end with entries of term `t`, so the comparison was by length
    have hlen : m.length ≤ l.length := by
      rcases h with h | h
      · omega
      · exact h.2
    have het : e.term = t := by
      rcases h with h | h <;> omega
    rw [het] at hlead
    exact List.prefix_of_prefix_length_le (hm.of_ends hx hxm) hlead (hxm.length_le.trans hlen)

end Matched

end CowRaft.Consensus
