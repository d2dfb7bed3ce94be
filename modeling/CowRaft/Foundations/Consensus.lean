import CowRaft.Foundations.TermLog

/-!
# Consensus by terms

Replicas that vote for a leader in each term, and replicate the log of the leader. The state keeps,
besides the term, the log and the commit index of each replica, what has happened so far: who
voted for whom, with which log a candidate asked for votes, who was elected with which log, what
the leader of a term has written, and how much of it each replica has acknowledged. A step
(`Step`) is taken by one replica, and may read any part of that history that a message, however
old, could have carried to it.

`Elections` and `Logs` are the invariants up to log matching; `Evolves` says which facts about the
history later steps leave as they are.
-/

namespace CowRaft.Consensus

variable {ν α : Type*}

/-- Replace the value of a function of two arguments at one place. -/
def set₂ {β γ δ : Type*} [DecidableEq β] [DecidableEq γ] (f : β → γ → δ) (b : β) (c : γ) (v : δ) :
    β → γ → δ :=
  fun b' c' => if b' = b ∧ c' = c then v else f b' c'

section Set

variable {β γ δ : Type*} [DecidableEq β] [DecidableEq γ] (f : β → γ → δ) {b b' : β} {c c' : γ}
  (v : δ)

theorem set₂_apply : set₂ f b c v b' c' = if b' = b ∧ c' = c then v else f b' c' := rfl

@[simp] theorem set₂_self : set₂ f b c v b c = v := by
  simp [set₂]

theorem set₂_of_ne (h : b' ≠ b) : set₂ f b c v b' c' = f b' c' := by
  simp [set₂, h]

end Set

/-- More than half of the members. -/
def Quorum (M S : Finset ν) : Prop :=
  S ⊆ M ∧ M.card < 2 * S.card

theorem Quorum.nonempty {M S : Finset ν} (h : Quorum M S) : S.Nonempty := by
  refine Finset.card_pos.1 ?_
  have := h.2
  omega

/-- Two quorums share a member. -/
theorem Quorum.exists_common {M S S' : Finset ν} (h : Quorum M S) (h' : Quorum M S') :
    ∃ n, n ∈ S ∧ n ∈ S' := by
  classical
  have hcard : M.card < S.card + S'.card := by
    have := h.2
    have := h'.2
    omega
  obtain ⟨n, hn⟩ := Finset.inter_nonempty_of_card_lt_card_add_card h.1 h'.1 hcard
  exact ⟨n, (Finset.mem_inter.1 hn).1, (Finset.mem_inter.1 hn).2⟩

/-- The replicas, and what has happened so far. -/
structure State (ν α : Type*) where
  /-- The current term of a replica. -/
  term : ν → ℕ
  /-- The log of a replica. -/
  log : ν → List (Entry α)
  /-- How much of its log a replica knows to be committed. -/
  commit : ν → ℕ
  /-- The candidate a replica voted for in a term. -/
  vote : ν → ℕ → Option ν
  /-- The log with which a replica asked for votes in a term. -/
  cand : ν → ℕ → Option (List (Entry α))
  /-- The leader of a term. -/
  leader : ℕ → Option ν
  /-- The log with which the leader of a term was elected. -/
  electLog : ℕ → List (Entry α)
  /-- The log of the leader of a term, as long as it leads. -/
  leaderLog : ℕ → List (Entry α)
  /-- How much of the log of a term's leader a replica has acknowledged. -/
  acked : ℕ → ν → ℕ

namespace State

/-- Replicas in term zero, with empty logs. -/
def init (ν α : Type*) : State ν α where
  term _ := 0
  log _ := []
  commit _ := 0
  vote _ _ := none
  cand _ _ := none
  leader _ := none
  electLog _ := []
  leaderLog _ := []
  acked _ _ := 0

/-- A quorum has acknowledged the first `i` entries of the leader of term `t`, and the last of
these is of term `t`. -/
def Chosen (M : Finset ν) (A : State ν α) (t i : ℕ) : Prop :=
  Ends t ((A.leaderLog t).take i) ∧ i ≤ (A.leaderLog t).length ∧
    ∃ S, Quorum M S ∧ ∀ m ∈ S, i ≤ A.acked t m

/-- In term `T` it can be known that the first `k` entries of the log `l` are committed. -/
def Known (M : Finset ν) (A : State ν α) (T k : ℕ) (l : List (Entry α)) : Prop :=
  k = 0 ∨ ∃ t i, t ≤ T ∧ A.Chosen M t i ∧ k ≤ i ∧ (A.leaderLog t).take k <+: l

/-- A leader between the terms `t` and `B` was elected without the first `i` entries of term
`t`'s leader. -/
def Broken (A : State ν α) (t i B : ℕ) : Prop :=
  ∃ w, t < w ∧ w < B ∧ A.leader w ≠ none ∧ ¬ (A.leaderLog t).take i <+: A.electLog w

end State

open State

variable {M : Finset ν} {n : ν} {A A' A'' : State ν α}

/-- One step of replica `n`. -/
inductive Step [DecidableEq ν] (M : Finset ν) (n : ν) (A : State ν α) : State ν α → Prop
  /-- Become a candidate of the next term. -/
  | timeout :
    Step M n A { A with
      term := Function.update A.term n (A.term n + 1)
      vote := set₂ A.vote n (A.term n + 1) (some n)
      cand := set₂ A.cand n (A.term n + 1) (some (A.log n)) }
  /-- Adopt a later term. -/
  | adopt (T : ℕ) (hT : A.term n < T) :
    Step M n A { A with term := Function.update A.term n T }
  /-- Vote for a candidate whose log is up to date. -/
  | grant (c : ν) (l : List (Entry α)) (hc : A.cand c (A.term n) = some l)
      (hl : UpToDate l (A.log n)) (hv : ∀ d, A.vote n (A.term n) = some d → d = c) :
    Step M n A { A with vote := set₂ A.vote n (A.term n) (some c) }
  /-- Become the leader with the votes of a quorum. -/
  | elect (S : Finset ν) (hS : Quorum M S) (hv : ∀ m ∈ S, A.vote m (A.term n) = some n)
      (hc : A.cand n (A.term n) = some (A.log n)) (hl : A.leader (A.term n) ≠ some n) :
    Step M n A { A with
      leader := Function.update A.leader (A.term n) (some n)
      electLog := Function.update A.electLog (A.term n) (A.log n)
      leaderLog := Function.update A.leaderLog (A.term n) (A.log n) }
  /-- Write an entry as the leader. -/
  | append (e : Entry α) (hl : A.leader (A.term n) = some n) (he : e.term = A.term n) :
    Step M n A { A with
      log := Function.update A.log n (A.log n ++ [e])
      leaderLog :=
        Function.update A.leaderLog (A.term n) (A.leaderLog (A.term n) ++ [e]) }
  /-- Acknowledge a part of the leader's log that is in the own log. -/
  | ack (l : List (Entry α)) (hl : l <+: A.leaderLog (A.term n)) (hn : l <+: A.log n) :
    Step M n A { A with
      acked := set₂ A.acked (A.term n) n (max (A.acked (A.term n) n) l.length) }
  /-- Replace the own log by a part of the leader's log that it does not hold. -/
  | overwrite (l : List (Entry α)) (hl : l <+: A.leaderLog (A.term n)) (hn : ¬ l <+: A.log n) :
    Step M n A { A with log := Function.update A.log n l }
  /-- Learn that entries are committed. -/
  | learn (k : ℕ) (hk : A.Known M (A.term n) k (A.log n)) :
    Step M n A { A with commit := Function.update A.commit n (max (A.commit n) k) }

/-! ## Elections -/

/-- What the history knows of votes and elections. -/
structure Elections (M : Finset ν) (A : State ν α) : Prop where
  vote_le : ∀ {m T c}, A.vote m T = some c → T ≤ A.term m
  vote_cand : ∀ {m T c}, A.vote m T = some c → A.cand c T ≠ none
  cand_le : ∀ {m T l}, A.cand m T = some l → T ≤ A.term m
  /-- A candidate has voted for itself. -/
  cand_vote : ∀ {m T l}, A.cand m T = some l → A.vote m T = some m
  leader_cand : ∀ {T c}, A.leader T = some c → A.cand c T = some (A.electLog T)
  leader_votes : ∀ {T c}, A.leader T = some c →
    ∃ S, Quorum M S ∧ ∀ m ∈ S, A.vote m T = some c

namespace Elections

theorem leader_le (h : Elections M A) {T : ℕ} {c : ν} (hc : A.leader T = some c) :
    T ≤ A.term c :=
  h.cand_le (h.leader_cand hc)

theorem init : Elections M (State.init ν α) := by
  constructor <;> intros <;> simp_all [State.init]

/-- No replica votes in a term it has not reached. -/
theorem vote_next (h : Elections M A) (m : ν) : A.vote m (A.term m + 1) = none := by
  cases hv : A.vote m (A.term m + 1) with
  | none => rfl
  | some c => exact absurd (h.vote_le hv) (by omega)

theorem cand_next (h : Elections M A) (m : ν) : A.cand m (A.term m + 1) = none := by
  cases hv : A.cand m (A.term m + 1) with
  | none => rfl
  | some l => exact absurd (h.cand_le hv) (by omega)

/-- **Election safety**: a quorum votes for no second candidate. -/
theorem unique (h : Elections M A) {S : Finset ν} {T : ℕ} {c d : ν} (hS : Quorum M S)
    (hv : ∀ m ∈ S, A.vote m T = some c) (hd : A.leader T = some d) : d = c := by
  obtain ⟨S', hS', hv'⟩ := h.leader_votes hd
  obtain ⟨m, hm, hm'⟩ := hS.exists_common hS'
  have := hv' m hm'
  rw [hv m hm] at this
  exact (Option.some.inj this).symm

/-- Whoever can be elected leads a term without a leader. -/
theorem leader_none (h : Elections M A) {S : Finset ν} {T : ℕ} (hS : Quorum M S)
    (hv : ∀ m ∈ S, A.vote m T = some n) (hl : A.leader T ≠ some n) : A.leader T = none := by
  cases hd : A.leader T with
  | none => rfl
  | some d => exact absurd (h.unique hS hv hd ▸ hd) hl

end Elections

/-- What later steps of replica `n` leave as it is. -/
structure Evolves (n : ν) (A A' : State ν α) : Prop where
  others : ∀ {m}, m ≠ n → A'.term m = A.term m ∧ A'.log m = A.log m ∧ A'.commit m = A.commit m ∧
    (∀ T, A'.vote m T = A.vote m T) ∧ (∀ T, A'.cand m T = A.cand m T) ∧
    ∀ t, A'.acked t m = A.acked t m
  term_le : A.term n ≤ A'.term n
  commit_le : A.commit n ≤ A'.commit n
  vote : ∀ {m T c}, A.vote m T = some c → A'.vote m T = some c
  cand : ∀ {m T l}, A.cand m T = some l → A'.cand m T = some l
  leader : ∀ {T c}, A.leader T = some c → A'.leader T = some c ∧ A'.electLog T = A.electLog T
  leader_of : ∀ {T c}, A'.leader T = some c → A.leader T = some c ∨ c = n
  leaderLog : ∀ t, A.leaderLog t <+: A'.leaderLog t
  acked : ∀ t m, A.acked t m ≤ A'.acked t m

namespace Evolves

theorem refl (n : ν) (A : State ν α) : Evolves n A A := by
  constructor <;> intros <;> simp_all

theorem trans (h : Evolves n A A') (h' : Evolves n A' A'') : Evolves n A A'' where
  others := by
    intro m hm
    obtain ⟨h₁, h₂, h₃, h₄, h₅, h₆⟩ := h.others hm
    obtain ⟨g₁, g₂, g₃, g₄, g₅, g₆⟩ := h'.others hm
    exact ⟨g₁.trans h₁, g₂.trans h₂, g₃.trans h₃, fun T => (g₄ T).trans (h₄ T),
      fun T => (g₅ T).trans (h₅ T), fun t => (g₆ t).trans (h₆ t)⟩
  term_le := h.term_le.trans h'.term_le
  commit_le := h.commit_le.trans h'.commit_le
  vote hv := h'.vote (h.vote hv)
  cand hc := h'.cand (h.cand hc)
  leader hc := by
    obtain ⟨h₁, h₂⟩ := h.leader hc
    obtain ⟨g₁, g₂⟩ := h'.leader h₁
    exact ⟨g₁, g₂.trans h₂⟩
  leader_of hc := by
    rcases h'.leader_of hc with hc | hc
    · exact h.leader_of hc
    · exact Or.inr hc
  leaderLog t := (h.leaderLog t).trans (h'.leaderLog t)
  acked t m := (h.acked t m).trans (h'.acked t m)

end Evolves

/-! ## Logs -/

/-- What the history knows of logs. -/
structure Logs (A : State ν α) : Prop where
  sorted : ∀ m, TermSorted (A.log m)
  term_le : ∀ m, ∀ e ∈ A.log m, e.term ≤ A.term m
  matched : ∀ m, Matched A.leaderLog (A.log m)
  cand_sorted : ∀ {m T l}, A.cand m T = some l → TermSorted l
  cand_lt : ∀ {m T l}, A.cand m T = some l → ∀ e ∈ l, e.term < T
  cand_matched : ∀ {m T l}, A.cand m T = some l → Matched A.leaderLog l
  /-- A leader writes entries of its own term behind the log it was elected with. -/
  split : ∀ T, ∃ own, A.leaderLog T = A.electLog T ++ own ∧ ∀ e ∈ own, e.term = T
  unled : ∀ {T}, A.leader T = none → A.leaderLog T = []
  leading : ∀ {m}, A.leader (A.term m) = some m → A.leaderLog (A.term m) = A.log m

namespace Logs

theorem init : Logs (State.init ν α) where
  sorted _ := TermSorted.nil
  term_le _ := by simp [State.init]
  matched _ := Matched.nil _
  cand_sorted hc := absurd hc (by simp [State.init])
  cand_lt hc := absurd hc (by simp [State.init])
  cand_matched hc := absurd hc (by simp [State.init])
  split _ := ⟨[], rfl, by simp⟩
  unled _ := rfl
  leading hl := absurd hl (by simp [State.init])

variable (h : Logs A) (he : Elections M A)
include h

theorem electLog_start (T : ℕ) : A.electLog T <+: A.leaderLog T := by
  obtain ⟨own, hown, -⟩ := h.split T
  exact ⟨own, hown.symm⟩

theorem electLog_nil {T : ℕ} (hT : A.leader T = none) : A.electLog T = [] := by
  have := h.electLog_start T
  rw [h.unled hT] at this
  exact List.prefix_nil.1 this

include he

theorem electLog_lt (T : ℕ) : ∀ e ∈ A.electLog T, e.term < T := by
  cases hT : A.leader T with
  | none => simp [h.electLog_nil hT]
  | some c => exact h.cand_lt (he.leader_cand hT)

theorem leaderLog_le (T : ℕ) : ∀ e ∈ A.leaderLog T, e.term ≤ T := by
  obtain ⟨own, hown, ht⟩ := h.split T
  intro e hmem
  rw [hown] at hmem
  rcases List.mem_append.1 hmem with hmem | hmem
  · exact (h.electLog_lt he T e hmem).le
  · exact (ht e hmem).le

theorem leaderLog_sorted (T : ℕ) : TermSorted (A.leaderLog T) := by
  obtain ⟨own, hown, ht⟩ := h.split T
  rw [hown, TermSorted, List.pairwise_append]
  refine ⟨?_, ?_, ?_⟩
  · cases hT : A.leader T with
    | none => simp [h.electLog_nil hT]
    | some c => exact h.cand_sorted (he.leader_cand hT)
  · apply List.pairwise_of_forall_mem_list
    intro a ha b hb
    rw [ht a ha, ht b hb]
  · intro a ha b hb
    rw [ht b hb]
    exact (h.electLog_lt he T a ha).le

theorem leaderLog_matched (T : ℕ) : Matched A.leaderLog (A.leaderLog T) := by
  obtain ⟨own, hown, ht⟩ := h.split T
  intro p e hp
  have hlast : e ∈ A.leaderLog T := hp.subset (by simp)
  rcases Nat.lt_or_ge p.length (A.electLog T).length with hlt | hge
  · -- the entry was there at the election
    have hstart : p ++ [e] <+: A.electLog T := by
      apply List.prefix_of_prefix_length_le hp (h.electLog_start T)
      simpa using hlt
    cases hT : A.leader T with
    | none =>
      rw [h.electLog_nil hT] at hlt
      exact absurd hlt (Nat.not_lt_zero _)
    | some c => exact h.cand_matched (he.leader_cand hT) p e hstart
  · -- the entry is of the leader's own term
    have hown' : e ∈ own := by
      have hget : (A.leaderLog T)[p.length]? = some e := by
        obtain ⟨s, hs⟩ := hp
        rw [← hs]
        simp
      rw [hown, List.getElem?_append_right hge] at hget
      exact List.mem_of_getElem? hget
    rw [ht e hown']
    exact hp

/-- A log of an earlier leader that ends with an entry of its term was written after its
election. -/
theorem electLog_start_of_ends {u : ℕ} {l : List (Entry α)} (hl : l <+: A.leaderLog u)
    (hu : Ends u l) : A.electLog u <+: l := by
  rcases Nat.lt_or_ge (A.electLog u).length l.length with hlt | hge
  · exact List.prefix_of_prefix_length_le (h.electLog_start u) hl hlt.le
  · obtain ⟨p, e, rfl, het⟩ := hu
    have hstart := List.prefix_of_prefix_length_le hl (h.electLog_start u) hge
    have := h.electLog_lt he u e (hstart.subset (by simp))
    omega

end Logs

/-! ## Steps -/

variable [DecidableEq ν]

/-- Steps leave the votes, the candidacies and the elections of the past as they are. -/
theorem Elections.evolves (h : Elections M A) (hl : Logs A) (hs : Step M n A A') :
    Evolves n A A' := by
  cases hs with
  | timeout =>
    refine { (Evolves.refl n A) with others := ?_, term_le := ?_, vote := ?_, cand := ?_ }
    · intro m hm
      simp [Function.update_of_ne hm, set₂_of_ne _ _ hm]
    · simp
    · intro m T c hv
      dsimp only
      rw [set₂_apply, if_neg]
      · exact hv
      · rintro ⟨rfl, rfl⟩
        rw [h.vote_next] at hv
        exact absurd hv (by simp)
    · intro m T l hc
      dsimp only
      rw [set₂_apply, if_neg]
      · exact hc
      · rintro ⟨rfl, rfl⟩
        rw [h.cand_next] at hc
        exact absurd hc (by simp)
  | adopt T hT =>
    refine { (Evolves.refl n A) with others := ?_, term_le := ?_ }
    · intro m hm
      simp [Function.update_of_ne hm]
    · simpa using hT.le
  | grant c l hc hl hv =>
    refine { (Evolves.refl n A) with others := ?_, vote := ?_ }
    · intro m hm
      simp [set₂_of_ne _ _ hm]
    · intro m T d hd
      dsimp only
      rw [set₂_apply]
      split_ifs with hm
      · rw [hm.1, hm.2] at hd
        rw [hv d hd]
      · exact hd
  | elect S hS hv hc hn =>
    have hnone := h.leader_none hS hv hn
    have hne : ∀ {T c}, A.leader T = some c → T ≠ A.term n := by
      rintro T c hT rfl
      rw [hnone] at hT
      exact absurd hT (by simp)
    refine { (Evolves.refl n A) with leader := ?_, leader_of := ?_, leaderLog := ?_ }
    · intro T c hT
      dsimp only
      rw [Function.update_of_ne (hne hT), Function.update_of_ne (hne hT)]
      exact ⟨hT, rfl⟩
    · intro T c hT
      dsimp only at hT
      rw [Function.update_apply] at hT
      split_ifs at hT with heq
      · exact Or.inr (Option.some.inj hT).symm
      · exact Or.inl hT
    · intro t
      dsimp only
      rw [Function.update_apply]
      split_ifs with heq
      · rw [heq, hl.unled hnone]
        exact List.nil_prefix
      · exact List.prefix_rfl
  | append e hn he =>
    refine { (Evolves.refl n A) with others := ?_, leaderLog := ?_ }
    · intro m hm
      simp [Function.update_of_ne hm]
    · intro t
      dsimp only
      rw [Function.update_apply]
      split_ifs with heq
      · rw [heq]
        exact List.prefix_append _ _
      · exact List.prefix_rfl
  | ack l hl' hn =>
    refine { (Evolves.refl n A) with others := ?_, acked := ?_ }
    · intro m hm
      simp [set₂_apply, hm]
    · intro t m
      dsimp only
      rw [set₂_apply]
      split_ifs with heq
      · rw [heq.1, heq.2]
        exact le_max_left _ _
      · exact le_rfl
  | overwrite l hl' hn =>
    refine { (Evolves.refl n A) with others := ?_ }
    intro m hm
    simp [Function.update_of_ne hm]
  | learn k hk =>
    refine { (Evolves.refl n A) with others := ?_, commit_le := ?_ }
    · intro m hm
      simp [Function.update_of_ne hm]
    · simp

/-- **Elections**: steps keep the invariant of votes and elections. -/
theorem Elections.step (h : Elections M A) (hev : Evolves n A A') (hs : Step M n A A') :
    Elections M A' := by
  have hterm : ∀ m, A.term m ≤ A'.term m := by
    intro m
    by_cases hm : m = n
    · exact hm ▸ hev.term_le
    · exact (hev.others hm).1.ge
  have hcand : ∀ {c T}, A.cand c T ≠ none → A'.cand c T ≠ none := by
    intro c T hc
    obtain ⟨l, hl⟩ := Option.ne_none_iff_exists'.1 hc
    rw [hev.cand hl]
    simp
  have hold : ∀ {T c}, A.leader T = some c → A'.cand c T = some (A'.electLog T) ∧
      ∃ S, Quorum M S ∧ ∀ m ∈ S, A'.vote m T = some c := by
    intro T c hc
    obtain ⟨S, hS, hv⟩ := h.leader_votes hc
    rw [(hev.leader hc).2]
    exact ⟨hev.cand (h.leader_cand hc), S, hS, fun m hm => hev.vote (hv m hm)⟩
  cases hs with
  | timeout =>
    refine ⟨?_, ?_, ?_, ?_, fun hc => (hold hc).1, fun hc => (hold hc).2⟩
    · intro m T c hv
      dsimp only at hv
      rw [set₂_apply] at hv
      split_ifs at hv with heq
      · simp [heq.1, heq.2]
      · exact (h.vote_le hv).trans (hterm m)
    · intro m T c hv
      dsimp only at hv ⊢
      rw [set₂_apply] at hv
      split_ifs at hv with heq
      · rw [← Option.some.inj hv, heq.2]
        simp
      · exact hcand (h.vote_cand hv)
    · intro m T l hc
      dsimp only at hc
      rw [set₂_apply] at hc
      split_ifs at hc with heq
      · simp [heq.1, heq.2]
      · exact (h.cand_le hc).trans (hterm m)
    · intro m T l hc
      dsimp only at hc
      rw [set₂_apply] at hc
      split_ifs at hc with heq
      · rw [heq.1, heq.2]
        exact set₂_self _ _
      · exact hev.vote (h.cand_vote hc)
  | adopt T hT =>
    exact ⟨fun hv => (h.vote_le hv).trans (hterm _), h.vote_cand,
      fun hc => (h.cand_le hc).trans (hterm _), h.cand_vote, h.leader_cand, h.leader_votes⟩
  | grant c l hc hl hv =>
    refine ⟨?_, ?_, h.cand_le, fun hc => hev.vote (h.cand_vote hc), h.leader_cand,
      fun hc => (hold hc).2⟩
    · intro m T d hd
      dsimp only at hd
      rw [set₂_apply] at hd
      split_ifs at hd with heq
      · rw [heq.1, heq.2]
      · exact h.vote_le hd
    · intro m T d hd
      dsimp only at hd
      rw [set₂_apply] at hd
      split_ifs at hd with heq
      · rw [← Option.some.inj hd, heq.2, hc]
        simp
      · exact h.vote_cand hd
  | elect S hS hv hc hn =>
    refine ⟨h.vote_le, h.vote_cand, h.cand_le, h.cand_vote, ?_, ?_⟩
    · intro T c hT
      dsimp only at hT ⊢
      by_cases heq : T = A.term n
      · rw [heq, Function.update_self] at hT ⊢
        rw [← Option.some.inj hT, hc]
      · rw [Function.update_of_ne heq] at hT ⊢
        exact h.leader_cand hT
    · intro T c hT
      dsimp only at hT ⊢
      by_cases heq : T = A.term n
      · rw [heq, Function.update_self] at hT
        rw [heq, ← Option.some.inj hT]
        exact ⟨S, hS, hv⟩
      · rw [Function.update_of_ne heq] at hT
        exact h.leader_votes hT
  | append e hn he =>
    exact ⟨h.vote_le, h.vote_cand, h.cand_le, h.cand_vote, h.leader_cand, h.leader_votes⟩
  | ack l hl hn =>
    exact ⟨h.vote_le, h.vote_cand, h.cand_le, h.cand_vote, h.leader_cand, h.leader_votes⟩
  | overwrite l hl hn =>
    exact ⟨h.vote_le, h.vote_cand, h.cand_le, h.cand_vote, h.leader_cand, h.leader_votes⟩
  | learn k hk =>
    exact ⟨h.vote_le, h.vote_cand, h.cand_le, h.cand_vote, h.leader_cand, h.leader_votes⟩

/-- **Logs**: steps keep the invariant of logs. -/
theorem Logs.step (h : Logs A) (he : Elections M A) (hev : Evolves n A A') (hs : Step M n A A') :
    Logs A' := by
  have hmatched : ∀ {l}, Matched A.leaderLog l → Matched A'.leaderLog l :=
    fun hm => hm.mono hev.leaderLog
  -- terms grow only past the terms that their replica may lead
  have hraise : ∀ {T m}, A.term n < T →
      A.leader (Function.update A.term n T m) = some m →
        A.leaderLog (Function.update A.term n T m) = A.log m := by
    intro T m hT hl
    by_cases hm : m = n
    · rw [hm, Function.update_self] at hl
      have := he.leader_le hl
      omega
    · rw [Function.update_of_ne hm] at hl ⊢
      exact h.leading hl
  have hle : ∀ {T}, A.term n ≤ T → ∀ m, ∀ e ∈ A.log m, e.term ≤ Function.update A.term n T m := by
    intro T hT m e hmem
    have := h.term_le m e hmem
    rw [Function.update_apply]
    split_ifs with hm
    · exact (hm ▸ this).trans hT
    · exact this
  cases hs with
  | timeout =>
    refine ⟨h.sorted, hle (Nat.le_succ _), h.matched, ?_, ?_, ?_, h.split, h.unled,
      fun hl => hraise (Nat.lt_succ_self _) hl⟩
    · intro m T l hc
      dsimp only at hc
      rw [set₂_apply] at hc
      split_ifs at hc with heq
      · exact Option.some.inj hc ▸ h.sorted n
      · exact h.cand_sorted hc
    · intro m T l hc
      dsimp only at hc
      rw [set₂_apply] at hc
      split_ifs at hc with heq
      · intro e hmem
        rw [← Option.some.inj hc] at hmem
        rw [heq.2]
        exact Nat.lt_succ_of_le (h.term_le n e hmem)
      · exact h.cand_lt hc
    · intro m T l hc
      dsimp only at hc
      rw [set₂_apply] at hc
      split_ifs at hc with heq
      · exact Option.some.inj hc ▸ h.matched n
      · exact h.cand_matched hc
  | adopt T hT =>
    exact ⟨h.sorted, hle hT.le, h.matched, h.cand_sorted, h.cand_lt, h.cand_matched, h.split,
      h.unled, fun hl => hraise hT hl⟩
  | grant c l hc hl hv =>
    exact ⟨h.sorted, h.term_le, h.matched, h.cand_sorted, h.cand_lt, h.cand_matched, h.split,
      h.unled, h.leading⟩
  | elect S hS hv hc hn =>
    refine ⟨h.sorted, h.term_le, fun m => hmatched (h.matched m), h.cand_sorted, h.cand_lt,
      fun hc' => hmatched (h.cand_matched hc'), ?_, ?_, ?_⟩
    · intro T
      dsimp only
      by_cases heq : T = A.term n
      · rw [heq, Function.update_self, Function.update_self]
        exact ⟨[], (List.append_nil _).symm, by simp⟩
      · rw [Function.update_of_ne heq, Function.update_of_ne heq]
        exact h.split T
    · intro T hT
      dsimp only at hT ⊢
      by_cases heq : T = A.term n
      · rw [heq, Function.update_self] at hT
        exact absurd hT (by simp)
      · rw [Function.update_of_ne heq] at hT ⊢
        exact h.unled hT
    · intro m hm
      dsimp only at hm ⊢
      by_cases heq : A.term m = A.term n
      · rw [heq, Function.update_self] at hm ⊢
        rw [Option.some.inj hm]
      · rw [Function.update_of_ne heq] at hm ⊢
        exact h.leading hm
  | append e hn ht =>
    have hlead := h.leading hn
    have hgrow : A.log n ++ [e] <+: Function.update A.leaderLog (A.term n)
        (A.leaderLog (A.term n) ++ [e]) e.term := by
      rw [ht, Function.update_self, hlead]
    refine ⟨?_, ?_, ?_, h.cand_sorted, h.cand_lt, fun hc' => hmatched (h.cand_matched hc'),
      ?_, ?_, ?_⟩
    · intro m
      dsimp only
      by_cases hm : m = n
      · rw [hm, Function.update_self]
        apply (h.sorted n).snoc
        intro a ha
        rw [ht]
        exact h.term_le n a ha
      · rw [Function.update_of_ne hm]
        exact h.sorted m
    · intro m
      dsimp only
      by_cases hm : m = n
      · rw [hm, Function.update_self]
        intro a ha
        rcases List.mem_append.1 ha with ha | ha
        · exact h.term_le n a ha
        · rw [List.mem_singleton.1 ha, ht]
      · rw [Function.update_of_ne hm]
        exact h.term_le m
    · intro m
      dsimp only
      by_cases hm : m = n
      · rw [hm, Function.update_self]
        exact (hmatched (h.matched n)).snoc hgrow
      · rw [Function.update_of_ne hm]
        exact hmatched (h.matched m)
    · intro T
      dsimp only
      obtain ⟨own, hown, hterm⟩ := h.split T
      by_cases heq : T = A.term n
      · refine ⟨own ++ [e], ?_, ?_⟩
        · rw [heq, Function.update_self, ← heq, hown, List.append_assoc]
        · intro a ha
          rcases List.mem_append.1 ha with ha | ha
          · exact hterm a ha
          · rw [List.mem_singleton.1 ha, ht, heq]
      · rw [Function.update_of_ne heq]
        exact ⟨own, hown, hterm⟩
    · intro T hT
      dsimp only at hT ⊢
      by_cases heq : T = A.term n
      · rw [heq, hn] at hT
        exact absurd hT (by simp)
      · rw [Function.update_of_ne heq]
        exact h.unled hT
    · intro m hm
      dsimp only at hm ⊢
      by_cases heq : A.term m = A.term n
      · have hmn : m = n := by
          rw [heq, hn] at hm
          exact (Option.some.inj hm).symm
        rw [hmn, Function.update_self, Function.update_self, hlead]
      · have hmn : m ≠ n := fun hmn => heq (hmn ▸ rfl)
        rw [Function.update_of_ne heq, Function.update_of_ne hmn]
        exact h.leading hm
  | ack l hl hn =>
    exact ⟨h.sorted, h.term_le, h.matched, h.cand_sorted, h.cand_lt, h.cand_matched, h.split,
      h.unled, h.leading⟩
  | overwrite l hl hn =>
    refine ⟨?_, ?_, ?_, h.cand_sorted, h.cand_lt, h.cand_matched, h.split, h.unled, ?_⟩
    · intro m
      dsimp only
      by_cases hm : m = n
      · rw [hm, Function.update_self]
        exact (h.leaderLog_sorted he _).start hl
      · rw [Function.update_of_ne hm]
        exact h.sorted m
    · intro m
      dsimp only
      by_cases hm : m = n
      · rw [hm, Function.update_self]
        exact fun e hmem => h.leaderLog_le he _ e (hl.subset hmem)
      · rw [Function.update_of_ne hm]
        exact h.term_le m
    · intro m
      dsimp only
      by_cases hm : m = n
      · rw [hm, Function.update_self]
        exact (h.leaderLog_matched he _).start hl
      · rw [Function.update_of_ne hm]
        exact h.matched m
    · intro m hm
      dsimp only at hm ⊢
      by_cases hmn : m = n
      · -- a leader holds all that it wrote
        rw [hmn] at hm
        exact absurd (h.leading hm ▸ hl) hn
      · rw [Function.update_of_ne hmn]
        exact h.leading hm
  | learn k hk =>
    exact ⟨h.sorted, h.term_le, h.matched, h.cand_sorted, h.cand_lt, h.cand_matched, h.split,
      h.unled, h.leading⟩

end CowRaft.Consensus
