import CowRaft.Foundations.Completeness

/-!
# Moves

What a replica does in one go, as one or two steps: campaigning, voting, taking up the lead,
writing an entry, accepting a part of the leader's log, learning what is committed. Each lemma
says all that the move changes of the replica; `Evolves` says what it changes of the rest.
-/

namespace CowRaft.Consensus

open State

variable {ν α : Type*} [DecidableEq ν] {M : Finset ν} {n : ν} {A A' A'' : State ν α}

/-- A move of replica `n`: some steps, after which the invariant still holds. -/
structure Move (M : Finset ν) (n : ν) (A A' : State ν α) : Prop where
  steps : Steps M n A A'
  inv : Inv M A'
  evolves : Evolves n A A'

namespace Move

theorem refl (hI : Inv M A) : Move M n A A :=
  ⟨Relation.ReflTransGen.refl, hI, Evolves.refl n A⟩

theorem trans (h : Move M n A A') (h' : Move M n A' A'') : Move M n A A'' :=
  ⟨h.steps.trans h'.steps, h'.inv, h.evolves.trans h'.evolves⟩

theorem of_step (hI : Inv M A) (hs : Step M n A A') : Move M n A A' :=
  ⟨Relation.ReflTransGen.single hs, hI.step hs, hI.evolves hs⟩

end Move

/-- The replica keeps its term, what it knows to be committed, and its votes. -/
structure Keeps (n : ν) (A A' : State ν α) : Prop where
  term : A'.term n = A.term n
  commit : A'.commit n = A.commit n
  vote : ∀ T, A'.vote n T = A.vote n T

namespace Inv

variable (hI : Inv M A)
include hI

/-- Adopt a later term. -/
theorem adopt {T : ℕ} (hT : A.term n < T) : ∃ A', Move M n A A' ∧ A'.term n = T ∧
    A'.log n = A.log n ∧ A'.commit n = A.commit n ∧ (∀ U, A'.vote n U = A.vote n U) ∧
    A'.vote n T = none := by
  refine ⟨_, Move.of_step hI (Step.adopt T hT), Function.update_self _ _ _, rfl, rfl,
    fun _ => rfl, ?_⟩
  dsimp only
  cases hv : A.vote n T with
  | none => rfl
  | some c => exact absurd (hI.elections.vote_le hv) (Nat.not_le_of_gt hT)

/-- Become a candidate of the next term. -/
theorem campaign : ∃ A', Move M n A A' ∧ A'.term n = A.term n + 1 ∧ A'.log n = A.log n ∧
    A'.commit n = A.commit n ∧
    (∀ T c, A'.vote n T = some c ↔ A.vote n T = some c ∨ T = A.term n + 1 ∧ c = n) ∧
    A'.cand n (A.term n + 1) = some (A.log n) ∧ A'.leader (A.term n + 1) ≠ some n := by
  refine ⟨_, Move.of_step hI Step.timeout, Function.update_self _ _ _, rfl, rfl, ?_,
    set₂_self _ _, ?_⟩
  · intro T c
    dsimp only
    rw [set₂_apply]
    by_cases hT : T = A.term n + 1
    · rw [hT, hI.elections.vote_next]
      simp [eq_comm]
    · simp [hT]
  · intro hl
    have := hI.elections.leader_le hl
    omega

/-- Vote for a candidate. -/
theorem ballot {c : ν} {l : List (Entry α)} (hc : A.cand c (A.term n) = some l)
    (hl : UpToDate l (A.log n)) (hv : ∀ d, A.vote n (A.term n) = some d → d = c) :
    ∃ A', Move M n A A' ∧ A'.term n = A.term n ∧ A'.log n = A.log n ∧ A'.commit n = A.commit n ∧
      ∀ T d, A'.vote n T = some d ↔ A.vote n T = some d ∨ T = A.term n ∧ d = c := by
  refine ⟨_, Move.of_step hI (Step.grant c l hc hl hv), rfl, rfl, rfl, ?_⟩
  intro T d
  dsimp only
  rw [set₂_apply]
  by_cases hT : T = A.term n
  · subst hT
    rw [if_pos ⟨rfl, rfl⟩, Option.some_inj]
    constructor
    · intro hd
      exact Or.inr ⟨rfl, hd.symm⟩
    · rintro (hd | hd)
      · exact (hv d hd).symm
      · exact hd.2.symm
  · simp [hT]

/-- Take up the lead, with the own log acknowledged by oneself. -/
theorem lead {S : Finset ν} (hS : Quorum M S) (hv : ∀ m ∈ S, A.vote m (A.term n) = some n)
    (hc : A.cand n (A.term n) = some (A.log n)) (hl : A.leader (A.term n) ≠ some n) :
    ∃ A', Move M n A A' ∧ Keeps n A A' ∧ A'.log n = A.log n ∧ A'.leader (A.term n) = some n ∧
      A'.electLog (A.term n) = A.log n ∧ (A.log n).length ≤ A'.acked (A.term n) n := by
  have helect := Move.of_step hI (Step.elect S hS hv hc hl)
  have hlog : A.log n <+: Function.update A.leaderLog (A.term n) (A.log n) (A.term n) := by
    rw [Function.update_self]
  refine ⟨_, helect.trans (Move.of_step helect.inv (Step.ack (A.log n) hlog ?_)),
    ?_, rfl, Function.update_self _ _ _, Function.update_self _ _ _, ?_⟩
  · exact List.prefix_rfl
  · exact ⟨rfl, rfl, fun _ => rfl⟩
  · dsimp only
    rw [set₂_self]
    exact le_max_right _ _

/-- Write an entry as the leader, and acknowledge it. -/
theorem write {e : Entry α} (hl : A.leader (A.term n) = some n) (he : e.term = A.term n) :
    ∃ A', Move M n A A' ∧ Keeps n A A' ∧ A'.log n = A.log n ++ [e] ∧
      A'.leaderLog (A.term n) = A.log n ++ [e] ∧
      (A.log n ++ [e]).length ≤ A'.acked (A.term n) n := by
  have happend := Move.of_step hI (Step.append e hl he)
  have hlead := hI.logs.leading hl
  have hlog : Function.update A.leaderLog (A.term n) (A.leaderLog (A.term n) ++ [e]) (A.term n) =
      A.log n ++ [e] := by
    rw [Function.update_self, hlead]
  refine ⟨_, happend.trans (Move.of_step happend.inv
    (Step.ack (A.log n ++ [e]) (hlog ▸ List.prefix_rfl) ?_)), ?_, Function.update_self _ _ _,
    hlog, ?_⟩
  · dsimp only
    rw [Function.update_self]
  · exact ⟨rfl, rfl, fun _ => rfl⟩
  · dsimp only
    rw [set₂_self]
    exact le_max_right _ _

/-- Bring the own log in line with a part of the leader's log, and acknowledge it. -/
theorem accept {l : List (Entry α)} (hl : l <+: A.leaderLog (A.term n)) :
    ∃ A', Move M n A A' ∧ Keeps n A A' ∧
      (l <+: A.log n → A'.log n = A.log n) ∧ (¬ l <+: A.log n → A'.log n = l) ∧
      l <+: A'.log n ∧ l.length ≤ A'.acked (A.term n) n := by
  by_cases hn : l <+: A.log n
  · refine ⟨_, Move.of_step hI (Step.ack l hl hn), ⟨rfl, rfl, fun _ => rfl⟩,
      fun _ => rfl, absurd hn, hn, ?_⟩
    · dsimp only
      rw [set₂_self]
      exact le_max_right _ _
  · have hover := Move.of_step hI (Step.overwrite l hl hn)
    refine ⟨_, hover.trans (Move.of_step hover.inv (Step.ack l hl ?_)), ⟨rfl, rfl, fun _ => rfl⟩,
      fun h => absurd h hn, fun _ => Function.update_self _ _ _, ?_, ?_⟩
    · dsimp only
      rw [Function.update_self]
    · dsimp only
      rw [Function.update_self]
    · dsimp only
      rw [set₂_self]
      exact le_max_right _ _

/-- Learn that more entries are committed. -/
theorem learn {k : ℕ} (hk : A.Known M (A.term n) k (A.log n)) (hle : A.commit n ≤ k) :
    ∃ A', Move M n A A' ∧ A'.term n = A.term n ∧ A'.log n = A.log n ∧ A'.commit n = k ∧
      ∀ T, A'.vote n T = A.vote n T := by
  refine ⟨_, Move.of_step hI (Step.learn k hk), rfl, rfl, ?_, fun _ => rfl⟩
  dsimp only
  rw [Function.update_self, Nat.max_eq_right hle]

end Inv

end CowRaft.Consensus
