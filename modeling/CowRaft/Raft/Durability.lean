import CowRaft.Raft.Runs
import CowRaft.Raft.Safety

/-!
# Durability

What a replica has committed is in the logs of a majority in all later states, and in the log of
every leader of the replica's term or a later one (`committed_durable`): no later election, log
conflict or lost message brings it below a majority. A leader stays the leader as long as it stays
in its term, and only appends to its log (`leader_append_only`).
-/

namespace CowRaft.Raft

open Consensus (State Inv Quorum)

variable {cfg : Config} {A A' : Protocol} {c c' : Cluster} {e : Event} {i j : NodeId}
  {s : RaftNode}

/-! ## Committed entries -/

/-- All members are a quorum. -/
theorem Config.quorum_members (hi : i ∈ cfg.members) : Quorum cfg.members cfg.members := by
  have := Finset.card_pos.2 ⟨i, hi⟩
  exact ⟨Finset.Subset.refl _, by omega⟩

/-- **Committed entries are durable**: a majority of the members holds them ever after, and so does
every leader whose term is no earlier than that of the replica that has committed them. -/
theorem committed_durable (h : Cluster.Reachable cfg c) (hi : i ∈ cfg.members)
    (hrun : Cluster.Run cfg c c') :
    (∃ S ⊆ cfg.members, (c.nodes i).majority ≤ S.card ∧ ∀ m ∈ S,
      (c.nodes i).logStore.take (c.nodes i).commitIndex <+: (c'.nodes m).logStore) ∧
    ∀ j ∈ cfg.members, (c'.nodes j).status = .leader →
      (c.nodes i).currentTerm ≤ (c'.nodes j).currentTerm →
        (c.nodes i).logStore.take (c.nodes i).commitIndex <+: (c'.nodes j).logStore := by
  obtain ⟨A, hA⟩ := exists_safe h
  obtain ⟨A', hm, hA'⟩ := hA.run hrun
  have hnode := hA.node i hi
  have hknown := hm.known (hA.inv.commits i)
  rw [hnode.term, hnode.commit, hnode.log] at hknown
  refine ⟨?_, fun j hj hl hT => ?_⟩
  · obtain ⟨S, hS, hheld⟩ := hA'.inv.known_durable (Config.quorum_members hi) hknown
    refine ⟨S, hS.1, ?_, fun m hmS => ?_⟩
    · have hcard := hnode.card_members
      have hquorum := hS.2
      unfold RaftNode.majority
      omega
    · rw [← (hA'.node m (hS.1 hmS)).log]
      exact hheld m hmS
  · have hlead := ((hA'.node j hj).leading hl).leader
    have hne : A'.leader (c'.nodes j).currentTerm ≠ none := by
      rw [hlead]
      exact Option.some_ne_none j
    have hstart := hA'.inv.acks.known_start hA'.inv.logs (hknown.mono hT List.prefix_rfl) hne
    rwa [(hA'.node j hj).leaderLog_eq hA'.inv hl] at hstart

/-- What member 1 has committed in the first reign, the leader of the second one holds. -/
theorem committed_durable_second :
    (afterFirst.nodes 1).logStore.take (afterFirst.nodes 1).commitIndex <+:
      (afterSecond.nodes 2).logStore := by
  have hrun : Cluster.Run threeMembers afterFirst afterSecond := Cluster.run_after _ _ _
  have hl : (afterSecond.nodes 2).status = .leader := by decide +kernel
  have hT : (afterFirst.nodes 1).currentTerm ≤ (afterSecond.nodes 2).currentTerm := by
    decide +kernel
  exact (committed_durable reachable_afterFirst (i := 1) (by decide) hrun).2 2 (by decide) hl hT

/-! ## Reigns -/

/-- A leader stays the leader while it stays in its term. -/
theorem Ran.reign (h : Ran c e j s) (hA : Safe cfg A c) (hl : (c.nodes j).status = .leader)
    (hT : s.currentTerm = (c.nodes j).currentTerm) : s.status = .leader := by
  -- nobody adopts a later term and stays in the present one
  have hdown : ∀ {seenTerm : ℕ} {s₀ : RaftNode}, s₀.currentTerm < seenTerm →
      (RaftNode.becomeFollower seenTerm s₀).currentTerm ≠ s₀.currentTerm := by
    intro seenTerm s₀ hlt heq
    rw [RaftNode.becomeFollower_eq] at heq
    dsimp only at heq
    omega
  cases h with
  | start => exact hl
  | electionTimeout i id _ _ hs =>
    have hround : s.currentTerm = (c.nodes j).currentTerm + 1 := hs.round.currentTerm
    omega
  | heartbeat i id _ fault _ hs =>
    obtain ⟨s₁, hs, rfl⟩ := hs
    have hstatus : s₁.status = (c.nodes j).status := congrArg Roles.status hs.roles
    cases fault <;> exact hstatus.trans hl
  | submit i command fault _ hs =>
    rcases hs with ⟨hne, -⟩ | ⟨-, hs⟩
    · exact absurd hl hne
    · exact (congrArg Roles.status hs.roles).trans hl
  | deliverVote k call _ _ hs =>
    rcases hs with rfl | ⟨s₀, ⟨-, rfl⟩ | ⟨hlt, rfl⟩, hs⟩
    · exact hl
    · rcases hs with rfl | ⟨-, rfl⟩
      · exact hl
      · exact hl
    · rcases hs with rfl | ⟨-, rfl⟩
      · exact absurd hT (hdown hlt)
      · exact absurd hT (hdown hlt)
  | answerVote k call _ response _ _ hs =>
    rcases hs with rfl | ⟨hlt, rfl⟩ | ⟨hc, -⟩
    · exact hl
    · exact absurd hT (hdown hlt)
    · rw [hl] at hc
      cases hc
  | deliverAppend k call hk fault _ hs =>
    rcases hs with rfl | ⟨s₀, ⟨⟨-, hf⟩, -⟩ | ⟨hlt | ⟨heq, -⟩, rfl⟩, hs⟩
    · exact hl
    · rw [hl] at hf
      cases hf
    · have hterm := congrArg Roles.currentTerm hs.roles
      exact absurd (hterm.symm.trans hT) (hdown hlt)
    · -- two leaders of one term
      have hcall := hA.appendCalls call (List.mem_of_getElem? hk)
      have hlead := hcall.request.leader
      rw [← heq, ((hA.node _ hcall.peer.1).leading hl).leader] at hlead
      exact absurd (Option.some.inj hlead) hcall.peer.2
  | answerAppend k call _ response _ _ fault _ hs =>
    rcases hs with ⟨hlt, rfl⟩ | hs
    · exact absurd hT (hdown hlt)
    · exact (congrArg Roles.status hs.roles).trans hl
  | failAppend => exact hl

/-- A reign lasts as long as the leader's term. -/
theorem Safe.reign (hA : Safe cfg A c) (hi : i ∈ cfg.members) (hl : (c.nodes i).status = .leader)
    (hrun : Cluster.Run cfg c c') (hT : (c'.nodes i).currentTerm = (c.nodes i).currentTerm) :
    (c'.nodes i).status = .leader := by
  induction hrun with
  | refl => exact hl
  | @tail b c' hrun hs ih =>
    obtain ⟨e, hstep⟩ := hs
    obtain ⟨B, -, hB⟩ := hA.run hrun
    have hle := hA.currentTerm_le hrun hi
    have hle' := hB.currentTerm_le (Relation.ReflTransGen.single ⟨e, hstep⟩) hi
    have hl' := ih (by omega)
    obtain ⟨j, -, s, hran, hch⟩ := hB.ran hstep
    by_cases hij : i = j
    · subst hij
      have hterm : s.currentTerm = (b.nodes i).currentTerm := by
        rw [hch.node] at hT hle'
        dsimp only at hT hle'
        omega
      rw [hch.node]
      exact hran.reign hB hl' hterm
    · rw [hch.other i hij]
      exact hl'

/-- **Leaders only append**: a leader leads as long as it stays in its term, its log only grows, and
whoever holds an entry of the term holds the leader's log up to it. -/
theorem leader_append_only (h : Cluster.Reachable cfg c) (hi : i ∈ cfg.members)
    (hl : (c.nodes i).status = .leader) (hrun : Cluster.Run cfg c c')
    (hT : (c'.nodes i).currentTerm = (c.nodes i).currentTerm) :
    (c'.nodes i).status = .leader ∧ (c.nodes i).logStore <+: (c'.nodes i).logStore ∧
      ∀ m ∈ cfg.members, ∀ (k : ℕ) (entry : LogEntry), (c'.nodes m).logStore[k]? = some entry →
        entry.term = (c.nodes i).currentTerm →
          (c'.nodes m).logStore.take (k + 1) <+: (c'.nodes i).logStore := by
  obtain ⟨A, hA⟩ := exists_safe h
  obtain ⟨A', hm, hA'⟩ := hA.run hrun
  have hl' := hA.reign hi hl hrun hT
  have hlog := (hA.node i hi).leaderLog_eq hA.inv hl
  have hlog' := (hA'.node i hi).leaderLog_eq hA'.inv hl'
  rw [hT] at hlog'
  refine ⟨hl', ?_, fun m hmem k entry he hterm => ?_⟩
  · have hgrows := hm.leaderLog (c.nodes i).currentTerm
    rwa [hlog, hlog'] at hgrows
  · have hmatched := hA'.inv.logs.matched m
    rw [(hA'.node m hmem).log] at hmatched
    have hsnoc : (c'.nodes m).logStore.take k ++ [entry] = (c'.nodes m).logStore.take (k + 1) := by
      rw [List.take_add_one, he]
      rfl
    have hstart := hmatched _ entry (hsnoc ▸ List.take_prefix _ _)
    rwa [hterm, hlog', hsnoc] at hstart

/-- Member 1 leads on after its first command. -/
def afterAnother : Cluster := afterFirst.after threeMembers [.submit 1 ⟨some "x", .add, 1⟩]

theorem leader_append_only_another : (afterAnother.nodes 1).status = .leader ∧
    (afterFirst.nodes 1).logStore <+: (afterAnother.nodes 1).logStore := by
  have hl : (afterFirst.nodes 1).status = .leader := by decide +kernel
  have hT : (afterAnother.nodes 1).currentTerm = (afterFirst.nodes 1).currentTerm := by
    decide +kernel
  have hrun : Cluster.Run threeMembers afterFirst afterAnother := Cluster.run_after _ _ _
  have h := leader_append_only reachable_afterFirst (i := 1) (by decide) hl hrun hT
  exact ⟨h.1, h.2.1⟩

end CowRaft.Raft
