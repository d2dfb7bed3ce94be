import CowRaft.Raft.Flights

/-!
# Timers

A leader has no election timeout and one heartbeat, any other replica has no heartbeat
(`timers_match_roles`), as long as no leader is started and no tick throws (`Steady`). The replica
answers RPCs before it is started, so it may lead by then, and its start sets a timeout that
deposes it (`start_deposes`).
-/

namespace CowRaft.Raft

variable {cfg : Config} {A : Protocol} {c c' : Cluster} {e : Event} {i j : NodeId}
  {s s' : RaftNode}

/-- No leader is started, and no tick of a leader comes upon a null key. -/
def Steady (c : Cluster) (e : Event) : Prop :=
  (∀ i ∈ e.starts, (c.nodes i).status ≠ .leader) ∧
    ∀ i ∈ e.ticks, ∀ p ∈ (c.nodes i).peers, ¬ RaftNode.Blocked (c.nodes i) p

instance (s : RaftNode) (p : NodeId) : Decidable (RaftNode.Blocked s p) :=
  inferInstanceAs (Decidable (p ∈ s.peers ∧ p ∉ s.inFlight ∧ ∃ entry ∈ s.logStore.entriesFrom
    ((lookupKey p s.nextIndex).getD (s.logStore.lastIndex + 1)), entry.command.key = none))

instance (c : Cluster) (e : Event) : Decidable (Steady c e) :=
  inferInstanceAs (Decidable ((∀ i ∈ e.starts, (c.nodes i).status ≠ .leader) ∧
    ∀ i ∈ e.ticks, ∀ p ∈ (c.nodes i).peers, ¬ RaftNode.Blocked (c.nodes i) p))

/-! ## Tasks -/

namespace RaftNode

/-- The timers match the role. -/
structure Timed (s : RaftNode) : Prop where
  future : ∀ id ∈ s.electionTimeouts, s.electionTimeoutFuture = some id
  lead : s.status = .leader → s.electionTimeouts = ∅
  beat : s.status = .leader → ∃ id, s.heartbeatFuture = some id ∧ s.heartbeats = {id}
  quiet : s.status ≠ .leader → s.heartbeats = ∅

namespace Timed

/-- Cancelling the last timeout leaves none. -/
theorem cancel_eq (h : Timed s) : cancel s.electionTimeoutFuture s.electionTimeouts = ∅ := by
  apply Finset.eq_empty_of_forall_notMem
  intro id hid
  unfold cancel at hid
  cases hf : s.electionTimeoutFuture with
  | none =>
    rw [hf] at hid
    exact absurd ((h.future id hid).symm.trans hf) (Option.some_ne_none id)
  | some id' =>
    rw [hf] at hid
    obtain ⟨hne, hid⟩ := Finset.mem_erase.1 hid
    exact hne (Option.some.inj ((h.future id hid).symm.trans hf))

/-- So does cancelling the heartbeat. -/
theorem cancel_beat (h : Timed s) : cancel s.heartbeatFuture s.heartbeats = ∅ := by
  by_cases hl : s.status = .leader
  · obtain ⟨id, hf, hb⟩ := h.beat hl
    rw [hf, hb]
    exact Finset.erase_singleton id
  · rw [h.quiet hl]
    unfold cancel
    cases s.heartbeatFuture with
    | none => rfl
    | some id => exact Finset.erase_empty id

theorem of_roles (h : Timed s) (hr : s'.electionTimeouts = s.electionTimeouts)
    (hf : s'.electionTimeoutFuture = s.electionTimeoutFuture) (hs : s'.status = s.status)
    (hb : s'.heartbeats = s.heartbeats) (hbf : s'.heartbeatFuture = s.heartbeatFuture) :
    Timed s' := by
  constructor
  · rw [hr, hf]
    exact h.future
  · rw [hs, hr]
    exact h.lead
  · rw [hs, hb, hbf]
    exact h.beat
  · rw [hs, hb]
    exact h.quiet

theorem calm {ok : Bool} (h : Timed s) (hc : Calm ok s s') : Timed s' :=
  h.of_roles (congrArg Roles.electionTimeouts hc.roles)
    (congrArg Roles.electionTimeoutFuture hc.roles) (congrArg Roles.status hc.roles)
    (congrArg Roles.heartbeats hc.roles) (congrArg Roles.heartbeatFuture hc.roles)

/-- A replica that does not lead starts its timer again. -/
theorem resetElectionTimer (h : Timed s) (hne : s.status ≠ .leader) :
    Timed s.resetElectionTimer where
  future id hid := by
    rcases Finset.mem_insert.1 hid with rfl | hid
    · rfl
    · rw [h.cancel_eq] at hid
      exact absurd hid (Finset.notMem_empty id)
  lead hl := absurd hl hne
  beat hl := absurd hl hne
  quiet _ := h.quiet hne

theorem becomeFollower (h : Timed s) (seenTerm : ℕ) : Timed (becomeFollower seenTerm s) := by
  rw [becomeFollower_eq]
  refine ⟨fun id hid => ?_, fun hl => ServerStatus.noConfusion hl,
    fun hl => ServerStatus.noConfusion hl, fun _ => h.cancel_beat⟩
  dsimp only at hid
  rw [h.cancel_eq] at hid
  rw [Finset.mem_singleton.1 hid]

/-- The election timeout of a replica that does not lead is over. -/
theorem timedOut (h : Timed s) (id : TaskId) : Timed (Cluster.timedOut id s) where
  future id' hid := h.future id' (Finset.mem_of_mem_erase hid)
  lead hl := by
    have hempty : s.electionTimeouts = ∅ := h.lead hl
    unfold Cluster.timedOut
    dsimp only
    rw [hempty, Finset.erase_empty]
  beat := h.beat
  quiet := h.quiet

theorem leads (h : Timed s) (hne : s.status ≠ .leader) (hs : Leads s s') : Timed s' := by
  obtain ⟨s₁, hs, rfl⟩ := hs
  have htimeouts : s₁.electionTimeouts = ∅ :=
    (congrArg Roles.electionTimeouts hs.roles).trans h.cancel_eq
  have hbeats : s₁.heartbeats = ∅ := (congrArg Roles.heartbeats hs.roles).trans (h.quiet hne)
  have hlead : s₁.status = .leader := congrArg Roles.status hs.roles
  refine ⟨fun id hid => ?_, fun _ => htimeouts, fun _ => ⟨s₁.nextTask, rfl, ?_⟩,
    fun hne => absurd hlead hne⟩
  · exact absurd (htimeouts ▸ hid) (Finset.notMem_empty id)
  · change insert s₁.nextTask s₁.heartbeats = _
    rw [hbeats]
    rfl

end Timed

end RaftNode

/-! ## Runs -/

/-- **Every task** keeps the timers matched, under the condition. -/
theorem Ran.timed (h : Ran c e j s) (hA : Safe cfg A c) (hj : j ∈ cfg.members)
    (ht : RaftNode.Timed (c.nodes j)) (he : Steady c e) : RaftNode.Timed s := by
  have hdown : ∀ {s₀ : RaftNode} {seenTerm : ℕ}, RaftNode.Timed s₀ →
      RaftNode.Timed (RaftNode.becomeFollower seenTerm s₀) ∧
        (RaftNode.becomeFollower seenTerm s₀).status = .follower := by
    intro s₀ seenTerm h₀
    refine ⟨h₀.becomeFollower seenTerm, ?_⟩
    rw [RaftNode.becomeFollower_eq]
  have hnot : ∀ {status : ServerStatus}, status = .follower → status ≠ .leader :=
    fun hf hl => ServerStatus.noConfusion (hf.symm.trans hl)
  cases h with
  | start => exact ht.resetElectionTimer (he.1 j rfl)
  | electionTimeout i id hid _ hs =>
    have hround : RaftNode.Timed
        (Cluster.timedOut id (c.nodes j)).beginElectionRound.publishSnapshot := by
      have hne : (c.nodes j).status ≠ .leader := fun hl =>
        Finset.notMem_empty id (ht.lead hl ▸ hid)
      exact ⟨(ht.timedOut id).future, fun hl => ServerStatus.noConfusion hl,
        fun hl => ServerStatus.noConfusion hl, fun _ => ht.quiet hne⟩
    have hreset : RaftNode.Timed (RaftNode.resetElectionTimer
        (Cluster.timedOut id (c.nodes j)).beginElectionRound.publishSnapshot) :=
      hround.resetElectionTimer fun hl => ServerStatus.noConfusion hl
    rcases hs with hs | rfl
    · exact hreset.leads (fun hl => ServerStatus.noConfusion hl) hs
    · exact hreset.of_roles rfl rfl rfl rfl rfl
  | heartbeat i id _ fault _ hs hb =>
    obtain ⟨s₁, hs, rfl⟩ := hs
    cases fault with
    | none => exact (ht.calm hs).of_roles rfl rfl rfl rfl rfl
    | some e =>
      obtain ⟨p, hp⟩ := hb (Option.some_ne_none e)
      exact absurd hp (he.2 j rfl p hp.1)
  | submit i command fault _ hs =>
    rcases hs with ⟨-, rfl⟩ | ⟨-, hs⟩
    · exact ht.of_roles rfl rfl rfl rfl rfl
    · have ha : RaftNode.Timed ((c.nodes j).appendForClient c.submissions.length command) :=
        ht.of_roles rfl rfl rfl rfl rfl
      exact (ha.calm hs).of_roles rfl rfl rfl rfl rfl
  | deliverVote k call hk _ hs =>
    have hcall := hA.voteCalls call (List.mem_of_getElem? hk)
    rcases hs with rfl | ⟨s₀, h₀, hs⟩
    · exact ht
    rcases hs with rfl | ⟨hvote, rfl⟩
    · rcases h₀ with ⟨-, rfl⟩ | ⟨-, rfl⟩
      · exact ht.of_roles rfl rfl rfl rfl rfl
      · exact (hdown ht).1.of_roles rfl rfl rfl rfl rfl
    · -- a leader has voted for itself, and gives nobody else its vote
      have hfirst : RaftNode.Timed s₀ ∧ s₀.status ≠ .leader := by
        rcases h₀ with ⟨-, rfl⟩ | ⟨-, rfl⟩
        · refine ⟨ht, fun hl => ?_⟩
          have hown := (hA.node _ hj).own fun hf => ServerStatus.noConfusion (hf.symm.trans hl)
          rw [hown, hcall.request.candidateId] at hvote
          rcases hvote with hvote | hvote
          · exact absurd hvote (Option.some_ne_none _)
          · exact hcall.peer.2 (Option.some.inj hvote)
        · exact ⟨(hdown ht).1, hnot (hdown ht).2⟩
      have hgrant : RaftNode.Timed (s₀.grantVote call.request.candidateId) :=
        hfirst.1.of_roles rfl rfl rfl rfl rfl
      exact (hgrant.resetElectionTimer hfirst.2).of_roles rfl rfl rfl rfl rfl
  | answerVote k call _ response _ _ hs =>
    rcases hs with rfl | ⟨-, rfl⟩ | ⟨hcand, -, -, rfl | hs⟩
    · exact ht
    · exact (hdown ht).1
    · exact ht.of_roles rfl rfl rfl rfl rfl
    · have hv : RaftNode.Timed { c.nodes call.caller with
          votesReceived := (c.nodes call.caller).votesReceived + 1 } :=
        ht.of_roles rfl rfl rfl rfl rfl
      exact hv.leads (fun hl => ServerStatus.noConfusion (hcand.symm.trans hl)) hs
  | deliverAppend k call _ fault _ hs =>
    rcases hs with rfl | ⟨s₀, h₀, hs⟩
    · exact ht.of_roles rfl rfl rfl rfl rfl
    have hfirst : RaftNode.Timed s₀ ∧ s₀.status = .follower := by
      rcases h₀ with ⟨⟨-, hf⟩, rfl⟩ | ⟨-, rfl⟩
      · exact ⟨ht, hf⟩
      · exact hdown ht
    have hhear : RaftNode.Timed (s₀.hearLeader call.request.leaderId) := by
      have hhint : RaftNode.Timed { s₀ with currentLeaderId := some call.request.leaderId } :=
        hfirst.1.of_roles rfl rfl rfl rfl rfl
      exact hhint.resetElectionTimer (hnot hfirst.2)
    exact (hhear.calm hs).of_roles rfl rfl rfl rfl rfl
  | answerAppend k call _ response _ _ fault _ hs =>
    have hland : RaftNode.Timed (Cluster.landed call.peer (c.nodes call.caller)) :=
      ht.of_roles rfl rfl rfl rfl rfl
    rcases hs with ⟨-, rfl⟩ | hs
    · exact (hdown hland).1.of_roles rfl rfl rfl rfl rfl
    · exact (hland.calm hs).of_roles rfl rfl rfl rfl rfl
  | failAppend => exact ht.of_roles rfl rfl rfl rfl rfl

/-- The timers of every replica match its role. -/
theorem timed_of_steady (h : Cluster.RunWhere cfg Steady (Cluster.init cfg) c) (i : NodeId) :
    RaftNode.Timed (c.nodes i) := by
  revert i
  refine Cluster.RunWhere.induction h (I := fun c => ∀ i, RaftNode.Timed (c.nodes i)) ?_ ?_
  · exact fun _ => ⟨fun id hid => absurd hid (Finset.notMem_empty id),
      fun hl => ServerStatus.noConfusion hl, fun hl => ServerStatus.noConfusion hl, fun _ => rfl⟩
  · intro A c c' e j s hA hj ht he _ hran hch i
    by_cases hi : i = j
    · rw [hi, hch.node]
      exact { hran.timed hA hj (ht j) he with }
    · rw [hch.other i hi]
      exact ht i

/-- **Timers match roles**: a leader has no election timeout and one heartbeat, any other replica
has no heartbeat. -/
theorem timers_match_roles (h : Cluster.RunWhere cfg Steady (Cluster.init cfg) c) (i : NodeId) :
    ((c.nodes i).status = .leader → (c.nodes i).electionTimeouts = ∅) ∧
      (c.nodes i).heartbeats.card = if (c.nodes i).status = .leader then 1 else 0 := by
  have ht := timed_of_steady h i
  refine ⟨ht.lead, ?_⟩
  by_cases hl : (c.nodes i).status = .leader
  · obtain ⟨id, -, hb⟩ := ht.beat hl
    rw [if_pos hl, hb, Finset.card_singleton]
  · rw [if_neg hl, ht.quiet hl, Finset.card_empty]

theorem timers_match_second : (afterSecond.nodes 2).electionTimeouts = ∅ ∧
    (afterSecond.nodes 2).heartbeats.card = 1 := by
  have hrun : Cluster.RunWhere threeMembers Steady (Cluster.init threeMembers) afterSecond :=
    (Cluster.runWhere_after (by decide +kernel)).trans (Cluster.runWhere_after (by decide +kernel))
  have hl : (afterSecond.nodes 2).status = .leader := by decide +kernel
  obtain ⟨hlead, hcard⟩ := timers_match_roles hrun 2
  rw [if_pos hl] at hcard
  exact ⟨hlead hl, hcard⟩

/-- Member 1 is asked for its vote before it is started, times out, is elected, and is started. -/
def afterLateStart : Cluster := (Cluster.init threeMembers).after threeMembers
  [.start 2, .electionTimeout 2 0, .deliverVote 0, .electionTimeout 1 1, .deliverVote 3,
    .answerVote 3, .start 1]

/-- Its election timeout runs. -/
def afterDeposal : Cluster := afterLateStart.after threeMembers [.electionTimeout 1 4]

/-- A leader with an election timeout, which makes it a candidate with a heartbeat; and a leader
without a heartbeat. -/
theorem start_deposes : Cluster.Reachable threeMembers afterLateStart ∧
    (afterLateStart.nodes 1).status = .leader ∧ (afterLateStart.nodes 1).electionTimeouts = {4} ∧
    (afterDeposal.nodes 1).status = .candidate ∧ (afterDeposal.nodes 1).heartbeats.card = 1 ∧
    Cluster.Reachable threeMembers afterNullKey ∧
    (afterNullKey.nodes 1).status = .leader ∧ (afterNullKey.nodes 1).heartbeats.card = 0 :=
  ⟨Cluster.run_after _ _ _, by decide +kernel, by decide +kernel, by decide +kernel,
    by decide +kernel, Cluster.run_after _ _ _, by decide +kernel, by decide +kernel⟩

end CowRaft.Raft
