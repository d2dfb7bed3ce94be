import CowRaft.Raft.Timers
import CowRaft.Raft.Snapshots

/-!
# No replica falls silent

The converse of `timers_match_roles`: a started replica always has a timer that will make it act
again, a leader its heartbeat and any other its election timeout (`never_silent`). No message has
to arrive for that. It is what lets the cluster go on from every state.
-/

namespace CowRaft.Raft

variable {cfg : Config} {A : Protocol} {c c' : Cluster} {e : Event} {i j : NodeId}
  {s s' : RaftNode}

/-! ## Election timeouts -/

namespace RaftNode

/-- A replica that does not lead waits for an election timeout. -/
def Armed (s : RaftNode) : Prop :=
  s.status ≠ .leader → ∃ id, s.electionTimeoutFuture = some id ∧ id ∈ s.electionTimeouts

namespace Armed

theorem of_leader (h : s.status = .leader) : Armed s := fun hne => absurd h hne

theorem resetElectionTimer (s : RaftNode) : Armed s.resetElectionTimer :=
  fun _ => ⟨s.nextTask, rfl, Finset.mem_insert_self _ _⟩

theorem becomeFollower (seenTerm : ℕ) (s : RaftNode) : Armed (becomeFollower seenTerm s) := by
  rw [becomeFollower_eq]
  exact fun _ => ⟨_, rfl, Finset.mem_insert_self _ _⟩

theorem of_roles (h : Armed s) (hs : s'.status = s.status)
    (hf : s'.electionTimeoutFuture = s.electionTimeoutFuture)
    (hr : s'.electionTimeouts = s.electionTimeouts) : Armed s' := by
  unfold Armed
  rw [hs, hf, hr]
  exact h

theorem calm {ok : Bool} (h : Armed s) (hc : Calm ok s s') : Armed s' :=
  h.of_roles (congrArg Roles.status hc.roles) (congrArg Roles.electionTimeoutFuture hc.roles)
    (congrArg Roles.electionTimeouts hc.roles)

end Armed

theorem Leads.armed (h : Leads s s') : Armed s' :=
  .of_leader h.elected.status

theorem Campaigned.armed (h : Campaigned s s') : Armed s' := by
  rcases h with h | rfl
  · exact h.armed
  · exact (Armed.resetElectionTimer s.beginElectionRound.publishSnapshot).of_roles rfl rfl rfl

end RaftNode

/-- **Every task** leaves an election timeout behind, if there was one before. -/
theorem Ran.armed (h : Ran c e j s) (ha : e.starts = none → RaftNode.Armed (c.nodes j)) :
    RaftNode.Armed s := by
  cases h with
  | start => exact .resetElectionTimer _
  | electionTimeout i id _ _ hs => exact hs.armed
  | heartbeat i id _ fault _ hs =>
    obtain ⟨s₁, hs, rfl⟩ := hs
    cases fault with
    | none => exact ((ha rfl).calm hs).of_roles rfl rfl rfl
    | some e => exact ((ha rfl).calm hs).of_roles rfl rfl rfl
  | submit i command fault _ hs =>
    rcases hs with ⟨-, rfl⟩ | ⟨-, hs⟩
    · exact (ha rfl).of_roles rfl rfl rfl
    · have happ : RaftNode.Armed ((c.nodes j).appendForClient c.submissions.length command) :=
        (ha rfl).of_roles rfl rfl rfl
      exact (happ.calm hs).of_roles rfl rfl rfl
  | deliverVote k call _ _ hs =>
    rcases hs with rfl | ⟨s₀, h₀, hs⟩
    · exact ha rfl
    have hfirst : RaftNode.Armed s₀ := by
      rcases h₀ with ⟨-, rfl⟩ | ⟨-, rfl⟩
      · exact ha rfl
      · exact .becomeFollower _ _
    rcases hs with rfl | ⟨-, rfl⟩
    · exact hfirst.of_roles rfl rfl rfl
    · exact (RaftNode.Armed.resetElectionTimer (s₀.grantVote _)).of_roles rfl rfl rfl
  | answerVote k call _ response _ _ hs =>
    rcases hs with rfl | ⟨-, rfl⟩ | ⟨-, -, -, rfl | hs⟩
    · exact ha rfl
    · exact .becomeFollower _ _
    · exact (ha rfl).of_roles rfl rfl rfl
    · exact hs.armed
  | deliverAppend k call _ fault _ hs =>
    rcases hs with rfl | ⟨s₀, h₀, hs⟩
    · exact (ha rfl).of_roles rfl rfl rfl
    · exact ((RaftNode.Armed.resetElectionTimer _).calm hs).of_roles rfl rfl rfl
  | answerAppend k call _ response _ _ fault _ hs =>
    rcases hs with ⟨-, rfl⟩ | hs
    · exact (RaftNode.Armed.becomeFollower _ _).of_roles rfl rfl rfl
    · have hland : RaftNode.Armed (Cluster.landed call.peer (c.nodes call.caller)) :=
        (ha rfl).of_roles rfl rfl rfl
      exact (hland.calm hs).of_roles rfl rfl rfl
  | failAppend => exact (ha rfl).of_roles rfl rfl rfl

/-! ## Started replicas -/

/-- Only its start makes a replica one that is started. -/
theorem Cluster.started_of_step (hstep : Cluster.step cfg c e = some c') :
    c'.started = c.started ∪ e.starts.toFinset := by
  cases Cluster.effect_of_step hstep with
  | start i _ _ =>
    rw [Finset.union_comm]
    rfl
  | _ => exact (Finset.union_empty _).symm

/-- Every started replica waits for an election timeout, unless it leads. -/
theorem armed_of_started (h : Cluster.Reachable cfg c) (hi : i ∈ c.started) :
    RaftNode.Armed (c.nodes i) := by
  revert hi i
  refine Cluster.RunWhere.induction (Cluster.Run.runWhere h)
    (I := fun c => ∀ {i}, i ∈ c.started → RaftNode.Armed (c.nodes i)) ?_ ?_
  · exact fun hi => absurd hi (Finset.notMem_empty _)
  · intro A c c' e j s _ _ ha _ hstep hran hch i hi
    rw [Cluster.started_of_step hstep, Finset.mem_union] at hi
    have hold : e.starts ≠ some i → i ∈ c.started := fun hne =>
      hi.resolve_right fun hs => hne (Option.mem_toFinset.1 hs)
    by_cases hij : i = j
    · subst hij
      have hs : RaftNode.Armed s := hran.armed fun hnone =>
        ha (hold fun hsome => Option.some_ne_none i (hsome.symm.trans hnone))
      rw [hch.node]
      exact hs.of_roles rfl rfl rfl
    · rw [hch.other i hij]
      refine ha (hold fun hs => hij ?_)
      cases hran with
      | start => exact (Option.some.inj hs).symm
      | _ => cases hs

/-- **No replica falls silent**: as long as no leader is started and no tick throws, a started
replica has exactly one timer, which may run at any time: a leader its heartbeat, any other its
election timeout. -/
theorem never_silent (h : Cluster.RunWhere cfg Steady (Cluster.init cfg) c) (hi : i ∈ cfg.members)
    (hs : i ∈ c.started) :
    ((c.nodes i).status = .leader → (c.nodes i).electionTimeouts = ∅ ∧ ∃ id,
      (c.nodes i).heartbeats = {id} ∧ (Cluster.step cfg c (.heartbeat i id)).isSome) ∧
    ((c.nodes i).status ≠ .leader → (c.nodes i).heartbeats = ∅ ∧ ∃ id,
      (c.nodes i).electionTimeouts = {id} ∧
        (Cluster.step cfg c (.electionTimeout i id)).isSome) := by
  have ht := timed_of_steady h i
  refine ⟨fun hl => ⟨ht.lead hl, ?_⟩, fun hne => ⟨ht.quiet hne, ?_⟩⟩
  · obtain ⟨id, -, hb⟩ := ht.beat hl
    refine ⟨id, hb, ?_⟩
    rw [Cluster.step, if_pos ⟨hi, hb ▸ Finset.mem_singleton_self id⟩]
    rfl
  · obtain ⟨id, hf, hid⟩ := armed_of_started h.run hs hne
    refine ⟨id, Finset.eq_singleton_iff_unique_mem.2 ⟨hid, fun id' hid' => ?_⟩, ?_⟩
    · exact Option.some.inj ((ht.future id' hid').symm.trans hf)
    · rw [Cluster.step, if_pos ⟨hi, hid⟩]
      rfl

/-- Member 1 of the second reign follows, and may time out. -/
theorem never_silent_second : (afterSecond.nodes 1).heartbeats = ∅ ∧ ∃ id,
    (afterSecond.nodes 1).electionTimeouts = {id} ∧
      (Cluster.step threeMembers afterSecond (.electionTimeout 1 id)).isSome := by
  have hrun : Cluster.RunWhere threeMembers Steady (Cluster.init threeMembers) afterSecond :=
    (Cluster.runWhere_after (by decide +kernel)).trans (Cluster.runWhere_after (by decide +kernel))
  have hs : afterSecond.started = {1} := by decide +kernel
  have hne : (afterSecond.nodes 1).status ≠ .leader := by decide +kernel
  have hmem : 1 ∈ threeMembers.members := by decide
  exact (never_silent hrun hmem (by rw [hs]; exact Finset.mem_singleton_self 1)).2 hne

end CowRaft.Raft
