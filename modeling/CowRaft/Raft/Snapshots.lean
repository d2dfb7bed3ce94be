import CowRaft.Raft.AppendEntries
import CowRaft.Raft.Flights

/-!
# Published snapshots

What other threads see of a replica. A task publishes after its last change of the state
(`Fresh`), so that between tasks the snapshot is never stale, as long as no client command has a
null key (`snapshot_fresh`): then no task throws.
-/

namespace CowRaft.Raft

open Consensus (State Inv Evolves Move)

variable {cfg : Config} {A A' : Protocol} {c c' : Cluster} {i : NodeId} {s s' : RaftNode}

/-! ## Tasks that publish -/

namespace RaftNode

/-- The snapshot tells the state. -/
def Fresh (s : RaftNode) : Prop := s.snapshot = s.serverState

/-- What other threads may see has not changed, nor what they see. -/
def SamePublic (_ok : Bool) (s s' : RaftNode) : Prop :=
  s'.serverState = s.serverState ∧ s'.snapshot = s.snapshot

instance : Composes SamePublic where
  refl _ _ := ⟨rfl, rfl⟩
  trans h h' := ⟨h'.1.trans h.1, h'.2.trans h.2⟩

theorem SamePublic.fresh {ok : Bool} (h : SamePublic ok s s') (hs : Fresh s) : Fresh s' := by
  unfold Fresh
  rw [h.1, h.2, hs]

theorem replicateTo_public (peerId : NodeId) : Keeps SamePublic (replicateTo peerId) :=
  replicateTo_keeps (fun _ _ _ => ⟨rfl, rfl⟩) fun _ _ _ _ _ _ => ⟨rfl, rfl⟩

theorem replicateToAllPeers_public : Keeps SamePublic replicateToAllPeers :=
  replicateToAllPeers_keeps replicateTo_public

theorem becomeFollower_fresh (seenTerm : ℕ) (s : RaftNode) : Fresh (becomeFollower seenTerm s) := by
  rw [becomeFollower_eq]
  rfl

theorem applyCommitted_fresh (s : RaftNode) :
    Wp applyCommitted (fun _ => Fresh) (fun _ _ => True) s := by
  unfold applyCommitted
  rw [Wp.bind_iff, Wp.get_iff, Wp.bind_iff]
  exact Wp.of_post fun _ _ => rfl

/-- Replication after a publication. -/
theorem replicate_fresh {m : Task Unit} (hm : Keeps SamePublic m) (hs : Fresh s) :
    Wp m (fun _ => Fresh) (fun _ _ => True) s :=
  (hm s).mono (fun _ _ h => h.fresh hs) fun _ _ _ => trivial

theorem becomeLeader_fresh (s : RaftNode) :
    Wp becomeLeader (fun _ => Fresh) (fun _ _ => True) s := by
  unfold becomeLeader
  simp only [Wp.bind_iff, Wp.modify_iff]
  exact replicate_fresh replicateToAllPeers_public rfl

theorem startElectionRound_fresh (s : RaftNode) :
    Wp startElectionRound (fun _ => Fresh) (fun _ _ => True) s := by
  unfold startElectionRound
  simp only [Wp.bind_iff, Wp.modify_iff, Wp.get_iff, Wp.ite_iff]
  exact ⟨fun _ => becomeLeader_fresh _, fun _ => rfl⟩

theorem onVoteResponse_fresh (roundTerm : ℕ) (response : ResponseVoteRPC) (hs : Fresh s) :
    Wp (onVoteResponse roundTerm response) (fun _ => Fresh) (fun _ _ => True) s := by
  unfold onVoteResponse
  simp only [Wp.bind_iff, Wp.modify_iff, Wp.get_iff, Wp.ite_iff, Wp.pure_iff]
  exact ⟨fun _ => becomeFollower_fresh _ _, fun _ => ⟨fun _ => hs, fun _ => ⟨fun _ =>
    ⟨fun _ => becomeLeader_fresh _, fun _ => hs⟩, fun _ => hs⟩⟩⟩

theorem handleRequestVote_fresh (request : RequestVoteRPC) (hs : Fresh s) :
    Wp (handleRequestVoteInternal request) (fun _ => Fresh) (fun _ _ => True) s := by
  have hanswer : ∀ s, Wp (answerRequestVote request) (fun _ => Fresh) (fun _ _ => True) s := by
    intro s
    unfold answerRequestVote
    simp only [Wp.bind_iff, Wp.modify_iff, Wp.get_iff, Wp.ite_iff, Wp.pure_iff]
    exact ⟨fun _ => rfl, fun _ => rfl⟩
  unfold handleRequestVoteInternal
  simp only [Wp.bind_iff, Wp.modify_iff, Wp.get_iff, Wp.ite_iff, Wp.pure_iff]
  exact ⟨fun _ => hs, fun _ => ⟨fun _ => hanswer _, fun _ => hanswer _⟩⟩

theorem handleAppendEntries_fresh (request : RequestAppendEntriesRPC) (hs : Fresh s) :
    Wp (handleAppendEntriesInternal request) (fun _ => Fresh) (fun _ _ => True) s := by
  by_cases hge : request.term < s.currentTerm
  · exact (Wp.of_ok (handle_stale hge)).2 hs
  · apply handleAppendEntries_wp hge
    unfold takeUp
    rw [Wp.bind_iff]
    apply Wp.of_post
    intro b s₁
    simp only [Wp.bind_iff, Wp.modify_iff, Wp.get_iff, Wp.ite_iff, Wp.pure_iff]
    refine ⟨fun _ => rfl, fun _ => Wp.of_post fun idx s₂ => ?_⟩
    simp only [Wp.bind_iff, Wp.modify_iff]
    exact applyCommitted_fresh _

theorem onAppendEntriesResponse_fresh (peerId : NodeId) (roundTerm prevLogIndex sentCount : ℕ)
    (response : ResponseAppendEntriesRPC) (hs : Fresh s) :
    Wp (onAppendEntriesResponse peerId roundTerm prevLogIndex sentCount response)
      (fun _ => Fresh) (fun _ _ => True) s := by
  unfold onAppendEntriesResponse
  simp only [Wp.bind_iff, Wp.modify_iff, Wp.get_iff, Wp.ite_iff, Wp.pure_iff]
  refine ⟨fun _ => becomeFollower_fresh _ _, fun _ => ⟨fun _ => hs, fun _ => ⟨fun _ => ?_,
    fun _ => replicate_fresh (replicateTo_public _) hs⟩⟩⟩
  apply Wp.of_post
  intro _ s₁
  rw [Wp.bind_iff]
  apply (applyCommitted_fresh s₁).mono
  · intro _ s₂ hs₂
    simp only [Wp.bind_iff, Wp.get_iff, Wp.ite_iff, Wp.pure_iff]
    exact ⟨fun _ => replicate_fresh (replicateTo_public _) hs₂, fun _ => hs₂⟩
  · exact fun _ _ _ => trivial

theorem submitCommand_fresh (future : FutureId) (command : Command) (hs : Fresh s) :
    Wp (submitCommand future command) (fun _ => Fresh) (fun _ _ => True) s := by
  unfold submitCommand
  simp only [Wp.bind_iff, Wp.modify_iff, Wp.get_iff, Wp.ite_iff]
  refine ⟨fun _ => hs, fun _ => Wp.of_post fun _ s₁ => ?_⟩
  rw [Wp.bind_iff]
  exact Wp.of_post fun _ s₂ => applyCommitted_fresh s₂

end RaftNode

/-! ## Commands with keys -/

/-- No client submits a null key. -/
def Keyed (_c : Cluster) (e : Event) : Prop := ∀ command ∈ e.command, command.key ≠ none

instance (c : Cluster) (e : Event) : Decidable (Keyed c e) :=
  inferInstanceAs (Decidable (∀ command ∈ e.command, command.key ≠ none))

theorem Keyed.harmless {e : Event} (h : Keyed c e) : Harmless c e := by
  intro sent hsent hnull _
  cases e with
  | submit i command =>
    obtain rfl := Option.some.inj hsent
    exact absurd hnull (h command rfl)
  | _ => cases hsent

/-! ## Between tasks -/

/-- One task that publishes unless it throws. -/
theorem fresh_exec {α : Type} {task : Task α} (h : ∀ j, (c.nodes j).Fresh)
    (hw : Wp task (fun _ => RaftNode.Fresh) (fun _ => RaftNode.NullKeyed) (c.nodes i))
    (hk : KeyedLogs (c.exec i task).1) : ∀ j, ((c.exec i task).1.nodes j).Fresh := by
  intro j
  have hor := Cluster.exec_nodes (P := fun _ s => s.Fresh ∨ s.NullKeyed) (fun j => Or.inl (h j)) hw
    (fun _ _ hs => Or.inl hs) (fun _ _ hs => Or.inr hs) j
  exact hor.resolve_right (hk j)

/-- A task that follows the protocol throws only as it meets a null key. -/
theorem fresh_of_sim {α : Type} {task : Task α} {M : Finset NodeId} {n : NodeId}
    {Q : α → RaftNode → Prop} (hsim : Wp task Q (Fails M n A) s)
    (hpub : Wp task (fun _ => RaftNode.Fresh) (fun _ _ => True) s) :
    Wp task (fun _ => RaftNode.Fresh) (fun _ => RaftNode.NullKeyed) s :=
  (hsim.and hpub).mono (fun _ _ hs => hs.2) fun _ _ hf => hf.1.2.2

/-- A task that never throws publishes. -/
theorem fresh_of_ok {α : Type} {task : Task α} {Q : α → RaftNode → Prop}
    (hok : Wp task Q (fun _ _ => False) s)
    (hpub : Wp task (fun _ => RaftNode.Fresh) (fun _ _ => True) s) :
    Wp task (fun _ => RaftNode.Fresh) (fun _ => RaftNode.NullKeyed) s :=
  (hok.and hpub).mono (fun _ _ hs => hs.2) fun _ _ hf => hf.1.elim

/-- **One event** keeps every snapshot fresh. -/
theorem fresh_step (hA : Safe cfg A c) (hk : KeyedLogs c') (hf : ∀ j, (c.nodes j).Fresh)
    {e : Event} (hstep : Cluster.step cfg c e = some c') : ∀ j, (c'.nodes j).Fresh := by
  cases Cluster.happens_of_step hstep with
  | start i _ _ =>
    have hw : Wp (modify RaftNode.resetElectionTimer : Task Unit) (fun _ => RaftNode.Fresh)
      (fun _ => RaftNode.NullKeyed) (c.nodes i) := hf i
    exact fresh_exec hf hw hk
  | electionTimeout i id _ _ =>
    refine fresh_exec hf ?_ hk
    rw [Wp.bind_iff, Wp.modify_iff]
    exact fresh_of_ok (RaftNode.startElectionRound_role _) (RaftNode.startElectionRound_fresh _)
  | heartbeat i id hi _ =>
    refine fresh_exec hf (fresh_of_sim (hA.heartbeat hi id) ?_) hk
    apply (periodic_wp (RaftNode.replicateToAllPeers_public (c.nodes i))).mono
    · exact fun _ s hs => hs.fresh (hf i)
    · exact fun _ _ _ => trivial
  | submit i command hi =>
    exact fresh_exec hf (fresh_of_sim
      ((hA.node i hi).submitCommand hA.inv (hA.done i hi) _ command)
      (RaftNode.submitCommand_fresh _ _ (hf i))) hk
  | deliverVote k call _ _ hc =>
    have h := fresh_exec hf (fresh_of_ok (RaftNode.handleRequestVote_role call.request _)
      (RaftNode.handleRequestVote_fresh call.request (hf call.peer)))
    rw [hc] at h
    exact h hk
  | answerVote k call _ _ _ hc =>
    obtain rfl := hc
    exact fresh_exec hf (fresh_of_ok (RaftNode.onVoteResponse_role _ _ _)
      (RaftNode.onVoteResponse_fresh _ _ (hf call.caller))) hk
  | deliverAppend k call hcall _ hc =>
    have hsim := hA.appendCalls call (List.mem_of_getElem? hcall)
    have h := fresh_exec hf (fresh_of_ok
      ((hA.node _ hsim.peer.1).handleAppendEntries hA.inv (hA.done _ hsim.peer.1) hsim.request)
      (RaftNode.handleAppendEntries_fresh call.request (hf call.peer)))
    rw [hc] at h
    exact h hk
  | answerAppend k call hcall hr _ hc =>
    obtain rfl := hc
    refine fresh_exec hf (fresh_of_sim (hA.answerAppend (List.mem_of_getElem? hcall) hr) ?_) hk
    rw [Wp.bind_iff, Wp.modify_iff]
    exact RaftNode.onAppendEntriesResponse_fresh _ _ _ _ _ (hf call.caller)
  | failAppend k call _ _ hc =>
    obtain rfl := hc
    have hw : Wp (modify (Cluster.landed call.peer) : Task Unit) (fun _ => RaftNode.Fresh)
      (fun _ => RaftNode.NullKeyed) (c.nodes call.caller) := hf call.caller
    exact fresh_exec hf hw hk

/-- **Snapshots are fresh**: between tasks, what other threads see of a replica is its state. -/
theorem snapshot_fresh (h : Cluster.RunWhere cfg Keyed (Cluster.init cfg) c) (i : NodeId) :
    (c.nodes i).snapshot = ⟨(c.nodes i).nodeId, (c.nodes i).currentTerm, (c.nodes i).status,
      (c.nodes i).currentLeaderId, (c.nodes i).commitIndex, (c.nodes i).lastApplied,
      (c.nodes i).logStore.lastIndex⟩ := by
  suffices hall : KeyedLogs c ∧ ∀ j, (c.nodes j).Fresh from hall.2 i
  refine Cluster.RunWhere.induction h (I := fun c => KeyedLogs c ∧ ∀ j, (c.nodes j).Fresh) ?_ ?_
  · exact ⟨KeyedLogs.init cfg, fun _ => rfl⟩
  · intro A c c' e j s hA _ ⟨hk, hf⟩ he hstep hran hch
    have hk' := hk.ran he.harmless hran hch
    exact ⟨hk', fresh_step hA hk' hf hstep⟩

theorem snapshot_fresh_second : (afterSecond.nodes 2).snapshot =
    ⟨2, 2, .leader, some 2, 2, 2, 2⟩ := by
  have hrun : Cluster.RunWhere threeMembers Keyed (Cluster.init threeMembers) afterSecond :=
    (Cluster.runWhere_after (by decide +kernel)).trans (Cluster.runWhere_after (by decide +kernel))
  rw [snapshot_fresh hrun 2]
  decide +kernel

end CowRaft.Raft
