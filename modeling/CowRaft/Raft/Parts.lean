import CowRaft.Raft.AppendEntries
import CowRaft.Raft.Runs

/-!
# The parts of tasks

Tasks are made of a few updates of the state. A relation between the state before and after that
composes, and that each of these updates keeps (`Parts`), is kept by whole tasks, whether they end
or throw; what it takes for an event of the cluster is said by `Parts.step`. Two tasks are left to
the relation itself: what a client's command adds, and how a follower takes up entries.
-/

namespace CowRaft.Raft

variable {cfg : Config} {c c' : Cluster} {e : Event} {s : RaftNode}

/-- Each update that tasks are made of keeps the relation. -/
structure Parts (R : Bool → RaftNode → RaftNode → Prop) : Prop where
  reset : ∀ s : RaftNode, R true s s.resetElectionTimer
  publish : ∀ s : RaftNode, R true s s.publishSnapshot
  follower : ∀ seenTerm (s : RaftNode), R true s (RaftNode.becomeFollower seenTerm s)
  mark : ∀ peerId (s : RaftNode), R false s { s with inFlight := insert peerId s.inFlight }
  send : ∀ peerId (s : RaftNode) (request : RequestAppendEntriesRPC), R true s { s with
    inFlight := insert peerId s.inFlight
    appendRequests := s.appendRequests ++ [(peerId, request, s.logStore)] }
  commit : Keeps R RaftNode.advanceCommitIndex
  apply : Keeps R RaftNode.applyCommitted
  lead : ∀ s : RaftNode, R true s s.initLeader
  beat : ∀ s : RaftNode, R true s s.scheduleHeartbeat
  round : ∀ s : RaftNode, R true s s.beginElectionRound
  ask : ∀ s : RaftNode, R true s s.requestVotes
  vote : ∀ candidateId (s : RaftNode), R true s (s.grantVote candidateId)
  count : ∀ s : RaftNode, R true s { s with votesReceived := s.votesReceived + 1 }
  record : ∀ peerId newMatch (s : RaftNode), R true s (RaftNode.recordMatch peerId newMatch s)
  lower : ∀ peerId prevLogIndex (s : RaftNode),
    R true s (RaftNode.lowerNextIndex peerId prevLogIndex s)
  hear : ∀ leaderId (s : RaftNode), R true s { s with currentLeaderId := some leaderId }
  expire : ∀ id (s : RaftNode), R true s (Cluster.timedOut id s)
  stop : ∀ id {s s' : RaftNode}, R false s s' →
    R false s { s' with heartbeats := s'.heartbeats.erase id }
  land : ∀ peerId (s : RaftNode), R true s (Cluster.landed peerId s)

namespace Parts

open RaftNode

variable {R : Bool → RaftNode → RaftNode → Prop} [Composes R] (h : Parts R)
include h

/-! ## Tasks -/

theorem replicateTo (peerId : NodeId) : Keeps R (RaftNode.replicateTo peerId) :=
  replicateTo_keeps (fun s _ _ => h.mark peerId s) fun s request _ _ _ _ => h.send peerId s request

theorem replicateToAllPeers : Keeps R RaftNode.replicateToAllPeers :=
  replicateToAllPeers_keeps h.replicateTo

theorem becomeLeader : Keeps R RaftNode.becomeLeader := by
  unfold RaftNode.becomeLeader
  exact Keeps.bind (Keeps.modify h.lead) fun _ => Keeps.bind (Keeps.modify h.publish) fun _ =>
    Keeps.bind h.replicateToAllPeers fun _ => Keeps.modify h.beat

theorem startElectionRound : Keeps R RaftNode.startElectionRound := by
  unfold RaftNode.startElectionRound
  refine Keeps.bind (Keeps.modify h.round) fun _ => Keeps.bind (Keeps.modify h.publish) fun _ =>
    Keeps.bind (Keeps.modify h.reset) fun _ => Keeps.bind Keeps.get fun s => ?_
  exact Keeps.ite (fun _ => h.becomeLeader) fun _ => Keeps.modify h.ask

theorem onVoteResponse (roundTerm : ℕ) (response : ResponseVoteRPC) :
    Keeps R (RaftNode.onVoteResponse roundTerm response) := by
  unfold RaftNode.onVoteResponse
  refine Keeps.bind Keeps.get fun s => Keeps.ite (fun _ => Keeps.modify (h.follower _)) fun _ => ?_
  refine Keeps.ite (fun _ => Keeps.pure _) fun _ => Keeps.ite (fun _ => ?_) fun _ => Keeps.pure _
  exact Keeps.bind (Keeps.modify h.count) fun _ =>
    Keeps.ite (fun _ => h.becomeLeader) fun _ => Keeps.pure _

theorem answerRequestVote (request : RequestVoteRPC) :
    Keeps R (RaftNode.answerRequestVote request) := by
  have hlast : ∀ granted : Bool, Keeps R (do
      modify publishSnapshot
      return ⟨(← get).currentTerm, granted⟩ : Task ResponseVoteRPC) := fun _ =>
    Keeps.bind (Keeps.modify h.publish) fun _ => Keeps.bind Keeps.get fun _ => Keeps.pure _
  unfold RaftNode.answerRequestVote
  refine Keeps.bind Keeps.get fun s => Keeps.ite (fun _ => ?_) fun _ => hlast _
  exact Keeps.bind (Keeps.modify (h.vote _)) fun _ => Keeps.bind (Keeps.modify h.reset) fun _ =>
    hlast _

theorem handleRequestVote (request : RequestVoteRPC) :
    Keeps R (RaftNode.handleRequestVoteInternal request) := by
  unfold RaftNode.handleRequestVoteInternal
  refine Keeps.bind Keeps.get fun s => Keeps.ite (fun _ => Keeps.pure _) fun _ => ?_
  exact Keeps.ite (fun _ => Keeps.bind (Keeps.modify (h.follower _)) fun _ =>
    h.answerRequestVote _) fun _ => h.answerRequestVote _

theorem onAppendEntriesResponse (peerId : NodeId) (roundTerm prevLogIndex sentCount : ℕ)
    (response : ResponseAppendEntriesRPC) : Keeps R
      (RaftNode.onAppendEntriesResponse peerId roundTerm prevLogIndex sentCount response) := by
  unfold RaftNode.onAppendEntriesResponse
  refine Keeps.bind Keeps.get fun s => Keeps.ite (fun _ => Keeps.modify (h.follower _)) fun _ => ?_
  refine Keeps.ite (fun _ => Keeps.pure _) fun _ => Keeps.ite (fun _ => ?_) fun _ => ?_
  · refine Keeps.bind (Keeps.modify (h.record _ _)) fun _ => Keeps.bind h.commit
      fun _ => Keeps.bind h.apply fun _ => Keeps.bind Keeps.get fun _ => ?_
    exact Keeps.ite (fun _ => h.replicateTo _) fun _ => Keeps.pure _
  · exact Keeps.bind (Keeps.modify (h.lower _ _)) fun _ => h.replicateTo _

/-- What comes after a client's command was appended. -/
theorem afterAppend : Keeps R (do
    RaftNode.replicateToAllPeers
    RaftNode.advanceCommitIndex
    applyCommitted : Task Unit) :=
  Keeps.bind h.replicateToAllPeers fun _ => Keeps.bind h.commit fun _ => h.apply

omit h in
theorem prevLogMatches (prevLogIndex prevLogTerm : ℕ) :
    Keeps R (RaftNode.prevLogMatches prevLogIndex prevLogTerm) := by
  unfold RaftNode.prevLogMatches
  refine Keeps.bind Keeps.get fun s => Keeps.ite (fun _ => Keeps.pure _) fun _ => ?_
  exact Keeps.ite (fun _ => Keeps.bind (logGet_keeps _) fun _ => Keeps.pure _) fun _ => Keeps.pure _

/-- A follower takes up entries, if patching and following the commit index keep the relation. -/
theorem handleAppendEntries (hpatch : ∀ protos idx, Keeps R (patchLog protos idx))
    (hfollow : ∀ leaderCommit idx (s : RaftNode), R true s (followCommit leaderCommit idx s))
    (request : RequestAppendEntriesRPC) :
    Keeps R (RaftNode.handleAppendEntriesInternal request) := by
  have hrest : Keeps R (RaftNode.appendFromLeader request) := by
    unfold RaftNode.appendFromLeader
    refine Keeps.bind (Keeps.modify (h.hear _)) fun _ => Keeps.bind (Keeps.modify h.reset)
      fun _ => Keeps.bind (Parts.prevLogMatches _ _) fun _ => Keeps.ite (fun _ => ?_) fun _ => ?_
    · exact Keeps.bind (Keeps.modify h.publish) fun _ => Keeps.bind Keeps.get fun _ => Keeps.pure _
    · exact Keeps.bind (hpatch _ _) fun idx => Keeps.bind (Keeps.modify (hfollow _ _)) fun _ =>
        Keeps.bind h.apply fun _ => Keeps.bind Keeps.get fun _ => Keeps.pure _
  unfold RaftNode.handleAppendEntriesInternal
  refine Keeps.bind Keeps.get fun s => Keeps.ite (fun _ => Keeps.pure _) fun _ => ?_
  exact Keeps.ite (fun _ => Keeps.bind (Keeps.modify (h.follower _)) fun _ => hrest) fun _ => hrest

theorem periodic (id : TaskId) :
    Keeps R (RaftNode.periodic id RaftNode.replicateToAllPeers) := by
  intro s
  apply (periodic_wp (h.replicateToAllPeers s)).mono
  · exact fun _ _ hs => hs
  · rintro _ _ ⟨s₁, hs, rfl⟩
    exact h.stop id hs

/-! ## Events -/

/-- Every append RPC of `c'` was one of `c`, with the same request, or a replica in state `s` has
left it to be sent. -/
def Sends (s : RaftNode) (c c' : Cluster) : Prop :=
  ∀ call ∈ c'.appendCalls, (∃ old ∈ c.appendCalls, call.request = old.request ∧
    call.senderLog = old.senderLog) ∨ call ∈ Cluster.newAppendCalls s

omit [Composes R] h in
theorem Sends.of_eq (h : c'.appendCalls = c.appendCalls ++ Cluster.newAppendCalls s) :
    Sends s c c' := by
  intro call hcall
  rw [h] at hcall
  exact (List.mem_append.1 hcall).imp_left fun hcall => ⟨call, hcall, rfl, rfl⟩

omit [Composes R] h in
theorem Sends.set {k : ℕ} {call call' : AppendCall} (h : Sends s c c')
    (hk : c.appendCalls[k]? = some call) (hr : call'.request = call.request)
    (hl : call'.senderLog = call.senderLog) :
    Sends s c { c' with appendCalls := c'.appendCalls.set k call' } := by
  intro call₁ hcall
  rcases List.mem_or_eq_of_mem_set hcall with hcall | rfl
  · exact h call₁ hcall
  · exact Or.inl ⟨call, List.mem_of_getElem? hk, hr, hl⟩

/-- **One event** changes one replica, and keeps the relation if a client's command and the entries
of a leader keep it. -/
theorem step {A : Protocol} (hA : Safe cfg A c) (hstep : Cluster.step cfg c e = some c')
    (hsubmit : ∀ i command, e = .submit i command → i ∈ cfg.members →
      Wp (submitCommand c.submissions.length command) (fun _ => R true (c.nodes i))
        (fun _ => R false (c.nodes i)) (c.nodes i))
    (hdeliver : ∀ k call, e = .deliverAppend k → c.appendCalls[k]? = some call →
      Wp (handleAppendEntriesInternal call.request) (fun _ => R true (c.nodes call.peer))
        (fun _ => R false (c.nodes call.peer)) (c.nodes call.peer)) :
    ∃ j ∈ cfg.members, ∃ (fault : Option Fault) (s : RaftNode),
      R fault.isNone (c.nodes j) s ∧ c'.nodes = (c.put j (Cluster.settle fault s)).nodes ∧
        Sends s c c' := by
  have hexec : ∀ {α : Type} {i : NodeId} {task : Task α} {c₁ : Cluster}, i ∈ cfg.members →
      Wp task (fun _ => R true (c.nodes i)) (fun _ => R false (c.nodes i)) (c.nodes i) →
      c₁.nodes = (c.exec i task).1.nodes → c₁.appendCalls = (c.exec i task).1.appendCalls →
      ∃ j ∈ cfg.members, ∃ (fault : Option Fault) (s : RaftNode),
        R fault.isNone (c.nodes j) s ∧ c₁.nodes = (c.put j (Cluster.settle fault s)).nodes ∧
          Sends s c c₁ := by
    intro α i task c₁ hi hw hn ha
    obtain ⟨fault, s, hs, hput⟩ := Cluster.exec_cases hw
    rw [hput] at hn ha
    exact ⟨i, hi, fault, s, hs, hn, Sends.of_eq ha⟩
  cases Cluster.happens_of_step hstep with
  | start i hi _ => exact hexec hi (Keeps.modify h.reset (c.nodes i)) rfl rfl
  | electionTimeout i id hi _ =>
    exact hexec hi (Keeps.bind (Keeps.modify (h.expire id)) (fun _ => h.startElectionRound)
      (c.nodes i)) rfl rfl
  | heartbeat i id hi _ => exact hexec hi (h.periodic id (c.nodes i)) rfl rfl
  | submit i command hi => exact hexec hi (hsubmit i command rfl hi) rfl rfl
  | deliverVote k call hk _ hc =>
    have hcall := hA.voteCalls call (List.mem_of_getElem? hk)
    exact hexec hcall.peer.1 (h.handleRequestVote call.request _) (by rw [hc]) (by rw [hc])
  | answerVote k call hk _ _ hc =>
    have hcall := hA.voteCalls call (List.mem_of_getElem? hk)
    exact hexec hcall.caller (h.onVoteResponse call.request.term _ _) (by rw [← hc]) (by rw [← hc])
  | @deliverAppend k call hk _ c₁ _ hc =>
    have hmem := List.mem_of_getElem? hk
    obtain ⟨j, hj, fault, s, hs, hn, hsent⟩ := hexec (hA.appendCalls call hmem).peer.1
      (hdeliver k call rfl hk) (by rw [hc]) (by rw [hc])
    exact ⟨j, hj, fault, s, hs, hn, hsent.set hk rfl rfl⟩
  | @answerAppend k call hk response _ _ c₁ hc =>
    have hcall := hA.appendCalls call (List.mem_of_getElem? hk)
    have hw := Keeps.bind (Keeps.modify (h.land call.peer)) fun _ => h.onAppendEntriesResponse
      call.peer call.request.term call.request.prevLogIndex call.request.entries.length response
    obtain ⟨j, hj, fault, s, hs, hn, hsent⟩ := hexec hcall.caller
      (hw (c.nodes call.caller)) (congrArg Cluster.nodes hc) (congrArg Cluster.appendCalls hc)
    exact ⟨j, hj, fault, s, hs, hn, hsent.set hk rfl rfl⟩
  | @failAppend k call hk _ c₁ hc =>
    have hcall := hA.appendCalls call (List.mem_of_getElem? hk)
    have hw : Keeps R (modify (Cluster.landed call.peer) : Task Unit) :=
      Keeps.modify (h.land call.peer)
    obtain ⟨j, hj, fault, s, hs, hn, hsent⟩ := hexec hcall.caller
      (hw (c.nodes call.caller)) (congrArg Cluster.nodes hc) (congrArg Cluster.appendCalls hc)
    exact ⟨j, hj, fault, s, hs, hn, hsent.set hk rfl rfl⟩

end Parts

end CowRaft.Raft
