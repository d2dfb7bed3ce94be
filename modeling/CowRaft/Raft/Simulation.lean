import CowRaft.Foundations.Moves
import CowRaft.Raft.Effects

/-!
# A replica as a party of the protocol

`NodeSim M A n s` relates the state `s` of replica `n` to a state `A` of the consensus protocol
among the members `M`. What a replica has sent is related by `VoteRequested` and `AppendRequested`,
and what it owes its clients by `Clients`. None of this is lost when other replicas take steps
(`NodeSim.evolves`).
-/

namespace CowRaft.Raft

open Consensus (State Inv Evolves Move)

/-- The protocol that the replicas follow. -/
abbrev Protocol := State NodeId Command

/-- A request of candidate `n` tells with which log it asks for votes. -/
structure VoteRequested (A : Protocol) (n : NodeId) (request : RequestVoteRPC) : Prop where
  candidateId : request.candidateId = n
  log : ∃ l, A.cand n request.term = some l ∧ request.lastLogIndex = l.length ∧
    request.lastLogTerm = Consensus.lastTerm l

/-- A request of leader `n` tells a part of the log that it had when it sent the request. -/
structure AppendRequested (M : Finset NodeId) (A : Protocol) (n : NodeId)
    (request : RequestAppendEntriesRPC) (senderLog : LogStore) : Prop where
  leaderId : request.leaderId = n
  leader : A.leader request.term = some n
  start : senderLog <+: A.leaderLog request.term
  prevLogIndex : request.prevLogIndex ≤ senderLog.length
  prevLogTerm : request.prevLogIndex ≠ 0 → ∃ entry,
    senderLog[request.prevLogIndex - 1]? = some entry ∧ request.prevLogTerm = entry.term
  entries : ProtoMapper.entriesToProto (senderLog.drop request.prevLogIndex) = .ok request.entries
  leaderCommit : A.Known M request.term request.leaderCommit senderLog

/-- What a leader knows of its peers. -/
structure Leading (A : Protocol) (n : NodeId) (term : ℕ) (peers : List NodeId) (log : LogStore)
    (matchIndex nextIndex : List (NodeId × ℕ)) : Prop where
  leader : A.leader term = some n
  acked : log.length ≤ A.acked term n
  sorted : SortedKeys matchIndex
  matched : ∀ p m, (p, m) ∈ matchIndex → p ∈ peers ∧ m ≤ A.acked term p
  known : ∀ p ∈ peers, p ∈ matchIndex.map Prod.fst
  next : ∀ p ∈ peers, ∃ next, lookupKey p nextIndex = some next ∧ 1 ≤ next ∧
    next ≤ log.length + 1

/-- The answer `r` is the outcome of executing `entry` behind the entries before `index`. -/
def Outcome (applied : List LogEntry) (index : ℕ) (entry : LogEntry) (r : CommandResult) : Prop :=
  0 < index ∧ applied[index - 1]? = some entry ∧
    ((∃ value values, (StateMachine.replay (applied.take (index - 1))).apply entry.command =
        .ok (value, values) ∧ r = .committed index entry.command.key value) ∨
      ∃ e, (StateMachine.replay (applied.take (index - 1))).apply entry.command = .error e ∧
        r = .failed index entry.command.key e.message)

/-- What a replica owes its clients, and what it has answered. -/
structure Clients (status : ServerStatus) (log : LogStore) (applied : List LogEntry)
    (pending : List (ℕ × FutureId)) (completed : List (FutureId × CommandResult))
    (created : List (FutureId × ℕ × LogEntry)) : Prop where
  /-- A follower has told its clients that it is not the leader. -/
  idle : status = .follower → pending = []
  pending : ∀ index f, (index, f) ∈ pending → ∃ entry, (f, index, entry) ∈ created ∧
    0 < index ∧ log[index - 1]? = some entry
  answered : ∀ f r, (f, r) ∈ completed → r = .notLeader ∨
    ∃ entry, (f, r.index, entry) ∈ created ∧ Outcome applied r.index entry r

/-- A replica that is no follower owes its clients what it owed them before. -/
theorem Clients.active {status status' : ServerStatus} {log : LogStore} {applied : List LogEntry}
    {pending : List (ℕ × FutureId)} {completed : List (FutureId × CommandResult)}
    {created : List (FutureId × ℕ × LogEntry)}
    (h : Clients status log applied pending completed created) (hs : status' ≠ .follower) :
    Clients status' log applied pending completed created :=
  { h with idle := fun hf => absurd hf hs }

/-- What replica `n` has done and sent is known to the protocol. -/
structure Past (M : Finset NodeId) (A : Protocol) (n : NodeId) (s : RaftNode) : Prop where
  voteRequests : ∀ r ∈ s.voteRequests, r.1 ∈ s.peers ∧ VoteRequested A n r.2
  appendRequests : ∀ r ∈ s.appendRequests, r.1 ∈ s.peers ∧ AppendRequested M A n r.2.1 r.2.2
  led : ∀ T l, (T, l) ∈ s.history.led → A.leader T = some n ∧ A.electLog T = l
  advanced : ∀ T l, (T, l) ∈ s.history.advanced → A.Chosen M T l.length ∧ l <+: A.leaderLog T
  created : ∀ f index entry, (f, index, entry) ∈ s.history.created →
    A.leader entry.term = some n ∧ 0 < index ∧ (A.leaderLog entry.term)[index - 1]? = some entry

/-- Replica `n`, in state `s`, follows the protocol. -/
structure NodeSim (M : Finset NodeId) (A : Protocol) (n : NodeId) (s : RaftNode) : Prop
    extends Past M A n s where
  nodeId : s.nodeId = n
  member : n ∈ M
  mem_peers : ∀ j, j ∈ s.peers ↔ j ∈ M ∧ j ≠ n
  peers_nodup : s.peers.Nodup
  term : A.term n = s.currentTerm
  log : A.log n = s.logStore
  commit : A.commit n = s.commitIndex
  vote : A.vote n s.currentTerm = s.votedFor
  ballots : ∀ T c, (T, c) ∈ s.history.ballots ↔ A.vote n T = some c
  /-- A candidate or leader has voted for itself. -/
  own : s.status ≠ .follower → s.votedFor = some n
  candidate : s.status = .candidate → A.cand n s.currentTerm = some s.logStore ∧
    A.leader s.currentTerm ≠ some n
  leading : s.status = .leader →
    Leading A n s.currentTerm s.peers s.logStore s.matchIndex s.nextIndex
  applied : s.history.applied = s.logStore.take s.lastApplied
  machine : s.stateMachine = StateMachine.replay s.history.applied
  lastApplied : s.lastApplied ≤ s.commitIndex
  clients : Clients s.status s.logStore s.history.applied s.pendingClients s.completed
    s.history.created
  truncations : ∀ cut ∈ s.history.truncations, cut.2 < cut.1
  faults : ∀ e ∈ s.history.faults, e = .nullPointer

/-- After a move of replica `n`, it is in state `s`. -/
def Follows (M : Finset NodeId) (n : NodeId) (A : Protocol) (s : RaftNode) : Prop :=
  ∃ A', Move M n A A' ∧ NodeSim M A' n s

variable {M : Finset NodeId} {A A' : Protocol} {n m : NodeId} {s s' : RaftNode}

theorem Follows.head (hm : Move M n A A') (h : Follows M n A' s) : Follows M n A s := by
  obtain ⟨A'', hm', h⟩ := h
  exact ⟨A'', hm.trans hm', h⟩

/-! ## What the steps of others leave alone -/

theorem VoteRequested.evolves {request : RequestVoteRPC} (h : VoteRequested A m request)
    (hev : Evolves n A A') : VoteRequested A' m request := by
  obtain ⟨l, hl, hlen, hterm⟩ := h.log
  exact ⟨h.candidateId, l, hev.cand hl, hlen, hterm⟩

theorem AppendRequested.evolves {request : RequestAppendEntriesRPC} {senderLog : LogStore}
    (h : AppendRequested M A m request senderLog) (hev : Evolves n A A') :
    AppendRequested M A' m request senderLog :=
  { h with
    leader := (hev.leader h.leader).1
    start := h.start.trans (hev.leaderLog _)
    leaderCommit := hev.known h.leaderCommit }

theorem Leading.evolves {term : ℕ} {peers : List NodeId} {log : LogStore}
    {matchIndex nextIndex : List (NodeId × ℕ)}
    (h : Leading A m term peers log matchIndex nextIndex) (hev : Evolves n A A') :
    Leading A' m term peers log matchIndex nextIndex :=
  { h with
    leader := (hev.leader h.leader).1
    acked := h.acked.trans (hev.acked _ _)
    matched := fun p k hp =>
      ⟨(h.matched p k hp).1, (h.matched p k hp).2.trans (hev.acked _ _)⟩ }

/-- **The past stays** what it was. -/
theorem Past.evolves (h : Past M A m s) (hev : Evolves n A A') : Past M A' m s where
  voteRequests r hr := ⟨(h.voteRequests r hr).1, (h.voteRequests r hr).2.evolves hev⟩
  appendRequests r hr := ⟨(h.appendRequests r hr).1, (h.appendRequests r hr).2.evolves hev⟩
  led T l hl := by
    obtain ⟨h₁, h₂⟩ := h.led T l hl
    exact ⟨(hev.leader h₁).1, (hev.leader h₁).2.trans h₂⟩
  advanced T l hl := by
    obtain ⟨h₁, h₂⟩ := h.advanced T l hl
    exact ⟨hev.chosen h₁, h₂.trans (hev.leaderLog T)⟩
  created f index entry hf := by
    obtain ⟨h₁, h₂, h₃⟩ := h.created f index entry hf
    exact ⟨(hev.leader h₁).1, h₂, Consensus.getElem?_of_start (hev.leaderLog _) h₃⟩

/-- **Frame**: the steps of another replica do not concern this one. -/
theorem NodeSim.evolves (h : NodeSim M A m s) (hev : Evolves n A A') (hm : m ≠ n) :
    NodeSim M A' m s := by
  obtain ⟨hterm, hlog, hcommit, hvote, hcand, hack⟩ := hev.others hm
  refine { h with
    toPast := h.toPast.evolves hev
    term := hterm.trans h.term
    log := hlog.trans h.log
    commit := hcommit.trans h.commit
    vote := (hvote _).trans h.vote
    candidate := ?_
    leading := fun hl => (h.leading hl).evolves hev
    ballots := ?_ }
  · intro T c
    rw [hvote T]
    exact h.ballots T c
  · intro hc
    refine ⟨(hcand _).trans (h.candidate hc).1, ?_⟩
    intro hl
    rcases hev.leader_of hl with hl | hl
    · exact (h.candidate hc).2 hl
    · exact hm hl

end CowRaft.Raft
