import CowRaft.Foundations.SortedAssoc
import CowRaft.Raft.Log

/-!
# One replica

The state of a replica and the tasks of its event loop. Tasks run one after another; each is a
program over the state that may throw, and what it did before it threw stays done. Futures of
scheduled tasks are numbers: `electionTimeouts` and `heartbeats` hold those that are scheduled and
not cancelled. What a task hands to the RPC threads is left in `voteRequests` and
`appendRequests`. The `history` is written but never read.
-/

namespace CowRaft.Raft

inductive ServerStatus
  | follower
  | candidate
  | leader
  deriving DecidableEq, Repr

/-- The state a replica publishes to other threads. -/
structure ServerState where
  nodeId : NodeId
  currentTerm : ℕ
  status : ServerStatus
  leaderId : Option NodeId
  commitIndex : ℕ
  lastApplied : ℕ
  lastLogIndex : ℕ
  deriving DecidableEq, Repr

namespace CommandResult

inductive Status
  | committed
  | failed
  | notLeader
  deriving DecidableEq, Repr

end CommandResult

/-- The outcome of a client command. -/
structure CommandResult where
  status : CommandResult.Status
  index : ℕ
  key : Option String
  value : Option Int32
  message : Option String
  deriving DecidableEq

namespace CommandResult

def committed (index : ℕ) (key : Option String) (value : Int32) : CommandResult :=
  ⟨.committed, index, key, some value, none⟩

def failed (index : ℕ) (key : Option String) (message : String) : CommandResult :=
  ⟨.failed, index, key, none, some message⟩

def notLeader : CommandResult := ⟨.notLeader, 0, none, none, none⟩

end CommandResult

/-- The number of a scheduled task. -/
abbrev TaskId := ℕ

/-- The number of a client's future. -/
abbrev FutureId := ℕ

/-- What a replica has done so far. -/
structure History where
  /-- The votes given, with their terms. -/
  ballots : List (ℕ × NodeId) := []
  /-- The terms in which it became leader, with the log it had then. -/
  led : List (ℕ × LogStore) := []
  /-- The terms in which it advanced its commit index as the leader, with the log up to there. -/
  advanced : List (ℕ × LogStore) := []
  /-- The entries applied to the state machine. -/
  applied : List LogEntry := []
  /-- The entries appended for clients: the future, the index and the entry. -/
  created : List (FutureId × ℕ × LogEntry) := []
  /-- The indices from which the log was truncated, with the commit index at that time. -/
  truncations : List (ℕ × ℕ) := []
  /-- What tasks of the event loop have thrown. -/
  faults : List Fault := []
  /-- The states published to other threads. -/
  published : List ServerState := []

/-- The state of a replica. -/
structure RaftNode where
  nodeId : NodeId
  /-- The keys of the configured peers. -/
  peers : List NodeId
  currentTerm : ℕ
  votedFor : Option NodeId
  status : ServerStatus
  currentLeaderId : Option NodeId
  votesReceived : ℕ
  electionTimeoutFuture : Option TaskId
  heartbeatFuture : Option TaskId
  electionTimeouts : Finset TaskId
  heartbeats : Finset TaskId
  nextTask : TaskId
  commitIndex : ℕ
  lastApplied : ℕ
  nextIndex : List (NodeId × ℕ)
  matchIndex : List (NodeId × ℕ)
  inFlight : Finset NodeId
  pendingClients : List (ℕ × FutureId)
  /-- The futures completed so far. -/
  completed : List (FutureId × CommandResult)
  snapshot : ServerState
  logStore : LogStore
  stateMachine : StateMachine
  voteRequests : List (NodeId × RequestVoteRPC)
  /-- The requests, each with the log it was built from. -/
  appendRequests : List (NodeId × RequestAppendEntriesRPC × LogStore)
  history : History

/-- A program of the event loop. -/
abbrev Task := EStateM Fault RaftNode

namespace RaftNode

/-- A new replica. -/
def create (nodeId : NodeId) (peers : List NodeId) : RaftNode where
  nodeId := nodeId
  peers := peers
  currentTerm := 0
  votedFor := none
  status := .follower
  currentLeaderId := none
  votesReceived := 0
  electionTimeoutFuture := none
  heartbeatFuture := none
  electionTimeouts := ∅
  heartbeats := ∅
  nextTask := 0
  commitIndex := 0
  lastApplied := 0
  nextIndex := []
  matchIndex := []
  inFlight := ∅
  pendingClients := []
  completed := []
  snapshot := ⟨nodeId, 0, .follower, none, 0, 0, 0⟩
  logStore := []
  stateMachine := StateMachine.empty
  voteRequests := []
  appendRequests := []
  history := {}

/-- The members are this replica and its peers. -/
def clusterSize (s : RaftNode) : ℕ := s.peers.length + 1

def majority (s : RaftNode) : ℕ := s.clusterSize / 2 + 1

/-- The state that other threads may see. -/
def serverState (s : RaftNode) : ServerState :=
  ⟨s.nodeId, s.currentTerm, s.status, s.currentLeaderId, s.commitIndex, s.lastApplied,
    s.logStore.lastIndex⟩

def publishSnapshot (s : RaftNode) : RaftNode :=
  { s with
    snapshot := s.serverState
    history := { s.history with published := s.history.published ++ [s.serverState] } }

/-- Cancel the task of a future, if there is one. -/
def cancel (future : Option TaskId) (live : Finset TaskId) : Finset TaskId :=
  match future with
  | none => live
  | some id => live.erase id

/-- Complete a future that is not completed yet. -/
def complete (future : FutureId) (result : CommandResult)
    (completed : List (FutureId × CommandResult)) : List (FutureId × CommandResult) :=
  if completed.any fun fr => fr.1 = future then completed else completed ++ [(future, result)]

def resetElectionTimer (s : RaftNode) : RaftNode :=
  { s with
    electionTimeouts := insert s.nextTask (cancel s.electionTimeoutFuture s.electionTimeouts)
    electionTimeoutFuture := some s.nextTask
    nextTask := s.nextTask + 1 }

/-- No client waits for this replica any longer. -/
def failPendingClients (s : RaftNode) : RaftNode :=
  { s with
    completed := s.pendingClients.foldl (fun completed pending =>
      complete pending.2 CommandResult.notLeader completed) s.completed
    pendingClients := [] }

def becomeFollower (seenTerm : ℕ) (s : RaftNode) : RaftNode :=
  let s := if seenTerm > s.currentTerm then { s with currentTerm := seenTerm, votedFor := none }
    else s
  let s := { s with
    status := .follower
    heartbeats := cancel s.heartbeatFuture s.heartbeats
    heartbeatFuture := none }
  s.failPendingClients.publishSnapshot.resetElectionTimer

/-- The candidate's last entry is at least as up to date as ours. -/
def isLogUpToDate (s : RaftNode) (candidateLastLogTerm candidateLastLogIndex : ℕ) : Bool :=
  let ourLastTerm := s.logStore.lastTerm
  let ourLastIndex := s.logStore.lastIndex
  if candidateLastLogTerm ≠ ourLastTerm then candidateLastLogTerm > ourLastTerm
  else candidateLastLogIndex ≥ ourLastIndex

/-! ## Replication -/

/-- The entry at an index of the log. -/
def logGet (index : ℕ) : Task LogEntry := do
  ofExcept ((← get).logStore.get index)

def replicateTo (peerId : NodeId) : Task Unit := do
  let s ← get
  if s.status ≠ .leader then
    pure ()
  else if peerId ∈ s.inFlight then
    pure ()
  else
    modify fun s => { s with inFlight := insert peerId s.inFlight }
    let roundTerm := s.currentTerm
    let next := (lookupKey peerId s.nextIndex).getD (s.logStore.lastIndex + 1)
    let prevLogIndex := next - 1
    let prevLogTerm ← if prevLogIndex = 0 then pure 0 else do
      let entry ← logGet prevLogIndex
      pure entry.term
    let toSend := s.logStore.entriesFrom next
    let leaderCommit := s.commitIndex
    let entries ← ofExcept (ProtoMapper.entriesToProto toSend)
    let request : RequestAppendEntriesRPC :=
      ⟨roundTerm, s.nodeId, prevLogIndex, prevLogTerm, entries, leaderCommit⟩
    modify fun s =>
      { s with appendRequests := s.appendRequests ++ [(peerId, request, s.logStore)] }

/-- The periodic tick, also run after appends. -/
def replicateToAllPeers : Task Unit := do
  let s ← get
  if s.status ≠ .leader then pure () else s.peers.forM replicateTo

/-- The leader and the peers that are known to hold the log up to `n`. -/
def replicatedCount (s : RaftNode) (n : ℕ) : ℕ :=
  1 + (s.matchIndex.filter fun entry => entry.2 ≥ n).length

/-- Commit the log up to `n`, as the leader. -/
def commitTo (n : ℕ) (s : RaftNode) : RaftNode :=
  { s with
    commitIndex := n
    history := { s.history with
      advanced := s.history.advanced ++ [(s.currentTerm, s.logStore.take n)] } }

/-- Look for the highest index from `n` down that is replicated on a majority. -/
def advanceFrom : ℕ → Task Unit
  | 0 => pure ()
  | n + 1 => do
    let s ← get
    if n + 1 > s.commitIndex then
      let entry ← logGet (n + 1)
      if entry.term ≠ s.currentTerm then
        pure ()
      else if s.replicatedCount (n + 1) ≥ s.majority then
        modify (commitTo (n + 1))
      else
        advanceFrom n
    else
      pure ()

def advanceCommitIndex : Task Unit := do
  let s ← get
  if s.status ≠ .leader then pure () else advanceFrom s.logStore.lastIndex

/-- Apply the entry at `lastApplied`, and answer the client that waits for it. -/
def applyEntry (entry : LogEntry) (s : RaftNode) : RaftNode :=
  let answer (result : CommandResult) :=
    match lookupKey s.lastApplied s.pendingClients with
    | none => s.completed
    | some pending => complete pending result s.completed
  let s' := { s with
    pendingClients := s.pendingClients.filter fun pending => pending.1 ≠ s.lastApplied
    history := { s.history with applied := s.history.applied ++ [entry] } }
  match s.stateMachine.apply entry.command with
  | .ok (value, values) => { s' with
      stateMachine := values
      completed := answer (.committed s.lastApplied entry.command.key value) }
  | .error e => { s' with
      completed := answer (.failed s.lastApplied entry.command.key e.message) }

/-- Apply the next `count` entries. -/
def applyNext : ℕ → Task Unit
  | 0 => pure ()
  | count + 1 => do
    modify fun s => { s with lastApplied := s.lastApplied + 1 }
    let entry ← logGet (← get).lastApplied
    modify (applyEntry entry)
    applyNext count

/-- Apply entries while `lastApplied` is below `commitIndex`. -/
def applyCommitted : Task Unit := do
  let s ← get
  applyNext (s.commitIndex - s.lastApplied)
  modify publishSnapshot

/-! ## Elections -/

/-- The state of a new leader, who knows nothing of its peers yet. -/
def initLeader (s : RaftNode) : RaftNode :=
  let next := s.logStore.lastIndex + 1
  { s with
    status := .leader
    currentLeaderId := some s.nodeId
    electionTimeouts := cancel s.electionTimeoutFuture s.electionTimeouts
    nextIndex := s.peers.foldl (fun nextIndex peerId => upsert peerId next nextIndex) []
    matchIndex := s.peers.foldl (fun matchIndex peerId => upsert peerId 0 matchIndex) []
    inFlight := ∅
    history := { s.history with led := s.history.led ++ [(s.currentTerm, s.logStore)] } }

def scheduleHeartbeat (s : RaftNode) : RaftNode :=
  { s with
    heartbeats := insert s.nextTask s.heartbeats
    heartbeatFuture := some s.nextTask
    nextTask := s.nextTask + 1 }

def becomeLeader : Task Unit := do
  modify initLeader
  modify publishSnapshot
  replicateToAllPeers
  modify scheduleHeartbeat

/-- The state of a candidate who has voted for itself. -/
def beginElectionRound (s : RaftNode) : RaftNode :=
  { s with
    currentTerm := s.currentTerm + 1
    status := .candidate
    votedFor := some s.nodeId
    votesReceived := 1
    currentLeaderId := none
    history := { s.history with
      ballots := s.history.ballots ++ [(s.currentTerm + 1, s.nodeId)] } }

/-- Ask every peer for its vote. -/
def requestVotes (s : RaftNode) : RaftNode :=
  let request : RequestVoteRPC :=
    ⟨s.currentTerm, s.nodeId, s.logStore.lastIndex, s.logStore.lastTerm⟩
  { s with
    voteRequests := s.voteRequests ++ s.peers.map fun peerId => (peerId, request) }

def startElectionRound : Task Unit := do
  modify beginElectionRound
  modify publishSnapshot
  modify resetElectionTimer
  let s ← get
  if s.votesReceived ≥ s.majority then becomeLeader else modify requestVotes

def onElectionTimeout : Task Unit := startElectionRound

def onVoteResponse (roundTerm : ℕ) (response : ResponseVoteRPC) : Task Unit := do
  let s ← get
  if response.term > s.currentTerm then
    modify (becomeFollower response.term)
  else if s.status ≠ .candidate ∨ s.currentTerm ≠ roundTerm then
    pure () -- stale response from a round we've since moved past
  else if response.voteGranted then
    modify fun s => { s with votesReceived := s.votesReceived + 1 }
    if s.votesReceived + 1 ≥ s.majority then becomeLeader else pure ()
  else
    pure ()

/-- Vote for a candidate, as `votedFor` and the history record it. -/
def grantVote (candidateId : NodeId) (s : RaftNode) : RaftNode :=
  { s with
    votedFor := some candidateId
    history := { s.history with
      ballots := s.history.ballots ++ [(s.currentTerm, candidateId)] } }

/-- Answer a request of the present term. -/
def answerRequestVote (request : RequestVoteRPC) : Task ResponseVoteRPC := do
  let s ← get
  let logUpToDate := s.isLogUpToDate request.lastLogTerm request.lastLogIndex
  let granted := (s.votedFor = none ∨ s.votedFor = some request.candidateId) ∧ logUpToDate
  if granted then
    modify (grantVote request.candidateId)
    modify resetElectionTimer
  else
    pure ()
  modify publishSnapshot
  return ⟨(← get).currentTerm, granted⟩

def handleRequestVoteInternal (request : RequestVoteRPC) : Task ResponseVoteRPC := do
  let s ← get
  if request.term < s.currentTerm then
    return ⟨s.currentTerm, false⟩
  else
    if request.term > s.currentTerm then modify (becomeFollower request.term) else pure ()
    answerRequestVote request

/-! ## Log replication -/

/-- The highest index a peer is known to hold, with a new acknowledgement. -/
def mergedMatch (s : RaftNode) (peerId : NodeId) (newMatch : ℕ) : ℕ :=
  match lookupKey peerId s.matchIndex with
  | none => newMatch
  | some old => max old newMatch

/-- Record an acknowledgement of a peer. -/
def recordMatch (peerId : NodeId) (newMatch : ℕ) (s : RaftNode) : RaftNode :=
  { s with
    matchIndex := upsert peerId (s.mergedMatch peerId newMatch) s.matchIndex
    nextIndex := upsert peerId (s.mergedMatch peerId newMatch + 1) s.nextIndex }

/-- Try a peer again with one more entry. -/
def lowerNextIndex (peerId : NodeId) (prevLogIndex : ℕ) (s : RaftNode) : RaftNode :=
  let next := max 1 ((lookupKey peerId s.nextIndex).getD (prevLogIndex + 1) - 1)
  { s with nextIndex := upsert peerId next s.nextIndex }

def onAppendEntriesResponse (peerId : NodeId) (roundTerm prevLogIndex sentCount : ℕ)
    (response : ResponseAppendEntriesRPC) : Task Unit := do
  let s ← get
  if response.term > s.currentTerm then
    modify (becomeFollower response.term)
  else if s.status ≠ .leader ∨ s.currentTerm ≠ roundTerm then
    pure () -- stale round
  else if response.success then
    modify (recordMatch peerId (prevLogIndex + sentCount))
    advanceCommitIndex
    applyCommitted
    let s ← get
    if (lookupKey peerId s.nextIndex).getD 0 ≤ s.logStore.lastIndex then
      replicateTo peerId -- more entries to stream
    else
      pure ()
  else
    modify (lowerNextIndex peerId prevLogIndex)
    replicateTo peerId

/-- Bring the log in line with the entries that follow `idx`; the index of the last of them. -/
def patchLog : List ProtoLogEntry → ℕ → Task ℕ
  | [], idx => pure idx
  | protoEntry :: protoEntries, idx => do
    let entry ← ofExcept (ProtoMapper.fromProto protoEntry)
    if idx + 1 ≤ (← get).logStore.lastIndex then
      if (← logGet (idx + 1)).term = entry.term then
        patchLog protoEntries (idx + 1) -- already present
      else
        modify fun s => { s with
          logStore := (s.logStore.truncateFrom (idx + 1)).append entry
          history := { s.history with
            truncations := s.history.truncations ++ [(idx + 1, s.commitIndex)] } }
        patchLog protoEntries (idx + 1)
    else
      modify fun s => { s with logStore := s.logStore.append entry }
      patchLog protoEntries (idx + 1)

/-- The log holds the entry that the request builds on. -/
def prevLogMatches (prevLogIndex prevLogTerm : ℕ) : Task Bool := do
  let s ← get
  if prevLogIndex > s.logStore.lastIndex then
    return false
  else if prevLogIndex > 0 then
    return (← logGet prevLogIndex).term = prevLogTerm
  else
    return true

/-- Commit what the leader has committed, up to the last entry it sent. -/
def followCommit (leaderCommit idx : ℕ) (s : RaftNode) : RaftNode :=
  if leaderCommit > s.commitIndex then { s with commitIndex := min leaderCommit idx } else s

/-- Handle a request of the leader of the present term, as its follower. -/
def appendFromLeader (request : RequestAppendEntriesRPC) : Task ResponseAppendEntriesRPC := do
  modify fun s => { s with currentLeaderId := some request.leaderId }
  modify resetElectionTimer
  if ¬ (← prevLogMatches request.prevLogIndex request.prevLogTerm) then
    modify publishSnapshot
    return ⟨(← get).currentTerm, false⟩
  else
    let idx ← patchLog request.entries request.prevLogIndex
    modify (followCommit request.leaderCommit idx)
    applyCommitted
    return ⟨(← get).currentTerm, true⟩

def handleAppendEntriesInternal (request : RequestAppendEntriesRPC) :
    Task ResponseAppendEntriesRPC := do
  let s ← get
  if request.term < s.currentTerm then
    return ⟨s.currentTerm, false⟩
  else
    if request.term > s.currentTerm ∨ s.status ≠ .follower then
      modify (becomeFollower request.term)
    else
      pure ()
    appendFromLeader request

/-! ## Client commands -/

/-- Append the command of a client, who waits for it to be applied. -/
def appendForClient (future : FutureId) (command : Command) (s : RaftNode) : RaftNode :=
  let entry : LogEntry := ⟨s.currentTerm, command⟩
  let index := s.logStore.lastIndex + 1
  { s with
    logStore := s.logStore.append entry
    pendingClients := upsert index future s.pendingClients
    history := { s.history with created := s.history.created ++ [(future, index, entry)] } }

def submitCommand (future : FutureId) (command : Command) : Task Unit := do
  let s ← get
  if s.status ≠ .leader then
    modify fun s => { s with completed := complete future CommandResult.notLeader s.completed }
  else
    modify (appendForClient future command)
    replicateToAllPeers
    advanceCommitIndex
    applyCommitted

/-- Run a task that is repeated until it throws. -/
def periodic (id : TaskId) (task : Task Unit) : Task Unit := fun s =>
  match task s with
  | .ok a s => .ok a s
  | .error e s => .error e { s with heartbeats := s.heartbeats.erase id }

end RaftNode

end CowRaft.Raft
