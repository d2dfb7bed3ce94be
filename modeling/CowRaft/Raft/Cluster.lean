import CowRaft.Raft.RaftNode

/-!
# The cluster

Replicas that never restart, and the RPCs between them. An RPC may be delivered at any time after
it was sent, at most once, and its answer may be handled at any time after that, at most once;
what is never delivered or never answered is lost. An append RPC may also fail for its caller, who
then handles no answer, whether or not the request is still delivered. Events happen in any order;
each runs one task of one replica's event loop to its end, or to the exception it throws.
-/

namespace CowRaft.Raft

/-- The members of a cluster, each configured with all the others as its peers. -/
structure Config where
  members : Finset NodeId
  peers : NodeId → List NodeId
  peers_nodup : ∀ i, (peers i).Nodup
  mem_peers : ∀ i ∈ members, ∀ j, j ∈ peers i ↔ j ∈ members ∧ j ≠ i

/-- The cluster of some members, who list their peers in one order. -/
def Config.ofList (ids : List NodeId) (h : ids.Nodup) : Config where
  members := ⟨ids, h⟩
  peers i := ids.filter (· ≠ i)
  peers_nodup i := h.filter _
  mem_peers i _ j := by
    rw [List.mem_filter, decide_eq_true_iff]
    rfl

/-- A `requestVote` RPC of one candidacy. -/
structure VoteCall where
  caller : NodeId
  peer : NodeId
  request : RequestVoteRPC
  delivered : Bool
  response : Option ResponseVoteRPC
  /-- The caller has handled the response. -/
  answered : Bool

/-- An `appendEntries` RPC. -/
structure AppendCall where
  caller : NodeId
  peer : NodeId
  request : RequestAppendEntriesRPC
  /-- The log of the caller when it built the request. -/
  senderLog : LogStore
  delivered : Bool
  response : Option ResponseAppendEntriesRPC
  /-- The caller has handled the response, or the failure. -/
  settled : Bool

/-- The state of the cluster. -/
structure Cluster where
  nodes : NodeId → RaftNode
  /-- The replicas whose `start` has been called. -/
  started : Finset NodeId
  voteCalls : List VoteCall
  appendCalls : List AppendCall
  /-- The commands submitted so far, with the replicas they went to; the futures are their
  positions. -/
  submissions : List (NodeId × Command)

/-- What may happen next. -/
inductive Event
  | start (i : NodeId)
  | electionTimeout (i : NodeId) (id : TaskId)
  | heartbeat (i : NodeId) (id : TaskId)
  | submit (i : NodeId) (command : Command)
  | deliverVote (k : ℕ)
  | answerVote (k : ℕ)
  | deliverAppend (k : ℕ)
  | answerAppend (k : ℕ)
  | failAppend (k : ℕ)
  deriving DecidableEq

namespace Cluster

/-- The cluster before its first event. -/
def init (cfg : Config) : Cluster where
  nodes i := RaftNode.create i (cfg.peers i)
  started := ∅
  voteCalls := []
  appendCalls := []
  submissions := []

/-- The RPCs that a task has left to be sent. -/
def newVoteCalls (s : RaftNode) : List VoteCall :=
  s.voteRequests.map fun sent => ⟨s.nodeId, sent.1, sent.2, false, none, false⟩

def newAppendCalls (s : RaftNode) : List AppendCall :=
  s.appendRequests.map fun sent => ⟨s.nodeId, sent.1, sent.2.1, sent.2.2, false, none, false⟩

/-- Replace the state of replica `i`, and send its RPCs. -/
def put (c : Cluster) (i : NodeId) (s : RaftNode) : Cluster :=
  { c with
    nodes := Function.update c.nodes i { s with voteRequests := [], appendRequests := [] }
    voteCalls := c.voteCalls ++ newVoteCalls s
    appendCalls := c.appendCalls ++ newAppendCalls s }

/-- What a task left behind when it threw. -/
def recordFault (e : Fault) (s : RaftNode) : RaftNode :=
  { s with history := { s.history with faults := s.history.faults ++ [e] } }

/-- Run a task of replica `i`; it answers unless it throws. -/
def exec {α : Type} (c : Cluster) (i : NodeId) (task : Task α) : Cluster × Option α :=
  match task (c.nodes i) with
  | .ok a s => (c.put i s, some a)
  | .error e s => (c.put i (recordFault e s), none)

/-- One event, if it can happen. -/
def step (cfg : Config) (c : Cluster) : Event → Option Cluster
  | .start i =>
    if i ∈ cfg.members ∧ i ∉ c.started then
      some { (c.exec i (modify RaftNode.resetElectionTimer)).1 with started := insert i c.started }
    else none
  | .electionTimeout i id =>
    if i ∈ cfg.members ∧ id ∈ (c.nodes i).electionTimeouts then
      some (c.exec i do
        modify fun s => { s with electionTimeouts := s.electionTimeouts.erase id }
        RaftNode.onElectionTimeout).1
    else none
  | .heartbeat i id =>
    if i ∈ cfg.members ∧ id ∈ (c.nodes i).heartbeats then
      some (c.exec i (RaftNode.periodic id RaftNode.replicateToAllPeers)).1
    else none
  | .submit i command =>
    if i ∈ cfg.members then
      some { (c.exec i (RaftNode.submitCommand c.submissions.length command)).1 with
        submissions := c.submissions ++ [(i, command)] }
    else none
  | .deliverVote k => do
    let call ← c.voteCalls[k]?
    if call.delivered then none
    else
      let (c, response) := c.exec call.peer (RaftNode.handleRequestVoteInternal call.request)
      some { c with
        voteCalls := c.voteCalls.set k { call with delivered := true, response := response } }
  | .answerVote k => do
    let call ← c.voteCalls[k]?
    let response ← call.response
    if call.answered then none
    else
      let c := (c.exec call.caller (RaftNode.onVoteResponse call.request.term response)).1
      some { c with voteCalls := c.voteCalls.set k { call with answered := true } }
  | .deliverAppend k => do
    let call ← c.appendCalls[k]?
    if call.delivered then none
    else
      let (c, response) := c.exec call.peer (RaftNode.handleAppendEntriesInternal call.request)
      some { c with
        appendCalls := c.appendCalls.set k { call with delivered := true, response := response } }
  | .answerAppend k => do
    let call ← c.appendCalls[k]?
    let response ← call.response
    if call.settled then none
    else
      let c := (c.exec call.caller do
        modify fun s => { s with inFlight := s.inFlight.erase call.peer }
        RaftNode.onAppendEntriesResponse call.peer call.request.term call.request.prevLogIndex
          call.request.entries.length response).1
      some { c with appendCalls := c.appendCalls.set k { call with settled := true } }
  | .failAppend k => do
    let call ← c.appendCalls[k]?
    if call.settled then none
    else
      let c := (c.exec call.caller
        (modify fun s => { s with inFlight := s.inFlight.erase call.peer })).1
      some { c with appendCalls := c.appendCalls.set k { call with settled := true } }

/-- The events that can happen, each with what it leads to. -/
inductive Happens (cfg : Config) (c : Cluster) : Event → Cluster → Prop
  | start (i : NodeId) (hi : i ∈ cfg.members) (hs : i ∉ c.started) :
    Happens cfg c (.start i)
      { (c.exec i (modify RaftNode.resetElectionTimer)).1 with started := insert i c.started }
  | electionTimeout (i : NodeId) (id : TaskId) (hi : i ∈ cfg.members)
      (hid : id ∈ (c.nodes i).electionTimeouts) :
    Happens cfg c (.electionTimeout i id) (c.exec i do
      modify fun s => { s with electionTimeouts := s.electionTimeouts.erase id }
      RaftNode.onElectionTimeout).1
  | heartbeat (i : NodeId) (id : TaskId) (hi : i ∈ cfg.members)
      (hid : id ∈ (c.nodes i).heartbeats) :
    Happens cfg c (.heartbeat i id)
      (c.exec i (RaftNode.periodic id RaftNode.replicateToAllPeers)).1
  | submit (i : NodeId) (command : Command) (hi : i ∈ cfg.members) :
    Happens cfg c (.submit i command)
      { (c.exec i (RaftNode.submitCommand c.submissions.length command)).1 with
        submissions := c.submissions ++ [(i, command)] }
  | deliverVote (k : ℕ) (call : VoteCall) (hk : c.voteCalls[k]? = some call)
      (hd : call.delivered = false) {c' : Cluster} {response : Option ResponseVoteRPC}
      (hc : c.exec call.peer (RaftNode.handleRequestVoteInternal call.request) = (c', response)) :
    Happens cfg c (.deliverVote k) { c' with
      voteCalls := c'.voteCalls.set k { call with delivered := true, response := response } }
  | answerVote (k : ℕ) (call : VoteCall) (hk : c.voteCalls[k]? = some call)
      {response : ResponseVoteRPC} (hr : call.response = some response)
      (ha : call.answered = false) {c' : Cluster}
      (hc : c' = (c.exec call.caller
        (RaftNode.onVoteResponse call.request.term response)).1) :
    Happens cfg c (.answerVote k)
      { c' with voteCalls := c'.voteCalls.set k { call with answered := true } }
  | deliverAppend (k : ℕ) (call : AppendCall) (hk : c.appendCalls[k]? = some call)
      (hd : call.delivered = false) {c' : Cluster} {response : Option ResponseAppendEntriesRPC}
      (hc : c.exec call.peer (RaftNode.handleAppendEntriesInternal call.request) =
        (c', response)) :
    Happens cfg c (.deliverAppend k) { c' with
      appendCalls := c'.appendCalls.set k { call with delivered := true, response := response } }
  | answerAppend (k : ℕ) (call : AppendCall) (hk : c.appendCalls[k]? = some call)
      {response : ResponseAppendEntriesRPC} (hr : call.response = some response)
      (ha : call.settled = false) {c' : Cluster}
      (hc : c' = (c.exec call.caller do
        modify fun s => { s with inFlight := s.inFlight.erase call.peer }
        RaftNode.onAppendEntriesResponse call.peer call.request.term call.request.prevLogIndex
          call.request.entries.length response).1) :
    Happens cfg c (.answerAppend k)
      { c' with appendCalls := c'.appendCalls.set k { call with settled := true } }
  | failAppend (k : ℕ) (call : AppendCall) (hk : c.appendCalls[k]? = some call)
      (ha : call.settled = false) {c' : Cluster}
      (hc : c' = (c.exec call.caller
        (modify fun s => { s with inFlight := s.inFlight.erase call.peer })).1) :
    Happens cfg c (.failAppend k)
      { c' with appendCalls := c'.appendCalls.set k { call with settled := true } }

theorem happens_of_step {cfg : Config} {c c' : Cluster} {e : Event}
    (h : step cfg c e = some c') : Happens cfg c e c' := by
  cases e with
  | start i =>
    rw [step] at h
    split_ifs at h with hc
    obtain rfl := Option.some.inj h
    exact .start i hc.1 hc.2
  | electionTimeout i id =>
    rw [step] at h
    split_ifs at h with hc
    obtain rfl := Option.some.inj h
    exact .electionTimeout i id hc.1 hc.2
  | heartbeat i id =>
    rw [step] at h
    split_ifs at h with hc
    obtain rfl := Option.some.inj h
    exact .heartbeat i id hc.1 hc.2
  | submit i command =>
    rw [step] at h
    split_ifs at h with hc
    obtain rfl := Option.some.inj h
    exact .submit i command hc
  | deliverVote k =>
    rw [step] at h
    obtain ⟨call, hk, h⟩ := Option.bind_eq_some_iff.1 h
    split_ifs at h with hd
    obtain rfl := Option.some.inj h
    exact .deliverVote k call hk (Bool.eq_false_iff.2 hd) rfl
  | answerVote k =>
    rw [step] at h
    obtain ⟨call, hk, h⟩ := Option.bind_eq_some_iff.1 h
    obtain ⟨response, hr, h⟩ := Option.bind_eq_some_iff.1 h
    split_ifs at h with ha
    obtain rfl := Option.some.inj h
    exact .answerVote k call hk hr (Bool.eq_false_iff.2 ha) rfl
  | deliverAppend k =>
    rw [step] at h
    obtain ⟨call, hk, h⟩ := Option.bind_eq_some_iff.1 h
    split_ifs at h with hd
    obtain rfl := Option.some.inj h
    exact .deliverAppend k call hk (Bool.eq_false_iff.2 hd) rfl
  | answerAppend k =>
    rw [step] at h
    obtain ⟨call, hk, h⟩ := Option.bind_eq_some_iff.1 h
    obtain ⟨response, hr, h⟩ := Option.bind_eq_some_iff.1 h
    split_ifs at h with ha
    obtain rfl := Option.some.inj h
    exact .answerAppend k call hk hr (Bool.eq_false_iff.2 ha) rfl
  | failAppend k =>
    rw [step] at h
    obtain ⟨call, hk, h⟩ := Option.bind_eq_some_iff.1 h
    split_ifs at h with ha
    obtain rfl := Option.some.inj h
    exact .failAppend k call hk (Bool.eq_false_iff.2 ha) rfl

/-- A run of the cluster. -/
def Run (cfg : Config) : Cluster → Cluster → Prop :=
  Relation.ReflTransGen fun c c' => ∃ e, step cfg c e = some c'

/-- The states that the cluster can get to. -/
def Reachable (cfg : Config) (c : Cluster) : Prop := Run cfg (init cfg) c

end Cluster

end CowRaft.Raft
