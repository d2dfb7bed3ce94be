import CowRaft.Raft.Cluster
import CowRaft.Raft.Roles

/-!
# What each event does

One event changes one replica, as its task may change it (`Roles`), sends the RPCs that the task
has left, and updates the RPC it delivers or answers. `Effect` says this once for each event;
`RunWhere` are the runs whose events all meet a condition.
-/

namespace CowRaft.Raft

variable {cfg : Config} {c c' : Cluster} {i : NodeId} {s : RaftNode}

namespace Cluster

/-- What a task has left behind, with what it threw, if it threw. -/
def settle (fault : Option Fault) (s : RaftNode) : RaftNode :=
  { s with history := { s.history with faults := s.history.faults ++ fault.toList } }

/-- What is true of the replica that has changed, and of all others, is true of every one. -/
theorem put_nodes {P : NodeId → RaftNode → Prop}
    (hs : P i { s with voteRequests := [], appendRequests := [] })
    (h : ∀ j, j ≠ i → P j (c.nodes j)) (j : NodeId) : P j ((c.put i s).nodes j) := by
  dsimp only [put]
  by_cases hj : j = i
  · rw [hj, Function.update_self]
    exact hs
  · rw [Function.update_of_ne hj]
    exact h j hj

/-- **One task** ends and answers, or throws. -/
theorem exec_elim {α : Type} {task : Task α} {Q : α → RaftNode → Prop}
    {E : Fault → RaftNode → Prop} (hw : Wp task Q E (c.nodes i)) :
    (∃ a s, Q a s ∧ c.exec i task = (c.put i s, some a)) ∨
      ∃ e s, E e s ∧ c.exec i task = (c.put i (recordFault e s), none) := by
  unfold exec
  rcases hw.elim with ⟨a, s, hrun, hs⟩ | ⟨e, s, hrun, hs⟩
  · rw [hrun]
    exact Or.inl ⟨a, s, hs, rfl⟩
  · rw [hrun]
    exact Or.inr ⟨e, s, hs, rfl⟩

theorem exec_cases {α : Type} {task : Task α} {R : Bool → RaftNode → RaftNode → Prop}
    (hw : Wp task (fun _ => R true (c.nodes i)) (fun _ => R false (c.nodes i)) (c.nodes i)) :
    ∃ fault s, R (Option.isNone fault) (c.nodes i) s ∧
      (c.exec i task).1 = c.put i (settle fault s) := by
  rcases exec_elim hw with ⟨a, s, hR, hexec⟩ | ⟨e, s, hR, hexec⟩
  · rw [hexec]
    refine ⟨none, s, hR, ?_⟩
    unfold settle
    rw [Option.toList_none, List.append_nil]
  · rw [hexec]
    exact ⟨some e, s, hR, rfl⟩

/-- A task that throws nothing. -/
theorem exec_ok {α : Type} {task : Task α} {R : RaftNode → Prop}
    (hw : Wp task (fun _ => R) (fun _ _ => False) (c.nodes i)) :
    ∃ s, R s ∧ (c.exec i task).1 = c.put i s := by
  rcases exec_elim hw with ⟨a, s, hR, hexec⟩ | ⟨e, s, hf, -⟩
  · rw [hexec]
    exact ⟨s, hR, rfl⟩
  · exact hf.elim

/-- A task that answers. -/
theorem exec_answer {α : Type} {task : Task α} {R : α → RaftNode → Prop}
    (hw : Wp task R (fun _ _ => True) (c.nodes i)) {a : α} (ha : (c.exec i task).2 = some a) :
    ∃ s, R a s ∧ (c.exec i task).1 = c.put i s := by
  rcases exec_elim hw with ⟨a', s, hR, hexec⟩ | ⟨e, s, -, hexec⟩
  · rw [hexec] at ha ⊢
    obtain rfl := Option.some.inj ha
    exact ⟨s, hR, rfl⟩
  · rw [hexec] at ha
    cases ha

/-- What is true of every replica stays so, if the task sees to it where it runs. -/
theorem exec_nodes {α : Type} {task : Task α} {P : NodeId → RaftNode → Prop}
    {Q : α → RaftNode → Prop} {E : Fault → RaftNode → Prop} (h : ∀ j, P j (c.nodes j))
    (hw : Wp task Q E (c.nodes i))
    (hok : ∀ a s, Q a s → P i { s with voteRequests := [], appendRequests := [] })
    (herr : ∀ e s, E e s →
      P i { recordFault e s with voteRequests := [], appendRequests := [] }) (j : NodeId) :
    P j ((c.exec i task).1.nodes j) := by
  rcases exec_elim hw with ⟨a, s, hs, hexec⟩ | ⟨e, s, hs, hexec⟩
  · rw [hexec]
    exact put_nodes (hok a s hs) (fun j _ => h j) j
  · rw [hexec]
    exact put_nodes (herr e s hs) (fun j _ => h j) j

/-- No response to the RPCs that a task sends has come yet. -/
theorem mem_exec_appendCalls {α : Type} {task : Task α} {call : AppendCall}
    (h : call ∈ (c.exec i task).1.appendCalls) : call ∈ c.appendCalls ∨ call.response = none := by
  have hput : ∀ s, call ∈ (c.put i s).appendCalls →
      call ∈ c.appendCalls ∨ call.response = none := by
    intro s hs
    rcases List.mem_append.1 hs with hs | hs
    · exact Or.inl hs
    · obtain ⟨r, -, rfl⟩ := List.mem_map.1 hs
      exact Or.inr rfl
  obtain ⟨fault, s, -, hexec⟩ := exec_cases (R := fun _ _ _ => True)
    (Wp.of_post fun _ _ => trivial : Wp task _ _ (c.nodes i))
  rw [hexec] at h
  exact hput _ h

/-! ## Events -/

/-- A repeated task goes on unless it throws. -/
def repeated (id : TaskId) : Bool → RaftNode → RaftNode
  | true, s => s
  | false, s => { s with heartbeats := s.heartbeats.erase id }

/-- The periodic tick sends requests, and goes on unless it throws. -/
def Ticked (id : TaskId) (ok : Bool) (s s' : RaftNode) : Prop :=
  ∃ s₁, RaftNode.Calm ok s s₁ ∧ s' = repeated id ok s₁

theorem periodic_role (id : TaskId) (s : RaftNode) :
    Wp (RaftNode.periodic id RaftNode.replicateToAllPeers) (fun _ => Ticked id true s)
      (fun _ => Ticked id false s) s := by
  rcases (RaftNode.replicateToAllPeers_calm s).elim with ⟨a, s₁, hrun, hs⟩ | ⟨e, s₁, hrun, hs⟩
  · have hok : RaftNode.periodic id RaftNode.replicateToAllPeers s = .ok a s₁ := by
      unfold RaftNode.periodic
      rw [hrun]
    exact (Wp.of_ok hok).2 ⟨s₁, hs, rfl⟩
  · have herr : RaftNode.periodic id RaftNode.replicateToAllPeers s =
        .error e { s₁ with heartbeats := s₁.heartbeats.erase id } := by
      unfold RaftNode.periodic
      rw [hrun]
    exact (Wp.of_error herr).2 ⟨s₁, hs, rfl⟩

/-- The state of a replica whose election timeout is running. -/
def timedOut (id : TaskId) (s : RaftNode) : RaftNode :=
  { s with electionTimeouts := s.electionTimeouts.erase id }

/-- The state of a replica that no longer waits for an RPC to a peer. -/
def landed (peer : NodeId) (s : RaftNode) : RaftNode :=
  { s with inFlight := s.inFlight.erase peer }

/-- What an event does to the cluster. -/
inductive Effect (cfg : Config) (c : Cluster) : Event → Cluster → Prop
  | start (i : NodeId) (hi : i ∈ cfg.members) (hs : i ∉ c.started) :
    Effect cfg c (.start i)
      { c.put i (c.nodes i).resetElectionTimer with started := insert i c.started }
  | electionTimeout (i : NodeId) (id : TaskId) (hi : i ∈ cfg.members)
      (hid : id ∈ (c.nodes i).electionTimeouts) (s : RaftNode)
      (hs : RaftNode.Campaigned (timedOut id (c.nodes i)) s) :
    Effect cfg c (.electionTimeout i id) (c.put i s)
  | heartbeat (i : NodeId) (id : TaskId) (hi : i ∈ cfg.members)
      (hid : id ∈ (c.nodes i).heartbeats) (fault : Option Fault) (s : RaftNode)
      (hs : Ticked id fault.isNone (c.nodes i) s) :
    Effect cfg c (.heartbeat i id) (c.put i (settle fault s))
  | submit (i : NodeId) (command : Command) (hi : i ∈ cfg.members) (fault : Option Fault)
      (s : RaftNode)
      (hs : RaftNode.Submitted c.submissions.length command fault.isNone (c.nodes i) s) :
    Effect cfg c (.submit i command)
      { c.put i (settle fault s) with submissions := c.submissions ++ [(i, command)] }
  | deliverVote (k : ℕ) (call : VoteCall) (hk : c.voteCalls[k]? = some call)
      (hd : call.delivered = false) (response : Option ResponseVoteRPC)
      (s : RaftNode) (hs : RaftNode.Polled call.request (c.nodes call.peer) s) :
    Effect cfg c (.deliverVote k) { c.put call.peer s with
      voteCalls := (c.put call.peer s).voteCalls.set k
        { call with delivered := true, response := response } }
  | answerVote (k : ℕ) (call : VoteCall) (hk : c.voteCalls[k]? = some call)
      (response : ResponseVoteRPC) (hr : call.response = some response)
      (ha : call.answered = false) (s : RaftNode)
      (hs : RaftNode.Counted call.request.term response (c.nodes call.caller) s) :
    Effect cfg c (.answerVote k) { c.put call.caller s with
      voteCalls := (c.put call.caller s).voteCalls.set k { call with answered := true } }
  | deliverAppend (k : ℕ) (call : AppendCall) (hk : c.appendCalls[k]? = some call)
      (hd : call.delivered = false) (response : Option ResponseAppendEntriesRPC)
      (fault : Option Fault) (s : RaftNode)
      (hs : RaftNode.Heard call.request fault.isNone (c.nodes call.peer) s) :
    Effect cfg c (.deliverAppend k) { c.put call.peer (settle fault s) with
      appendCalls := (c.put call.peer (settle fault s)).appendCalls.set k
        { call with delivered := true, response := response } }
  | answerAppend (k : ℕ) (call : AppendCall) (hk : c.appendCalls[k]? = some call)
      (response : ResponseAppendEntriesRPC) (hr : call.response = some response)
      (ha : call.settled = false) (fault : Option Fault) (s : RaftNode)
      (hs : RaftNode.Acknowledged response fault.isNone
        (landed call.peer (c.nodes call.caller)) s) :
    Effect cfg c (.answerAppend k) { c.put call.caller (settle fault s) with
      appendCalls := (c.put call.caller (settle fault s)).appendCalls.set k
        { call with settled := true } }
  | failAppend (k : ℕ) (call : AppendCall) (hk : c.appendCalls[k]? = some call)
      (ha : call.settled = false) :
    Effect cfg c (.failAppend k)
      { c.put call.caller (landed call.peer (c.nodes call.caller)) with
        appendCalls := (c.put call.caller (landed call.peer (c.nodes call.caller))).appendCalls.set
          k { call with settled := true } }

/-- **What an event does.** -/
theorem effect_of_step {e : Event} (h : step cfg c e = some c') : Effect cfg c e c' := by
  cases happens_of_step h with
  | start i hi hs => exact .start i hi hs
  | electionTimeout i id hi hid =>
    have hw : Wp (do
        modify fun s => { s with electionTimeouts := s.electionTimeouts.erase id }
        RaftNode.onElectionTimeout : Task Unit)
        (fun _ => RaftNode.Campaigned (timedOut id (c.nodes i))) (fun _ _ => False)
        (c.nodes i) := by
      rw [Wp.bind_iff, Wp.modify_iff]
      exact RaftNode.startElectionRound_role (timedOut id (c.nodes i))
    obtain ⟨s, hs, hput⟩ := exec_ok hw
    rw [hput]
    exact .electionTimeout i id hi hid s hs
  | heartbeat i id hi hid =>
    obtain ⟨fault, s, hs, hput⟩ := exec_cases (periodic_role id (c.nodes i))
    rw [hput]
    exact .heartbeat i id hi hid fault s hs
  | submit i command hi =>
    obtain ⟨fault, s, hs, hput⟩ := exec_cases
      (RaftNode.submitCommand_role c.submissions.length command (c.nodes i))
    rw [hput]
    exact .submit i command hi fault s hs
  | deliverVote k call hk hd hc =>
    obtain ⟨s, hs, hput⟩ := exec_ok
      (RaftNode.handleRequestVote_role call.request (c.nodes call.peer))
    rw [hc] at hput
    dsimp only at hput
    rw [hput]
    exact .deliverVote k call hk hd _ s hs
  | answerVote k call hk hr ha hc =>
    obtain ⟨s, hs, hput⟩ := exec_ok
      (RaftNode.onVoteResponse_role call.request.term _ (c.nodes call.caller))
    rw [hc, hput]
    exact .answerVote k call hk _ hr ha s hs
  | deliverAppend k call hk hd hc =>
    obtain ⟨fault, s, hs, hput⟩ := exec_cases
      (RaftNode.handleAppendEntries_role call.request (c.nodes call.peer))
    rw [hc] at hput
    dsimp only at hput
    rw [hput]
    exact .deliverAppend k call hk hd _ fault s hs
  | @answerAppend k call hk response hr ha _ hc =>
    have hw : Wp (do
        modify fun s => { s with inFlight := s.inFlight.erase call.peer }
        RaftNode.onAppendEntriesResponse call.peer call.request.term call.request.prevLogIndex
          call.request.entries.length response : Task Unit)
        (fun _ => RaftNode.Acknowledged response true (landed call.peer (c.nodes call.caller)))
        (fun _ => RaftNode.Acknowledged response false (landed call.peer (c.nodes call.caller)))
        (c.nodes call.caller) := by
      rw [Wp.bind_iff, Wp.modify_iff]
      exact RaftNode.onAppendEntriesResponse_role _ _ _ _ _ _
    obtain ⟨fault, s, hs, hput⟩ :=
      exec_cases (R := fun ok s => RaftNode.Acknowledged response ok (landed call.peer s)) hw
    rw [hc, hput]
    exact .answerAppend k call hk _ hr ha fault s hs
  | failAppend k call hk ha hc =>
    rw [hc]
    exact .failAppend k call hk ha

/-! ## Runs under a condition -/

/-- A run whose events all meet a condition on the state before them. -/
def RunWhere (cfg : Config) (P : Cluster → Event → Prop) : Cluster → Cluster → Prop :=
  Relation.ReflTransGen fun c c' => ∃ e, P c e ∧ step cfg c e = some c'

theorem RunWhere.run {P : Cluster → Event → Prop} (h : RunWhere cfg P c c') : Run cfg c c' := by
  induction h with
  | refl => exact Relation.ReflTransGen.refl
  | tail _ hs ih =>
    obtain ⟨e, -, he⟩ := hs
    exact ih.tail ⟨e, he⟩

/-- Every run meets the condition that asks for nothing. -/
theorem Run.runWhere (h : Run cfg c c') : RunWhere cfg (fun _ _ => True) c c' := by
  induction h with
  | refl => exact Relation.ReflTransGen.refl
  | tail _ hs ih =>
    obtain ⟨e, he⟩ := hs
    exact ih.tail ⟨e, trivial, he⟩

/-- The cluster after a list of events, if they can happen and all meet the condition. -/
def playWhere (cfg : Config) (P : Cluster → Event → Prop) [∀ c e, Decidable (P c e)] :
    List Event → Cluster → Option Cluster
  | [], c => some c
  | e :: es, c => if P c e then step cfg c e >>= playWhere cfg P es else none

theorem play_of_playWhere {P : Cluster → Event → Prop} [∀ c e, Decidable (P c e)]
    {es : List Event} (h : playWhere cfg P es c = some c') :
    playWhere cfg (fun _ _ => True) es c = some c' := by
  induction es generalizing c with
  | nil => exact h
  | cons e es ih =>
    rw [playWhere] at h
    split_ifs at h
    obtain ⟨c₁, hc₁, hrest⟩ := Option.bind_eq_some_iff.1 h
    rw [playWhere, if_pos trivial, hc₁]
    exact ih hrest

theorem runWhere_of_play {P : Cluster → Event → Prop} [∀ c e, Decidable (P c e)]
    {es : List Event} (h : playWhere cfg P es c = some c') : RunWhere cfg P c c' := by
  induction es generalizing c with
  | nil =>
    obtain rfl := Option.some.inj h
    exact Relation.ReflTransGen.refl
  | cons e es ih =>
    rw [playWhere] at h
    split_ifs at h with hP
    obtain ⟨c₁, hc₁, hrest⟩ := Option.bind_eq_some_iff.1 h
    exact (ih hrest).head ⟨e, hP, hc₁⟩

end Cluster

end CowRaft.Raft
