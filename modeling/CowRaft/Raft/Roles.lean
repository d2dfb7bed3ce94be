import CowRaft.Raft.Effects

/-!
# Roles

What each task may do to the role a replica plays (its term, its vote, its status and its timers)
and to what it keeps for others (requests, waiting clients, entries). Most methods are `Calm`, they
leave the role alone; what a task does besides is said once for each task (`Polled`, `Heard`,
`Acknowledged`, `Counted`, `Campaigned`, `Submitted`), and the invariants of roles follow from that.
-/

namespace CowRaft.Raft

/-- The part of the state that says which role a replica plays, and what it asked and did for it. -/
structure Roles where
  nodeId : NodeId
  peers : List NodeId
  currentTerm : ℕ
  votedFor : Option NodeId
  status : ServerStatus
  votesReceived : ℕ
  electionTimeoutFuture : Option TaskId
  heartbeatFuture : Option TaskId
  electionTimeouts : Finset TaskId
  heartbeats : Finset TaskId
  nextTask : TaskId
  voteRequests : List (NodeId × RequestVoteRPC)
  created : List (FutureId × ℕ × LogEntry)
  currentLeaderId : Option NodeId
  led : List (ℕ × LogStore)

namespace RaftNode

variable {ok : Bool} {s s' s'' : RaftNode}

def roles (s : RaftNode) : Roles where
  nodeId := s.nodeId
  peers := s.peers
  currentTerm := s.currentTerm
  votedFor := s.votedFor
  status := s.status
  votesReceived := s.votesReceived
  electionTimeoutFuture := s.electionTimeoutFuture
  heartbeatFuture := s.heartbeatFuture
  electionTimeouts := s.electionTimeouts
  heartbeats := s.heartbeats
  nextTask := s.nextTask
  voteRequests := s.voteRequests
  created := s.history.created
  currentLeaderId := s.currentLeaderId
  led := s.history.led

/-! ## What is kept for others -/

/-- No entry with a null key is new, nobody else waits, and every peer that is newly in flight
was sent a request, unless a task threw. -/
structure Tidy (ok : Bool) (s s' : RaftNode) : Prop where
  fresh : ∀ entry ∈ s'.logStore, entry ∈ s.logStore ∨ entry.command.key ≠ none
  waiting : ∀ p ∈ s'.pendingClients, p ∈ s.pendingClients
  requests : s.appendRequests ⊆ s'.appendRequests
  flights : ok = true → ∀ p ∈ s'.inFlight, p ∈ s.inFlight ∨ ∃ r ∈ s'.appendRequests, r.1 = p
  faults : s'.history.faults = s.history.faults

theorem Tidy.of_eq (hl : s'.logStore = s.logStore) (hp : s'.pendingClients = s.pendingClients)
    (hr : s'.appendRequests = s.appendRequests) (hf : s'.inFlight = s.inFlight)
    (he : s'.history.faults = s.history.faults) : Tidy ok s s' where
  fresh _ h := Or.inl (hl ▸ h)
  waiting _ h := hp ▸ h
  requests _ h := hr ▸ h
  flights _ _ h := Or.inl (hf ▸ h)
  faults := he

theorem Tidy.trans (h : Tidy true s s') (h' : Tidy ok s' s'') : Tidy ok s s'' where
  fresh entry he := by
    rcases h'.fresh entry he with he | he
    · exact h.fresh entry he
    · exact Or.inr he
  waiting p hp := h.waiting p (h'.waiting p hp)
  requests r hr := h'.requests (h.requests hr)
  flights hok p hp := by
    rcases h'.flights hok p hp with hp | hr
    · rcases h.flights rfl p hp with hp | ⟨r, hr, hrp⟩
      · exact Or.inl hp
      · exact Or.inr ⟨r, h'.requests hr, hrp⟩
    · exact Or.inr hr
  faults := h'.faults.trans h.faults

/-- A leader has sent requests of its term, at most one to each peer, and none to a peer to which
one was in flight. -/
structure Dispatched (s s' : RaftNode) : Prop where
  flying : s.inFlight ⊆ s'.inFlight
  sent : ∃ sent, s'.appendRequests = s.appendRequests ++ sent ∧ (sent.map Prod.fst).Nodup ∧
    ∀ r ∈ sent, s.status = .leader ∧ r.1 ∉ s.inFlight ∧ r.1 ∈ s'.inFlight ∧
      r.2.1.term = s.currentTerm ∧ r.2.1.leaderId = s.nodeId

theorem Dispatched.of_eq (ha : s'.appendRequests = s.appendRequests)
    (hf : s'.inFlight = s.inFlight) : Dispatched s s' :=
  ⟨hf.ge, [], by rw [ha, List.append_nil], List.nodup_nil, by simp⟩

theorem Dispatched.trans (hr : s'.roles = s.roles) (h : Dispatched s s')
    (h' : Dispatched s' s'') : Dispatched s s'' := by
  obtain ⟨hfly, sent, heq, hnd, hsent⟩ := h
  obtain ⟨hfly', sent', heq', hnd', hsent'⟩ := h'
  refine ⟨hfly.trans hfly', sent ++ sent', ?_, ?_, ?_⟩
  · rw [heq', heq, List.append_assoc]
  · rw [List.map_append, List.nodup_append']
    refine ⟨hnd, hnd', fun p hp hp' => ?_⟩
    obtain ⟨r, hr, rfl⟩ := List.mem_map.1 hp
    obtain ⟨r', hr', heq⟩ := List.mem_map.1 hp'
    exact (hsent' r' hr').2.1 (heq ▸ (hsent r hr).2.2.1)
  · intro r hr'
    rcases List.mem_append.1 hr' with hr' | hr'
    · obtain ⟨hl, hin, hout, ht, hid⟩ := hsent r hr'
      exact ⟨hl, hin, hfly' hout, ht, hid⟩
    · obtain ⟨hl, hin, hout, ht, hid⟩ := hsent' r hr'
      exact ⟨(congrArg Roles.status hr).symm.trans hl, fun h => hin (hfly h), hout,
        ht.trans (congrArg Roles.currentTerm hr), hid.trans (congrArg Roles.nodeId hr)⟩

/-- What was published tells the present term and leader. -/
def Announced (s s' : RaftNode) : Prop :=
  ∃ states, s'.history.published = s.history.published ++ states ∧
    ∀ state ∈ states, state.currentTerm = s.currentTerm ∧ state.leaderId = s.currentLeaderId

theorem Announced.of_eq (h : s'.history.published = s.history.published) : Announced s s' :=
  ⟨[], by rw [h, List.append_nil], by simp⟩

theorem Announced.trans (hr : s'.roles = s.roles) (h : Announced s s') (h' : Announced s' s'') :
    Announced s s'' := by
  obtain ⟨states, heq, hstates⟩ := h
  obtain ⟨states', heq', hstates'⟩ := h'
  refine ⟨states ++ states', by rw [heq', heq, List.append_assoc], fun state hs => ?_⟩
  rcases List.mem_append.1 hs with hs | hs
  · exact hstates state hs
  · obtain ⟨ht, hl⟩ := hstates' state hs
    exact ⟨ht.trans (congrArg Roles.currentTerm hr), hl.trans (congrArg Roles.currentLeaderId hr)⟩

/-! ## Methods that leave the role alone -/

/-- The role has not changed, and nobody was told that this is not the leader. -/
structure Calm (ok : Bool) (s s' : RaftNode) : Prop extends Tidy ok s s' where
  roles : s'.roles = s.roles
  refused : ∀ f, (f, CommandResult.notLeader) ∈ s'.completed →
    (f, CommandResult.notLeader) ∈ s.completed
  dispatched : Dispatched s s'
  announced : Announced s s'

theorem Calm.of_eq (hr : s'.roles = s.roles) (hc : s'.completed = s.completed)
    (h : Tidy ok s s') (hd : Dispatched s s') (ha : Announced s s') : Calm ok s s' :=
  { h with
    roles := hr
    refused := fun _ hf => hc ▸ hf
    dispatched := hd
    announced := ha }

/-- Nothing but what nobody looks at has changed. -/
theorem Calm.of_same (hr : s'.roles = s.roles) (hc : s'.completed = s.completed)
    (hl : s'.logStore = s.logStore) (hp : s'.pendingClients = s.pendingClients)
    (ha : s'.appendRequests = s.appendRequests) (hf : s'.inFlight = s.inFlight)
    (he : s'.history.faults = s.history.faults)
    (hs : s'.history.published = s.history.published) : Calm ok s s' :=
  Calm.of_eq hr hc (Tidy.of_eq hl hp ha hf he) (Dispatched.of_eq ha hf) (Announced.of_eq hs)

instance : Composes Calm where
  refl _ _ := Calm.of_same rfl rfl rfl rfl rfl rfl rfl rfl
  trans h h' :=
    { h.toTidy.trans h'.toTidy with
      roles := h'.roles.trans h.roles
      refused := fun f hf => h.refused f (h'.refused f hf)
      dispatched := h.dispatched.trans h.roles h'.dispatched
      announced := h.announced.trans h.roles h'.announced }

section Methods

variable {R : Bool → RaftNode → RaftNode → Prop} [Composes R]

theorem logGet_keeps (index : ℕ) : Keeps R (logGet index) := by
  unfold logGet
  exact Keeps.bind Keeps.get fun _ => Keeps.ofExcept _

/-- Whatever marking a peer and sending it a request keeps, replication keeps. -/
theorem replicateTo_keeps {peerId : NodeId}
    (hmark : ∀ s : RaftNode, s.status = .leader → peerId ∉ s.inFlight →
      R false s { s with inFlight := insert peerId s.inFlight })
    (hsend : ∀ (s : RaftNode) (request : RequestAppendEntriesRPC), s.status = .leader →
      peerId ∉ s.inFlight → request.term = s.currentTerm → request.leaderId = s.nodeId →
      R true s { s with
        inFlight := insert peerId s.inFlight
        appendRequests := s.appendRequests ++ [(peerId, request, s.logStore)] }) :
    Keeps R (replicateTo peerId) := by
  intro s
  unfold replicateTo
  simp only [Wp.bind_iff, Wp.get_iff, Wp.ite_iff, Wp.pure_iff, Wp.modify_iff]
  refine ⟨fun _ => Composes.refl true s, fun hl => ⟨fun _ => Composes.refl true s, fun hin => ?_⟩⟩
  have hleader : s.status = .leader := not_not.1 hl
  -- what follows once the previous term is known
  have hrest : ∀ prevLogTerm : ℕ, Wp (ofExcept (ProtoMapper.entriesToProto
      (s.logStore.entriesFrom ((lookupKey peerId s.nextIndex).getD (s.logStore.lastIndex + 1)))) :
        Task _)
      (fun entries s₁ => R true s { s₁ with
        appendRequests := s₁.appendRequests ++ [(peerId, ⟨s.currentTerm, s.nodeId,
          (lookupKey peerId s.nextIndex).getD (s.logStore.lastIndex + 1) - 1, prevLogTerm,
          entries, s.commitIndex⟩, s₁.logStore)] })
      (fun _ => R false s) { s with inFlight := insert peerId s.inFlight } := by
    intro prevLogTerm
    cases ProtoMapper.entriesToProto (s.logStore.entriesFrom
      ((lookupKey peerId s.nextIndex).getD (s.logStore.lastIndex + 1))) with
    | error e => exact hmark s hleader hin
    | ok entries => exact hsend s _ hleader hin rfl rfl
  refine ⟨fun _ => hrest 0, fun _ => ?_⟩
  unfold logGet
  rw [Wp.bind_iff, Wp.get_iff]
  dsimp only
  cases s.logStore.get ((lookupKey peerId s.nextIndex).getD (s.logStore.lastIndex + 1) - 1) with
  | error e => exact hmark s hleader hin
  | ok entry =>
    rw [Wp.ofExcept_ok]
    simp only [Wp.bind_iff, Wp.pure_iff]
    exact hrest entry.term

theorem replicateToAllPeers_keeps (h : ∀ peerId, Keeps R (replicateTo peerId)) :
    Keeps R replicateToAllPeers := by
  unfold replicateToAllPeers
  exact Keeps.bind Keeps.get fun s => Keeps.ite (fun _ => Keeps.pure _) fun _ =>
    Keeps.forM h s.peers

/-- Whatever committing keeps, the search for an index to commit keeps. -/
theorem advanceCommitIndex_keeps (h : ∀ n (s : RaftNode), R true s (commitTo n s)) :
    Keeps R advanceCommitIndex := by
  have hfrom : ∀ n, Keeps R (advanceFrom n) := by
    intro n
    induction n with
    | zero => exact Keeps.pure _
    | succ n ih =>
      unfold advanceFrom
      refine Keeps.bind Keeps.get fun s => Keeps.ite (fun _ => ?_) fun _ => Keeps.pure _
      refine Keeps.bind (logGet_keeps _) fun _ => Keeps.ite (fun _ => Keeps.pure _) fun _ => ?_
      exact Keeps.ite (fun _ => Keeps.modify (h (n + 1))) fun _ => ih
  unfold advanceCommitIndex
  exact Keeps.bind Keeps.get fun s => Keeps.ite (fun _ => Keeps.pure _) fun _ => hfrom _

/-- Whatever applying one entry and publishing keep, applying what is committed keeps. -/
theorem applyCommitted_keeps
    (hnext : ∀ s : RaftNode, R true s { s with lastApplied := s.lastApplied + 1 })
    (hentry : ∀ entry (s : RaftNode), R true s (applyEntry entry s))
    (hpublish : ∀ s : RaftNode, R true s s.publishSnapshot) : Keeps R applyCommitted := by
  have hall : ∀ count, Keeps R (applyNext count) := by
    intro count
    induction count with
    | zero => exact Keeps.pure _
    | succ count ih =>
      unfold applyNext
      refine Keeps.bind (Keeps.modify hnext) fun _ => Keeps.bind Keeps.get fun s => ?_
      exact Keeps.bind (logGet_keeps _) fun entry =>
        Keeps.bind (Keeps.modify (hentry entry)) fun _ => ih
  unfold applyCommitted
  exact Keeps.bind Keeps.get fun s => Keeps.bind (hall _) fun _ => Keeps.modify hpublish

end Methods

theorem replicateTo_calm (peerId : NodeId) : Keeps Calm (replicateTo peerId) := by
  apply replicateTo_keeps
  · intro s _ _
    refine Calm.of_eq rfl rfl ⟨fun _ h => Or.inl h, fun _ h => h, fun _ h => h,
      fun h => absurd h Bool.false_ne_true, rfl⟩ ⟨Finset.subset_insert _ _, [], ?_,
      List.nodup_nil, by simp⟩ (Announced.of_eq rfl)
    rw [List.append_nil]
  · intro s request hl hin ht hid
    refine Calm.of_eq rfl rfl ⟨fun _ h => Or.inl h, fun _ h => h,
      fun _ h => List.mem_append_left _ h, fun _ p hp => ?_, rfl⟩
      ⟨Finset.subset_insert _ _, [_], rfl, List.nodup_singleton _, fun r hr => ?_⟩
      (Announced.of_eq rfl)
    · rcases Finset.mem_insert.1 hp with rfl | hp
      · exact Or.inr ⟨_, List.mem_append_right _ (List.mem_singleton_self _), rfl⟩
      · exact Or.inl hp
    · rw [List.mem_singleton.1 hr]
      exact ⟨hl, hin, Finset.mem_insert_self _ _, ht, hid⟩

theorem replicateToAllPeers_calm : Keeps Calm replicateToAllPeers :=
  replicateToAllPeers_keeps replicateTo_calm

theorem advanceCommitIndex_calm : Keeps Calm advanceCommitIndex :=
  advanceCommitIndex_keeps fun _ _ => Calm.of_same rfl rfl rfl rfl rfl rfl rfl rfl

theorem publishSnapshot_calm (s : RaftNode) : Calm ok s s.publishSnapshot := by
  refine Calm.of_eq rfl rfl (Tidy.of_eq rfl rfl rfl rfl rfl) (Dispatched.of_eq rfl rfl)
    ⟨[s.serverState], rfl, fun state hs => ?_⟩
  rw [List.mem_singleton.1 hs]
  exact ⟨rfl, rfl⟩

/-- An answer to a client tells the outcome of an entry. -/
theorem answerOf_ne (values : StateMachine) (index : ℕ) (entry : LogEntry) :
    answerOf values index entry ≠ .notLeader := by
  unfold answerOf
  cases values.apply entry.command with
  | ok v => exact fun h => by cases congrArg CommandResult.status h
  | error e => exact fun h => by cases congrArg CommandResult.status h

theorem applyEntry_calm (entry : LogEntry) (s : RaftNode) : Calm ok s (applyEntry entry s) := by
  rw [applyEntry_eq]
  refine ⟨⟨fun _ h => Or.inl h, ?_, fun _ h => h, fun _ _ h => Or.inl h, rfl⟩, rfl, ?_,
    Dispatched.of_eq rfl rfl, Announced.of_eq rfl⟩
  · exact fun p hp => List.mem_of_mem_filter hp
  · intro f hf
    rcases mem_answerClient hf with hf | ⟨-, hf⟩
    · exact hf
    · exact absurd hf.symm (answerOf_ne _ _ _)

theorem applyCommitted_calm : Keeps Calm applyCommitted :=
  applyCommitted_keeps (fun _ => Calm.of_same rfl rfl rfl rfl rfl rfl rfl rfl) applyEntry_calm
    publishSnapshot_calm

theorem append_calm {entry : LogEntry} {log : LogStore} {truncations : List (ℕ × ℕ)}
    (hlog : log ⊆ s.logStore) (hkey : entry.command.key ≠ none) :
    Calm ok s { s with
      logStore := log.append entry
      history := { s.history with truncations := truncations } } := by
  refine Calm.of_eq rfl rfl ⟨?_, fun _ h => h, fun _ h => h, fun _ _ h => Or.inl h, rfl⟩
    (Dispatched.of_eq rfl rfl) (Announced.of_eq rfl)
  intro x hx
  rcases List.mem_append.1 hx with hx | hx
  · exact Or.inl (hlog hx)
  · rw [List.mem_singleton.1 hx]
    exact Or.inr hkey

theorem patchLog_calm (protos : List ProtoLogEntry) (idx : ℕ) :
    Keeps Calm (patchLog protos idx) := by
  induction protos generalizing idx with
  | nil => exact Keeps.pure _
  | cons proto protos ih =>
    intro s
    unfold patchLog
    rw [Wp.bind_iff]
    cases hp : ProtoMapper.fromProto proto with
    | error e => exact Composes.refl false s
    | ok entry =>
      have hkey := ProtoMapper.fromProto_key hp
      rw [Wp.ofExcept_ok]
      refine Keeps.bind Keeps.get (fun s₁ => Keeps.ite (fun _ => ?_) fun _ => ?_) s
      · refine Keeps.bind (logGet_keeps _) fun x => Keeps.ite (fun _ => ih _) fun _ => ?_
        exact Keeps.bind (Keeps.modify fun s => append_calm (List.take_subset _ _) hkey)
          fun _ => ih _
      · exact Keeps.bind (Keeps.modify fun s => append_calm (List.Subset.refl _) hkey)
          fun _ => ih _

theorem prevLogMatches_calm (prevLogIndex prevLogTerm : ℕ) :
    Keeps Calm (prevLogMatches prevLogIndex prevLogTerm) := by
  unfold prevLogMatches
  refine Keeps.bind Keeps.get fun s => Keeps.ite (fun _ => Keeps.pure _) fun _ => ?_
  exact Keeps.ite (fun _ => Keeps.bind (logGet_keeps _) fun _ => Keeps.pure _) fun _ => Keeps.pure _

/-! ## What each task does -/

/-- A request for a vote: a stale one is refused; a later term is adopted first; then the vote is
given or not. -/
def Polled (request : RequestVoteRPC) (s s' : RaftNode) : Prop :=
  s' = s ∨ ∃ s₀, (request.term = s.currentTerm ∧ s₀ = s ∨
      s.currentTerm < request.term ∧ s₀ = becomeFollower request.term s) ∧
    (s' = s₀.publishSnapshot ∨
      (s₀.votedFor = none ∨ s₀.votedFor = some request.candidateId) ∧
        s' = (s₀.grantVote request.candidateId).resetElectionTimer.publishSnapshot)

theorem answerRequestVote_role (request : RequestVoteRPC) (s : RaftNode) :
    Wp (answerRequestVote request) (fun _ s' => s' = s.publishSnapshot ∨
        (s.votedFor = none ∨ s.votedFor = some request.candidateId) ∧
          s' = (s.grantVote request.candidateId).resetElectionTimer.publishSnapshot)
      (fun _ _ => False) s := by
  unfold answerRequestVote
  simp only [Wp.bind_iff, Wp.modify_iff, Wp.get_iff, Wp.ite_iff, Wp.pure_iff]
  exact ⟨fun hg => Or.inr ⟨hg.1, trivial⟩, fun _ => Or.inl trivial⟩

theorem handleRequestVote_role (request : RequestVoteRPC) (s : RaftNode) :
    Wp (handleRequestVoteInternal request) (fun _ => Polled request s) (fun _ _ => False) s := by
  unfold handleRequestVoteInternal
  simp only [Wp.bind_iff, Wp.modify_iff, Wp.get_iff, Wp.ite_iff, Wp.pure_iff]
  refine ⟨fun _ => Or.inl rfl, fun hge => ⟨fun hgt => ?_, fun hle => ?_⟩⟩
  · apply (answerRequestVote_role request _).mono
    · exact fun _ _ hs => Or.inr ⟨_, Or.inr ⟨hgt, rfl⟩, hs⟩
    · exact fun _ _ hf => hf
  · apply (answerRequestVote_role request _).mono
    · exact fun _ _ hs => Or.inr ⟨_, Or.inl ⟨by omega, rfl⟩, hs⟩
    · exact fun _ _ hf => hf

/-- The state in which a follower takes up the entries of a leader. -/
def hearLeader (leaderId : NodeId) (s : RaftNode) : RaftNode :=
  { s with currentLeaderId := some leaderId }.resetElectionTimer

/-- A request with entries: a stale one is refused; else the replica is a follower of the
request's term, whose timer starts again. -/
def Heard (request : RequestAppendEntriesRPC) (ok : Bool) (s s' : RaftNode) : Prop :=
  s' = s ∨ ∃ s₀, ((s.currentTerm = request.term ∧ s.status = .follower) ∧ s₀ = s ∨
      (s.currentTerm < request.term ∨ s.currentTerm = request.term ∧ s.status ≠ .follower) ∧
        s₀ = becomeFollower request.term s) ∧
    Calm ok (s₀.hearLeader request.leaderId) s'

theorem appendFromLeader_role (request : RequestAppendEntriesRPC) (s : RaftNode) :
    Wp (appendFromLeader request) (fun _ => Calm true (s.hearLeader request.leaderId))
      (fun _ => Calm false (s.hearLeader request.leaderId)) s := by
  have hrest : Keeps Calm (do
      if ¬ (← prevLogMatches request.prevLogIndex request.prevLogTerm) then
        modify publishSnapshot
        return ⟨(← get).currentTerm, false⟩
      else
        let idx ← patchLog request.entries request.prevLogIndex
        modify (followCommit request.leaderCommit idx)
        applyCommitted
        return ⟨(← get).currentTerm, true⟩ : Task ResponseAppendEntriesRPC) := by
    refine Keeps.bind (prevLogMatches_calm _ _) fun _ => Keeps.ite (fun _ => ?_) fun _ => ?_
    · exact Keeps.bind (Keeps.modify publishSnapshot_calm) fun _ =>
        Keeps.bind Keeps.get fun _ => Keeps.pure _
    · refine Keeps.bind (patchLog_calm _ _) fun idx => Keeps.bind (Keeps.modify fun s => ?_)
        fun _ => Keeps.bind applyCommitted_calm fun _ => Keeps.bind Keeps.get fun _ => Keeps.pure _
      unfold followCommit
      split_ifs
      · exact Calm.of_same rfl rfl rfl rfl rfl rfl rfl rfl
      · exact Composes.refl true s
  exact hrest (s.hearLeader request.leaderId)

theorem handleAppendEntries_role (request : RequestAppendEntriesRPC) (s : RaftNode) :
    Wp (handleAppendEntriesInternal request) (fun _ => Heard request true s)
      (fun _ => Heard request false s) s := by
  unfold handleAppendEntriesInternal
  simp only [Wp.bind_iff, Wp.modify_iff, Wp.get_iff, Wp.ite_iff, Wp.pure_iff]
  refine ⟨fun _ => Or.inl rfl, fun hge => ⟨fun hdown => ?_, fun hsame => ?_⟩⟩
  · have hdown' : s.currentTerm < request.term ∨
        s.currentTerm = request.term ∧ s.status ≠ .follower := by
      rcases Nat.lt_or_ge s.currentTerm request.term with hlt | hle
      · exact Or.inl hlt
      · exact Or.inr ⟨by omega, hdown.resolve_left (Nat.not_lt.2 hle)⟩
    apply (appendFromLeader_role request _).mono
    · exact fun _ _ hs => Or.inr ⟨_, Or.inr ⟨hdown', rfl⟩, hs⟩
    · exact fun _ _ hs => Or.inr ⟨_, Or.inr ⟨hdown', rfl⟩, hs⟩
  · have hf : s.currentTerm = request.term ∧ s.status = .follower := by
      obtain ⟨hle, hf⟩ := not_or.1 hsame
      exact ⟨by omega, not_not.1 hf⟩
    apply (appendFromLeader_role request s).mono
    · exact fun _ _ hs => Or.inr ⟨_, Or.inl ⟨hf, rfl⟩, hs⟩
    · exact fun _ _ hs => Or.inr ⟨_, Or.inl ⟨hf, rfl⟩, hs⟩

/-- A response with a later term deposes the leader, no other does. -/
def Acknowledged (response : ResponseAppendEntriesRPC) (ok : Bool) (s s' : RaftNode) : Prop :=
  s.currentTerm < response.term ∧ s' = becomeFollower response.term s ∨ Calm ok s s'

theorem onAppendEntriesResponse_role (peerId : NodeId) (roundTerm prevLogIndex sentCount : ℕ)
    (response : ResponseAppendEntriesRPC) (s : RaftNode) :
    Wp (onAppendEntriesResponse peerId roundTerm prevLogIndex sentCount response)
      (fun _ => Acknowledged response true s) (fun _ => Acknowledged response false s) s := by
  have hsuccess : Keeps Calm (do
      modify (recordMatch peerId (prevLogIndex + sentCount))
      advanceCommitIndex
      applyCommitted
      let s ← get
      if (lookupKey peerId s.nextIndex).getD 0 ≤ s.logStore.lastIndex then replicateTo peerId
      else pure () : Task Unit) := by
    refine Keeps.bind (Keeps.modify fun _ => Calm.of_same rfl rfl rfl rfl rfl rfl rfl rfl) fun _ =>
      Keeps.bind advanceCommitIndex_calm fun _ => Keeps.bind applyCommitted_calm fun _ =>
      Keeps.bind Keeps.get fun _ => ?_
    exact Keeps.ite (fun _ => replicateTo_calm _) fun _ => Keeps.pure _
  have hfailure : Keeps Calm (do
      modify (lowerNextIndex peerId prevLogIndex)
      replicateTo peerId : Task Unit) :=
    Keeps.bind (Keeps.modify fun _ => Calm.of_same rfl rfl rfl rfl rfl rfl rfl rfl) fun _ =>
      replicateTo_calm _
  have hcalm : ∀ {task : Task Unit}, Keeps Calm task →
      Wp task (fun _ => Acknowledged response true s) (fun _ => Acknowledged response false s) s :=
    fun h => (h s).mono (fun _ _ hs => Or.inr hs) fun _ _ hs => Or.inr hs
  unfold onAppendEntriesResponse
  rw [Wp.bind_iff, Wp.get_iff, Wp.ite_iff]
  refine ⟨fun hgt => Or.inl ⟨hgt, rfl⟩, fun _ => ?_⟩
  exact hcalm (Keeps.ite (fun _ => Keeps.pure _) fun _ =>
    Keeps.ite (fun _ => hsuccess) fun _ => hfailure)

/-- A new leader sends its requests and schedules its heartbeat. -/
def Leads (s s' : RaftNode) : Prop :=
  ∃ s₁, Calm true s.initLeader.publishSnapshot s₁ ∧ s' = s₁.scheduleHeartbeat

theorem becomeLeader_role (s : RaftNode) :
    Wp becomeLeader (fun _ => Leads s) (fun _ _ => False) s := by
  have hcalm : Wp becomeLeader (fun _ => Leads s) (fun _ _ => True) s := by
    unfold becomeLeader
    simp only [Wp.bind_iff, Wp.modify_iff]
    apply (replicateToAllPeers_calm _).mono
    · exact fun _ s₁ hs => ⟨s₁, hs, rfl⟩
    · exact fun _ _ _ => trivial
  apply (hcalm.and (becomeLeader_wp s)).mono
  · exact fun _ _ hs => hs.1
  · exact fun _ _ hf => hf.2

/-- A candidate votes for itself; it leads at once, or asks its peers for votes. -/
def Campaigned (s s' : RaftNode) : Prop :=
  Leads s.beginElectionRound.publishSnapshot.resetElectionTimer s' ∨
    s' = s.beginElectionRound.publishSnapshot.resetElectionTimer.requestVotes

theorem startElectionRound_role (s : RaftNode) :
    Wp startElectionRound (fun _ => Campaigned s) (fun _ _ => False) s := by
  unfold startElectionRound
  simp only [Wp.bind_iff, Wp.modify_iff, Wp.get_iff, Wp.ite_iff]
  refine ⟨fun _ => ?_, fun _ => Or.inr rfl⟩
  apply (becomeLeader_role _).mono
  · exact fun _ _ hs => Or.inl hs
  · exact fun _ _ hf => hf

/-- A response with a later term ends a candidacy; a vote of the present round is counted. -/
def Counted (roundTerm : ℕ) (response : ResponseVoteRPC) (s s' : RaftNode) : Prop :=
  s' = s ∨ s.currentTerm < response.term ∧ s' = becomeFollower response.term s ∨
    s.status = .candidate ∧ s.currentTerm = roundTerm ∧ response.voteGranted = true ∧
      (s' = { s with votesReceived := s.votesReceived + 1 } ∨
        Leads { s with votesReceived := s.votesReceived + 1 } s')

theorem onVoteResponse_role (roundTerm : ℕ) (response : ResponseVoteRPC) (s : RaftNode) :
    Wp (onVoteResponse roundTerm response) (fun _ => Counted roundTerm response s)
      (fun _ _ => False) s := by
  unfold onVoteResponse
  simp only [Wp.bind_iff, Wp.modify_iff, Wp.get_iff, Wp.ite_iff, Wp.pure_iff]
  refine ⟨fun hgt => Or.inr (Or.inl ⟨hgt, rfl⟩), fun _ => ⟨fun _ => Or.inl rfl,
    fun hstale => ⟨fun hg => ?_, fun _ => Or.inl rfl⟩⟩⟩
  obtain ⟨hc, ht⟩ := not_or.1 hstale
  refine ⟨fun _ => ?_, fun _ => ?_⟩
  · apply (becomeLeader_role _).mono
    · exact fun _ _ hs => Or.inr (Or.inr ⟨not_not.1 hc, not_not.1 ht, hg, Or.inr hs⟩)
    · exact fun _ _ hf => hf
  · exact Or.inr (Or.inr ⟨not_not.1 hc, not_not.1 ht, hg, Or.inl rfl⟩)

/-- A leader appends the command of a client, every other replica refuses it. -/
def Submitted (future : FutureId) (command : Command) (ok : Bool) (s s' : RaftNode) : Prop :=
  s.status ≠ .leader ∧
      s' = { s with completed := complete future CommandResult.notLeader s.completed } ∨
    s.status = .leader ∧ Calm ok (s.appendForClient future command) s'

theorem submitCommand_role (future : FutureId) (command : Command) (s : RaftNode) :
    Wp (submitCommand future command) (fun _ => Submitted future command true s)
      (fun _ => Submitted future command false s) s := by
  have hcalm : Keeps Calm (do
      replicateToAllPeers
      advanceCommitIndex
      applyCommitted : Task Unit) :=
    Keeps.bind replicateToAllPeers_calm fun _ => Keeps.bind advanceCommitIndex_calm fun _ =>
      applyCommitted_calm
  unfold submitCommand
  rw [Wp.bind_iff, Wp.get_iff, Wp.ite_iff]
  refine ⟨fun hne => Or.inl ⟨hne, rfl⟩, fun hl => ?_⟩
  rw [Wp.bind_iff, Wp.modify_iff]
  apply (hcalm (s.appendForClient future command)).mono
  · exact fun _ _ hs => Or.inr ⟨not_not.1 hl, hs⟩
  · exact fun _ _ hs => Or.inr ⟨not_not.1 hl, hs⟩

/-! ## Tasks that count no votes -/

/-- No vote was asked for or counted, and nothing was appended for a client. -/
structure Quiet (ok : Bool) (s s' : RaftNode) : Prop extends Tidy ok s s' where
  voteRequests : s'.voteRequests = s.voteRequests
  created : s'.history.created = s.history.created
  candidate : s'.status = .candidate → s.status = .candidate ∧ s'.currentTerm = s.currentTerm ∧
    s'.votesReceived = s.votesReceived

theorem Calm.quiet (h : Calm ok s s') : Quiet ok s s' :=
  { h.toTidy with
    voteRequests := congrArg Roles.voteRequests h.roles
    created := congrArg Roles.created h.roles
    candidate := fun hc => ⟨(congrArg Roles.status h.roles).symm.trans hc,
      congrArg Roles.currentTerm h.roles, congrArg Roles.votesReceived h.roles⟩ }

instance : Composes Quiet where
  refl ok s := (Composes.refl ok s : Calm ok s s).quiet
  trans h h' :=
    { h.toTidy.trans h'.toTidy with
      voteRequests := h'.voteRequests.trans h.voteRequests
      created := h'.created.trans h.created
      candidate := fun hc => by
        obtain ⟨h₁, h₂, h₃⟩ := h'.candidate hc
        obtain ⟨g₁, g₂, g₃⟩ := h.candidate h₁
        exact ⟨g₁, h₂.trans g₂, h₃.trans g₃⟩ }

theorem becomeFollower_quiet (seenTerm : ℕ) (s : RaftNode) :
    Quiet ok s (becomeFollower seenTerm s) := by
  rw [becomeFollower_eq]
  refine ⟨⟨fun _ h => Or.inl h, ?_, fun _ h => h, fun _ _ h => Or.inl h, rfl⟩, rfl, rfl, ?_⟩
  · exact fun p hp => absurd hp List.not_mem_nil
  · exact fun hc => by cases hc

theorem Polled.quiet {request : RequestVoteRPC} (h : Polled request s s') : Quiet true s s' := by
  rcases h with rfl | ⟨s₀, h₀, h⟩
  · exact Composes.refl true s'
  have hfirst : Quiet true s s₀ := by
    rcases h₀ with ⟨-, rfl⟩ | ⟨-, rfl⟩
    · exact Composes.refl true s₀
    · exact becomeFollower_quiet _ s
  apply Composes.trans hfirst
  rcases h with rfl | ⟨-, rfl⟩
  · exact (publishSnapshot_calm s₀).quiet
  · exact ⟨Tidy.of_eq rfl rfl rfl rfl rfl, rfl, rfl, fun hc => ⟨hc, rfl, rfl⟩⟩

theorem hearLeader_quiet (leaderId : NodeId) (s : RaftNode) : Quiet ok s (s.hearLeader leaderId) :=
  ⟨Tidy.of_eq rfl rfl rfl rfl rfl, rfl, rfl, fun hc => ⟨hc, rfl, rfl⟩⟩

theorem Heard.quiet {request : RequestAppendEntriesRPC} (h : Heard request ok s s') :
    Quiet ok s s' := by
  rcases h with rfl | ⟨s₀, h₀, h⟩
  · exact Composes.refl ok s'
  have hfirst : Quiet true s s₀ := by
    rcases h₀ with ⟨-, rfl⟩ | ⟨-, rfl⟩
    · exact Composes.refl true s₀
    · exact becomeFollower_quiet _ s
  exact Composes.trans hfirst (Composes.trans (hearLeader_quiet _ s₀) h.quiet)

theorem Acknowledged.quiet {response : ResponseAppendEntriesRPC}
    (h : Acknowledged response ok s s') : Quiet ok s s' := by
  rcases h with ⟨-, rfl⟩ | h
  · exact becomeFollower_quiet _ s
  · exact h.quiet

/-! ## Tasks that count votes -/

/-- Becoming the leader asks for no votes and appends nothing. -/
structure Elected (s s' : RaftNode) : Prop extends Tidy true s s' where
  status : s'.status = .leader
  currentTerm : s'.currentTerm = s.currentTerm
  voteRequests : s'.voteRequests = s.voteRequests
  created : s'.history.created = s.history.created

theorem Leads.elected (h : Leads s s') : Elected s s' := by
  obtain ⟨s₁, h₁, rfl⟩ := h
  exact {
    fresh := h₁.fresh
    waiting := h₁.waiting
    requests := h₁.requests
    flights := fun hok p hp => by
      rcases h₁.flights hok p hp with hp | hp
      · exact absurd hp (Finset.notMem_empty p)
      · exact Or.inr hp
    faults := h₁.faults
    status := congrArg Roles.status h₁.roles
    currentTerm := congrArg Roles.currentTerm h₁.roles
    voteRequests := congrArg Roles.voteRequests h₁.roles
    created := congrArg Roles.created h₁.roles }

/-- The votes for oneself and those asked for in a new term. -/
structure Round (s s' : RaftNode) : Prop extends Tidy true s s' where
  created : s'.history.created = s.history.created
  currentTerm : s'.currentTerm = s.currentTerm + 1
  votesReceived : s'.status = .candidate → s'.votesReceived = 1
  voteRequests : s'.voteRequests = s.voteRequests ∨ ∃ request, request.term = s.currentTerm + 1 ∧
    s'.voteRequests = s.voteRequests ++ s.peers.map fun peerId => (peerId, request)

theorem Campaigned.round (h : Campaigned s s') : Round s s' := by
  rcases h with h | rfl
  · have he := h.elected
    exact {
      toTidy := { he.toTidy with }
      created := he.created
      currentTerm := he.currentTerm
      votesReceived := fun hc => absurd (he.status.symm.trans hc) ServerStatus.noConfusion
      voteRequests := Or.inl he.voteRequests }
  · exact ⟨Tidy.of_eq rfl rfl rfl rfl rfl, rfl, rfl, fun _ => rfl, Or.inr ⟨_, rfl, rfl⟩⟩

/-- At most one vote of the present round was counted. -/
structure Tallied (roundTerm : ℕ) (response : ResponseVoteRPC) (s s' : RaftNode) : Prop
    extends Tidy true s s' where
  created : s'.history.created = s.history.created
  voteRequests : s'.voteRequests = s.voteRequests
  candidate : s'.status = .candidate → s.status = .candidate ∧ s'.currentTerm = s.currentTerm ∧
    (s'.votesReceived = s.votesReceived ∨ s'.votesReceived = s.votesReceived + 1 ∧
      s.currentTerm = roundTerm ∧ response.voteGranted = true)

theorem Tallied.of_quiet {roundTerm : ℕ} {response : ResponseVoteRPC} (h : Quiet true s s') :
    Tallied roundTerm response s s' :=
  { h with
    candidate := fun hc => by
      obtain ⟨h₁, h₂, h₃⟩ := h.candidate hc
      exact ⟨h₁, h₂, Or.inl h₃⟩ }

theorem Counted.tallied {roundTerm : ℕ} {response : ResponseVoteRPC}
    (h : Counted roundTerm response s s') : Tallied roundTerm response s s' := by
  rcases h with rfl | ⟨-, rfl⟩ | ⟨-, hround, hg, rfl | h⟩
  · exact Tallied.of_quiet (Composes.refl true s')
  · exact Tallied.of_quiet (becomeFollower_quiet _ s)
  · exact ⟨Tidy.of_eq rfl rfl rfl rfl rfl, rfl, rfl,
      fun hc => ⟨hc, rfl, Or.inr ⟨rfl, hround, hg⟩⟩⟩
  · have he := h.elected
    exact {
      toTidy := { he.toTidy with }
      created := he.created
      voteRequests := he.voteRequests
      candidate := fun hc => absurd (he.status.symm.trans hc) ServerStatus.noConfusion }

end RaftNode

end CowRaft.Raft
