import CowRaft.Raft.RaftNode

/-!
# What the tasks do

The effects of the methods of a replica on its state, one lemma a method: which fields stepping
down leaves alone, which requests replication builds, which log a sequence of entries patches to,
how far a leader commits. They assume only that indices lie in the log.
-/

namespace CowRaft.Raft

namespace RaftNode

variable {s s' s'' : RaftNode} {n : ℕ}

/-! ## Stepping down -/

theorem becomeFollower_eq (seenTerm : ℕ) (s : RaftNode) :
    becomeFollower seenTerm s = { s with
      currentTerm := max s.currentTerm seenTerm
      votedFor := if seenTerm > s.currentTerm then none else s.votedFor
      status := .follower
      heartbeats := cancel s.heartbeatFuture s.heartbeats
      heartbeatFuture := none
      completed := s.failPendingClients.completed
      pendingClients := []
      snapshot := { s.serverState with
        currentTerm := max s.currentTerm seenTerm
        status := .follower }
      history := { s.history with published := s.history.published ++
        [{ s.serverState with currentTerm := max s.currentTerm seenTerm, status := .follower }] }
      electionTimeouts := insert s.nextTask (cancel s.electionTimeoutFuture s.electionTimeouts)
      electionTimeoutFuture := some s.nextTask
      nextTask := s.nextTask + 1 } := by
  unfold becomeFollower
  by_cases h : seenTerm > s.currentTerm
  · rw [if_pos h, if_pos h, Nat.max_eq_right (Nat.le_of_lt h)]
    rfl
  · rw [if_neg h, if_neg h, Nat.max_eq_left (Nat.le_of_not_lt h)]
    rfl

/-! ## Reading the log -/

theorem logGet_wp {index : ℕ} {Q : LogEntry → RaftNode → Prop} {E : Fault → RaftNode → Prop}
    (h0 : 0 < index) (h : index ≤ s.logStore.lastIndex)
    (hQ : ∀ entry, s.logStore[index - 1]? = some entry → Q entry s) :
    Wp (logGet index) Q E s := by
  obtain ⟨entry, hget, hok⟩ := LogStore.exists_get h0 h
  unfold logGet
  rw [Wp.bind_iff, Wp.get_iff, hok, Wp.ofExcept_ok]
  exact hQ entry hget

/-! ## Requests to peers -/

/-- A request of `s` to a peer: the entries behind the peer's `nextIndex`. -/
structure Built (s : RaftNode) (peerId : NodeId) (request : RequestAppendEntriesRPC) : Prop where
  term : request.term = s.currentTerm
  leaderId : request.leaderId = s.nodeId
  prevLogIndex : request.prevLogIndex =
    (lookupKey peerId s.nextIndex).getD (s.logStore.lastIndex + 1) - 1
  prevLogTerm : request.prevLogIndex ≠ 0 → ∃ entry,
    s.logStore[request.prevLogIndex - 1]? = some entry ∧ request.prevLogTerm = entry.term
  entries : ProtoMapper.entriesToProto (s.logStore.drop request.prevLogIndex) = .ok request.entries
  leaderCommit : request.leaderCommit = s.commitIndex

/-- From `s` to `s'` requests were built for the peers in `flight`, and nothing else happened. -/
def Sends (s s' : RaftNode) : Prop :=
  ∃ flight sent,
    s' = { s with inFlight := flight, appendRequests := s.appendRequests ++ sent } ∧
    s.inFlight ⊆ flight ∧
    ∀ r ∈ sent, s.status = .leader ∧ r.1 ∈ s.peers ∧ r.1 ∉ s.inFlight ∧ Built s r.1 r.2.1 ∧
      r.2.2 = s.logStore

/-- A request to the peer cannot be built, for it would hold a null key. -/
def Blocked (s : RaftNode) (peerId : NodeId) : Prop :=
  peerId ∈ s.peers ∧ peerId ∉ s.inFlight ∧ ∃ entry ∈ s.logStore.entriesFrom
    ((lookupKey peerId s.nextIndex).getD (s.logStore.lastIndex + 1)), entry.command.key = none

/-- A leader stops at a peer to which no request can be built. -/
def SendFails (s : RaftNode) (e : Fault) (s' : RaftNode) : Prop :=
  Sends s s' ∧ e = .nullPointer ∧ s.status = .leader ∧ ∃ peerId, Blocked s peerId

theorem Sends.refl (s : RaftNode) : Sends s s := by
  refine ⟨s.inFlight, [], ?_, Finset.Subset.refl _, by simp⟩
  rw [List.append_nil]

theorem Sends.trans (h : Sends s s') (h' : Sends s' s'') : Sends s s'' := by
  obtain ⟨flight, sent, rfl, hsub, hsent⟩ := h
  obtain ⟨flight', sent', rfl, hsub', hsent'⟩ := h'
  refine ⟨flight', sent ++ sent', ?_, hsub.trans hsub', ?_⟩
  · dsimp only
    rw [List.append_assoc]
  · intro r hr
    rcases List.mem_append.1 hr with hr | hr
    · exact hsent r hr
    · obtain ⟨hl, hp, hf, hb, hlog⟩ := hsent' r hr
      exact ⟨hl, hp, fun hin => hf (hsub hin),
        ⟨hb.term, hb.leaderId, hb.prevLogIndex, hb.prevLogTerm, hb.entries, hb.leaderCommit⟩, hlog⟩

/-- A leader builds a request for a peer to which none is in flight, unless the request would hold
a null key. -/
theorem replicateTo_idle_wp {peerId : NodeId} (hl : s.status = .leader) (hin : peerId ∉ s.inFlight)
    (hnext : ∀ next, lookupKey peerId s.nextIndex = some next → next ≤ s.logStore.lastIndex + 1) :
    Wp (replicateTo peerId)
      (fun _ s' => ∃ request, Built s peerId request ∧ s' = { s with
        inFlight := insert peerId s.inFlight
        appendRequests := s.appendRequests ++ [(peerId, request, s.logStore)] })
      (fun e s' => s' = { s with inFlight := insert peerId s.inFlight } ∧
        ProtoMapper.entriesToProto (s.logStore.entriesFrom
          ((lookupKey peerId s.nextIndex).getD (s.logStore.lastIndex + 1))) = .error e) s := by
  unfold replicateTo
  simp only [Wp.bind_iff, Wp.get_iff, Wp.ite_iff, Wp.pure_iff, Wp.modify_iff]
  refine ⟨fun hn => absurd hl hn, fun _ => ⟨fun hp => absurd hp hin, fun _ => ?_⟩⟩
  set next := (lookupKey peerId s.nextIndex).getD (s.logStore.lastIndex + 1) with hn
  have hle : next ≤ s.logStore.lastIndex + 1 := by
    rw [hn]
    cases hlook : lookupKey peerId s.nextIndex with
    | none => exact le_rfl
    | some m => exact hnext m hlook
  -- what follows once the previous term is known
  have hrest : ∀ prevLogTerm : ℕ, (next - 1 ≠ 0 → ∃ entry,
        s.logStore[next - 1 - 1]? = some entry ∧ prevLogTerm = entry.term) →
      Wp (ofExcept (ProtoMapper.entriesToProto (s.logStore.entriesFrom next)) : Task _)
        (fun entries s₁ => ∃ request, Built s peerId request ∧ { s₁ with
          appendRequests := s₁.appendRequests ++ [(peerId, ⟨s.currentTerm, s.nodeId, next - 1,
            prevLogTerm, entries, s.commitIndex⟩, s₁.logStore)] } = { s with
          inFlight := insert peerId s.inFlight
          appendRequests := s.appendRequests ++ [(peerId, request, s.logStore)] })
        (fun e s' => s' = { s with inFlight := insert peerId s.inFlight } ∧
          ProtoMapper.entriesToProto (s.logStore.entriesFrom next) = .error e)
        { s with inFlight := insert peerId s.inFlight } := by
    intro prevLogTerm hprev
    have hfrom := LogStore.entriesFrom_eq s.logStore next
    rw [hfrom]
    cases he : ProtoMapper.entriesToProto (s.logStore.drop (next - 1)) with
    | error e =>
      rw [Wp.ofExcept_error]
      exact ⟨rfl, rfl⟩
    | ok entries =>
      rw [Wp.ofExcept_ok]
      exact ⟨⟨s.currentTerm, s.nodeId, next - 1, prevLogTerm, entries, s.commitIndex⟩,
        ⟨rfl, rfl, rfl, hprev, he, rfl⟩, rfl⟩
  refine ⟨fun h0 => hrest 0 fun h => absurd h0 h, fun h0 => ?_⟩
  apply logGet_wp (Nat.pos_of_ne_zero h0)
  · dsimp only
    omega
  · intro entry hget
    simp only [Wp.bind_iff, Wp.pure_iff]
    exact hrest entry.term fun _ => ⟨entry, hget, rfl⟩

theorem replicateTo_wp {peerId : NodeId} (hp : s.status = .leader → peerId ∈ s.peers)
    (hnext : s.status = .leader → ∀ next, lookupKey peerId s.nextIndex = some next →
      next ≤ s.logStore.lastIndex + 1) :
    Wp (replicateTo peerId) (fun _ => Sends s) (SendFails s) s := by
  by_cases hidle : s.status = .leader ∧ peerId ∉ s.inFlight
  · obtain ⟨hl, hin⟩ := hidle
    apply (replicateTo_idle_wp hl hin (hnext hl)).mono
    · rintro - s' ⟨request, hb, rfl⟩
      refine ⟨insert peerId s.inFlight, [_], rfl, Finset.subset_insert _ _, ?_⟩
      intro r hr
      rw [List.mem_singleton.1 hr]
      exact ⟨hl, hp hl, hin, hb, rfl⟩
    · rintro e s' ⟨rfl, he⟩
      obtain ⟨rfl, entry, hmem, hnull⟩ := ProtoMapper.entriesToProto_error he
      refine ⟨⟨insert peerId s.inFlight, [], ?_, Finset.subset_insert _ _, by simp⟩, rfl, hl,
        peerId, hp hl, hin, entry, hmem, hnull⟩
      rw [List.append_nil]
  · unfold replicateTo
    simp only [Wp.bind_iff, Wp.get_iff, Wp.ite_iff, Wp.pure_iff, Wp.modify_iff]
    refine ⟨fun _ => Sends.refl s, fun hl => ⟨fun _ => Sends.refl s, fun hin => ?_⟩⟩
    exact absurd ⟨not_not.1 hl, hin⟩ hidle

/-- Replication reaches every peer, or stops at the first request with a null key. -/
theorem replicateToAllPeers_wp
    (hnext : s.status = .leader → ∀ p ∈ s.peers, ∀ next, lookupKey p s.nextIndex = some next →
      next ≤ s.logStore.lastIndex + 1) :
    Wp replicateToAllPeers (fun _ => Sends s) (SendFails s) s := by
  unfold replicateToAllPeers
  simp only [Wp.bind_iff, Wp.get_iff, Wp.ite_iff, Wp.pure_iff]
  refine ⟨fun _ => Sends.refl s, fun hlead => ?_⟩
  apply Wp.forM _ (Sends.refl s)
  intro p hp s₁ hs₁
  obtain ⟨flight, sent, heq, hsub, -⟩ := id hs₁
  have hstep : Wp (replicateTo p) (fun _ => Sends s₁) (SendFails s₁) s₁ := by
    apply replicateTo_wp
    · rw [heq]
      exact fun _ => hp
    · rw [heq]
      exact fun hl => hnext hl p hp
  apply hstep.mono
  · exact fun _ _ h => hs₁.trans h
  · rintro e s₂ ⟨hs₂, rfl, hl, q, hq, hin, hnull⟩
    rw [heq] at hl hq hin hnull
    exact ⟨hs₁.trans hs₂, rfl, hl, q, hq, fun h => hin (hsub h), hnull⟩

/-! ## Becoming the leader -/

/-- Looking up in a map filled with one value. -/
theorem lookupKey_fill (peers : List NodeId) (v : ℕ) (p : NodeId) :
    lookupKey p (peers.foldl (fun index peerId => upsert peerId v index) []) =
      if p ∈ peers then some v else none := by
  induction peers using List.reverseRecOn with
  | nil => rfl
  | append_singleton peers q ih =>
    rw [List.foldl_append, List.foldl_cons, List.foldl_nil, lookupKey_upsert, ih]
    by_cases hq : p = q
    · simp [hq]
    · simp [hq]

/-- A new leader knows of nothing that its peers lack. -/
theorem not_blocked_initLeader (s : RaftNode) (p : NodeId) :
    ¬ Blocked s.initLeader.publishSnapshot p := by
  rintro ⟨hp, -, entry, hentry, -⟩
  have hnext : lookupKey p s.initLeader.publishSnapshot.nextIndex =
      some (s.logStore.lastIndex + 1) := by
    change lookupKey p (s.peers.foldl _ []) = _
    rw [lookupKey_fill, if_pos (show p ∈ s.peers from hp)]
  rw [hnext, Option.getD_some, LogStore.entriesFrom_eq, Nat.add_sub_cancel] at hentry
  have hnil : s.initLeader.publishSnapshot.logStore.drop s.logStore.lastIndex = [] :=
    List.drop_length
  rw [hnil] at hentry
  cases hentry

/-- **Becoming the leader** sends requests without entries, and cannot fail. -/
theorem becomeLeader_wp (s : RaftNode) :
    Wp becomeLeader (fun _ s' => ∃ s₁, Sends s.initLeader.publishSnapshot s₁ ∧
      s' = s₁.scheduleHeartbeat) (fun _ _ => False) s := by
  unfold becomeLeader
  simp only [Wp.bind_iff, Wp.modify_iff]
  have hnext : ∀ p ∈ s.initLeader.publishSnapshot.peers, ∀ next,
      lookupKey p s.initLeader.publishSnapshot.nextIndex = some next →
        next ≤ s.initLeader.publishSnapshot.logStore.lastIndex + 1 := by
    intro p hp next hn
    change lookupKey p (s.peers.foldl _ []) = _ at hn
    rw [lookupKey_fill, if_pos (show p ∈ s.peers from hp)] at hn
    exact (Option.some.inj hn).ge
  apply (replicateToAllPeers_wp fun _ => hnext).mono
  · exact fun _ s₁ hs => ⟨s₁, hs, rfl⟩
  · rintro e s₁ ⟨-, -, -, p, hp⟩
    exact not_blocked_initLeader s p hp

/-! ## Committing -/

/-- A leader commits the highest index above `commitIndex` that it may. -/
theorem advanceFrom_wp (hn : n ≤ s.logStore.lastIndex) :
    Wp (advanceFrom n) (fun _ s' => s' = s ∨ ∃ k entry, s' = commitTo (k + 1) s ∧
      s.commitIndex < k + 1 ∧ s.logStore[k]? = some entry ∧ entry.term = s.currentTerm ∧
      s.majority ≤ s.replicatedCount (k + 1)) (fun _ _ => False) s := by
  induction n with
  | zero => exact Or.inl rfl
  | succ n ih =>
    unfold advanceFrom
    simp only [Wp.bind_iff, Wp.get_iff, Wp.ite_iff, Wp.pure_iff]
    refine ⟨fun hc => ?_, fun _ => Or.inl trivial⟩
    apply logGet_wp (Nat.succ_pos n) hn
    intro entry hget
    simp only [Wp.ite_iff, Wp.pure_iff, Wp.modify_iff]
    refine ⟨fun _ => Or.inl trivial,
      fun ht => ⟨fun hm => ?_, fun _ => ih (Nat.le_of_succ_le hn)⟩⟩
    exact Or.inr ⟨n, entry, rfl, hc, hget, not_not.1 ht, hm⟩

theorem advanceCommitIndex_wp :
    Wp advanceCommitIndex (fun _ s' => s' = s ∨ s.status = .leader ∧ ∃ k entry,
      s' = commitTo (k + 1) s ∧ s.commitIndex < k + 1 ∧ s.logStore[k]? = some entry ∧
      entry.term = s.currentTerm ∧ s.majority ≤ s.replicatedCount (k + 1))
      (fun _ _ => False) s := by
  unfold advanceCommitIndex
  simp only [Wp.bind_iff, Wp.get_iff, Wp.ite_iff, Wp.pure_iff]
  refine ⟨fun _ => Or.inl trivial, fun hlead => ?_⟩
  apply (advanceFrom_wp le_rfl).mono
  · rintro - s' (rfl | h)
    · exact Or.inl rfl
    · exact Or.inr ⟨not_not.1 hlead, h⟩
  · exact fun _ _ h => h

/-! ## Applying -/

/-- What the client of an entry is told, when the values were `values` before it. -/
def answerOf (values : StateMachine) (index : ℕ) (entry : LogEntry) : CommandResult :=
  match values.apply entry.command with
  | .ok (value, _) => .committed index entry.command.key value
  | .error e => .failed index entry.command.key e.message

theorem answerOf_index (values : StateMachine) (index : ℕ) (entry : LogEntry) :
    (answerOf values index entry).index = index := by
  unfold answerOf
  cases values.apply entry.command <;> rfl

/-- Tell the client, if there is one. -/
def answerClient (client : Option FutureId) (r : CommandResult)
    (completed : List (FutureId × CommandResult)) : List (FutureId × CommandResult) :=
  match client with
  | none => completed
  | some future => complete future r completed

theorem mem_complete {f f' : FutureId} {r r' : CommandResult}
    {completed : List (FutureId × CommandResult)} (h : (f, r) ∈ complete f' r' completed) :
    (f, r) ∈ completed ∨ f = f' ∧ r = r' := by
  unfold complete at h
  split_ifs at h with hany
  · exact Or.inl h
  · rcases List.mem_append.1 h with h | h
    · exact Or.inl h
    · exact Or.inr (Prod.ext_iff.1 (List.mem_singleton.1 h))

theorem mem_answerClient {f : FutureId} {r r' : CommandResult} {client : Option FutureId}
    {completed : List (FutureId × CommandResult)}
    (h : (f, r) ∈ answerClient client r' completed) :
    (f, r) ∈ completed ∨ client = some f ∧ r = r' := by
  cases client with
  | none => exact Or.inl h
  | some f' => exact (mem_complete h).imp_right fun heq => ⟨congrArg some heq.1.symm, heq.2⟩

theorem applyEntry_eq (entry : LogEntry) (s : RaftNode) :
    applyEntry entry s = { s with
      pendingClients := s.pendingClients.filter fun pending => pending.1 ≠ s.lastApplied
      history := { s.history with applied := s.history.applied ++ [entry] }
      stateMachine := s.stateMachine.next entry.command
      completed := answerClient (lookupKey s.lastApplied s.pendingClients)
        (answerOf s.stateMachine s.lastApplied entry) s.completed } := by
  unfold applyEntry answerOf answerClient StateMachine.next
  cases s.stateMachine.apply entry.command <;> rfl

/-- From `s` to `s'` the entries up to `index` were applied, and their clients told. -/
def Applies (index : ℕ) (s s' : RaftNode) : Prop :=
  ∃ machine pending completed history, s' = { s with
    lastApplied := index
    stateMachine := machine
    pendingClients := pending
    completed := completed
    history := history }

theorem applyNext_wp {count : ℕ} (h : s.lastApplied + count ≤ s.logStore.lastIndex) :
    Wp (applyNext count) (fun _ => Applies (s.lastApplied + count) s) (fun _ _ => False) s := by
  induction count generalizing s with
  | zero => exact ⟨_, _, _, _, rfl⟩
  | succ count ih =>
    unfold applyNext
    simp only [Wp.bind_iff, Wp.modify_iff, Wp.get_iff]
    apply logGet_wp (Nat.succ_pos s.lastApplied)
    · change s.lastApplied + 1 ≤ s.logStore.lastIndex
      omega
    · intro entry _
      simp only [Wp.bind_iff, Wp.modify_iff]
      rw [applyEntry_eq]
      have hle : s.lastApplied + 1 + count ≤ s.logStore.lastIndex := by omega
      apply (ih (s := { s with
        lastApplied := s.lastApplied + 1
        pendingClients := s.pendingClients.filter fun pending => pending.1 ≠ s.lastApplied + 1
        history := { s.history with applied := s.history.applied ++ [entry] }
        stateMachine := s.stateMachine.next entry.command
        completed := answerClient (lookupKey (s.lastApplied + 1) s.pendingClients)
          (answerOf s.stateMachine (s.lastApplied + 1) entry) s.completed }) hle).mono
      · rintro - s' ⟨machine, pending, completed, history, rfl⟩
        refine ⟨machine, pending, completed, history, ?_⟩
        rw [show s.lastApplied + (count + 1) = s.lastApplied + 1 + count by omega]
      · exact fun _ _ hf => hf

/-- **Applying** reaches the commit index, if the log does. -/
theorem applyCommitted_wp (h : s.lastApplied < s.commitIndex →
      s.commitIndex ≤ s.logStore.lastIndex) :
    Wp applyCommitted (fun _ s' => ∃ s₁, Applies (max s.lastApplied s.commitIndex) s s₁ ∧
      (s.commitIndex ≤ s.lastApplied → s₁ = s) ∧ s' = s₁.publishSnapshot)
      (fun _ _ => False) s := by
  unfold applyCommitted
  simp only [Wp.bind_iff, Wp.get_iff]
  rcases Nat.lt_or_ge s.lastApplied s.commitIndex with hlt | hge
  · have hle := h hlt
    apply (@applyNext_wp s (s.commitIndex - s.lastApplied) (by omega)).mono
    · intro _ s₁ hs₁
      rw [show s.lastApplied + (s.commitIndex - s.lastApplied) =
        max s.lastApplied s.commitIndex by omega] at hs₁
      exact ⟨s₁, hs₁, fun hge => absurd hlt (Nat.not_lt_of_ge hge), rfl⟩
    · exact fun _ _ hf => hf
  · rw [Nat.sub_eq_zero_of_le hge, Nat.max_eq_left hge]
    exact ⟨s, ⟨_, _, _, _, rfl⟩, fun _ => rfl, rfl⟩

/-! ## Patching the log -/

/-- The log with the entries behind `idx` brought in line: nothing changes as long as the terms
agree, and all entries from the first difference on replace what the log holds there. -/
def patched (log : LogStore) : ℕ → List LogEntry → LogStore
  | _, [] => log
  | idx, entry :: entries =>
    if (log[idx]?).map (·.term) = some entry.term then patched log (idx + 1) entries
    else log.take idx ++ entry :: entries

/-- The log differs from the entries behind `idx` at the index that `cut` records. -/
def CutAt (log : LogStore) (commitIndex idx : ℕ) (entries : List LogEntry) (cut : ℕ × ℕ) : Prop :=
  cut.2 = commitIndex ∧ ∃ i x entry, cut.1 = idx + i + 1 ∧ log[idx + i]? = some x ∧
    entries[i]? = some entry ∧ x.term ≠ entry.term

/-- What patching does: the log is `patched`, and truncated only where the terms differ. -/
def Patches (idx : ℕ) (entries : List LogEntry) (s s' : RaftNode) : Prop :=
  ∃ cuts, s' = { s with
      logStore := patched s.logStore idx entries
      history := { s.history with truncations := s.history.truncations ++ cuts } } ∧
    ∀ cut ∈ cuts, CutAt s.logStore s.commitIndex idx entries cut

theorem CutAt.cons {log : LogStore} {commitIndex idx : ℕ} {entry : LogEntry}
    {entries : List LogEntry} {cut : ℕ × ℕ} (h : CutAt log commitIndex (idx + 1) entries cut) :
    CutAt log commitIndex idx (entry :: entries) cut := by
  obtain ⟨hc, i, x, e, h₁, h₂, h₃, h₄⟩ := h
  refine ⟨hc, i + 1, x, e, ?_, ?_, h₃, h₄⟩
  · omega
  · rwa [show idx + (i + 1) = idx + 1 + i by omega]

/-- Entries behind the end of the log are appended. -/
theorem patchLog_end_wp {protos rest : List ProtoLogEntry} {entries : List LogEntry}
    (hall : List.Forall₂ (fun proto entry => ProtoMapper.fromProto proto = .ok entry) protos
      entries) {idx : ℕ} (hidx : s.logStore.length = idx) {Q : ℕ → RaftNode → Prop}
    {E : Fault → RaftNode → Prop}
    (hrest : Wp (patchLog rest (idx + entries.length)) Q E
      { s with logStore := s.logStore ++ entries }) :
    Wp (patchLog (protos ++ rest) idx) Q E s := by
  induction hall generalizing s idx with
  | nil =>
    rw [List.append_nil] at hrest
    exact hrest
  | @cons proto entry protos entries hp hall ih =>
    rw [List.cons_append]
    unfold patchLog
    simp only [hp, Wp.bind_iff, Wp.ofExcept_ok, Wp.get_iff, Wp.ite_iff, Wp.modify_iff]
    refine ⟨fun hle => absurd (hidx ▸ hle) (Nat.not_succ_le_self _), fun _ => ?_⟩
    have hlen : (s.logStore.append entry).length = idx + 1 := by
      rw [LogStore.append, List.length_append, hidx, List.length_singleton]
    apply ih hlen
    rw [List.length_cons] at hrest
    dsimp only
    rwa [LogStore.append, List.append_assoc, List.singleton_append,
      show idx + 1 + entries.length = idx + (entries.length + 1) by omega]

/-- Patching with entries that can be read, and what comes of the ones behind them. -/
theorem patchLog_append_wp {protos rest : List ProtoLogEntry} {entries : List LogEntry} {idx : ℕ}
    (hall : List.Forall₂ (fun proto entry => ProtoMapper.fromProto proto = .ok entry) protos
      entries) (hidx : idx ≤ s.logStore.length) {Q : ℕ → RaftNode → Prop}
    {E : Fault → RaftNode → Prop}
    (hrest : ∀ s', Patches idx entries s s' → Wp (patchLog rest (idx + entries.length)) Q E s') :
    Wp (patchLog (protos ++ rest) idx) Q E s := by
  induction hall generalizing s idx with
  | nil =>
    refine hrest s ⟨[], ?_, by simp⟩
    rw [List.append_nil]
    rfl
  | @cons proto entry protos entries hp hall ih =>
    rw [List.length_cons, show idx + (entries.length + 1) = idx + 1 + entries.length by omega]
      at hrest
    rw [List.cons_append]
    unfold patchLog
    simp only [hp, Wp.bind_iff, Wp.ofExcept_ok, Wp.get_iff, Wp.ite_iff, Wp.modify_iff]
    refine ⟨fun hle => ?_, fun hgt => ?_⟩
    · apply logGet_wp (Nat.succ_pos idx) hle
      intro x hx
      have hx' : s.logStore[idx]? = some x := hx
      simp only [Wp.ite_iff, Wp.bind_iff, Wp.modify_iff]
      refine ⟨fun ht => ?_, fun ht => ?_⟩
      · apply ih hle
        rintro s' ⟨cuts, rfl, hcuts⟩
        refine hrest _ ⟨cuts, ?_, fun cut hcut => (hcuts cut hcut).cons⟩
        rw [patched, if_pos (by rw [hx', Option.map_some, ht])]
      · -- the entries from here on replace the rest of the log
        have hlen : ((s.logStore.truncateFrom (idx + 1)).append entry).length = idx + 1 := by
          rw [LogStore.append, LogStore.truncateFrom, List.length_append, List.length_take,
            Nat.add_sub_cancel, Nat.min_eq_left hidx, List.length_singleton]
        refine patchLog_end_wp hall hlen (hrest _ ⟨[(idx + 1, s.commitIndex)], ?_, ?_⟩)
        · rw [patched, if_neg (by rw [hx', Option.map_some, Option.some_inj]; exact ht)]
          dsimp only
          rw [LogStore.append, LogStore.truncateFrom, Nat.add_sub_cancel, List.append_assoc,
            List.singleton_append]
        · intro cut hcut
          rw [List.mem_singleton.1 hcut]
          exact ⟨rfl, 0, x, entry, rfl, hx', rfl, ht⟩
    · have hend : s.logStore.length = idx := by
        unfold LogStore.lastIndex at hgt
        omega
      have hlen : (s.logStore.append entry).length = idx + 1 := by
        rw [LogStore.append, List.length_append, hend, List.length_singleton]
      refine patchLog_end_wp hall hlen (hrest _ ⟨[], ?_, by simp⟩)
      have hnone : s.logStore[idx]? = none := List.getElem?_eq_none hend.le
      rw [patched, if_neg (by simp [hnone]), ← hend, List.take_length, List.append_nil]
      dsimp only
      rw [LogStore.append, List.append_assoc, List.singleton_append]

theorem patchLog_wp {protos : List ProtoLogEntry} {entries : List LogEntry} {idx : ℕ}
    (hall : List.Forall₂ (fun proto entry => ProtoMapper.fromProto proto = .ok entry) protos
      entries) (hidx : idx ≤ s.logStore.length) :
    Wp (patchLog protos idx) (fun r s' => r = idx + entries.length ∧ Patches idx entries s s')
      (fun _ _ => False) s := by
  rw [← List.append_nil protos]
  exact patchLog_append_wp hall hidx fun s' hs => ⟨rfl, hs⟩

/-- The log holds an entry of the given term at the index, or the index is zero. -/
def PrevMatches (log : LogStore) (prevLogIndex prevLogTerm : ℕ) : Prop :=
  prevLogIndex ≤ log.length ∧
    (prevLogIndex ≠ 0 → ∃ x, log[prevLogIndex - 1]? = some x ∧ x.term = prevLogTerm)

/-- **Patching a matched log** leaves it as it is when it holds all of the sender's log, and turns
it into the sender's log otherwise. -/
theorem patched_eq {log senderLog : LogStore} (hmatch : Consensus.Matching log senderLog) {idx : ℕ}
    (hidx : idx ≤ senderLog.length) (htake : log.take idx = senderLog.take idx) :
    (senderLog <+: log → patched log idx (senderLog.drop idx) = log) ∧
      (¬ senderLog <+: log → patched log idx (senderLog.drop idx) = senderLog) := by
  induction hd : senderLog.drop idx generalizing idx with
  | nil =>
    refine ⟨fun _ => rfl, fun hn => absurd ?_ hn⟩
    have hend : senderLog.take idx = senderLog :=
      List.take_of_length_le (List.drop_eq_nil_iff.1 hd)
    rw [hend] at htake
    rw [← htake]
    exact List.take_prefix _ _
  | cons entry entries ih =>
    have hget : senderLog[idx]? = some entry := by
      have := congrArg (fun l => l[0]?) hd
      simpa using this
    have hdrop : senderLog.drop (idx + 1) = entries := by
      rw [← List.drop_drop, hd]
      rfl
    unfold patched
    split_ifs with ht
    · obtain ⟨x, hx, hxt⟩ := Option.map_eq_some_iff.1 ht
      exact ih (List.getElem?_eq_some_iff.1 hget).1 (hmatch idx x entry hx hget hxt) hdrop
    · refine ⟨fun hp => absurd ?_ ht, fun _ => ?_⟩
      · rw [Consensus.getElem?_of_start hp hget, Option.map_some]
      · rw [htake, ← hd, List.take_append_drop]

/-- A replica that holds the sender's entry before the request's entries holds all before it. -/
theorem take_eq_of_prevMatches {log senderLog : LogStore}
    (hmatch : Consensus.Matching log senderLog)
    {prevLogIndex prevLogTerm : ℕ} (hprev : PrevMatches log prevLogIndex prevLogTerm)
    (hterm : prevLogIndex ≠ 0 → ∃ entry, senderLog[prevLogIndex - 1]? = some entry ∧
      prevLogTerm = entry.term) :
    log.take prevLogIndex = senderLog.take prevLogIndex := by
  rcases Nat.eq_zero_or_pos prevLogIndex with rfl | hpos
  · rw [List.take_zero, List.take_zero]
  · obtain ⟨x, hx, hxt⟩ := hprev.2 (Nat.ne_of_gt hpos)
    obtain ⟨entry, hentry, het⟩ := hterm (Nat.ne_of_gt hpos)
    have := hmatch _ x entry hx hentry (hxt.trans het)
    rwa [Nat.sub_add_cancel hpos] at this

theorem prevLogMatches_wp (prevLogIndex prevLogTerm : ℕ) :
    Wp (prevLogMatches prevLogIndex prevLogTerm)
      (fun b s' => s' = s ∧ (b = true ↔ PrevMatches s.logStore prevLogIndex prevLogTerm))
      (fun _ _ => False) s := by
  unfold prevLogMatches
  simp only [Wp.bind_iff, Wp.get_iff, Wp.ite_iff, Wp.pure_iff]
  refine ⟨fun hgt => ⟨trivial, ?_⟩, fun hle => ⟨fun hpos => ?_, fun h0 => ⟨trivial, ?_⟩⟩⟩
  · refine ⟨fun h => absurd h Bool.false_ne_true, fun h => ?_⟩
    exact absurd h.1 (Nat.not_le_of_gt hgt)
  · apply logGet_wp hpos (Nat.le_of_not_lt hle)
    intro x hx
    refine ⟨rfl, ?_⟩
    rw [decide_eq_true_iff]
    refine ⟨fun ht => ⟨Nat.le_of_not_lt hle, fun _ => ⟨x, hx, ht⟩⟩, fun h => ?_⟩
    obtain ⟨y, hy, ht⟩ := h.2 (Nat.ne_of_gt hpos)
    rw [hx] at hy
    exact Option.some.inj hy ▸ ht
  · refine ⟨fun _ => ⟨Nat.le_of_not_lt hle, fun h => absurd h ?_⟩, fun _ => trivial⟩
    omega

end RaftNode

end CowRaft.Raft
