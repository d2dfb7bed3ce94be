import CowRaft.Raft.Simulation

/-!
# Elections follow the protocol

Stepping down, voting, campaigning and becoming the leader, as steps of the protocol.
-/

namespace CowRaft.Raft

open Consensus (State Inv Evolves Move Quorum)

variable {M : Finset NodeId} {A A' : Protocol} {n : NodeId} {s s' : RaftNode}

/-- A task ends in a state that follows the protocol, with all committed entries applied. -/
def Done (M : Finset NodeId) (n : NodeId) (A : Protocol) (s : RaftNode) : Prop :=
  Follows M n A s ∧ s.lastApplied = s.commitIndex

/-- A task of a replica with peers throws as it meets a null key, and leaves a state that follows
the protocol. -/
def Fails (M : Finset NodeId) (n : NodeId) (A : Protocol) (e : Fault) (s : RaftNode) : Prop :=
  Done M n A s ∧ e = .nullPointer ∧ s.peers ≠ [] ∧ ∃ entry ∈ s.logStore, entry.command.key = none

theorem Done.head (hs : Move M n A A') (h : Done M n A' s) : Done M n A s :=
  ⟨h.1.head hs, h.2⟩

theorem Fails.head {e : Fault} (hs : Move M n A A') (h : Fails M n A' e s) : Fails M n A e s :=
  ⟨h.1.head hs, h.2⟩

/-- What is proved of a task after some steps holds of the task. -/
theorem Wp.head {α : Type} {task : Task α} (hs : Move M n A A')
    (h : Wp task (fun _ => Done M n A') (Fails M n A') s) :
    Wp task (fun _ => Done M n A) (Fails M n A) s :=
  h.mono (fun _ _ hd => hd.head hs) (fun _ _ hf => hf.head hs)

namespace NodeSim

theorem publishSnapshot (h : NodeSim M A n s) : NodeSim M A n s.publishSnapshot :=
  { h with }

theorem resetElectionTimer (h : NodeSim M A n s) : NodeSim M A n s.resetElectionTimer :=
  { h with }

/-- The members are this replica and its peers. -/
theorem card_members (h : NodeSim M A n s) : M.card = s.clusterSize := by
  have hM : M = insert n s.peers.toFinset := by
    ext j
    rw [Finset.mem_insert, List.mem_toFinset, h.mem_peers]
    by_cases hj : j = n
    · simp [hj, h.member]
    · simp [hj]
  have hn : n ∉ s.peers.toFinset := by
    rw [List.mem_toFinset, h.mem_peers]
    exact fun hn => hn.2 rfl
  rw [hM, Finset.card_insert_of_notMem hn, List.toFinset_card_of_nodup h.peers_nodup]
  rfl

/-- **Majorities are quorums.** -/
theorem quorum (h : NodeSim M A n s) {S : Finset NodeId} (hS : S ⊆ M)
    (hm : s.majority ≤ S.card) : Quorum M S := by
  refine ⟨hS, ?_⟩
  rw [h.card_members]
  unfold RaftNode.majority at hm
  omega

/-! ## Requests -/

theorem sends (h : NodeSim M A n s) (hI : Inv M A) (hs : RaftNode.Sends s s') :
    NodeSim M A n s' := by
  obtain ⟨flight, sent, rfl, -, hsent⟩ := hs
  refine { h with appendRequests := ?_ }
  intro r hr
  rcases List.mem_append.1 hr with hr | hr
  · exact h.appendRequests r hr
  obtain ⟨hl, hp, -, hb, hlog⟩ := hsent r hr
  have hlead := h.leading hl
  have hstart : s.logStore = A.leaderLog s.currentTerm := by
    rw [← h.term, ← h.log]
    apply (hI.logs.leading _).symm
    rw [h.term]
    exact hlead.leader
  refine ⟨hp, ?_⟩
  rw [hlog]
  exact {
    leaderId := hb.leaderId.trans h.nodeId
    leader := hb.term ▸ hlead.leader
    start := by rw [hb.term, ← hstart]
    prevLogIndex := by
      obtain ⟨next, hnext, -, hle⟩ := hlead.next r.1 hp
      rw [hb.prevLogIndex, hnext, Option.getD_some]
      omega
    prevLogTerm := hb.prevLogTerm
    entries := hb.entries
    leaderCommit := by
      have := hI.commits n
      rwa [h.term, h.commit, h.log, ← hb.term, ← hb.leaderCommit] at this }

/-- A leader knows where to continue with each peer. -/
theorem next_le (h : NodeSim M A n s) (hl : s.status = .leader) {p : NodeId} (hp : p ∈ s.peers)
    {next : ℕ} (hnext : lookupKey p s.nextIndex = some next) :
    next ≤ s.logStore.lastIndex + 1 := by
  obtain ⟨next', hnext', -, hle⟩ := (h.leading hl).next p hp
  rw [hnext] at hnext'
  exact Option.some.inj hnext' ▸ hle

theorem sendFails (h : NodeSim M A n s) (hI : Inv M A) (hdone : s.lastApplied = s.commitIndex)
    {e : Fault} (hf : RaftNode.SendFails s e s') : Fails M n A e s' := by
  obtain ⟨hs, rfl, -, p, hp, -, entry, hentry, hnull⟩ := hf
  rw [LogStore.entriesFrom_eq] at hentry
  refine ⟨⟨⟨A, Move.refl hI, h.sends hI hs⟩, ?_⟩, rfl, ?_⟩
  · obtain ⟨flight, sent, rfl, -⟩ := hs
    exact hdone
  · obtain ⟨flight, sent, rfl, -⟩ := hs
    exact ⟨List.ne_nil_of_mem hp, entry, List.mem_of_mem_drop hentry, hnull⟩

theorem sent (h : NodeSim M A n s) (hI : Inv M A) (hdone : s.lastApplied = s.commitIndex)
    (hs : RaftNode.Sends s s') : NodeSim M A n s' ∧ s'.lastApplied = s'.commitIndex := by
  refine ⟨h.sends hI hs, ?_⟩
  obtain ⟨flight, sent, rfl, -⟩ := hs
  exact hdone

/-- Replication follows the protocol, which does not know of messages on their way. -/
theorem replicateToAllPeers (h : NodeSim M A n s) (hI : Inv M A)
    (hdone : s.lastApplied = s.commitIndex) :
    Wp RaftNode.replicateToAllPeers
      (fun _ s' => NodeSim M A n s' ∧ s'.lastApplied = s'.commitIndex) (Fails M n A) s := by
  apply (RaftNode.replicateToAllPeers_wp fun hl p hp next hn => h.next_le hl hp hn).mono
  · exact fun _ _ hs => h.sent hI hdone hs
  · exact fun _ _ hf => h.sendFails hI hdone hf

theorem replicateTo (h : NodeSim M A n s) (hI : Inv M A) (hdone : s.lastApplied = s.commitIndex)
    {p : NodeId} (hp : p ∈ s.peers) :
    Wp (RaftNode.replicateTo p) (fun _ => Done M n A) (Fails M n A) s := by
  apply (RaftNode.replicateTo_wp (fun _ => hp) fun hl next hn => h.next_le hl hp hn).mono
  · intro _ s' hs
    obtain ⟨h', hdone'⟩ := h.sent hI hdone hs
    exact ⟨⟨A, Move.refl hI, h'⟩, hdone'⟩
  · exact fun _ _ hf => h.sendFails hI hdone hf

end NodeSim

/-! ## Stepping down -/

/-- Failing clients answers all of them that this is not the leader. -/
theorem mem_failPendingClients {f : FutureId} {r : CommandResult}
    (h : (f, r) ∈ s.failPendingClients.completed) : (f, r) ∈ s.completed ∨ r = .notLeader := by
  unfold RaftNode.failPendingClients at h
  dsimp only at h
  generalize s.pendingClients = pending at h
  induction pending using List.reverseRecOn with
  | nil => exact Or.inl h
  | append_singleton pending p ih =>
    rw [List.foldl_append, List.foldl_cons, List.foldl_nil, RaftNode.complete] at h
    split_ifs at h with hany
    · exact ih h
    · rcases List.mem_append.1 h with h | h
      · exact ih h
      · exact Or.inr (Prod.ext_iff.1 (List.mem_singleton.1 h)).2

theorem Clients.fail {status : ServerStatus} {log : LogStore} {applied : List LogEntry}
    {created : List (FutureId × ℕ × LogEntry)}
    (h : Clients status log applied s.pendingClients s.completed created) :
    Clients .follower log applied [] s.failPendingClients.completed created where
  idle _ := rfl
  pending _ _ hp := absurd hp List.not_mem_nil
  answered f r hr := by
    rcases mem_failPendingClients hr with hr | hr
    · exact h.answered f r hr
    · exact Or.inl hr

/-- Stepping down adopts the term that was seen. -/
theorem NodeSim.becomeFollower (h : NodeSim M A n s) (hI : Inv M A) {seenTerm : ℕ}
    (hle : s.currentTerm ≤ seenTerm) : Follows M n A (RaftNode.becomeFollower seenTerm s) := by
  rcases Nat.lt_or_ge s.currentTerm seenTerm with hlt | hge
  · obtain ⟨A', hm, hterm, hlog, hcommit, hvote, hnone⟩ := hI.adopt (h.term ▸ hlt)
    refine ⟨A', hm, ?_⟩
    rw [RaftNode.becomeFollower_eq, Nat.max_eq_right hle, if_pos hlt]
    exact { h with
      toPast := { h.toPast.evolves hm.evolves with }
      term := hterm
      log := hlog.trans h.log
      commit := hcommit.trans h.commit
      vote := hnone
      own := fun hne => absurd rfl hne
      candidate := fun hc => by cases hc
      leading := fun hl => by cases hl
      clients := h.clients.fail
      ballots := fun T c => by rw [hvote]; exact h.ballots T c }
  · refine ⟨A, Move.refl hI, ?_⟩
    rw [RaftNode.becomeFollower_eq, Nat.max_eq_left hge, if_neg (Nat.not_lt.2 hge)]
    exact { h with
      own := fun hne => absurd rfl hne
      candidate := fun hc => by cases hc
      leading := fun hl => by cases hl
      clients := h.clients.fail }

/-! ## Becoming the leader -/

theorem sortedKeys_fill (peers : List NodeId) (v : ℕ) :
    SortedKeys (peers.foldl (fun index peerId => upsert peerId v index) []) := by
  induction peers using List.reverseRecOn with
  | nil => exact SortedKeys.nil
  | append_singleton peers q ih =>
    rw [List.foldl_append, List.foldl_cons, List.foldl_nil]
    exact ih.upsert q v

theorem mem_fill {peers : List NodeId} {v m : ℕ} {p : NodeId}
    (h : (p, m) ∈ peers.foldl (fun index peerId => upsert peerId v index) []) :
    p ∈ peers ∧ m = v := by
  induction peers using List.reverseRecOn with
  | nil => cases h
  | append_singleton peers q ih =>
    rw [List.foldl_append, List.foldl_cons, List.foldl_nil] at h
    rcases mem_upsert h with h | h
    · obtain ⟨rfl, rfl⟩ := Prod.ext_iff.1 h
      exact ⟨by simp, rfl⟩
    · exact ⟨List.mem_append_left _ (ih h).1, (ih h).2⟩

/-- A new leader has nothing acknowledged yet but its own log. -/
theorem Leading.fill (hlead : A.leader s.currentTerm = some n)
    (hack : s.logStore.length ≤ A.acked s.currentTerm n) :
    Leading A n s.currentTerm s.peers s.logStore
      (s.peers.foldl (fun matchIndex peerId => upsert peerId 0 matchIndex) [])
      (s.peers.foldl (fun nextIndex peerId =>
        upsert peerId (s.logStore.lastIndex + 1) nextIndex) []) where
  leader := hlead
  acked := hack
  sorted := sortedKeys_fill _ _
  matched p m hp := by
    obtain ⟨hmem, rfl⟩ := mem_fill hp
    exact ⟨hmem, Nat.zero_le _⟩
  known p hp := by
    rw [← exists_lookupKey_iff]
    exact ⟨0, by rw [RaftNode.lookupKey_fill, if_pos hp]⟩
  next p hp := by
    refine ⟨s.logStore.lastIndex + 1, ?_, ?_, ?_⟩
    · rw [RaftNode.lookupKey_fill, if_pos hp]
    · omega
    · exact le_rfl

/-- **A candidate with the votes of a quorum is elected.** -/
theorem NodeSim.becomeLeader (h : NodeSim M A n s) (hI : Inv M A)
    (hdone : s.lastApplied = s.commitIndex) (hc : s.status = .candidate) {S : Finset NodeId}
    (hS : Quorum M S) (hv : ∀ m ∈ S, A.vote m s.currentTerm = some n) :
    Wp RaftNode.becomeLeader (fun _ => Done M n A) (Fails M n A) s := by
  obtain ⟨hcand, hlead⟩ := h.candidate hc
  obtain ⟨A', hm, hk, hlog, hleader, helect, hack⟩ := hI.lead hS (by rwa [h.term])
    (by rwa [h.term, h.log]) (by rwa [h.term])
  apply Wp.head hm
  rw [h.term] at hleader helect hack
  rw [h.log] at helect hack
  unfold RaftNode.becomeLeader
  simp only [Wp.bind_iff, Wp.modify_iff]
  have h₁ : NodeSim M A' n s.initLeader.publishSnapshot :=
    { h with
      toPast := { h.toPast.evolves hm.evolves with
        led := by
          intro T l hl
          rcases List.mem_append.1 hl with hl | hl
          · exact (h.toPast.evolves hm.evolves).led T l hl
          · obtain ⟨rfl, rfl⟩ := Prod.ext_iff.1 (List.mem_singleton.1 hl)
            exact ⟨hleader, helect⟩ }
      term := hk.term.trans h.term
      log := hlog.trans h.log
      commit := hk.commit.trans h.commit
      vote := (hk.vote _).trans h.vote
      own := fun _ => h.own (by rw [hc]; exact ServerStatus.noConfusion)
      candidate := fun hc => by cases hc
      leading := fun _ => Leading.fill hleader hack
      clients := h.clients.active ServerStatus.noConfusion
      ballots := fun T c => by rw [hk.vote]; exact h.ballots T c }
  apply (h₁.replicateToAllPeers hm.inv hdone).mono
  · rintro - s₂ ⟨h₂, hdone₂⟩
    exact ⟨⟨A', Move.refl hm.inv, { h₂ with }⟩, hdone₂⟩
  · exact fun _ _ hf => hf

/-! ## Campaigning -/

/-- **An election timeout starts a candidacy.** -/
theorem NodeSim.startElectionRound (h : NodeSim M A n s) (hI : Inv M A)
    (hdone : s.lastApplied = s.commitIndex) :
    Wp RaftNode.startElectionRound (fun _ => Done M n A) (Fails M n A) s := by
  obtain ⟨A', hm, hterm, hlog, hcommit, hvote, hcand, hlead⟩ := hI.campaign (n := n)
  apply Wp.head hm
  rw [h.term] at hterm hcand hlead
  rw [h.log] at hcand
  have h₁ : NodeSim M A' n s.beginElectionRound.publishSnapshot.resetElectionTimer :=
    { h with
      toPast := { h.toPast.evolves hm.evolves with }
      term := hterm
      log := hlog.trans h.log
      commit := hcommit.trans h.commit
      vote := by
        change A'.vote n (s.currentTerm + 1) = some s.nodeId
        rw [hvote, h.term, h.nodeId]
        exact Or.inr ⟨rfl, rfl⟩
      own := fun _ => congrArg some h.nodeId
      candidate := fun _ => ⟨hcand, hlead⟩
      leading := fun hl => by cases hl
      clients := h.clients.active ServerStatus.noConfusion
      ballots := by
        intro T c
        change (T, c) ∈ s.history.ballots ++ [(s.currentTerm + 1, s.nodeId)] ↔ _
        rw [hvote, List.mem_append, h.ballots, List.mem_singleton, Prod.mk.injEq, h.term,
          h.nodeId] }
  unfold RaftNode.startElectionRound
  simp only [Wp.bind_iff, Wp.modify_iff, Wp.get_iff, Wp.ite_iff]
  refine ⟨fun hmaj => ?_, fun _ => ⟨⟨A', Move.refl hm.inv, ?_⟩, hdone⟩⟩
  · -- a cluster of one
    apply h₁.becomeLeader hm.inv hdone rfl (S := {n})
    · apply h₁.quorum (Finset.singleton_subset_iff.2 h.member)
      rw [Finset.card_singleton]
      exact hmaj
    · intro m hm'
      rw [Finset.mem_singleton.1 hm', h₁.vote]
      exact h₁.own ServerStatus.noConfusion
  · refine { h₁ with voteRequests := ?_ }
    intro r hr
    rcases List.mem_append.1 hr with hr | hr
    · exact h₁.voteRequests r hr
    · obtain ⟨p, hp, rfl⟩ := List.mem_map.1 hr
      exact ⟨hp, h.nodeId, s.logStore, hcand, rfl, LogStore.lastTerm_eq _⟩

/-- **A response to a candidate** elects it when the votes suffice. -/
theorem NodeSim.onVoteResponse (h : NodeSim M A n s) (hI : Inv M A)
    (hdone : s.lastApplied = s.commitIndex) {roundTerm : ℕ} {response : ResponseVoteRPC}
    (hquorum : s.status = .candidate → s.currentTerm = roundTerm → response.voteGranted = true →
      s.majority ≤ s.votesReceived + 1 →
        ∃ S, Quorum M S ∧ ∀ m ∈ S, A.vote m s.currentTerm = some n) :
    Wp (RaftNode.onVoteResponse roundTerm response) (fun _ => Done M n A) (Fails M n A) s := by
  unfold RaftNode.onVoteResponse
  simp only [Wp.bind_iff, Wp.modify_iff, Wp.get_iff, Wp.ite_iff, Wp.pure_iff]
  have hsame : Done M n A s := ⟨⟨A, Move.refl hI, h⟩, hdone⟩
  refine ⟨fun hgt => ?_, fun _ => ⟨fun _ => hsame, fun hstale => ⟨fun hg => ?_, fun _ => hsame⟩⟩⟩
  · refine ⟨h.becomeFollower hI (Nat.le_of_lt hgt), ?_⟩
    rw [RaftNode.becomeFollower_eq]
    exact hdone
  · obtain ⟨hc, ht⟩ := not_or.1 hstale
    have hcand := not_not.1 hc
    have h₁ : NodeSim M A n { s with votesReceived := s.votesReceived + 1 } := { h with }
    refine ⟨fun hmaj => ?_, fun _ => ⟨⟨A, Move.refl hI, h₁⟩, hdone⟩⟩
    obtain ⟨S, hS, hv⟩ := hquorum hcand (not_not.1 ht) hg hmaj
    exact h₁.becomeLeader hI hdone hcand hS hv

/-! ## Voting -/

theorem isLogUpToDate_iff {l : LogStore} {request : RequestVoteRPC}
    (hlen : request.lastLogIndex = l.length)
    (hterm : request.lastLogTerm = Consensus.lastTerm l) :
    s.isLogUpToDate request.lastLogTerm request.lastLogIndex = true ↔
      Consensus.UpToDate l s.logStore := by
  unfold RaftNode.isLogUpToDate Consensus.UpToDate LogStore.lastIndex
  rw [LogStore.lastTerm_eq, hlen, hterm]
  dsimp only
  split_ifs with hne
  · rw [decide_eq_true_iff]
    constructor
    · exact Or.inl
    · rintro (hlt | heq)
      · exact hlt
      · exact absurd heq.1 hne
  · rw [decide_eq_true_iff]
    constructor
    · exact fun hle => Or.inr ⟨not_not.1 hne, hle⟩
    · rintro (hlt | heq)
      · omega
      · exact heq.2

/-- **A vote is given once**, to a candidate whose log is up to date. -/
theorem NodeSim.grantVote (h : NodeSim M A n s) (hI : Inv M A) {c : NodeId} (hne : c ≠ n)
    {l : LogStore} (hc : A.cand c s.currentTerm = some l)
    (hl : Consensus.UpToDate l s.logStore) (hv : s.votedFor = none ∨ s.votedFor = some c) :
    ∃ A', Move M n A A' ∧ NodeSim M A' n (s.grantVote c) ∧ A'.vote n s.currentTerm = some c := by
  have hvote : ∀ d, A.vote n (A.term n) = some d → d = c := by
    intro d hd
    rw [h.term, h.vote] at hd
    rcases hv with hv | hv
    · rw [hv] at hd
      cases hd
    · rw [hv] at hd
      exact (Option.some.inj hd).symm
  -- a candidate or leader has voted for itself
  have hfollower : s.status = .follower := by
    by_contra hs
    have := h.own hs
    rcases hv with hv | hv
    · rw [hv] at this
      cases this
    · rw [hv] at this
      exact hne (Option.some.inj this)
  obtain ⟨A', hm, hterm, hlog, hcommit, hvote'⟩ :=
    hI.ballot (by rwa [h.term]) (by rwa [h.log]) hvote
  rw [h.term] at hvote'
  have hgiven : A'.vote n s.currentTerm = some c := by
    rw [hvote']
    exact Or.inr ⟨rfl, rfl⟩
  refine ⟨A', hm, ?_, hgiven⟩
  exact { h with
    toPast := { h.toPast.evolves hm.evolves with }
    term := hterm.trans h.term
    log := hlog.trans h.log
    commit := hcommit.trans h.commit
    vote := hgiven
    own := fun hs => absurd hfollower hs
    candidate := fun hs => by
      change s.status = _ at hs
      rw [hfollower] at hs
      cases hs
    leading := fun hs => by
      change s.status = _ at hs
      rw [hfollower] at hs
      cases hs
    ballots := by
      intro T d
      change (T, d) ∈ s.history.ballots ++ [(s.currentTerm, c)] ↔ _
      rw [hvote', List.mem_append, h.ballots, List.mem_singleton, Prod.mk.injEq] }

/-- A vote was asked for, and a response that grants it tells a vote that was given. -/
def Voted (M : Finset NodeId) (n : NodeId) (A : Protocol) (request : RequestVoteRPC) (c : NodeId)
    (response : ResponseVoteRPC) (s : RaftNode) : Prop :=
  ∃ A', Move M n A A' ∧ NodeSim M A' n s ∧ s.lastApplied = s.commitIndex ∧
    (response.voteGranted = true → A'.vote n request.term = some c)

theorem Voted.head {c : NodeId} {request : RequestVoteRPC} {response : ResponseVoteRPC}
    (hm : Move M n A A') (h : Voted M n A' request c response s) :
    Voted M n A request c response s := by
  obtain ⟨A'', hm', h⟩ := h
  exact ⟨A'', hm.trans hm', h⟩

/-- Once the terms agree, a request for a vote is answered by the vote. -/
theorem NodeSim.answerRequestVote (h : NodeSim M A n s) (hI : Inv M A)
    (hdone : s.lastApplied = s.commitIndex) {c : NodeId} {request : RequestVoteRPC}
    (hr : VoteRequested A c request) (hne : c ≠ n) (hterm : s.currentTerm = request.term) :
    Wp (RaftNode.answerRequestVote request) (Voted M n A request c) (fun _ _ => False) s := by
  obtain ⟨l, hl, hlen, hlast⟩ := hr.log
  unfold RaftNode.answerRequestVote
  simp only [Wp.bind_iff, Wp.modify_iff, Wp.get_iff, Wp.ite_iff, Wp.pure_iff]
  refine ⟨fun hg => ?_, fun hg => ⟨A, Move.refl hI, h.publishSnapshot, hdone, fun hg' => ?_⟩⟩
  · obtain ⟨hv, hup⟩ := hg
    rw [hr.candidateId] at hv ⊢
    obtain ⟨A', hm, h', hvote⟩ := h.grantVote hI hne (hterm ▸ hl)
      ((isLogUpToDate_iff hlen hlast).1 hup) hv
    exact ⟨A', hm, h'.resetElectionTimer.publishSnapshot, hdone, fun _ => hterm ▸ hvote⟩
  · exact absurd (decide_eq_true_iff.1 hg') hg

/-- **Requests for votes** follow the protocol, and throw nothing. -/
theorem NodeSim.handleRequestVote (h : NodeSim M A n s) (hI : Inv M A)
    (hdone : s.lastApplied = s.commitIndex) {c : NodeId} {request : RequestVoteRPC}
    (hr : VoteRequested A c request) (hne : c ≠ n) :
    Wp (RaftNode.handleRequestVoteInternal request) (Voted M n A request c) (fun _ _ => False)
      s := by
  unfold RaftNode.handleRequestVoteInternal
  simp only [Wp.bind_iff, Wp.modify_iff, Wp.get_iff, Wp.ite_iff, Wp.pure_iff]
  refine ⟨fun hlt => ⟨A, Move.refl hI, h, hdone, fun hg => absurd hg Bool.false_ne_true⟩,
    fun hge => ⟨fun hgt => ?_, fun hle => ?_⟩⟩
  · obtain ⟨A', hm, h'⟩ := h.becomeFollower hI (Nat.le_of_lt hgt)
    have hdone' : (RaftNode.becomeFollower request.term s).lastApplied =
        (RaftNode.becomeFollower request.term s).commitIndex := by
      rw [RaftNode.becomeFollower_eq]
      exact hdone
    have hterm : (RaftNode.becomeFollower request.term s).currentTerm = request.term := by
      rw [RaftNode.becomeFollower_eq]
      exact Nat.max_eq_right (Nat.le_of_lt hgt)
    apply (h'.answerRequestVote hm.inv hdone' (hr.evolves hm.evolves) hne hterm).mono
    · exact fun _ _ hv => hv.head hm
    · exact fun _ _ hf => hf
  · exact h.answerRequestVote hI hdone hr hne (by omega)

end CowRaft.Raft
