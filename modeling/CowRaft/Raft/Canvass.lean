import CowRaft.Raft.Awake
import CowRaft.Raft.Linearizable

/-!
# Winning an election

From every state a majority of the members can get a leader, whatever the others do or whatever was
lost before. A member whose log is up to date among them times out until its term is later than
theirs, and asks them for their votes, which they give (`exists_leader`). If it leads already, in an
earlier term than another member, the other one deposes it first.
-/

namespace CowRaft.Raft

open Consensus (Quorum UpToDate exists_upToDate)

variable {cfg : Config} {A : Protocol} {c c' : Cluster} {e : Event} {i j : NodeId}
  {s s' : RaftNode} {Q : Finset NodeId} {T v : ℕ} {log : LogStore} {J V : Finset NodeId}

/-! ## Runs of a majority -/

/-- No null key is submitted, and no leader is started. -/
def Proper (c : Cluster) (e : Event) : Prop :=
  Keyed c e ∧ ∀ i ∈ e.starts, (c.nodes i).status ≠ .leader

/-- Besides, only the replicas in `Q` do anything, and no client comes. -/
def Within (Q : Finset NodeId) (c : Cluster) (e : Event) : Prop :=
  Proper c e ∧ e.submission = none ∧ ∀ i ∈ c.actor e, i ∈ Q

instance (c : Cluster) (e : Event) : Decidable (Proper c e) :=
  inferInstanceAs (Decidable (Keyed c e ∧ ∀ i ∈ e.starts, (c.nodes i).status ≠ .leader))

namespace Cluster.RunWhere

variable {P P' : Cluster → Event → Prop}

theorem one (hP : P c e) (hs : Cluster.step cfg c e = some c') : RunWhere cfg P c c' :=
  Relation.ReflTransGen.single ⟨e, hP, hs⟩

theorem mono (h : RunWhere cfg P c c') (hle : ∀ c e, P c e → P' c e) : RunWhere cfg P' c c' := by
  induction h with
  | refl => exact Relation.ReflTransGen.refl
  | tail _ hs ih =>
    obtain ⟨e, hP, hs⟩ := hs
    exact ih.tail ⟨e, hle _ e hP, hs⟩

/-- A run goes on among `Q`. -/
theorem within (h : RunWhere cfg Proper (init cfg) c) (h' : RunWhere cfg (Within Q) c c') :
    RunWhere cfg Proper (init cfg) c' :=
  h.trans (h'.mono fun _ _ hP => hP.1)

end Cluster.RunWhere

theorem keyedLogs_of_proper (h : Cluster.RunWhere cfg Proper (Cluster.init cfg) c) :
    KeyedLogs c :=
  Cluster.RunWhere.induction h (KeyedLogs.init cfg) fun _ _ hk he _ hran hch =>
    hk.ran he.1.harmless hran hch

/-- A replica with keyed entries can send them all. -/
theorem KeyedLogs.not_blocked (h : KeyedLogs c) {p : NodeId} :
    ¬ RaftNode.Blocked (c.nodes i) p := by
  rintro ⟨hp, -, entry, hentry, hnull⟩
  rw [LogStore.entriesFrom_eq] at hentry
  exact h i ⟨List.ne_nil_of_mem hp, entry, List.mem_of_mem_drop hentry, hnull⟩

theorem Proper.steady (h : Proper c e) (hk : KeyedLogs c) : Steady c e :=
  ⟨h.2, fun _ _ _ _ => hk.not_blocked⟩

/-- No tick throws. -/
theorem steady_of_proper (h : Cluster.RunWhere cfg Proper (Cluster.init cfg) c) :
    Cluster.RunWhere cfg Steady (Cluster.init cfg) c := by
  induction h with
  | refl => exact Relation.ReflTransGen.refl
  | tail hrun hs ih =>
    obtain ⟨e, hP, hs⟩ := hs
    exact ih.tail ⟨e, hP.steady (keyedLogs_of_proper hrun), hs⟩

/-- A replica has no peers if it is the only member. -/
theorem NodeSim.peers_eq_nil (h : NodeSim cfg.members A i s) :
    s.peers = [] ↔ cfg.members = {i} := by
  rw [List.eq_nil_iff_forall_not_mem, Finset.eq_singleton_iff_unique_mem]
  constructor
  · exact fun hnone => ⟨h.member, fun j hj => by_contra fun hne =>
      hnone j ((h.mem_peers j).2 ⟨hj, hne⟩)⟩
  · exact fun hone j hj => ((h.mem_peers j).1 hj).2 (hone.2 j ((h.mem_peers j).1 hj).1)

/-! ## Tasks of an election -/

namespace RaftNode

/-- The replica leads the term `T` with the given log. -/
def LeadsTerm (T : ℕ) (log : LogStore) (s : RaftNode) : Prop :=
  s.status = .leader ∧ s.currentTerm = T ∧ s.logStore = log

theorem becomeLeader_leadsTerm (s : RaftNode) :
    Wp becomeLeader (fun _ => LeadsTerm s.currentTerm s.logStore) (fun _ _ => False) s := by
  apply (becomeLeader_wp s).mono
  · rintro - s' ⟨s₁, ⟨flight, sent, rfl, -⟩, rfl⟩
    exact ⟨rfl, rfl, rfl⟩
  · exact fun _ _ hf => hf

/-- A candidate alone leads at once, any other asks for votes. -/
theorem startElectionRound_wp (s : RaftNode) :
    Wp startElectionRound (fun _ s' =>
        s.peers = [] ∧ LeadsTerm (s.currentTerm + 1) s.logStore s' ∨
        s.peers ≠ [] ∧
          s' = s.beginElectionRound.publishSnapshot.resetElectionTimer.requestVotes)
      (fun _ _ => False) s := by
  unfold startElectionRound
  simp only [Wp.bind_iff, Wp.modify_iff, Wp.get_iff, Wp.ite_iff]
  refine ⟨fun hm => ?_, fun hm => Or.inr ⟨fun hnil => hm ?_, trivial⟩⟩
  · apply (becomeLeader_leadsTerm _).mono
    · refine fun _ _ hs => Or.inl ⟨?_, hs⟩
      change s.majority ≤ 1 at hm
      unfold majority clusterSize at hm
      exact List.length_eq_zero_iff.1 (by omega)
    · exact fun _ _ hf => hf
  · change s.majority ≤ 1
    unfold majority clusterSize
    rw [hnil]
    exact le_rfl

theorem electionTimeout_wp (id : TaskId) (s : RaftNode) :
    Wp (do
      modify fun s => { s with electionTimeouts := s.electionTimeouts.erase id }
      onElectionTimeout : Task Unit) (fun _ s' =>
        s.peers = [] ∧ LeadsTerm (s.currentTerm + 1) s.logStore s' ∨
        s.peers ≠ [] ∧ s' = (Cluster.timedOut id
          s).beginElectionRound.publishSnapshot.resetElectionTimer.requestVotes)
      (fun _ _ => False) s := by
  rw [Wp.bind_iff, Wp.modify_iff]
  exact startElectionRound_wp (Cluster.timedOut id s)

/-- **A later term** makes the replica a follower, who votes for any log that is up to date. -/
theorem handleRequestVote_later {request : RequestVoteRPC} (h : s.currentTerm < request.term) :
    Wp (handleRequestVoteInternal request) (fun r s' =>
        r = ⟨request.term, s.isLogUpToDate request.lastLogTerm request.lastLogIndex⟩ ∧
          s'.status = .follower ∧ s'.currentTerm = request.term ∧ s'.logStore = s.logStore)
      (fun _ _ => False) s := by
  have hfollows : (becomeFollower request.term s).status = .follower ∧
      (becomeFollower request.term s).currentTerm = request.term ∧
      (becomeFollower request.term s).logStore = s.logStore ∧
      (becomeFollower request.term s).votedFor = none := by
    rw [becomeFollower_eq]
    exact ⟨rfl, Nat.max_eq_right h.le, rfl, if_pos h⟩
  obtain ⟨hstatus, hterm, hlog, hvoted⟩ := hfollows
  have huptodate : (becomeFollower request.term s).isLogUpToDate request.lastLogTerm
      request.lastLogIndex = s.isLogUpToDate request.lastLogTerm request.lastLogIndex := by
    unfold isLogUpToDate
    rw [hlog]
  unfold handleRequestVoteInternal
  simp only [Wp.bind_iff, Wp.modify_iff, Wp.get_iff, Wp.ite_iff, Wp.pure_iff]
  refine ⟨fun hlt => absurd hlt (Nat.not_lt.2 h.le), fun _ => ⟨fun _ => ?_, fun hn => absurd h hn⟩⟩
  unfold answerRequestVote
  simp only [Wp.bind_iff, Wp.modify_iff, Wp.get_iff, Wp.ite_iff, Wp.pure_iff, huptodate]
  refine ⟨fun hg => ⟨?_, hstatus, hterm, hlog⟩, fun hg => ⟨?_, hstatus, hterm, hlog⟩⟩
  · exact congrArg₂ ResponseVoteRPC.mk hterm ((decide_eq_true hg).trans hg.2.symm)
  · have hfalse := Bool.eq_false_iff.2 fun hup => hg ⟨Or.inl hvoted, hup⟩
    exact congrArg₂ ResponseVoteRPC.mk hterm ((decide_eq_false hg).trans hfalse.symm)

/-- **A vote** is counted, and makes the candidate a leader if it completes a majority. -/
theorem onVoteResponse_granted (hc : s.status = .candidate) :
    Wp (onVoteResponse s.currentTerm ⟨s.currentTerm, true⟩) (fun _ s' =>
        LeadsTerm s.currentTerm s.logStore s' ∨
        s.votesReceived + 1 < s.majority ∧ s' = { s with votesReceived := s.votesReceived + 1 })
      (fun _ _ => False) s := by
  unfold onVoteResponse
  simp only [Wp.bind_iff, Wp.modify_iff, Wp.get_iff, Wp.ite_iff, Wp.pure_iff]
  refine ⟨fun hgt => absurd hgt (lt_irrefl _), fun _ => ⟨fun hs => ?_, fun _ => ⟨fun _ =>
    ⟨fun _ => ?_, fun hm => Or.inr ⟨Nat.lt_of_not_le hm, trivial⟩⟩, fun hf => ?_⟩⟩⟩
  · rcases hs with hne | hne
    · exact absurd hc hne
    · exact absurd rfl hne
  · apply (becomeLeader_leadsTerm _).mono
    · exact fun _ _ hs => Or.inl hs
    · exact fun _ _ hf => hf
  · exact absurd trivial hf

end RaftNode

/-! ## Events of an election -/

/-- Replica `i` is a candidate of the term `T` with `v` votes, and its requests to the peers in `J`
are on their way. -/
structure Canvass (c : Cluster) (i : NodeId) (T v : ℕ) (log : LogStore) (J : Finset NodeId) :
    Prop where
  status : (c.nodes i).status = .candidate
  currentTerm : (c.nodes i).currentTerm = T
  votesReceived : (c.nodes i).votesReceived = v
  logStore : (c.nodes i).logStore = log
  calls : ∀ j ∈ J, ∃ k : ℕ, c.voteCalls[k]? =
    some ⟨i, j, ⟨T, i, log.lastIndex, log.lastTerm⟩, false, none, false⟩

theorem Canvass.ne_leader (h : Canvass c i T v log J) : (c.nodes i).status ≠ .leader :=
  fun hl => ServerStatus.noConfusion (h.status.symm.trans hl)

namespace Cluster

theorem step_deliverVote (cfg : Config) {k : ℕ} {call : VoteCall} (hk : c.voteCalls[k]? = some call)
    (hd : call.delivered = false) :
    step cfg c (.deliverVote k) =
      some { (c.exec call.peer (RaftNode.handleRequestVoteInternal call.request)).1 with
        voteCalls := (c.exec call.peer (RaftNode.handleRequestVoteInternal
          call.request)).1.voteCalls.set k { call with
            delivered := true
            response := (c.exec call.peer
              (RaftNode.handleRequestVoteInternal call.request)).2 } } := by
  simp only [step, hk, Option.bind_eq_bind, Option.bind_some, hd]
  rfl

theorem step_answerVote (cfg : Config) {k : ℕ} {call : VoteCall} (hk : c.voteCalls[k]? = some call)
    {response : ResponseVoteRPC} (hr : call.response = some response)
    (ha : call.answered = false) :
    step cfg c (.answerVote k) =
      some { (c.exec call.caller (RaftNode.onVoteResponse call.request.term response)).1 with
        voteCalls := (c.exec call.caller (RaftNode.onVoteResponse call.request.term
          response)).1.voteCalls.set k { call with answered := true } } := by
  simp only [step, hk, Option.bind_eq_bind, Option.bind_some, hr, ha]
  rfl

/-- Calls stay where they are, but for the one that is set. -/
theorem getElem?_put_voteCalls {k k' : ℕ} {call call' : VoteCall}
    (hk : c.voteCalls[k]? = some call) (hne : k' ≠ k) :
    ((c.put i s).voteCalls.set k' call')[k]? = some call := by
  rw [List.getElem?_set_ne hne]
  exact (List.getElem?_append_left (List.getElem?_eq_some_iff.1 hk).1).trans hk

theorem getElem?_put_voteCalls_self {k : ℕ} {call call' : VoteCall}
    (hk : c.voteCalls[k]? = some call) :
    ((c.put i s).voteCalls.set k call')[k]? = some call' := by
  have hlt := (List.getElem?_eq_some_iff.1 hk).1
  refine List.getElem?_set_self ?_
  exact hlt.trans_le (List.length_append ▸ Nat.le_add_right _ _)

end Cluster

/-- A replica that does not lead is started, if it was not. -/
theorem exists_started (hi : i ∈ cfg.members) (hQ : i ∈ Q) (hne : (c.nodes i).status ≠ .leader) :
    ∃ c', Cluster.RunWhere cfg (Within Q) c c' ∧ (∀ j, j ≠ i → c'.nodes j = c.nodes j) ∧
      i ∈ c'.started ∧ (c'.nodes i).status ≠ .leader ∧
      (c'.nodes i).currentTerm = (c.nodes i).currentTerm ∧
      (c'.nodes i).logStore = (c.nodes i).logStore := by
  by_cases hs : i ∈ c.started
  · exact ⟨c, Relation.ReflTransGen.refl, fun _ _ => rfl, hs, hne, rfl, rfl⟩
  · have hstep : Cluster.step cfg c (.start i) = some
        { c.put i (c.nodes i).resetElectionTimer with started := insert i c.started } := by
      rw [Cluster.step, if_pos ⟨hi, hs⟩]
      rfl
    have hwithin : Within Q c (.start i) := by
      refine ⟨⟨fun _ h => (Option.not_mem_none _ h).elim, fun j hj => ?_⟩, rfl, fun j hj => ?_⟩
      · rw [← Option.some.inj hj]
        exact hne
      · rw [← Option.some.inj hj]
        exact hQ
    refine ⟨_, .one hwithin hstep, fun j hj => Function.update_of_ne hj _ _,
      Finset.mem_insert_self _ _, ?_⟩
    have hnode : (c.put i (c.nodes i).resetElectionTimer).nodes i =
        { (c.nodes i).resetElectionTimer with voteRequests := [], appendRequests := [] } :=
      Function.update_self _ _ _
    refine ⟨?_, ?_⟩
    · rw [hnode]
      exact hne
    · rw [hnode]
      exact ⟨rfl, rfl⟩

/-- An event in which nothing is submitted and nobody is started, of a replica in `Q`. -/
theorem within_of (hc : e.submission = none) (hs : e.starts = none) (hi : c.actor e = some i)
    (hQ : i ∈ Q) : Within Q c e := by
  refine ⟨⟨fun _ h => ?_, fun _ h => ?_⟩, hc, fun j h => ?_⟩
  · cases e with
    | submit => cases hc
    | _ => cases h
  · rw [hs] at h
    cases h
  · rw [hi] at h
    rwa [← Option.some.inj h]

/-- **A timeout**: a member alone leads, any other asks its peers for their votes. -/
theorem exists_campaign (h : Cluster.RunWhere cfg Proper (Cluster.init cfg) c)
    (hi : i ∈ cfg.members) (hQ : i ∈ Q) (hne : (c.nodes i).status ≠ .leader) :
    ∃ c', Cluster.RunWhere cfg (Within Q) c c' ∧ (∀ j, j ≠ i → c'.nodes j = c.nodes j) ∧
      (cfg.members = {i} ∧
        (c'.nodes i).LeadsTerm ((c.nodes i).currentTerm + 1) (c.nodes i).logStore ∨
      cfg.members ≠ {i} ∧ Canvass c' i ((c.nodes i).currentTerm + 1) 1 (c.nodes i).logStore
        (cfg.members.erase i)) := by
  obtain ⟨c₁, hrun, hother, hs, hne₁, hterm, hlog⟩ := exists_started hi hQ hne
  have h₁ := h.within hrun
  obtain ⟨A, hA⟩ := exists_safe h₁.run
  obtain ⟨id, -, hid⟩ := armed_of_started h₁.run hs hne₁
  obtain ⟨s, hs, hexec⟩ := Cluster.exec_ok (RaftNode.electionTimeout_wp id (c₁.nodes i))
  have hstep : Cluster.step cfg c₁ (.electionTimeout i id) = some (c₁.put i s) := by
    rw [Cluster.step, if_pos ⟨hi, hid⟩, hexec]
  have hnode : (c₁.put i s).nodes i = { s with voteRequests := [], appendRequests := [] } :=
    Function.update_self _ _ _
  refine ⟨_, hrun.trans (Cluster.RunWhere.one (within_of rfl rfl rfl hQ) hstep),
    fun j hj => (Function.update_of_ne hj _ _).trans (hother j hj), ?_⟩
  have hpeers := (hA.node i hi).peers_eq_nil
  rw [← hterm, ← hlog, hnode]
  refine hs.imp (fun hs => ⟨hpeers.1 hs.1, hs.2⟩) ?_
  rintro ⟨hp, rfl⟩
  refine ⟨fun hone => hp (hpeers.2 hone), ?_⟩
  have hid : (c₁.nodes i).nodeId = i := (hA.node i hi).nodeId
  have hsent : (c₁.nodes i).voteRequests = [] := (hA.sent i hi).1
  refine ⟨by rw [hnode]; rfl, by rw [hnode]; rfl, by rw [hnode]; rfl, by rw [hnode]; rfl,
    fun j hj => ?_⟩
  have hpeer : j ∈ (c₁.nodes i).peers :=
    ((hA.node i hi).mem_peers j).2 ⟨Finset.mem_of_mem_erase hj, Finset.ne_of_mem_erase hj⟩
  obtain ⟨m, hm⟩ := List.getElem?_of_mem hpeer
  refine ⟨c₁.voteCalls.length + m, ?_⟩
  change (c₁.voteCalls ++ List.map _ ((c₁.nodes i).voteRequests ++ List.map _ (c₁.nodes i).peers))[
    c₁.voteCalls.length + m]? = _
  rw [List.getElem?_append_right (Nat.le_add_right _ _), Nat.add_sub_cancel_left, hsent,
    List.nil_append, List.getElem?_map, List.getElem?_map, hm, Option.map_some, Option.map_some]
  change some (VoteCall.mk (c₁.nodes i).nodeId j ⟨_, (c₁.nodes i).nodeId, _, _⟩ _ _ _) = _
  rw [hid]
  rfl

/-- **Timeouts** raise the term beyond any bound. -/
theorem exists_campaign_beyond (h : Cluster.RunWhere cfg Proper (Cluster.init cfg) c)
    (hi : i ∈ cfg.members) (hQ : i ∈ Q) (hne : (c.nodes i).status ≠ .leader)
    (hmany : cfg.members ≠ {i}) (n : ℕ) :
    ∃ c', Cluster.RunWhere cfg (Within Q) c c' ∧ (∀ j, j ≠ i → c'.nodes j = c.nodes j) ∧
      Canvass c' i ((c.nodes i).currentTerm + 1 + n) 1 (c.nodes i).logStore
        (cfg.members.erase i) := by
  induction n with
  | zero =>
    obtain ⟨c', hrun, hother, ⟨hone, -⟩ | ⟨-, hc⟩⟩ := exists_campaign h hi hQ hne
    · exact absurd hone hmany
    · exact ⟨c', hrun, hother, hc⟩
  | succ n ih =>
    obtain ⟨c₁, hrun, hother, hc⟩ := ih
    obtain ⟨c', hrun', hother', ⟨hone, -⟩ | ⟨-, hc'⟩⟩ :=
      exists_campaign (h.within hrun) hi hQ hc.ne_leader
    · exact absurd hone hmany
    · rw [hc.currentTerm, hc.logStore] at hc'
      exact ⟨c', hrun.trans hrun', fun j hj => (hother' j hj).trans (hother j hj), hc'⟩

/-- **Asking a peer** of an earlier term: it becomes a follower, and its answer is its vote if the
candidate's log is up to date. -/
theorem Canvass.ask (cfg : Config) (hc : Canvass c i T v log J) (hj : j ∈ J) (hQ : j ∈ Q)
    (hne : j ≠ i) (hterm : (c.nodes j).currentTerm < T) :
    ∃ c', ∃ k : ℕ, ∃ call : VoteCall, Cluster.RunWhere cfg (Within Q) c c' ∧
      (∀ m, m ≠ j → c'.nodes m = c.nodes m) ∧ (c'.nodes j).status = .follower ∧
      (c'.nodes j).currentTerm = T ∧ (c'.nodes j).logStore = (c.nodes j).logStore ∧
      Canvass c' i T v log (J.erase j) ∧
      c'.voteCalls[k]? = some call ∧ call.caller = i ∧ call.request.term = T ∧
      call.answered = false ∧ (UpToDate log (c.nodes j).logStore →
        call.response = some ⟨T, true⟩) := by
  obtain ⟨k, hk⟩ := hc.calls j hj
  set request : RequestVoteRPC := ⟨T, i, log.lastIndex, log.lastTerm⟩ with hrequest
  have hlater : (c.nodes j).currentTerm < request.term := hterm
  have hstep := Cluster.step_deliverVote cfg hk rfl
  dsimp only at hstep
  rcases Cluster.exec_elim (RaftNode.handleRequestVote_later hlater) with
    ⟨r, s, ⟨rfl, hstatus, hs, hlog⟩, hexec⟩ | ⟨-, -, hf, -⟩
  · rw [hexec] at hstep
    have hnode : (c.put j s).nodes j = { s with voteRequests := [], appendRequests := [] } :=
      Function.update_self _ _ _
    have hother : ∀ m, m ≠ j → (c.put j s).nodes m = c.nodes m :=
      fun m hm => Function.update_of_ne hm _ _
    have hactor : c.actor (.deliverVote k) = some j := by
      rw [Cluster.actor, hk]
      rfl
    refine ⟨_, k, _, .one (within_of rfl rfl hactor hQ) hstep, hother, ?_, ?_, ?_, ?_,
      Cluster.getElem?_put_voteCalls_self hk, rfl, rfl, rfl, fun hup => ?_⟩
    · exact hnode ▸ hstatus
    · exact hnode ▸ hs
    · exact hnode ▸ hlog
    · have hi := hother i hne.symm
      refine ⟨hi ▸ hc.status, hi ▸ hc.currentTerm, hi ▸ hc.votesReceived, hi ▸ hc.logStore,
        fun m hm => ?_⟩
      obtain ⟨hmj, hm⟩ := Finset.mem_erase.1 hm
      obtain ⟨k', hk'⟩ := hc.calls m hm
      refine ⟨k', Cluster.getElem?_put_voteCalls hk' ?_⟩
      rintro rfl
      rw [hk] at hk'
      exact hmj (congrArg VoteCall.peer (Option.some.inj hk')).symm
    · rw [(isLogUpToDate_iff rfl (LogStore.lastTerm_eq log)).2 hup]
  · exact hf.elim

/-- **A peer's vote** is counted: the candidate leads, or has one vote more. -/
theorem Canvass.poll (cfg : Config) (hc : Canvass c i T v log J) (hi : i ∈ Q) (hj : j ∈ J)
    (hQ : j ∈ Q) (hne : j ≠ i) (hterm : (c.nodes j).currentTerm < T)
    (hup : UpToDate log (c.nodes j).logStore) :
    ∃ c', Cluster.RunWhere cfg (Within Q) c c' ∧
      (∀ m, m ≠ i → m ≠ j → c'.nodes m = c.nodes m) ∧ (c'.nodes j).currentTerm = T ∧
      ((c'.nodes i).LeadsTerm T log ∨
        v + 1 < (c.nodes i).majority ∧ (c'.nodes i).majority = (c.nodes i).majority ∧
          Canvass c' i T (v + 1) log (J.erase j)) := by
  obtain ⟨c₁, k, call, hrun, hother, -, hj₁, -, hc₁, hk, rfl, rfl, ha, hresponse⟩ :=
    hc.ask cfg hj hQ hne hterm
  have hstep := Cluster.step_answerVote cfg hk (hresponse hup) ha
  have hvote := RaftNode.onVoteResponse_granted hc₁.status
  rw [hc₁.currentTerm] at hvote
  obtain ⟨s, hs, hexec⟩ := Cluster.exec_ok hvote
  rw [hexec] at hstep
  have hnode : (c₁.put call.caller s).nodes call.caller =
      { s with voteRequests := [], appendRequests := [] } := Function.update_self _ _ _
  have hactor : c₁.actor (.answerVote k) = some call.caller := by
    rw [Cluster.actor, hk]
    rfl
  have hsame : (c₁.nodes call.caller).majority = (c.nodes call.caller).majority := by
    rw [hother _ hne.symm]
  refine ⟨_, hrun.trans (Cluster.RunWhere.one (within_of rfl rfl hactor hi) hstep),
    fun m hm hmj => ?_, ?_, ?_⟩
  · exact (Function.update_of_ne hm _ _).trans (hother m hmj)
  · rw [← hj₁]
    exact congrArg RaftNode.currentTerm (Function.update_of_ne hne _ _)
  · rcases hs with ⟨hstatus, hterm, hlog⟩ | ⟨hlt, rfl⟩
    · left
      exact ⟨hnode ▸ hstatus, hnode ▸ hterm, hnode ▸ hlog.trans hc₁.logStore⟩
    · right
      rw [hc₁.votesReceived, hsame] at hlt
      refine ⟨hlt, ?_, ?_, ?_, ?_, ?_, fun m hm => ?_⟩
      · exact (congrArg RaftNode.majority hnode).trans hsame
      · exact (congrArg RaftNode.status hnode).trans hc₁.status
      · exact congrArg RaftNode.currentTerm hnode
      · exact (congrArg RaftNode.votesReceived hnode).trans (congrArg (· + 1) hc₁.votesReceived)
      · exact (congrArg RaftNode.logStore hnode).trans hc₁.logStore
      · obtain ⟨k', hk'⟩ := hc₁.calls m hm
        refine ⟨k', Cluster.getElem?_put_voteCalls hk' ?_⟩
        rintro rfl
        rw [hk'] at hk
        rw [← Option.some.inj hk] at hresponse
        exact absurd (hresponse hup) (Option.some_ne_none _).symm

/-- **The votes of a majority** make the candidate a leader. -/
theorem Canvass.elect (cfg : Config) (hc : Canvass c i T v log J) (hi : i ∈ Q) (hQ : V ⊆ Q)
    (hJ : V ⊆ J) (hiV : i ∉ V) (hterm : ∀ j ∈ V, (c.nodes j).currentTerm < T)
    (hup : ∀ j ∈ V, UpToDate log (c.nodes j).logStore) (hv : v < (c.nodes i).majority)
    (hmany : (c.nodes i).majority ≤ v + V.card) :
    ∃ c', Cluster.RunWhere cfg (Within Q) c c' ∧
      (∀ m, m ≠ i → m ∉ V → c'.nodes m = c.nodes m) ∧
      (∀ j ∈ V, (c'.nodes j).currentTerm ≤ T) ∧ (c'.nodes i).LeadsTerm T log := by
  induction V using Finset.induction_on generalizing c v J with
  | empty => exact absurd hmany (Nat.not_le.2 hv)
  | insert j V hj ih =>
    obtain ⟨hjQ, hQ⟩ := Finset.insert_subset_iff.1 hQ
    obtain ⟨hjJ, hJ⟩ := Finset.insert_subset_iff.1 hJ
    obtain ⟨hij, hiV⟩ := not_or.1 (mt Finset.mem_insert.2 hiV)
    obtain ⟨hjterm, hterm⟩ := (Finset.forall_mem_insert _ _ _).1 hterm
    obtain ⟨hjup, hup⟩ := (Finset.forall_mem_insert _ _ _).1 hup
    rw [Finset.card_insert_of_notMem hj] at hmany
    obtain ⟨c₁, hrun, hother, hj₁, hleads | ⟨hv₁, hmajority, hc₁⟩⟩ :=
      hc.poll cfg hi hjJ hjQ (Ne.symm hij) hjterm hjup
    · refine ⟨c₁, hrun, fun m hm hmV => hother m hm (mt ?_ hmV), fun m hm => ?_, hleads⟩
      · exact fun hmj => Finset.mem_insert.2 (Or.inl hmj)
      rcases Finset.mem_insert.1 hm with rfl | hm
      · exact hj₁.le
      · rw [hother m (ne_of_mem_of_not_mem hm hiV) (ne_of_mem_of_not_mem hm hj)]
        exact (hterm m hm).le
    · have hsame : ∀ m ∈ V, c₁.nodes m = c.nodes m := fun m hm =>
        hother m (ne_of_mem_of_not_mem hm hiV) (ne_of_mem_of_not_mem hm hj)
      have hJ₁ : V ⊆ J.erase j := Finset.subset_erase.2 ⟨hJ, hj⟩
      rw [← hmajority] at hv₁ hmany
      obtain ⟨c', hrun', hother', hle, hleads⟩ := ih hc₁ hQ hJ₁ hiV
        (fun m hm => hsame m hm ▸ hterm m hm) (fun m hm => hsame m hm ▸ hup m hm) hv₁ (by omega)
      refine ⟨c', hrun.trans hrun', fun m hm hmV => ?_, fun m hm => ?_, hleads⟩
      · obtain ⟨hmj, hmV⟩ := not_or.1 (mt Finset.mem_insert.2 hmV)
        exact (hother' m hm hmV).trans (hother m hm hmj)
      rcases Finset.mem_insert.1 hm with rfl | hm
      · rw [hother' m (Ne.symm hij) hj]
        exact hj₁.le
      · exact hle m hm

/-- **A member leads**, if it does not lead and has a log as long as the others'. -/
theorem exists_elected (h : Cluster.RunWhere cfg Proper (Cluster.init cfg) c)
    (hQ : Quorum cfg.members Q) (hi : i ∈ Q) (hne : (c.nodes i).status ≠ .leader)
    (hup : ∀ j ∈ Q, UpToDate (c.nodes i).logStore (c.nodes j).logStore) :
    ∃ c', Cluster.RunWhere cfg (Within Q) c c' ∧ (c'.nodes i).status = .leader ∧
      ∀ j ∈ Q, (c'.nodes j).currentTerm ≤ (c'.nodes i).currentTerm := by
  by_cases hone : cfg.members = {i}
  · obtain ⟨c', hrun, -, ⟨-, hleads⟩ | ⟨hmany, -⟩⟩ := exists_campaign h (hQ.1 hi) hi hne
    · refine ⟨c', hrun, hleads.1, fun j hj => ?_⟩
      have hj := hQ.1 hj
      rw [hone] at hj
      rw [Finset.mem_singleton.1 hj]
    · exact absurd hone hmany
  · obtain ⟨c₁, hrun, hother, hc⟩ := exists_campaign_beyond h (hQ.1 hi) hi hne hone
      (Q.sup fun j => (c.nodes j).currentTerm)
    obtain ⟨A, hA⟩ := exists_safe (h.within hrun).run
    have hcard := (hA.node i (hQ.1 hi)).card_members
    have hmajority := hQ.2
    have hV : (Q.erase i).card + 1 = Q.card := Finset.card_erase_add_one hi
    have htwo : 1 < cfg.members.card := by
      refine Nat.lt_of_not_le fun hle => hone ?_
      exact Finset.eq_singleton_iff_unique_mem.2
        ⟨hQ.1 hi, fun j hj => Finset.card_le_one.1 hle j hj i (hQ.1 hi)⟩
    have hsame : ∀ j ∈ Q.erase i, c₁.nodes j = c.nodes j :=
      fun j hj => hother j (Finset.ne_of_mem_erase hj)
    have hterm : ∀ j ∈ Q.erase i, (c₁.nodes j).currentTerm <
        (c.nodes i).currentTerm + 1 + Q.sup fun j => (c.nodes j).currentTerm := by
      intro j hj
      have hle : (c.nodes j).currentTerm ≤ Q.sup fun j => (c.nodes j).currentTerm :=
        Finset.le_sup (f := fun j => (c.nodes j).currentTerm) (Finset.mem_of_mem_erase hj)
      rw [hsame j hj]
      omega
    obtain ⟨c', hrun', -, hle, hleads⟩ := hc.elect cfg hi (Finset.erase_subset i Q)
      (Finset.erase_subset_erase i hQ.1) (Finset.notMem_erase i Q) hterm
      (fun j hj => hsame j hj ▸ hup j (Finset.mem_of_mem_erase hj))
      (by unfold RaftNode.majority; omega) (by unfold RaftNode.majority; omega)
    refine ⟨c', hrun.trans hrun', hleads.1, fun j hj => ?_⟩
    by_cases hji : j = i
    · rw [hji]
    · rw [hleads.2.1]
      exact hle j (Finset.mem_erase.2 ⟨hji, hj⟩)

/-- **A majority can get a leader**: from every state of a run, whatever was lost on the way, there
is a run in which only the replicas of a given quorum act that makes one of them a leader, whose
term none of them is beyond. -/
theorem exists_leader (h : Cluster.RunWhere cfg Proper (Cluster.init cfg) c)
    (hQ : Quorum cfg.members Q) :
    ∃ c', Cluster.RunWhere cfg (Within Q) c c' ∧ ∃ i ∈ Q, (c'.nodes i).status = .leader ∧
      ∀ j ∈ Q, (c'.nodes j).currentTerm ≤ (c'.nodes i).currentTerm := by
  obtain ⟨l, hl, hlater⟩ :=
    Finset.exists_max_image Q (fun j => (c.nodes j).currentTerm) hQ.nonempty
  obtain ⟨i, hi, hup⟩ := exists_upToDate (fun j => (c.nodes j).logStore) hQ.nonempty
  by_cases hlead : (c.nodes l).status = .leader
  · exact ⟨c, Relation.ReflTransGen.refl, l, hl, hlead, hlater⟩
  by_cases hstatus : (c.nodes i).status = .leader
  · -- another member is in a later term than this leader, and deposes it
    have hli : l ≠ i := fun hli => hlead (hli ▸ hstatus)
    have hmany : cfg.members ≠ {l} := fun hone =>
      hli (Finset.mem_singleton.1 (hone ▸ hQ.1 hi)).symm
    obtain ⟨c₁, hrun₁, hother₁, hc₁⟩ := exists_campaign_beyond h (hQ.1 hl) hl hlead hmany 0
    have hterm : (c₁.nodes i).currentTerm < (c.nodes l).currentTerm + 1 + 0 := by
      rw [hother₁ i hli.symm]
      exact Nat.lt_succ_of_le (hlater i hi)
    obtain ⟨c₂, -, -, hrun₂, hother₂, hfollower, -, hlog, hc₂, -⟩ :=
      hc₁.ask cfg (Finset.mem_erase.2 ⟨hli.symm, hQ.1 hi⟩) hi hli.symm hterm
    have hsame : ∀ j, (c₂.nodes j).logStore = (c.nodes j).logStore := by
      intro j
      by_cases hj : j = i
      · rw [hj, hlog, hother₁ i hli.symm]
      rw [hother₂ j hj]
      by_cases hjl : j = l
      · rw [hjl, hc₁.logStore]
      · rw [hother₁ j hjl]
    have hne₂ : (c₂.nodes i).status ≠ .leader := by
      rw [hfollower]
      exact ServerStatus.noConfusion
    obtain ⟨c', hrun', hleads⟩ := exists_elected (h.within (hrun₁.trans hrun₂)) hQ hi hne₂
      (fun j hj => by rw [hsame i, hsame j]; exact hup j hj)
    exact ⟨c', (hrun₁.trans hrun₂).trans hrun', i, hi, hleads⟩
  · obtain ⟨c', hrun, hleads⟩ := exists_elected h hQ hi hstatus hup
    exact ⟨c', hrun, i, hi, hleads⟩

end CowRaft.Raft
