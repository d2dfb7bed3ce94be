import CowRaft.Raft.Safety

/-!
# What leaders know of their peers

A leader credits each peer with a part of its log (`matchIndex`), and what it commits rests on that.
The credit is given when a response comes, for what was sent with the request: by then the leader
may have been deposed and elected again, and other responses may have come first. Yet a peer that
is credited with entries has once held them in the leader's term, and holds them as long as it is
in that term (`match_index_sound`). A run is taken with all the states it has been in (`Trace`), so
that one can speak of what a peer has once held (`Held`).
-/

namespace CowRaft.Raft

open Consensus (State Inv)

variable {cfg : Config} {A A' : Protocol} {c c' : Cluster} {e : Event} {i p : NodeId}
  {s s' : RaftNode}

/-! ## Crediting peers -/

namespace RaftNode

/-- What a leader credits a peer with is a part of its log that it was `Seen` to hold. -/
def Credited (Seen : NodeId → ℕ → LogStore → Prop) (s : RaftNode) : Prop :=
  s.status = .leader → ∀ p m, lookupKey p s.matchIndex = some m →
    m ≤ s.logStore.length ∧ (0 < m → Seen p s.currentTerm (s.logStore.take m))

/-- Neither the role nor the log has changed, nor what is known of peers. -/
def Level (_ok : Bool) (s s' : RaftNode) : Prop :=
  s'.status = s.status ∧ s'.currentTerm = s.currentTerm ∧ s'.matchIndex = s.matchIndex ∧
    s'.logStore = s.logStore

instance : Composes Level where
  refl _ _ := ⟨rfl, rfl, rfl, rfl⟩
  trans h h' := ⟨h'.1.trans h.1, h'.2.1.trans h.2.1, h'.2.2.1.trans h.2.2.1,
    h'.2.2.2.trans h.2.2.2⟩

theorem replicateTo_level (peerId : NodeId) : Keeps Level (replicateTo peerId) :=
  replicateTo_keeps (fun _ _ _ => ⟨rfl, rfl, rfl, rfl⟩) fun _ _ _ _ _ _ => ⟨rfl, rfl, rfl, rfl⟩

theorem replicateToAllPeers_level : Keeps Level replicateToAllPeers :=
  replicateToAllPeers_keeps replicateTo_level

/-- Trying a peer again. -/
theorem retry_level (peerId : NodeId) (prevLogIndex : ℕ) : Keeps Level (do
    modify (lowerNextIndex peerId prevLogIndex)
    replicateTo peerId : Task Unit) :=
  Keeps.bind (Keeps.modify fun _ => ⟨rfl, rfl, rfl, rfl⟩) fun _ => replicateTo_level _

theorem advanceCommitIndex_level : Keeps Level advanceCommitIndex :=
  advanceCommitIndex_keeps fun _ _ => ⟨rfl, rfl, rfl, rfl⟩

theorem applyCommitted_level : Keeps Level applyCommitted := by
  refine applyCommitted_keeps (fun _ => ⟨rfl, rfl, rfl, rfl⟩) (fun entry s => ?_)
    fun _ => ⟨rfl, rfl, rfl, rfl⟩
  rw [applyEntry_eq]
  exact ⟨rfl, rfl, rfl, rfl⟩

variable {Seen Seen' : NodeId → ℕ → LogStore → Prop}

namespace Credited

theorem mono (h : Credited Seen s) (hle : ∀ p T l, Seen p T l → Seen' p T l) :
    Credited Seen' s :=
  fun hl p m hm => ⟨(h hl p m hm).1, fun hpos => hle _ _ _ ((h hl p m hm).2 hpos)⟩

theorem of_ne (hne : s.status ≠ .leader) : Credited Seen s :=
  fun hl => absurd hl hne

theorem level {ok : Bool} (h : Credited Seen s) (hs : Level ok s s') : Credited Seen s' := by
  obtain ⟨hstatus, hterm, hmatch, hlog⟩ := hs
  unfold Credited
  rw [hstatus, hterm, hmatch, hlog]
  exact h

theorem wp {α : Type} {m : Task α} (h : Credited Seen s) (hm : Keeps Level m) :
    Wp m (fun _ => Credited Seen) (fun _ => Credited Seen) s :=
  (hm s).mono (fun _ _ hs => h.level hs) fun _ _ hs => h.level hs

end Credited

theorem initLeader_credited (s : RaftNode) : Credited Seen s.initLeader := by
  intro _ p m hm
  change lookupKey p (s.peers.foldl _ []) = some m at hm
  rw [lookupKey_fill] at hm
  split_ifs at hm
  obtain rfl := Option.some.inj hm
  exact ⟨Nat.zero_le _, fun hpos => absurd hpos (lt_irrefl 0)⟩

theorem becomeFollower_credited (seenTerm : ℕ) (s : RaftNode) :
    Credited Seen (becomeFollower seenTerm s) := by
  rw [becomeFollower_eq]
  exact Credited.of_ne ServerStatus.noConfusion

theorem becomeLeader_credited (s : RaftNode) :
    Wp becomeLeader (fun _ => Credited Seen) (fun _ => Credited Seen) s := by
  have hinit : Credited Seen s.initLeader.publishSnapshot := initLeader_credited s
  have hrest : Keeps Level (do
      replicateToAllPeers
      modify scheduleHeartbeat : Task Unit) :=
    Keeps.bind replicateToAllPeers_level fun _ => Keeps.modify fun _ => ⟨rfl, rfl, rfl, rfl⟩
  unfold becomeLeader
  rw [Wp.bind_iff, Wp.modify_iff, Wp.bind_iff, Wp.modify_iff]
  exact hinit.wp hrest

theorem startElectionRound_credited (s : RaftNode) :
    Wp startElectionRound (fun _ => Credited Seen) (fun _ => Credited Seen) s := by
  unfold startElectionRound
  simp only [Wp.bind_iff, Wp.modify_iff, Wp.get_iff, Wp.ite_iff]
  exact ⟨fun _ => becomeLeader_credited _, fun _ => Credited.of_ne ServerStatus.noConfusion⟩

theorem onVoteResponse_credited (h : Credited Seen s) (roundTerm : ℕ)
    (response : ResponseVoteRPC) :
    Wp (onVoteResponse roundTerm response) (fun _ => Credited Seen) (fun _ => Credited Seen) s := by
  unfold onVoteResponse
  simp only [Wp.bind_iff, Wp.modify_iff, Wp.get_iff, Wp.ite_iff, Wp.pure_iff]
  exact ⟨fun _ => becomeFollower_credited _ _, fun _ => ⟨fun _ => h, fun _ => ⟨fun _ =>
    ⟨fun _ => becomeLeader_credited _, fun _ => h⟩, fun _ => h⟩⟩⟩

theorem Polled.credited {request : RequestVoteRPC} (hs : Polled request s s')
    (h : Credited Seen s) : Credited Seen s' := by
  rcases hs with rfl | ⟨s₀, h₀, hs⟩
  · exact h
  have hfirst : Credited Seen s₀ := by
    rcases h₀ with ⟨-, rfl⟩ | ⟨-, rfl⟩
    · exact h
    · exact becomeFollower_credited _ _
  rcases hs with rfl | ⟨-, rfl⟩
  · exact hfirst
  · exact hfirst

theorem Heard.credited {request : RequestAppendEntriesRPC} {ok : Bool}
    (hs : Heard request ok s s') (h : Credited Seen s) : Credited Seen s' := by
  rcases hs with rfl | ⟨s₀, h₀, hs⟩
  · exact h
  have hfollower : s₀.status = .follower := by
    rcases h₀ with ⟨⟨-, hf⟩, rfl⟩ | ⟨-, rfl⟩
    · exact hf
    · rw [becomeFollower_eq]
  have hstatus : s'.status = s₀.status := congrArg Roles.status hs.roles
  apply Credited.of_ne
  rw [hstatus, hfollower]
  exact ServerStatus.noConfusion

/-- A new entry stands behind all that peers are credited with. -/
theorem appendForClient_credited (h : Credited Seen s) (future : FutureId) (command : Command) :
    Credited Seen (s.appendForClient future command) := by
  intro hl p m hm
  obtain ⟨hle, hseen⟩ := h hl p m hm
  have hlog : (s.appendForClient future command).logStore =
      s.logStore ++ [⟨s.currentTerm, command⟩] := rfl
  rw [hlog, List.length_append, List.take_append_of_le_length hle]
  exact ⟨Nat.le_add_right_of_le hle, hseen⟩

theorem submitCommand_credited (h : Credited Seen s) (future : FutureId) (command : Command) :
    Wp (submitCommand future command) (fun _ => Credited Seen) (fun _ => Credited Seen) s := by
  have hrest : Keeps Level (do
      replicateToAllPeers
      advanceCommitIndex
      applyCommitted : Task Unit) :=
    Keeps.bind replicateToAllPeers_level fun _ => Keeps.bind advanceCommitIndex_level fun _ =>
      applyCommitted_level
  unfold submitCommand
  rw [Wp.bind_iff, Wp.get_iff, Wp.ite_iff]
  refine ⟨fun _ => h, fun _ => ?_⟩
  rw [Wp.bind_iff, Wp.modify_iff]
  exact (appendForClient_credited h future command).wp hrest

/-- An acknowledged part of the log is merged with what the peer is credited with. -/
theorem recordMatch_credited (h : Credited Seen s) {peerId : NodeId} {newMatch : ℕ}
    (hack : s.status = .leader → newMatch ≤ s.logStore.length ∧
      Seen peerId s.currentTerm (s.logStore.take newMatch)) :
    Credited Seen (recordMatch peerId newMatch s) := by
  intro hl p m hm
  change lookupKey p (upsert peerId (s.mergedMatch peerId newMatch) s.matchIndex) = some m at hm
  rw [lookupKey_upsert] at hm
  split_ifs at hm with hp
  · obtain rfl := Option.some.inj hm
    subst hp
    obtain ⟨hle, hseen⟩ := hack hl
    unfold mergedMatch
    cases hold : lookupKey p s.matchIndex with
    | none => exact ⟨hle, fun _ => hseen⟩
    | some old =>
      dsimp only
      rcases max_choice old newMatch with hmax | hmax
      · rw [hmax]
        exact h hl p old hold
      · rw [hmax]
        exact ⟨hle, fun _ => hseen⟩
  · exact h hl p m hm

/-- **A response credits the peer** with what it acknowledges in the present term, and no other
does. -/
theorem onAppendEntriesResponse_credited (h : Credited Seen s) {peerId : NodeId}
    {roundTerm prevLogIndex sentCount : ℕ} {response : ResponseAppendEntriesRPC}
    (hack : response.success = true → s.status = .leader → s.currentTerm = roundTerm →
      prevLogIndex + sentCount ≤ s.logStore.length ∧
        Seen peerId s.currentTerm (s.logStore.take (prevLogIndex + sentCount))) :
    Wp (onAppendEntriesResponse peerId roundTerm prevLogIndex sentCount response)
      (fun _ => Credited Seen) (fun _ => Credited Seen) s := by
  have hsuccess : Keeps Level (do
      advanceCommitIndex
      applyCommitted
      let s ← get
      if (lookupKey peerId s.nextIndex).getD 0 ≤ s.logStore.lastIndex then replicateTo peerId
      else pure () : Task Unit) :=
    Keeps.bind advanceCommitIndex_level fun _ => Keeps.bind applyCommitted_level fun _ =>
      Keeps.bind Keeps.get fun _ => Keeps.ite (fun _ => replicateTo_level _) fun _ => Keeps.pure _
  unfold onAppendEntriesResponse
  rw [Wp.bind_iff, Wp.get_iff, Wp.ite_iff, Wp.ite_iff, Wp.ite_iff]
  refine ⟨fun _ => becomeFollower_credited _ _, fun _ => ⟨fun _ => h, fun hstale =>
    ⟨fun hok => ?_, fun _ => h.wp (retry_level _ _)⟩⟩⟩
  obtain ⟨hl, hterm⟩ := not_or.1 hstale
  rw [Wp.bind_iff, Wp.modify_iff]
  have hcredit := recordMatch_credited h fun _ => hack hok (not_not.1 hl) (not_not.1 hterm)
  exact hcredit.wp hsuccess

/-- A response to an append RPC that refuses it or is of another term than the present one. -/
def Fruitless (roundTerm : ℕ) (response : ResponseAppendEntriesRPC) (s : RaftNode) :
    Prop :=
  response.success = false ∨ s.currentTerm ≠ roundTerm

theorem onAppendEntriesResponse_fruitless {roundTerm : ℕ} {response : ResponseAppendEntriesRPC}
    (h : Fruitless roundTerm response s) (peerId : NodeId) (prevLogIndex sentCount : ℕ) :
    Wp (onAppendEntriesResponse peerId roundTerm prevLogIndex sentCount response)
      (fun _ s' => s'.matchIndex = s.matchIndex) (fun _ s' => s'.matchIndex = s.matchIndex) s := by
  unfold onAppendEntriesResponse
  rw [Wp.bind_iff, Wp.get_iff, Wp.ite_iff, Wp.ite_iff, Wp.ite_iff, Wp.modify_iff]
  refine ⟨fun _ => ?_, fun _ => ⟨fun _ => rfl, fun hstale => ⟨fun hok => ?_, fun _ => ?_⟩⟩⟩
  · rw [becomeFollower_eq]
  · rcases h with hno | hne
    · rw [hno] at hok
      exact absurd hok Bool.false_ne_true
    · exact absurd (Or.inr hne) hstale
  · exact (retry_level _ _ s).mono (fun _ _ hs => hs.2.2.1) fun _ _ hs => hs.2.2.1

/-- A replica that accepts a request is in its term. -/
theorem handleAppendEntries_term (request : RequestAppendEntriesRPC) (s : RaftNode) :
    Wp (handleAppendEntriesInternal request)
      (fun r s' => r.success = true → s'.currentTerm = request.term) (fun _ _ => True) s := by
  have hcalm : ∀ s : RaftNode, s.currentTerm = request.term → Wp (appendFromLeader request)
      (fun r s' => r.success = true → s'.currentTerm = request.term) (fun _ _ => True) s := by
    intro s hterm
    apply (appendFromLeader_role request s).mono
    · intro _ s' hs _
      have hsame : s'.currentTerm = s.currentTerm := congrArg Roles.currentTerm hs.roles
      rw [hsame, hterm]
    · exact fun _ _ _ => trivial
  unfold handleAppendEntriesInternal
  simp only [Wp.bind_iff, Wp.modify_iff, Wp.get_iff, Wp.ite_iff, Wp.pure_iff]
  refine ⟨fun _ h => absurd h Bool.false_ne_true, fun hge => ⟨fun _ => hcalm _ ?_, fun hsame =>
    hcalm s ?_⟩⟩
  · rw [becomeFollower_eq]
    exact Nat.max_eq_right (Nat.le_of_not_lt hge)
  · have hle := (not_or.1 hsame).1
    omega

end RaftNode

/-! ## Runs with their past -/

namespace Cluster

/-- A run of the cluster, with all the states it has been in. -/
inductive Trace (cfg : Config) : List Cluster → Cluster → Prop
  | init : Trace cfg [init cfg] (init cfg)
  | step {past : List Cluster} {c c' : Cluster} {e : Event} (h : Trace cfg past c)
    (hs : step cfg c e = some c') : Trace cfg (c' :: past) c'

variable {past : List Cluster}

theorem Trace.reachable (h : Trace cfg past c) : Reachable cfg c := by
  induction h with
  | init => exact Relation.ReflTransGen.refl
  | step _ hs ih => exact ih.tail ⟨_, hs⟩

/-- The run goes on from every state it has been in. -/
theorem Trace.run (h : Trace cfg past c) (hc : c' ∈ past) : Reachable cfg c' ∧ Run cfg c' c := by
  induction h with
  | init =>
    rw [List.mem_singleton.1 hc]
    exact ⟨Relation.ReflTransGen.refl, Relation.ReflTransGen.refl⟩
  | step h hs ih =>
    rcases List.mem_cons.1 hc with rfl | hc
    · exact ⟨h.reachable.tail ⟨_, hs⟩, Relation.ReflTransGen.refl⟩
    · exact ⟨(ih hc).1, (ih hc).2.tail ⟨_, hs⟩⟩

/-- Every state has a run that leads to it. -/
theorem Reachable.exists_trace (h : Reachable cfg c) : ∃ past, Trace cfg past c := by
  induction h with
  | refl => exact ⟨_, .init⟩
  | tail _ hs ih =>
    obtain ⟨past, ih⟩ := ih
    obtain ⟨e, hs⟩ := hs
    exact ⟨_, ih.step hs⟩

/-- Replica `p` has once held the entries `l` in term `T`, and holds them as long as it is in that
term, whatever happens. -/
def Held (cfg : Config) (past : List Cluster) (p : NodeId) (T : ℕ) (l : LogStore) : Prop :=
  ∃ c ∈ past, (c.nodes p).currentTerm = T ∧
    ∀ c', Run cfg c c' → (c'.nodes p).currentTerm = T → l <+: (c'.nodes p).logStore

theorem Held.cons {T : ℕ} {l : LogStore} (h : Held cfg past p T l) (c : Cluster) :
    Held cfg (c :: past) p T l := by
  obtain ⟨c₁, hc, h⟩ := h
  exact ⟨c₁, List.mem_cons_of_mem c hc, h⟩

end Cluster

/-! ## Acknowledgements are kept -/

/-- A peer holds what it has acknowledged, as long as it is in the term. -/
theorem Safe.holds (hA : Safe cfg A c) (hr : A.Retained) (hp : p ∈ cfg.members) {T : ℕ}
    {l : LogStore} (hl : l <+: A.leaderLog T) (hacked : l.length ≤ A.acked T p)
    (hrun : Cluster.Run cfg c c') (hT : (c'.nodes p).currentTerm = T) :
    l <+: (c'.nodes p).logStore := by
  obtain ⟨A', hm, hA'⟩ := hA.run hrun
  have hkept := hm.retained hA.inv hr p
  rw [(hA'.node p hp).term, hT, (hA'.node p hp).log] at hkept
  have hl' : l = (A'.leaderLog T).take l.length :=
    List.prefix_iff_eq_take.1 (hl.trans (hm.leaderLog T))
  rw [hl']
  exact (Consensus.take_start_mono _ (hacked.trans (hm.acked_le T p))).trans hkept

/-- Every leader credits its peers with what they have held, and so does every response. -/
structure Witnessed (cfg : Config) (past : List Cluster) (c : Cluster) : Prop where
  credited : ∀ i, (c.nodes i).Credited (Cluster.Held cfg past)
  acked : ∀ call ∈ c.appendCalls, ∀ r, call.response = some r → r.success = true →
    Cluster.Held cfg past call.peer call.request.term call.senderLog

namespace Witnessed

variable {past : List Cluster}

/-- One task that credits peers with nothing that they have not held. -/
theorem exec {α : Type} {task : Task α} (h : Witnessed cfg past c)
    (hw : Wp task (fun _ => RaftNode.Credited (Cluster.Held cfg past))
      (fun _ => RaftNode.Credited (Cluster.Held cfg past)) (c.nodes i)) :
    Witnessed cfg past (c.exec i task).1 where
  credited := Cluster.exec_nodes (P := fun _ => RaftNode.Credited (Cluster.Held cfg past))
    h.credited hw (fun _ _ hs => hs) fun _ _ hs => hs
  acked call hcall r hr hok := by
    rcases Cluster.mem_exec_appendCalls hcall with hold | hnone
    · exact h.acked call hold r hr hok
    · rw [hnone] at hr
      cases hr

/-- An RPC is delivered or settled. -/
theorem set (h : Witnessed cfg past c) (k : ℕ) {call : AppendCall}
    (hc : ∀ r, call.response = some r → r.success = true →
      Cluster.Held cfg past call.peer call.request.term call.senderLog) :
    Witnessed cfg past { c with appendCalls := c.appendCalls.set k call } := by
  refine { h with acked := fun call' hcall => ?_ }
  rcases List.mem_or_eq_of_mem_set hcall with hcall | rfl
  · exact h.acked call' hcall
  · exact hc

theorem cons (h : Witnessed cfg past c) (c₁ : Cluster) : Witnessed cfg (c₁ :: past) c where
  credited i := (h.credited i).mono fun _ _ _ hh => hh.cons c₁
  acked call hcall r hr hok := (h.acked call hcall r hr hok).cons c₁

/-- A response to an append RPC credits the peer with what it has held. -/
theorem answerAppend (h : Witnessed cfg past c) (hA : Safe cfg A c) {call : AppendCall}
    (hmem : call ∈ c.appendCalls) {response : ResponseAppendEntriesRPC}
    (hr : call.response = some response) :
    Wp (do
        modify fun s => { s with inFlight := s.inFlight.erase call.peer }
        RaftNode.onAppendEntriesResponse call.peer call.request.term call.request.prevLogIndex
          call.request.entries.length response : Task Unit)
      (fun _ => RaftNode.Credited (Cluster.Held cfg past))
      (fun _ => RaftNode.Credited (Cluster.Held cfg past)) (c.nodes call.caller) := by
  have hcall := hA.appendCalls call hmem
  have hlanded : (Cluster.landed call.peer (c.nodes call.caller)).Credited
    (Cluster.Held cfg past) := h.credited call.caller
  rw [Wp.bind_iff, Wp.modify_iff]
  apply RaftNode.onAppendEntriesResponse_credited hlanded
  intro hok hl hterm
  change (c.nodes call.caller).currentTerm = call.request.term at hterm
  -- the leader's log starts with the one it had when it sent the request
  have hstart := hcall.request.start
  rw [← hterm, (hA.node _ hcall.caller).leaderLog_eq hA.inv hl] at hstart
  have hheld := h.acked call hmem response hr hok
  rw [← hterm, List.prefix_iff_eq_take.1 hstart] at hheld
  rw [hcall.request.sentTo]
  exact ⟨hstart.length_le, hheld⟩

/-- **One event** credits no peer with what it has not held. -/
theorem step (h : Witnessed cfg past c) (hA : Safe cfg A c) (hA' : Safe cfg A' c')
    (hret : A'.Retained) (hstep : Cluster.step cfg c e = some c') :
    Witnessed cfg (c' :: past) c' := by
  cases Cluster.happens_of_step hstep with
  | start i _ _ =>
    have hw : Wp (modify RaftNode.resetElectionTimer : Task Unit)
        (fun _ => RaftNode.Credited (Cluster.Held cfg past))
        (fun _ => RaftNode.Credited (Cluster.Held cfg past)) (c.nodes i) := h.credited i
    exact { (h.exec hw).cons _ with }
  | electionTimeout i id _ _ =>
    refine (h.exec ?_).cons _
    rw [Wp.bind_iff, Wp.modify_iff]
    exact RaftNode.startElectionRound_credited _
  | heartbeat i id _ _ =>
    refine (h.exec ?_).cons _
    apply (periodic_wp ((h.credited i).wp RaftNode.replicateToAllPeers_level)).mono
    · exact fun _ _ hs => hs
    · rintro _ s ⟨s₁, hs, rfl⟩
      exact hs
  | submit i command _ =>
    exact { (h.exec (RaftNode.submitCommand_credited (h.credited i) _ command)).cons _ with }
  | deliverVote k call _ _ hc =>
    have hexec := h.exec ((RaftNode.handleRequestVote_role call.request (c.nodes call.peer)).mono
      (fun _ _ hs => hs.credited (h.credited call.peer)) fun _ _ hf => hf.elim)
    rw [hc] at hexec
    exact { hexec.cons _ with }
  | answerVote k call _ _ _ hc =>
    obtain rfl := hc
    exact { (h.exec (RaftNode.onVoteResponse_credited (h.credited call.caller) _ _)).cons _ with }
  | deliverAppend k call hk _ hc =>
    have hexec := h.exec ((RaftNode.handleAppendEntries_role call.request
      (c.nodes call.peer)).mono (fun _ _ hs => hs.credited (h.credited call.peer))
      fun _ _ hs => hs.credited (h.credited call.peer))
    rw [hc] at hexec
    refine (hexec.cons _).set k fun r hr hok => ?_
    have hans : (c.exec call.peer (RaftNode.handleAppendEntriesInternal call.request)).2 =
        some r := by
      rw [hc]
      exact hr
    obtain ⟨s, hs, hput⟩ := Cluster.exec_answer
      (RaftNode.handleAppendEntries_term call.request (c.nodes call.peer)) hans
    rw [hc] at hput
    obtain rfl := hput
    have hlt : k < (c.put call.peer s).appendCalls.length :=
      (List.getElem?_eq_some_iff.1 hk).1.trans_le (List.length_append ▸ Nat.le_add_right _ _)
    have hcall := hA'.appendCalls _ (List.mem_set hlt _)
    refine ⟨_, List.mem_cons_self, ?_, fun c₂ hrun hT =>
      hA'.holds hret hcall.peer.1 hcall.request.start (hcall.acked r hr hok) hrun hT⟩
    dsimp only [Cluster.put]
    rw [Function.update_self]
    exact hs hok
  | answerAppend k call hk hr _ hc =>
    have hmem := List.mem_of_getElem? hk
    obtain rfl := hc
    refine cons ((h.exec (h.answerAppend hA hmem hr)).set k ?_) _
    exact h.acked call hmem
  | failAppend k call hk _ hc =>
    have hmem := List.mem_of_getElem? hk
    have hw : Wp (modify fun s => { s with inFlight := s.inFlight.erase call.peer } : Task Unit)
        (fun _ => RaftNode.Credited (Cluster.Held cfg past))
        (fun _ => RaftNode.Credited (Cluster.Held cfg past)) (c.nodes call.caller) :=
      h.credited call.caller
    obtain rfl := hc
    refine cons ((h.exec hw).set k ?_) _
    exact h.acked call hmem

end Witnessed

/-- Every run is one of the protocol, and its leaders credit no peer with what it has not held. -/
theorem Cluster.Trace.exists_witnessed {past : List Cluster} (h : Cluster.Trace cfg past c) :
    ∃ A, Safe cfg A c ∧ A.Retained ∧ Witnessed cfg past c := by
  induction h with
  | init =>
    refine ⟨State.init NodeId Command, ⟨Sim.init cfg, Rounds.init cfg⟩, State.Retained.init, ?_, ?_⟩
    · exact fun i => RaftNode.Credited.of_ne ServerStatus.noConfusion
    · exact fun call hcall => absurd hcall List.not_mem_nil
  | step _ hs ih =>
    obtain ⟨A, hA, hr, hw⟩ := ih
    obtain ⟨i, -, A', hm, hA'⟩ := hA.step hs
    have hr' := hr.steps hA.inv hm.steps
    exact ⟨A', hA', hr', hw.step hA hA' hr' hs⟩

/-! ## What peers are known to hold -/

/-- An append RPC that fails, or a response that refuses one or is of another term than the present
one. -/
def Cluster.Fruitless (c : Cluster) : Event → Prop
  | .failAppend _ => True
  | .answerAppend k => ∀ call ∈ c.appendCalls[k]?, ∀ response ∈ call.response,
    (c.nodes call.caller).Fruitless call.request.term response
  | _ => False

theorem Cluster.Fruitless.matchIndex_eq (h : c.Fruitless e)
    (hstep : Cluster.step cfg c e = some c') :
    ∀ j, (c'.nodes j).matchIndex = (c.nodes j).matchIndex := by
  have hexec : ∀ {i : NodeId} {task : Task Unit},
      Wp task (fun _ s => s.matchIndex = (c.nodes i).matchIndex)
        (fun _ s => s.matchIndex = (c.nodes i).matchIndex) (c.nodes i) →
      ∀ j, ((c.exec i task).1.nodes j).matchIndex = (c.nodes j).matchIndex :=
    fun hw => Cluster.exec_nodes (P := fun j s => s.matchIndex = (c.nodes j).matchIndex)
      (fun _ => rfl) hw (fun _ _ hs => hs) fun _ _ hs => hs
  cases Cluster.happens_of_step hstep with
  | @answerAppend k call hk response hr _ _ hc =>
    have hno : (Cluster.landed call.peer (c.nodes call.caller)).Fruitless call.request.term
      response := h call hk response hr
    have hw : Wp (do
        modify fun s => { s with inFlight := s.inFlight.erase call.peer }
        RaftNode.onAppendEntriesResponse call.peer call.request.term call.request.prevLogIndex
          call.request.entries.length response : Task Unit)
        (fun _ s => s.matchIndex = (c.nodes call.caller).matchIndex)
        (fun _ s => s.matchIndex = (c.nodes call.caller).matchIndex) (c.nodes call.caller) := by
      rw [Wp.bind_iff, Wp.modify_iff]
      exact RaftNode.onAppendEntriesResponse_fruitless hno _ _ _
    rw [hc]
    exact hexec hw
  | failAppend k call _ _ hc =>
    have hw : Wp (modify fun s => { s with inFlight := s.inFlight.erase call.peer } : Task Unit)
        (fun _ s => s.matchIndex = (c.nodes call.caller).matchIndex)
        (fun _ s => s.matchIndex = (c.nodes call.caller).matchIndex) (c.nodes call.caller) := rfl
    rw [hc]
    exact hexec hw
  | _ => exact h.elim

/-- **What leaders know of their peers is true**: a peer that a leader credits with entries has once
held them in the leader's term, and holds them as long as it is in that term, whatever happens; and
RPCs that fail, are refused or are of another term credit nobody with anything. -/
theorem match_index_sound {past : List Cluster} (h : Cluster.Trace cfg past c) :
    (∀ i, (c.nodes i).status = .leader → ∀ p m, lookupKey p (c.nodes i).matchIndex = some m →
      m ≤ (c.nodes i).logStore.length ∧
      (0 < m → ∃ c₁ ∈ past, (c₁.nodes p).currentTerm = (c.nodes i).currentTerm ∧
        (c.nodes i).logStore.take m <+: (c₁.nodes p).logStore ∧ Cluster.Run cfg c₁ c ∧
        ∀ c₂, Cluster.Run cfg c₁ c₂ → (c₂.nodes p).currentTerm = (c.nodes i).currentTerm →
          (c.nodes i).logStore.take m <+: (c₂.nodes p).logStore)) ∧
    ∀ e c', Cluster.step cfg c e = some c' → c.Fruitless e →
      ∀ i, (c'.nodes i).matchIndex = (c.nodes i).matchIndex := by
  refine ⟨fun i hl p m hm => ?_, fun e c' hstep hf => hf.matchIndex_eq hstep⟩
  obtain ⟨A, -, -, hw⟩ := h.exists_witnessed
  obtain ⟨hle, hheld⟩ := hw.credited i hl p m hm
  refine ⟨hle, fun hpos => ?_⟩
  obtain ⟨c₁, hc, hterm, hkept⟩ := hheld hpos
  exact ⟨c₁, hc, hterm, hkept c₁ Relation.ReflTransGen.refl hterm, (h.run hc).2, hkept⟩

/-- A leader credits a peer with nothing that was never in the leader's term. -/
theorem match_index_unheard : ∃ past, Cluster.Trace threeMembers past afterFirst ∧
    (afterFirst.nodes 1).status = .leader ∧
    lookupKey 3 (afterFirst.nodes 1).matchIndex = some 0 ∧
    ∀ c ∈ past, (c.nodes 3).currentTerm ≠ (afterFirst.nodes 1).currentTerm := by
  obtain ⟨past, htrace⟩ := reachable_afterFirst.exists_trace
  refine ⟨past, htrace, by decide +kernel, by decide +kernel, fun c hc heq => ?_⟩
  obtain ⟨hreach, hrun⟩ := htrace.run hc
  obtain ⟨A, hA⟩ := exists_safe hreach
  have hle := hA.currentTerm_le hrun (i := 3) (by decide)
  have hthree : (afterFirst.nodes 3).currentTerm = 0 := by decide +kernel
  have hone : (afterFirst.nodes 1).currentTerm = 1 := by decide +kernel
  omega

theorem match_index_sound_first : ∃ past, Cluster.Trace threeMembers past afterFirst ∧
    ∃ c ∈ past, (c.nodes 2).currentTerm = 1 ∧
      [⟨1, ⟨some "x", .set, 5⟩⟩] <+: (c.nodes 2).logStore := by
  obtain ⟨past, htrace⟩ := reachable_afterFirst.exists_trace
  have hcredit : lookupKey 2 (afterFirst.nodes 1).matchIndex = some 1 := by decide +kernel
  have hterm : (afterFirst.nodes 1).currentTerm = 1 := by decide +kernel
  have hlog : (afterFirst.nodes 1).logStore.take 1 = [⟨1, ⟨some "x", .set, 5⟩⟩] := by decide +kernel
  obtain ⟨c, hc, hT, hl, -⟩ :=
    ((match_index_sound htrace).1 1 (by decide +kernel) 2 1 hcredit).2 Nat.one_pos
  rw [hterm] at hT
  rw [hlog] at hl
  exact ⟨past, htrace, c, hc, hT, hl⟩

end CowRaft.Raft
