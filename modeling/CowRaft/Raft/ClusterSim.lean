import CowRaft.Raft.Replication
import CowRaft.Raft.Steps

/-!
# The cluster follows the protocol

`Sim cfg A c` says that every replica of the cluster `c` follows the protocol in state `A`, and
that every RPC, sent at whatever time, tells what was true then and stays true. `Rounds` says that
a candidate counts the answer of a peer at most once. Every event keeps both
(`Sim.step`, `Rounds.step`), so they hold of every state that can be reached (`exists_safe`).
-/

namespace CowRaft.Raft

open Consensus (State Inv Evolves Move Quorum)

variable {cfg : Config} {M : Finset NodeId} {A A' : Protocol} {c c' : Cluster} {i j : NodeId}
  {s s' : RaftNode}

/-! ## RPCs -/

/-- What a `requestVote` RPC tells. -/
structure VoteCallSim (M : Finset NodeId) (A : Protocol) (call : VoteCall) : Prop where
  caller : call.caller ∈ M
  peer : call.peer ∈ M ∧ call.peer ≠ call.caller
  request : VoteRequested A call.caller call.request
  granted : ∀ r, call.response = some r → r.voteGranted = true →
    A.vote call.peer call.request.term = some call.caller

/-- What an `appendEntries` RPC tells. -/
structure AppendCallSim (M : Finset NodeId) (A : Protocol) (call : AppendCall) : Prop where
  caller : call.caller ∈ M
  peer : call.peer ∈ M ∧ call.peer ≠ call.caller
  request : AppendRequested M A call.caller call.request call.senderLog
  acked : ∀ r, call.response = some r → r.success = true →
    call.senderLog.length ≤ A.acked call.request.term call.peer

theorem VoteCallSim.evolves {call : VoteCall} (h : VoteCallSim M A call) (hev : Evolves i A A') :
    VoteCallSim M A' call :=
  { h with
    request := h.request.evolves hev
    granted := fun r hr hg => hev.vote (h.granted r hr hg) }

theorem AppendCallSim.evolves {call : AppendCall} (h : AppendCallSim M A call)
    (hev : Evolves i A A') : AppendCallSim M A' call :=
  { h with
    request := h.request.evolves hev
    acked := fun r hr hs => (h.acked r hr hs).trans (hev.acked _ _) }

/-- Every replica and every RPC of the cluster follows the protocol. -/
structure Sim (cfg : Config) (A : Protocol) (c : Cluster) : Prop where
  inv : Inv cfg.members A
  node : ∀ i ∈ cfg.members, NodeSim cfg.members A i (c.nodes i)
  done : ∀ i ∈ cfg.members, (c.nodes i).lastApplied = (c.nodes i).commitIndex
  sent : ∀ i ∈ cfg.members, (c.nodes i).voteRequests = [] ∧ (c.nodes i).appendRequests = []
  voteCalls : ∀ call ∈ c.voteCalls, VoteCallSim cfg.members A call
  appendCalls : ∀ call ∈ c.appendCalls, AppendCallSim cfg.members A call

/-! ## One task -/

namespace Sim

/-- A replica that follows the protocol leaves RPCs that do. -/
theorem put (h : Sim cfg A c) (hm : Move cfg.members i A A')
    (hn : NodeSim cfg.members A' i s) (hd : s.lastApplied = s.commitIndex) :
    Sim cfg A' (c.put i s) where
  inv := hm.inv
  node := Cluster.put_nodes (P := fun j s => j ∈ cfg.members → NodeSim cfg.members A' j s)
    (fun _ => { hn with
      toPast := { hn.toPast with
        voteRequests := fun r hr => absurd hr List.not_mem_nil
        appendRequests := fun r hr => absurd hr List.not_mem_nil } })
    fun j hji hj => (h.node j hj).evolves hm.evolves hji
  done := Cluster.put_nodes (P := fun j s => j ∈ cfg.members → s.lastApplied = s.commitIndex)
    (fun _ => hd) fun j _ => h.done j
  sent := Cluster.put_nodes
    (P := fun j s => j ∈ cfg.members → s.voteRequests = [] ∧ s.appendRequests = [])
    (fun _ => ⟨rfl, rfl⟩) fun j _ => h.sent j
  voteCalls call hc := by
    rcases List.mem_append.1 hc with hc | hc
    · exact (h.voteCalls call hc).evolves hm.evolves
    · obtain ⟨r, hr, rfl⟩ := List.mem_map.1 hc
      obtain ⟨hp, hreq⟩ := hn.voteRequests r hr
      have hpeer := (hn.mem_peers r.1).1 hp
      rw [← hn.nodeId] at hpeer hreq
      exact ⟨hn.nodeId.symm ▸ hn.member, hpeer, hreq, fun r hr => by cases hr⟩
  appendCalls call hc := by
    rcases List.mem_append.1 hc with hc | hc
    · exact (h.appendCalls call hc).evolves hm.evolves
    · obtain ⟨r, hr, rfl⟩ := List.mem_map.1 hc
      obtain ⟨hp, hreq⟩ := hn.appendRequests r hr
      have hpeer := (hn.mem_peers r.1).1 hp
      rw [← hn.nodeId] at hpeer hreq
      exact ⟨hn.nodeId.symm ▸ hn.member, hpeer, hreq, fun r hr => by cases hr⟩

/-- **One task** of a replica, whether it ends or throws. -/
theorem exec {α : Type} {task : Task α} {R : Protocol → α → Prop} (h : Sim cfg A c)
    (hw : Wp task
      (fun a s => ∃ A', Move cfg.members i A A' ∧ NodeSim cfg.members A' i s ∧
        s.lastApplied = s.commitIndex ∧ R A' a)
      (Fails cfg.members i A) (c.nodes i)) :
    ∃ A', Move cfg.members i A A' ∧ Sim cfg A' (c.exec i task).1 ∧
      ∀ a, (c.exec i task).2 = some a → R A' a := by
  rcases Cluster.exec_elim hw with ⟨a, s, ⟨A', hm, hn, hd, hR⟩, hexec⟩ |
    ⟨e, s, ⟨⟨⟨A', hm, hn⟩, hd⟩, rfl, -⟩, hexec⟩
  · rw [hexec]
    refine ⟨A', hm, h.put hm hn hd, ?_⟩
    intro b hb
    obtain rfl := Option.some.inj hb
    exact hR
  · rw [hexec]
    refine ⟨A', hm, h.put hm { hn with faults := ?_ } hd, fun b hb => by cases hb⟩
    intro e he
    rcases List.mem_append.1 he with he | he
    · exact hn.faults e he
    · exact List.mem_singleton.1 he

/-- A task that answers nothing. -/
theorem exec_unit {task : Task Unit} (h : Sim cfg A c)
    (hw : Wp task (fun _ => Done cfg.members i A) (Fails cfg.members i A) (c.nodes i)) :
    ∃ A', Move cfg.members i A A' ∧ Sim cfg A' (c.exec i task).1 := by
  obtain ⟨A', hm, hs, -⟩ := h.exec (R := fun _ _ => True) (hw.mono
    (fun _ s hd => by
      obtain ⟨⟨A', hm, hn⟩, hd⟩ := hd
      exact ⟨A', hm, hn, hd, trivial⟩)
    fun _ _ hf => hf)
  exact ⟨A', hm, hs⟩

/-- An RPC is updated as the protocol knows. -/
theorem setVoteCall (h : Sim cfg A c) (k : ℕ) {call : VoteCall}
    (hc : VoteCallSim cfg.members A call) :
    Sim cfg A { c with voteCalls := c.voteCalls.set k call } := by
  refine { h with voteCalls := ?_ }
  intro call' hcall
  rcases List.mem_or_eq_of_mem_set hcall with hcall | rfl
  · exact h.voteCalls call' hcall
  · exact hc

theorem setAppendCall (h : Sim cfg A c) (k : ℕ) {call : AppendCall}
    (hc : AppendCallSim cfg.members A call) :
    Sim cfg A { c with appendCalls := c.appendCalls.set k call } := by
  refine { h with appendCalls := ?_ }
  intro call' hcall
  rcases List.mem_or_eq_of_mem_set hcall with hcall | rfl
  · exact h.appendCalls call' hcall
  · exact hc

end Sim

/-! ## Counting votes -/

/-- The candidate, the round and the voter of a call. -/
def VoteCall.key (call : VoteCall) : NodeId × ℕ × NodeId :=
  (call.caller, call.request.term, call.peer)

/-- The call is one of candidate `i` in term `T` that was answered with a vote. -/
def VoteCall.Counted (i : NodeId) (T : ℕ) (call : VoteCall) : Prop :=
  call.caller = i ∧ call.request.term = T ∧ call.answered = true ∧
    call.response.map (·.voteGranted) = some true

instance (i : NodeId) (T : ℕ) : DecidablePred (VoteCall.Counted i T) := fun call =>
  inferInstanceAs (Decidable (call.caller = i ∧ call.request.term = T ∧ call.answered = true ∧
    call.response.map (·.voteGranted) = some true))

/-- The answers that candidate `i` has counted in term `T`. -/
def countedCalls (calls : List VoteCall) (i : NodeId) (T : ℕ) : List VoteCall :=
  calls.filter fun call => call.Counted i T

/-- Every candidate counts each of its peers at most once. -/
structure Rounds (nodes : NodeId → RaftNode) (calls : List VoteCall) : Prop where
  bound : ∀ call ∈ calls, call.request.term ≤ (nodes call.caller).currentTerm
  fresh : ∀ call ∈ calls, call.delivered = false → call.response = none
  distinct : (calls.map VoteCall.key).Nodup
  counted : ∀ i, (nodes i).status = .candidate →
    (nodes i).votesReceived ≤ 1 + (countedCalls calls i (nodes i).currentTerm).length

theorem mem_countedCalls {calls : List VoteCall} {call : VoteCall} {T : ℕ} :
    call ∈ countedCalls calls i T ↔ call ∈ calls ∧ call.Counted i T := by
  unfold countedCalls
  rw [List.mem_filter, decide_eq_true_iff]

/-- One call is replaced by another in the count. -/
theorem length_countedCalls_set {calls : List VoteCall} {k : ℕ} {call call' : VoteCall}
    (hk : calls[k]? = some call) (i : NodeId) (T : ℕ) :
    (countedCalls (calls.set k call') i T).length + (if call.Counted i T then 1 else 0) =
      (countedCalls calls i T).length + (if call'.Counted i T then 1 else 0) := by
  induction calls generalizing k with
  | nil => cases hk
  | cons a calls ih =>
    unfold countedCalls at ih ⊢
    cases k with
    | zero =>
      obtain rfl := Option.some.inj hk
      rw [List.set_cons_zero, List.filter_cons, List.filter_cons]
      by_cases h : a.Counted i T <;> by_cases h' : call'.Counted i T <;> simp [h, h']
    | succ k =>
      have := ih hk
      rw [List.set_cons_succ, List.filter_cons, List.filter_cons]
      by_cases h : a.Counted i T
      · simp only [h, decide_true, if_true, List.length_cons]
        omega
      · simp only [h, decide_false, Bool.false_eq_true, if_false]
        exact this

namespace Rounds

variable {nodes : NodeId → RaftNode} {calls : List VoteCall}

/-- A replica that counts no more votes than it has. -/
theorem update (hr : Rounds nodes calls) (hterm : (nodes i).currentTerm ≤ s.currentTerm)
    (hcount : s.status = .candidate →
      s.votesReceived ≤ 1 + (countedCalls calls i s.currentTerm).length) :
    Rounds (Function.update nodes i s) calls := by
  refine { hr with bound := ?_, counted := ?_ }
  · intro call hcall
    have hb := hr.bound call hcall
    rw [Function.update_apply]
    split_ifs with hi
    · rw [hi] at hb
      exact hb.trans hterm
    · exact hb
  · intro j hj
    rw [Function.update_apply] at hj ⊢
    split_ifs at hj ⊢ with hi
    · rw [hi]
      exact hcount hj
    · exact hr.counted j hj

/-- A call is answered or delivered. -/
theorem set (hr : Rounds nodes calls) {k : ℕ} {call call' : VoteCall}
    (hk : calls[k]? = some call) (hkey : call'.key = call.key)
    (hterm : call'.request.term ≤ (nodes call'.caller).currentTerm)
    (hfresh : call'.delivered = false → call'.response = none)
    (hcounted : ∀ i T, call.Counted i T → call'.Counted i T) :
    Rounds nodes (calls.set k call') where
  bound call'' hcall := by
    rcases List.mem_or_eq_of_mem_set hcall with hcall | rfl
    · exact hr.bound call'' hcall
    · exact hterm
  fresh call'' hcall := by
    rcases List.mem_or_eq_of_mem_set hcall with hcall | rfl
    · exact hr.fresh call'' hcall
    · exact hfresh
  distinct := by
    have hself : (calls.map VoteCall.key).set k call'.key = calls.map VoteCall.key := by
      have hget : (calls.map VoteCall.key)[k]? = some call'.key := by
        rw [List.getElem?_map, hk, Option.map_some, hkey]
      obtain ⟨_, heq⟩ := List.getElem?_eq_some_iff.1 hget
      rw [← heq, List.set_getElem_self]
    rw [List.map_set, hself]
    exact hr.distinct
  counted j hj := by
    have hle := hr.counted j hj
    have hset := @length_countedCalls_set calls k call call' hk j (nodes j).currentTerm
    have hmono := hcounted j (nodes j).currentTerm
    split_ifs at hset with h₁ h₂
    · omega
    · exact absurd (hmono h₁) h₂
    · omega
    · omega

/-- A candidate asks its peers for votes in a term in which it has not asked yet. -/
theorem ask (hr : Rounds nodes calls) {request : RequestVoteRPC} {peers : List NodeId}
    (hpeers : peers.Nodup) (hterm : (nodes i).currentTerm = request.term)
    (hlt : ∀ call ∈ calls, call.caller = i → call.request.term < request.term) :
    Rounds nodes (calls ++ peers.map fun peerId => ⟨i, peerId, request, false, none, false⟩) where
  bound call hcall := by
    rcases List.mem_append.1 hcall with hcall | hcall
    · exact hr.bound call hcall
    · obtain ⟨p, -, rfl⟩ := List.mem_map.1 hcall
      exact hterm.ge
  fresh call hcall := by
    rcases List.mem_append.1 hcall with hcall | hcall
    · exact hr.fresh call hcall
    · obtain ⟨p, -, rfl⟩ := List.mem_map.1 hcall
      exact fun _ => rfl
  distinct := by
    rw [List.map_append, List.nodup_append']
    refine ⟨hr.distinct, ?_, ?_⟩
    · rw [List.map_map]
      apply hpeers.map
      intro p q hpq
      exact congrArg (fun key => key.2.2) hpq
    · intro key hold hnew
      obtain ⟨call, hcall, rfl⟩ := List.mem_map.1 hold
      obtain ⟨call', hcall', hkey⟩ := List.mem_map.1 hnew
      obtain ⟨p, -, rfl⟩ := List.mem_map.1 hcall'
      have hcaller : i = call.caller := congrArg Prod.fst hkey
      have hround : request.term = call.request.term := congrArg (fun key => key.2.1) hkey
      exact absurd (hlt call hcall hcaller.symm) (by omega)
  counted j hj := by
    have hle := hr.counted j hj
    unfold countedCalls at hle ⊢
    rw [List.filter_append, List.length_append]
    omega

end Rounds

/-- **One more vote**: with the answer of a call that is not answered yet, enough votes are the
votes of a quorum. -/
theorem Rounds.quorum (hr : Rounds c.nodes c.voteCalls) (h : Sim cfg A c) {k : ℕ} {call : VoteCall}
    (hk : c.voteCalls[k]? = some call) {r : ResponseVoteRPC} (hresp : call.response = some r)
    (ha : call.answered = false) (hcand : (c.nodes call.caller).status = .candidate)
    (hterm : (c.nodes call.caller).currentTerm = call.request.term)
    (hg : r.voteGranted = true)
    (hm : (c.nodes call.caller).majority ≤ (c.nodes call.caller).votesReceived + 1) :
    ∃ S, Quorum cfg.members S ∧
      ∀ m ∈ S, A.vote m (c.nodes call.caller).currentTerm = some call.caller := by
  have hmem : call ∈ c.voteCalls := List.mem_of_getElem? hk
  have hsim := h.voteCalls call hmem
  have hnode := h.node call.caller hsim.caller
  have hown := hnode.own (by rw [hcand]; exact ServerStatus.noConfusion)
  set counted := countedCalls c.voteCalls call.caller call.request.term with hcounted
  have hin : ∀ call' ∈ counted, call' ∈ c.voteCalls ∧
      call'.Counted call.caller call.request.term := fun _ hc => mem_countedCalls.1 hc
  -- calls of one candidacy go to different peers
  have hinj : ∀ call' ∈ call :: counted, ∀ call'' ∈ call :: counted,
      call'.peer = call''.peer → call' = call'' := by
    have hboth : ∀ call' ∈ call :: counted, call' ∈ c.voteCalls ∧ call'.caller = call.caller ∧
        call'.request.term = call.request.term := by
      intro call' hc
      rcases List.mem_cons.1 hc with rfl | hc
      · exact ⟨hmem, rfl, rfl⟩
      · exact ⟨(hin call' hc).1, (hin call' hc).2.1, (hin call' hc).2.2.1⟩
    intro call' hc' call'' hc'' hpeer
    obtain ⟨h₁, h₂, h₃⟩ := hboth call' hc'
    obtain ⟨g₁, g₂, g₃⟩ := hboth call'' hc''
    apply List.inj_on_of_nodup_map hr.distinct h₁ g₁
    unfold VoteCall.key
    rw [h₂, h₃, g₂, g₃, hpeer]
  have hnodup : (call :: counted).Nodup := by
    refine List.nodup_cons.2 ⟨fun hc => ?_, ?_⟩
    · have := (hin call hc).2.2.2.1
      rw [ha] at this
      exact Bool.false_ne_true this
    · exact hr.distinct.of_map.filter _
  have hpeers : ((call :: counted).map VoteCall.peer).Nodup := List.Nodup.map_on hinj hnodup
  have hvotes : ∀ call' ∈ call :: counted, call'.peer ∈ cfg.members ∧ call'.peer ≠ call.caller ∧
      A.vote call'.peer call.request.term = some call.caller := by
    intro call' hc
    rcases List.mem_cons.1 hc with rfl | hc
    · exact ⟨hsim.peer.1, hsim.peer.2, hsim.granted r hresp hg⟩
    · obtain ⟨hmem', hcaller, ht, -, hgranted⟩ := hin call' hc
      obtain ⟨r', hresp', hg'⟩ := Option.map_eq_some_iff.1 hgranted
      have hsim' := h.voteCalls call' hmem'
      have hvote := hsim'.granted r' hresp' hg'
      rw [hcaller, ht] at hvote
      exact ⟨hsim'.peer.1, hcaller ▸ hsim'.peer.2, hvote⟩
  refine ⟨insert call.caller ((call :: counted).map VoteCall.peer).toFinset, ?_, ?_⟩
  · apply hnode.quorum
    · intro p hp
      rcases Finset.mem_insert.1 hp with rfl | hp
      · exact hsim.caller
      · obtain ⟨call', hc, rfl⟩ := List.mem_map.1 (List.mem_toFinset.1 hp)
        exact (hvotes call' hc).1
    · rw [Finset.card_insert_of_notMem, List.toFinset_card_of_nodup hpeers, List.length_map,
        List.length_cons]
      · have := hr.counted call.caller hcand
        rw [hterm, ← hcounted] at this
        omega
      · intro hp
        obtain ⟨call', hc, heq⟩ := List.mem_map.1 (List.mem_toFinset.1 hp)
        exact (hvotes call' hc).2.1 heq
  · intro p hp
    rcases Finset.mem_insert.1 hp with rfl | hp
    · rw [hnode.vote]
      exact hown
    · obtain ⟨call', hc, rfl⟩ := List.mem_map.1 (List.mem_toFinset.1 hp)
      rw [hterm]
      exact (hvotes call' hc).2.2

/-! ## One event -/

theorem periodic_wp {task : Task Unit} {id : TaskId} {Q : Unit → RaftNode → Prop}
    {E : Fault → RaftNode → Prop} (h : Wp task Q E s) :
    Wp (RaftNode.periodic id task) Q
      (fun e s' => ∃ s₁, E e s₁ ∧ s' = { s₁ with heartbeats := s₁.heartbeats.erase id }) s := by
  rcases h.elim with ⟨a, s₁, hrun, hQ⟩ | ⟨e, s₁, hrun, hE⟩
  · have hok : RaftNode.periodic id task s = .ok a s₁ := by
      unfold RaftNode.periodic
      rw [hrun]
    exact (Wp.of_ok hok).2 hQ
  · have herr : RaftNode.periodic id task s =
        .error e { s₁ with heartbeats := s₁.heartbeats.erase id } := by
      unfold RaftNode.periodic
      rw [hrun]
    exact (Wp.of_error herr).2 ⟨s₁, hE, rfl⟩

/-- An election timeout follows the protocol. -/
theorem Sim.electionTimeout (h : Sim cfg A c) (hi : i ∈ cfg.members) (id : TaskId) :
    Wp (do
        modify fun s => { s with electionTimeouts := s.electionTimeouts.erase id }
        RaftNode.onElectionTimeout : Task Unit)
      (fun _ => Done cfg.members i A) (Fails cfg.members i A) (c.nodes i) := by
  have hn : NodeSim cfg.members A i
      { c.nodes i with electionTimeouts := (c.nodes i).electionTimeouts.erase id } :=
    { h.node i hi with }
  rw [Wp.bind_iff, Wp.modify_iff]
  exact hn.startElectionRound h.inv (h.done i hi)

/-- The periodic tick follows the protocol. -/
theorem Sim.heartbeat (h : Sim cfg A c) (hi : i ∈ cfg.members) (id : TaskId) :
    Wp (RaftNode.periodic id RaftNode.replicateToAllPeers) (fun _ => Done cfg.members i A)
      (Fails cfg.members i A) (c.nodes i) := by
  apply (periodic_wp ((h.node i hi).replicateToAllPeers h.inv (h.done i hi))).mono
  · exact fun _ _ hs => ⟨⟨A, Move.refl h.inv, hs.1⟩, hs.2⟩
  · rintro e s ⟨s₁, ⟨⟨⟨A', hm, hn⟩, hd⟩, he, hnull⟩, rfl⟩
    exact ⟨⟨⟨A', hm, { hn with }⟩, hd⟩, he, hnull⟩

/-- A request is sent up to the end of the sender's log. -/
theorem AppendRequested.sentTo {request : RequestAppendEntriesRPC} {senderLog : LogStore}
    (h : AppendRequested M A i request senderLog) :
    request.prevLogIndex + request.entries.length = senderLog.length := by
  have hlen := (ProtoMapper.forall₂_entriesToProto h.entries).length_eq
  rw [List.length_drop] at hlen
  have := h.prevLogIndex
  omega

/-- An answer to an append request follows the protocol. -/
theorem Sim.answerAppend (h : Sim cfg A c) {call : AppendCall} (hmem : call ∈ c.appendCalls)
    {response : ResponseAppendEntriesRPC} (hresp : call.response = some response) :
    Wp (do
        modify fun s => { s with inFlight := s.inFlight.erase call.peer }
        RaftNode.onAppendEntriesResponse call.peer call.request.term call.request.prevLogIndex
          call.request.entries.length response : Task Unit)
      (fun _ => Done cfg.members call.caller A) (Fails cfg.members call.caller A)
      (c.nodes call.caller) := by
  have hcall := h.appendCalls call hmem
  have hnode := h.node call.caller hcall.caller
  have hn : NodeSim cfg.members A call.caller { c.nodes call.caller with
      inFlight := (c.nodes call.caller).inFlight.erase call.peer } := { hnode with }
  rw [Wp.bind_iff, Wp.modify_iff]
  apply hn.onAppendEntriesResponse h.inv (h.done _ hcall.caller)
  · exact (hnode.mem_peers _).2 hcall.peer
  · intro hs
    rw [hcall.request.sentTo]
    exact hcall.acked _ hresp hs

/-- **Every event follows the protocol.** -/
theorem Sim.step (h : Sim cfg A c) (hr : Rounds c.nodes c.voteCalls) {e : Event}
    (hs : Cluster.step cfg c e = some c') :
    ∃ i ∈ cfg.members, ∃ A', Move cfg.members i A A' ∧ Sim cfg A' c' := by
  cases Cluster.happens_of_step hs with
  | start i hi _ =>
    have hw : Wp (modify RaftNode.resetElectionTimer : Task Unit)
        (fun _ => Done cfg.members i A) (Fails cfg.members i A) (c.nodes i) :=
      ⟨⟨A, Move.refl h.inv, (h.node i hi).resetElectionTimer⟩, h.done i hi⟩
    obtain ⟨A', hm, hsim⟩ := h.exec_unit hw
    exact ⟨i, hi, A', hm, { hsim with }⟩
  | electionTimeout i id hi _ =>
    obtain ⟨A', hm, hsim⟩ := h.exec_unit (h.electionTimeout hi id)
    exact ⟨i, hi, A', hm, hsim⟩
  | heartbeat i id hi _ =>
    obtain ⟨A', hm, hsim⟩ := h.exec_unit (h.heartbeat hi id)
    exact ⟨i, hi, A', hm, hsim⟩
  | submit i command hi =>
    obtain ⟨A', hm, hsim⟩ :=
      h.exec_unit ((h.node i hi).submitCommand h.inv (h.done i hi) _ command)
    exact ⟨i, hi, A', hm, { hsim with }⟩
  | deliverVote k call hk _ hc =>
    have hcall := h.voteCalls call (List.mem_of_getElem? hk)
    have hw : Wp (RaftNode.handleRequestVoteInternal call.request)
        (Voted cfg.members call.peer A call.request call.caller) (Fails cfg.members call.peer A)
        (c.nodes call.peer) :=
      ((h.node call.peer hcall.peer.1).handleRequestVote h.inv (h.done _ hcall.peer.1)
        hcall.request hcall.peer.2.symm).mono (fun _ _ hv => hv) fun _ _ hf => hf.elim
    obtain ⟨A', hm, hsim, hR⟩ := h.exec (R := fun A' (r : ResponseVoteRPC) => r.voteGranted = true →
      A'.vote call.peer call.request.term = some call.caller) hw
    rw [hc] at hsim hR
    refine ⟨call.peer, hcall.peer.1, A', hm, hsim.setVoteCall k ?_⟩
    exact { hcall.evolves hm.evolves with granted := fun r hr hg => hR r hr hg }
  | answerVote k call hk hresp ha hc =>
    have hcall := h.voteCalls call (List.mem_of_getElem? hk)
    obtain ⟨A', hm, hsim⟩ := h.exec_unit ((h.node call.caller hcall.caller).onVoteResponse h.inv
      (h.done _ hcall.caller) fun hcand hterm hg hmaj =>
        hr.quorum h hk hresp ha hcand hterm hg hmaj)
    rw [← hc] at hsim
    exact ⟨call.caller, hcall.caller, A', hm,
      hsim.setVoteCall k { hcall.evolves hm.evolves with }⟩
  | deliverAppend k call hk _ hc =>
    have hcall := h.appendCalls call (List.mem_of_getElem? hk)
    have hw : Wp (RaftNode.handleAppendEntriesInternal call.request)
        (Acked cfg.members call.peer A call.request call.senderLog) (Fails cfg.members call.peer A)
        (c.nodes call.peer) :=
      ((h.node call.peer hcall.peer.1).handleAppendEntries h.inv (h.done _ hcall.peer.1)
        hcall.request).mono (fun _ _ hv => hv) fun _ _ hf => hf.elim
    obtain ⟨A', hm, hsim, hR⟩ := h.exec
      (R := fun A' (r : ResponseAppendEntriesRPC) => r.success = true →
        call.senderLog.length ≤ A'.acked call.request.term call.peer) hw
    rw [hc] at hsim hR
    refine ⟨call.peer, hcall.peer.1, A', hm, hsim.setAppendCall k ?_⟩
    exact { hcall.evolves hm.evolves with acked := fun r hr hs => hR r hr hs }
  | answerAppend k call hk hresp _ hc =>
    have hmem := List.mem_of_getElem? hk
    have hcall := h.appendCalls call hmem
    obtain ⟨A', hm, hsim⟩ := h.exec_unit (h.answerAppend hmem hresp)
    rw [← hc] at hsim
    exact ⟨call.caller, hcall.caller, A', hm,
      hsim.setAppendCall k { hcall.evolves hm.evolves with }⟩
  | failAppend k call hk _ hc =>
    have hcall := h.appendCalls call (List.mem_of_getElem? hk)
    have hw : Wp (modify fun s => { s with inFlight := s.inFlight.erase call.peer } : Task Unit)
        (fun _ => Done cfg.members call.caller A) (Fails cfg.members call.caller A)
        (c.nodes call.caller) :=
      ⟨⟨A, Move.refl h.inv, { h.node call.caller hcall.caller with }⟩, h.done _ hcall.caller⟩
    obtain ⟨A', hm, hsim⟩ := h.exec_unit hw
    rw [← hc] at hsim
    exact ⟨call.caller, hcall.caller, A', hm,
      hsim.setAppendCall k { hcall.evolves hm.evolves with }⟩

/-! ## Rounds of votes -/

/-- The terms of replicas never decrease. -/
theorem Sim.term_le (h : Sim cfg A c) (h' : Sim cfg A' c') (hev : Evolves j A A')
    (hi : i ∈ cfg.members) : (c.nodes i).currentTerm ≤ (c'.nodes i).currentTerm := by
  rw [← (h.node i hi).term, ← (h'.node i hi).term]
  exact hev.term_mono i

theorem Cluster.put_voteCalls (c : Cluster) (i : NodeId) (hnone : s.voteRequests = []) :
    (c.put i s).voteCalls = c.voteCalls := by
  change c.voteCalls ++ Cluster.newVoteCalls s = c.voteCalls
  unfold Cluster.newVoteCalls
  rw [hnone, List.map_nil, List.append_nil]

/-- A task that asks for no votes and counts none. -/
theorem Rounds.put (hr : Rounds c.nodes c.voteCalls) (hnone : s.voteRequests = [])
    (hcand : s.status = .candidate → (c.nodes i).status = .candidate ∧
      s.currentTerm = (c.nodes i).currentTerm ∧ s.votesReceived = (c.nodes i).votesReceived)
    (hterm : (c.nodes i).currentTerm ≤ ((c.put i s).nodes i).currentTerm) :
    Rounds (c.put i s).nodes (c.put i s).voteCalls ∧ (c.put i s).voteCalls = c.voteCalls := by
  have hcalls := c.put_voteCalls i hnone
  refine ⟨?_, hcalls⟩
  rw [hcalls]
  dsimp only [Cluster.put] at hterm ⊢
  rw [Function.update_self] at hterm
  apply hr.update hterm
  intro hc
  obtain ⟨h₁, h₂, h₃⟩ := hcand hc
  dsimp only
  rw [h₂, h₃]
  exact hr.counted i h₁

theorem Rounds.quiet {ok : Bool} {fault : Option Fault} (hr : Rounds c.nodes c.voteCalls)
    (hsent : (c.nodes i).voteRequests = []) (hs : RaftNode.Quiet ok (c.nodes i) s)
    (hterm : (c.nodes i).currentTerm ≤ ((c.put i (Cluster.settle fault s)).nodes i).currentTerm) :
    Rounds (c.put i (Cluster.settle fault s)).nodes
        (c.put i (Cluster.settle fault s)).voteCalls ∧
      (c.put i (Cluster.settle fault s)).voteCalls = c.voteCalls :=
  hr.put (hs.voteRequests.trans hsent) hs.candidate hterm

/-- A candidacy starts a new round. -/
theorem Rounds.campaign (hr : Rounds c.nodes c.voteCalls) (hsent : (c.nodes i).voteRequests = [])
    (hround : (c.nodes i).currentTerm + 1 = s.currentTerm)
    (hone : s.status = .candidate → s.votesReceived = 1)
    (hreq : s.voteRequests = (c.nodes i).voteRequests ∨ ∃ request,
      request.term = (c.nodes i).currentTerm + 1 ∧ s.voteRequests =
        (c.nodes i).voteRequests ++ (c.nodes i).peers.map fun peerId => (peerId, request))
    (hid : s.nodeId = i) (hpeers : (c.nodes i).peers.Nodup) :
    Rounds (c.put i s).nodes (c.put i s).voteCalls := by
  have hle : (c.nodes i).currentTerm ≤ s.currentTerm := hround ▸ Nat.le_succ _
  have hr' : Rounds (c.put i s).nodes c.voteCalls :=
    hr.update hle fun hc => (hone hc).trans_le (Nat.le_add_right _ _)
  change Rounds (c.put i s).nodes (c.voteCalls ++ Cluster.newVoteCalls s)
  unfold Cluster.newVoteCalls
  rcases hreq with hreq | ⟨request, hterm, hreq⟩
  · rw [hreq, hsent, List.map_nil, List.append_nil]
    exact hr'
  · rw [hreq, hsent, List.nil_append, List.map_map, hid]
    refine hr'.ask hpeers ?_ ?_
    · dsimp only [Cluster.put]
      rw [Function.update_self]
      exact hround.symm.trans hterm.symm
    · intro call hcall hcaller
      have := hr.bound call hcall
      rw [hcaller] at this
      omega

/-- A vote is counted once. -/
theorem Rounds.answer (hr : Rounds c.nodes c.voteCalls) {k : ℕ} {call : VoteCall}
    (hk : c.voteCalls[k]? = some call) {response : ResponseVoteRPC}
    (hresp : call.response = some response) (ha : call.answered = false)
    (hs : s.status = .candidate → (c.nodes call.caller).status = .candidate ∧
      s.currentTerm = (c.nodes call.caller).currentTerm ∧
      (s.votesReceived = (c.nodes call.caller).votesReceived ∨
        s.votesReceived = (c.nodes call.caller).votesReceived + 1 ∧
          (c.nodes call.caller).currentTerm = call.request.term ∧ response.voteGranted = true))
    (hterm : (c.nodes call.caller).currentTerm ≤ s.currentTerm) :
    Rounds (c.put call.caller s).nodes (c.voteCalls.set k { call with answered := true }) := by
  have hmem := List.mem_of_getElem? hk
  have hr' : Rounds c.nodes (c.voteCalls.set k { call with answered := true }) :=
    hr.set hk rfl (hr.bound call hmem) (hr.fresh call hmem)
      fun i T hc => ⟨hc.1, hc.2.1, rfl, hc.2.2.2⟩
  refine hr'.update hterm ?_
  intro hc
  dsimp only
  obtain ⟨h₁, h₂, h₃ | ⟨h₃, hround, hg⟩⟩ := hs hc
  · rw [h₂, h₃]
    exact hr'.counted _ h₁
  · have hold : ¬ call.Counted call.caller (c.nodes call.caller).currentTerm := by
      intro hcount
      rw [hcount.2.2.1] at ha
      cases ha
    have hnew : VoteCall.Counted call.caller (c.nodes call.caller).currentTerm
        { call with answered := true } := by
      refine ⟨rfl, hround.symm, rfl, ?_⟩
      dsimp only
      rw [hresp, Option.map_some, hg]
    have hset := @length_countedCalls_set c.voteCalls k call { call with answered := true } hk
      call.caller (c.nodes call.caller).currentTerm
    rw [if_neg hold, if_pos hnew] at hset
    have hle := hr.counted _ h₁
    rw [h₂, h₃]
    omega

/-- **Every event keeps the count of votes.** -/
theorem Rounds.step (hr : Rounds c.nodes c.voteCalls) (h : Sim cfg A c) (h' : Sim cfg A' c')
    (hev : Evolves j A A') {e : Event} (hstep : Cluster.step cfg c e = some c') :
    Rounds c'.nodes c'.voteCalls := by
  have hterm := fun i (hi : i ∈ cfg.members) => h.term_le h' hev hi
  cases Cluster.effect_of_step hstep with
  | start i hi _ =>
    have hnone : (c.nodes i).resetElectionTimer.voteRequests = [] := (h.sent i hi).1
    exact (hr.put hnone (fun hc => ⟨hc, rfl, rfl⟩) (hterm i hi)).1
  | electionTimeout i id hi _ s hs =>
    have hs := hs.round
    have hid := (h'.node i hi).nodeId
    dsimp only [Cluster.put] at hid
    rw [Function.update_self] at hid
    exact hr.campaign (h.sent i hi).1 hs.currentTerm.symm hs.votesReceived hs.voteRequests hid
      (h.node i hi).peers_nodup
  | heartbeat i id hi _ fault s hs =>
    obtain ⟨s₁, hs₁, rfl⟩ := hs
    have hq : RaftNode.Quiet false (c.nodes i) (Cluster.repeated id fault.isNone s₁) := by
      cases fault with
      | none => exact { hs₁.quiet with flights := fun h => absurd h Bool.false_ne_true }
      | some e => exact { hs₁.quiet with }
    exact (hr.quiet (h.sent i hi).1 hq (hterm i hi)).1
  | submit i command hi fault s hs =>
    obtain ⟨hnone, hcand⟩ : s.voteRequests = [] ∧ (s.status = .candidate →
        (c.nodes i).status = .candidate ∧ s.currentTerm = (c.nodes i).currentTerm ∧
          s.votesReceived = (c.nodes i).votesReceived) := by
      rcases hs with ⟨-, rfl⟩ | ⟨-, hs⟩
      · exact ⟨(h.sent i hi).1, fun hc => ⟨hc, rfl, rfl⟩⟩
      · exact ⟨hs.quiet.voteRequests.trans (h.sent i hi).1, hs.quiet.candidate⟩
    exact (@Rounds.put c i (Cluster.settle fault s) hr hnone hcand (hterm i hi)).1
  | deliverVote k call hk hd response s hs =>
    have hcall := h.voteCalls call (List.mem_of_getElem? hk)
    have hq := hs.quiet
    obtain ⟨hr', hcalls⟩ := hr.put (hq.voteRequests.trans (h.sent _ hcall.peer.1).1) hq.candidate
      (hterm _ hcall.peer.1)
    have hnone := hr.fresh call (List.mem_of_getElem? hk) hd
    rw [← hcalls] at hk
    refine hr'.set hk rfl (hr'.bound call (List.mem_of_getElem? hk)) (fun hd => by cases hd) ?_
    intro i T hcount
    have := hcount.2.2.2
    rw [hnone] at this
    cases this
  | answerVote k call hk response hresp ha s hs =>
    have hcall := h.voteCalls call (List.mem_of_getElem? hk)
    have hle := hterm _ hcall.caller
    have hs := hs.tallied
    have hcalls := c.put_voteCalls call.caller (hs.voteRequests.trans (h.sent _ hcall.caller).1)
    dsimp only
    rw [hcalls]
    dsimp only [Cluster.put] at hle
    rw [Function.update_self] at hle
    exact hr.answer hk hresp ha hs.candidate hle
  | deliverAppend k call hk _ response fault s hs =>
    have hcall := h.appendCalls call (List.mem_of_getElem? hk)
    exact (hr.quiet (h.sent _ hcall.peer.1).1 hs.quiet (hterm _ hcall.peer.1)).1
  | answerAppend k call hk response _ _ fault s hs =>
    have hcall := h.appendCalls call (List.mem_of_getElem? hk)
    have hnone : (Cluster.settle fault s).voteRequests = [] :=
      hs.quiet.voteRequests.trans (h.sent _ hcall.caller).1
    exact (hr.put hnone hs.quiet.candidate (hterm _ hcall.caller)).1
  | failAppend k call hk _ =>
    have hcall := h.appendCalls call (List.mem_of_getElem? hk)
    have hnone : (Cluster.landed call.peer (c.nodes call.caller)).voteRequests = [] :=
      (h.sent _ hcall.caller).1
    exact (hr.put hnone (fun hc => ⟨hc, rfl, rfl⟩) (hterm _ hcall.caller)).1

/-! ## Runs -/

theorem NodeSim.create (hi : i ∈ cfg.members) :
    NodeSim cfg.members (State.init NodeId Command) i (RaftNode.create i (cfg.peers i)) where
  voteRequests r hr := absurd hr List.not_mem_nil
  appendRequests r hr := absurd hr List.not_mem_nil
  led T l hl := absurd hl List.not_mem_nil
  advanced T l hl := absurd hl List.not_mem_nil
  created f index entry hf := absurd hf List.not_mem_nil
  nodeId := rfl
  member := hi
  mem_peers := cfg.mem_peers i hi
  peers_nodup := cfg.peers_nodup i
  term := rfl
  log := rfl
  commit := rfl
  vote := rfl
  ballots T c := by simp [RaftNode.create, State.init]
  own hs := absurd rfl hs
  candidate hs := by cases hs
  leading hs := by cases hs
  applied := rfl
  machine := rfl
  lastApplied := le_rfl
  clients := {
    idle := fun _ => rfl
    pending := fun _ _ hp => absurd hp List.not_mem_nil
    answered := fun _ _ hr => absurd hr List.not_mem_nil }
  truncations cut hc := absurd hc List.not_mem_nil
  faults e he := absurd he List.not_mem_nil

theorem Sim.init (cfg : Config) : Sim cfg (State.init NodeId Command) (Cluster.init cfg) where
  inv := Inv.init
  node _ hi := NodeSim.create hi
  done _ _ := rfl
  sent _ _ := ⟨rfl, rfl⟩
  voteCalls _ hc := absurd hc List.not_mem_nil
  appendCalls _ hc := absurd hc List.not_mem_nil

theorem Rounds.init (cfg : Config) :
    Rounds (Cluster.init cfg).nodes (Cluster.init cfg).voteCalls where
  bound _ hc := absurd hc List.not_mem_nil
  fresh _ hc := absurd hc List.not_mem_nil
  distinct := List.nodup_nil
  counted _ hc := by cases hc

/-- The cluster follows the protocol, and counts votes once. -/
structure Safe (cfg : Config) (A : Protocol) (c : Cluster) : Prop
    extends Sim cfg A c where
  rounds : Rounds c.nodes c.voteCalls

/-- Moves of replicas, one after another. -/
def Moves (cfg : Config) : Protocol → Protocol → Prop :=
  Relation.ReflTransGen fun A A' => ∃ i ∈ cfg.members, Move cfg.members i A A'

namespace Moves

/-- What every move keeps, all of them keep. -/
theorem invariant {P : Protocol → Prop} (h : Moves cfg A A') (hA : P A)
    (hmove : ∀ {i : NodeId} {A A' : Protocol}, Move cfg.members i A A' → P A → P A') : P A' := by
  induction h with
  | refl => exact hA
  | tail _ hs ih =>
    obtain ⟨i, -, hm⟩ := hs
    exact hmove hm ih

theorem term_le (h : Moves cfg A A') (m : NodeId) : A.term m ≤ A'.term m :=
  h.invariant (P := fun A' => A.term m ≤ A'.term m) le_rfl
    fun hm hle => hle.trans (hm.evolves.term_mono m)

theorem commit_le (h : Moves cfg A A') (m : NodeId) : A.commit m ≤ A'.commit m :=
  h.invariant (P := fun A' => A.commit m ≤ A'.commit m) le_rfl
    fun hm hle => hle.trans (hm.evolves.commit_mono m)

theorem acked_le (h : Moves cfg A A') (T : ℕ) (m : NodeId) : A.acked T m ≤ A'.acked T m :=
  h.invariant (P := fun A' => A.acked T m ≤ A'.acked T m) le_rfl
    fun hm hle => hle.trans (hm.evolves.acked T m)

theorem leaderLog (h : Moves cfg A A') (T : ℕ) : A.leaderLog T <+: A'.leaderLog T :=
  h.invariant (P := fun A' => A.leaderLog T <+: A'.leaderLog T) List.prefix_rfl
    fun hm hle => hle.trans (hm.evolves.leaderLog T)

theorem known (h : Moves cfg A A') {T k : ℕ} {l : LogStore} (hk : A.Known cfg.members T k l) :
    A'.Known cfg.members T k l :=
  h.invariant (P := fun A => A.Known cfg.members T k l) hk fun hm => hm.evolves.known

/-- Replicas keep what they have acknowledged in their terms. -/
theorem retained (h : Moves cfg A A') (hI : Inv cfg.members A) (hr : A.Retained) : A'.Retained :=
  (h.invariant (P := fun A => Inv cfg.members A ∧ A.Retained) ⟨hI, hr⟩
    fun hm h => ⟨hm.inv, h.2.steps h.1 hm.steps⟩).2

end Moves

/-- **One event** is a move of one replica. -/
theorem Safe.step (h : Safe cfg A c) {e : Event} (hs : Cluster.step cfg c e = some c') :
    ∃ i ∈ cfg.members, ∃ A', Move cfg.members i A A' ∧ Safe cfg A' c' := by
  obtain ⟨i, hi, A', hm, hsim⟩ := h.toSim.step h.rounds hs
  exact ⟨i, hi, A', hm, hsim, h.rounds.step h.toSim hsim hm.evolves hs⟩

/-- **A run** of the cluster is a run of the protocol. -/
theorem Safe.run (h : Safe cfg A c) (hr : Cluster.Run cfg c c') :
    ∃ A', Moves cfg A A' ∧ Safe cfg A' c' := by
  induction hr with
  | refl => exact ⟨A, Relation.ReflTransGen.refl, h⟩
  | tail _ hs ih =>
    obtain ⟨A₁, hm, h₁⟩ := ih
    obtain ⟨e, hs⟩ := hs
    obtain ⟨i, hi, A₂, hm', h₂⟩ := h₁.step hs
    exact ⟨A₂, hm.tail ⟨i, hi, hm'⟩, h₂⟩

/-- No replica goes back to an earlier term. -/
theorem Safe.currentTerm_le (h : Safe cfg A c) (hr : Cluster.Run cfg c c') (hi : i ∈ cfg.members) :
    (c.nodes i).currentTerm ≤ (c'.nodes i).currentTerm := by
  obtain ⟨A', hm, h'⟩ := h.run hr
  rw [← (h.node i hi).term, ← (h'.node i hi).term]
  exact hm.term_le i

/-- **Refinement**: every state the cluster can get to follows the protocol. -/
theorem exists_safe (h : Cluster.Reachable cfg c) : ∃ A, Safe cfg A c := by
  have hinit : Safe cfg (State.init NodeId Command) (Cluster.init cfg) :=
    ⟨Sim.init cfg, Rounds.init cfg⟩
  obtain ⟨A, -, hA⟩ := hinit.run h
  exact ⟨A, hA⟩

end CowRaft.Raft
