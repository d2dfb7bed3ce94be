import CowRaft.Raft.ClusterSim

/-!
# Invariants of runs

An event runs one task (`Ran`) of one replica, and leaves every other replica and every RPC on its
way alone but for the RPC it delivers or settles (`Changes`). So an invariant of runs is a matter of
single tasks: `Cluster.RunWhere.induction` is the rule by which the invariants of roles, timers,
requests and clients are proved.
-/

namespace CowRaft.Raft

open Consensus (State Inv Evolves Move)

variable {cfg : Config} {A : Protocol} {c c' : Cluster} {e : Event} {i j : NodeId} {s : RaftNode}

namespace Event

/-- The command of a client. -/
def command : Event → Option Command
  | .submit _ command => some command
  | _ => none

/-- The command of a client, with the replica it goes to. -/
def submission : Event → Option (NodeId × Command)
  | .submit i command => some (i, command)
  | _ => none

/-- The replica that is started. -/
def starts : Event → Option NodeId
  | .start i => some i
  | _ => none

/-- The replica whose periodic tick runs. -/
def ticks : Event → Option NodeId
  | .heartbeat i _ => some i
  | _ => none

/-- The position of the append RPC that is over for its caller. -/
def lands : Event → Option ℕ
  | .answerAppend k => some k
  | .failAppend k => some k
  | _ => none

end Event

/-- The replica that a message reaches, with the message's term. -/
def Cluster.carried (c : Cluster) : Event → Option (NodeId × ℕ)
  | .deliverVote k => c.voteCalls[k]?.map fun call => (call.peer, call.request.term)
  | .answerVote k => c.voteCalls[k]?.bind fun call =>
    call.response.map fun response => (call.caller, response.term)
  | .deliverAppend k => c.appendCalls[k]?.map fun call => (call.peer, call.request.term)
  | .answerAppend k => c.appendCalls[k]?.bind fun call =>
    call.response.map fun response => (call.caller, response.term)
  | _ => none

theorem Cluster.carried_deliverVote {k : ℕ} {call : VoteCall} (hk : c.voteCalls[k]? = some call) :
    c.carried (.deliverVote k) = some (call.peer, call.request.term) := by
  rw [carried, hk, Option.map_some]

theorem Cluster.carried_answerVote {k : ℕ} {call : VoteCall} (hk : c.voteCalls[k]? = some call)
    {response : ResponseVoteRPC} (hr : call.response = some response) :
    c.carried (.answerVote k) = some (call.caller, response.term) := by
  rw [carried, hk, Option.bind_some, hr, Option.map_some]

theorem Cluster.carried_deliverAppend {k : ℕ} {call : AppendCall}
    (hk : c.appendCalls[k]? = some call) :
    c.carried (.deliverAppend k) = some (call.peer, call.request.term) := by
  rw [carried, hk, Option.map_some]

theorem Cluster.carried_answerAppend {k : ℕ} {call : AppendCall}
    (hk : c.appendCalls[k]? = some call) {response : ResponseAppendEntriesRPC}
    (hr : call.response = some response) :
    c.carried (.answerAppend k) = some (call.caller, response.term) := by
  rw [carried, hk, Option.bind_some, hr, Option.map_some]

/-! ## What an event changes -/

/-- The task of an event ran on replica `j`, and left it in state `s`. -/
inductive Ran (c : Cluster) : Event → NodeId → RaftNode → Prop
  | start (i : NodeId) : Ran c (.start i) i (c.nodes i).resetElectionTimer
  | electionTimeout (i : NodeId) (id : TaskId) (hid : id ∈ (c.nodes i).electionTimeouts)
      (s : RaftNode) (hs : RaftNode.Campaigned (Cluster.timedOut id (c.nodes i)) s) :
    Ran c (.electionTimeout i id) i s
  | heartbeat (i : NodeId) (id : TaskId) (hid : id ∈ (c.nodes i).heartbeats)
      (fault : Option Fault) (s : RaftNode)
      (hs : Cluster.Ticked id fault.isNone (c.nodes i) s)
      (hb : fault ≠ none → ∃ p, RaftNode.Blocked (c.nodes i) p) :
    Ran c (.heartbeat i id) i (Cluster.settle fault s)
  | submit (i : NodeId) (command : Command) (fault : Option Fault) (s : RaftNode)
      (hs : RaftNode.Submitted c.submissions.length command fault.isNone (c.nodes i) s) :
    Ran c (.submit i command) i (Cluster.settle fault s)
  | deliverVote (k : ℕ) (call : VoteCall) (hk : c.voteCalls[k]? = some call) (s : RaftNode)
      (hs : RaftNode.Polled call.request (c.nodes call.peer) s) :
    Ran c (.deliverVote k) call.peer s
  | answerVote (k : ℕ) (call : VoteCall) (hk : c.voteCalls[k]? = some call)
      (response : ResponseVoteRPC) (hr : call.response = some response) (s : RaftNode)
      (hs : RaftNode.Counted call.request.term response (c.nodes call.caller) s) :
    Ran c (.answerVote k) call.caller s
  | deliverAppend (k : ℕ) (call : AppendCall) (hk : c.appendCalls[k]? = some call)
      (fault : Option Fault) (s : RaftNode)
      (hs : RaftNode.Heard call.request fault.isNone (c.nodes call.peer) s) :
    Ran c (.deliverAppend k) call.peer (Cluster.settle fault s)
  | answerAppend (k : ℕ) (call : AppendCall) (hk : c.appendCalls[k]? = some call)
      (response : ResponseAppendEntriesRPC) (hr : call.response = some response)
      (ha : call.settled = false) (fault : Option Fault) (s : RaftNode)
      (hs : RaftNode.Acknowledged response fault.isNone
        (Cluster.landed call.peer (c.nodes call.caller)) s) :
    Ran c (.answerAppend k) call.caller (Cluster.settle fault s)
  | failAppend (k : ℕ) (call : AppendCall) (hk : c.appendCalls[k]? = some call)
      (ha : call.settled = false) :
    Ran c (.failAppend k) call.caller (Cluster.landed call.peer (c.nodes call.caller))

/-- An RPC is what it was, but for its delivery, or as the event settles it. -/
structure AppendCall.Goes (e : Event) (k : ℕ) (call call' : AppendCall) : Prop where
  caller : call'.caller = call.caller
  peer : call'.peer = call.peer
  request : call'.request = call.request
  settled : call'.settled = (call.settled || e.lands = some k)

/-- Replica `j` is now in state `s`, its requests are sent, and nothing else has changed. -/
structure Changes (c : Cluster) (e : Event) (c' : Cluster) (j : NodeId) (s : RaftNode) :
    Prop where
  node : c'.nodes j = { s with voteRequests := [], appendRequests := [] }
  other : ∀ i, i ≠ j → c'.nodes i = c.nodes i
  calls : ∃ calls, c'.appendCalls = calls ++ Cluster.newAppendCalls s ∧
    calls.length = c.appendCalls.length ∧
    ∀ k call', calls[k]? = some call' → ∃ call, c.appendCalls[k]? = some call ∧
      AppendCall.Goes e k call call'
  submissions : c'.submissions = c.submissions ++ e.submission.toList

/-- No append RPC is delivered or settled. -/
theorem Changes.put (hn : c'.nodes = (c.put j s).nodes)
    (ha : c'.appendCalls = (c.put j s).appendCalls)
    (hsub : c'.submissions = c.submissions ++ e.submission.toList) (hl : e.lands = none) :
    Changes c e c' j s where
  node := by
    rw [hn]
    exact Function.update_self _ _ _
  other i hi := by
    rw [hn]
    exact Function.update_of_ne hi _ _
  calls := ⟨c.appendCalls, ha, rfl, fun k call hk => ⟨call, hk, rfl, rfl, rfl, by simp [hl]⟩⟩
  submissions := hsub

/-- The RPC at position `k` is delivered or settled. -/
theorem Changes.set {k : ℕ} {call call' : AppendCall} (hk : c.appendCalls[k]? = some call)
    (hgoes : AppendCall.Goes e k call call') (hl : ∀ k' ∈ e.lands, k' = k)
    (hsub : e.submission = none) :
    Changes c e { c.put j s with appendCalls := (c.put j s).appendCalls.set k call' } j s where
  node := Function.update_self _ _ _
  other i hi := Function.update_of_ne hi _ _
  calls := by
    have hlt : k < c.appendCalls.length := (List.getElem?_eq_some_iff.1 hk).1
    refine ⟨c.appendCalls.set k call', List.set_append_left _ _ hlt, List.length_set, ?_⟩
    intro k' call₁ hk'
    by_cases heq : k = k'
    · subst heq
      rw [List.getElem?_set_self hlt] at hk'
      obtain rfl := Option.some.inj hk'
      exact ⟨call, hk, hgoes⟩
    · rw [List.getElem?_set_ne heq] at hk'
      refine ⟨call₁, hk', rfl, rfl, rfl, ?_⟩
      have hne : e.lands ≠ some k' := fun h => heq (hl k' h).symm
      simp [hne]
  submissions := by
    rw [hsub]
    exact (List.append_nil _).symm

theorem Changes.exists_call (h : Changes c e c' j s) {k : ℕ} {call : AppendCall}
    (hk : c.appendCalls[k]? = some call) :
    ∃ call', c'.appendCalls[k]? = some call' ∧ AppendCall.Goes e k call call' := by
  obtain ⟨calls, heq, hlen, hgoes⟩ := h.calls
  have hlt : k < calls.length := hlen ▸ (List.getElem?_eq_some_iff.1 hk).1
  obtain ⟨call₀, hk₀, hg⟩ := hgoes k _ (List.getElem?_eq_getElem hlt)
  rw [hk] at hk₀
  obtain rfl := Option.some.inj hk₀
  refine ⟨calls[k], ?_, hg⟩
  rw [heq, List.getElem?_append_left hlt]
  exact List.getElem?_eq_getElem hlt

/-- An RPC was on its way before, or it was just sent. -/
theorem Changes.call_cases (h : Changes c e c' j s) {k : ℕ} {call' : AppendCall}
    (hk : c'.appendCalls[k]? = some call') :
    (∃ call, c.appendCalls[k]? = some call ∧ AppendCall.Goes e k call call') ∨
      c.appendCalls.length ≤ k ∧
        (Cluster.newAppendCalls s)[k - c.appendCalls.length]? = some call' := by
  obtain ⟨calls, heq, hlen, hgoes⟩ := h.calls
  rw [heq] at hk
  rcases Nat.lt_or_ge k calls.length with hlt | hge
  · rw [List.getElem?_append_left hlt] at hk
    exact Or.inl (hgoes k call' hk)
  · rw [List.getElem?_append_right hge, hlen] at hk
    exact Or.inr ⟨hlen ▸ hge, hk⟩

/-! ## Invariants -/

/-- A tick throws only at a peer to which no request can be built. -/
theorem Safe.tick (hA : Safe cfg A c) (hi : i ∈ cfg.members) (id : TaskId) :
    ∃ fault s, Cluster.Ticked id (Option.isNone fault) (c.nodes i) s ∧
      (fault ≠ none → ∃ p, RaftNode.Blocked (c.nodes i) p) ∧
      (c.exec i (RaftNode.periodic id RaftNode.replicateToAllPeers)).1 =
        c.put i (Cluster.settle fault s) := by
  have hsend := RaftNode.replicateToAllPeers_wp fun hl p hp next hn =>
    (hA.node i hi).next_le hl hp hn
  have hw : Wp (RaftNode.periodic id RaftNode.replicateToAllPeers)
      (fun _ s => Cluster.Ticked id true (c.nodes i) s ∧
        (true = false → ∃ p, RaftNode.Blocked (c.nodes i) p))
      (fun _ s => Cluster.Ticked id false (c.nodes i) s ∧
        (false = false → ∃ p, RaftNode.Blocked (c.nodes i) p)) (c.nodes i) := by
    apply ((Cluster.periodic_role id (c.nodes i)).and (periodic_wp hsend)).mono
    · exact fun _ _ hs => ⟨hs.1, fun h => Bool.noConfusion h⟩
    · rintro e s ⟨hs, s₁, hf, -⟩
      exact ⟨hs, fun _ => hf.2.2.2⟩
  obtain ⟨fault, s, ⟨hs, hb⟩, hput⟩ := Cluster.exec_cases
    (R := fun ok s₀ s => Cluster.Ticked id ok s₀ s ∧
      (ok = false → ∃ p, RaftNode.Blocked s₀ p)) hw
  exact ⟨fault, s, hs, fun hf => hb (Option.isNone_eq_false_iff.2 (Option.isSome_iff_ne_none.2 hf)),
    hput⟩

/-- **What one event changes.** -/
theorem Safe.ran (hA : Safe cfg A c) (hstep : Cluster.step cfg c e = some c') :
    ∃ j ∈ cfg.members, ∃ s, Ran c e j s ∧ Changes c e c' j s := by
  have hnil : c.submissions = c.submissions ++ (none : Option (NodeId × Command)).toList :=
    (List.append_nil _).symm
  cases Cluster.effect_of_step hstep with
  | start i hi _ => exact ⟨i, hi, _, .start i, .put rfl rfl hnil rfl⟩
  | electionTimeout i id hi hid s hs =>
    exact ⟨i, hi, s, .electionTimeout i id hid s hs, .put rfl rfl hnil rfl⟩
  | heartbeat i id hi hid _ _ _ =>
    obtain ⟨fault, s, hs, hb, hput⟩ := hA.tick hi id
    rw [Cluster.step, if_pos ⟨hi, hid⟩, hput] at hstep
    rw [← Option.some.inj hstep]
    exact ⟨i, hi, _, .heartbeat i id hid fault s hs hb, .put rfl rfl hnil rfl⟩
  | submit i command hi fault s hs =>
    exact ⟨i, hi, _, .submit i command fault s hs, .put rfl rfl rfl rfl⟩
  | deliverVote k call hk _ response s hs =>
    exact ⟨call.peer, (hA.voteCalls call (List.mem_of_getElem? hk)).peer.1, s,
      .deliverVote k call hk s hs, .put rfl rfl hnil rfl⟩
  | answerVote k call hk response hr _ s hs =>
    exact ⟨call.caller, (hA.voteCalls call (List.mem_of_getElem? hk)).caller, s,
      .answerVote k call hk response hr s hs, .put rfl rfl hnil rfl⟩
  | deliverAppend k call hk _ response fault s hs =>
    exact ⟨call.peer, (hA.appendCalls call (List.mem_of_getElem? hk)).peer.1, _,
      .deliverAppend k call hk fault s hs,
      Changes.set hk ⟨rfl, rfl, rfl, (Bool.or_false _).symm⟩ (fun k' hk' => by cases hk') rfl⟩
  | answerAppend k call hk response hr ha fault s hs =>
    exact ⟨call.caller, (hA.appendCalls call (List.mem_of_getElem? hk)).caller, _,
      .answerAppend k call hk response hr ha fault s hs,
      Changes.set hk ⟨rfl, rfl, rfl, by simp [Event.lands]⟩
        (fun k' hk' => (Option.some.inj hk').symm) rfl⟩
  | failAppend k call hk ha =>
    exact ⟨call.caller, (hA.appendCalls call (List.mem_of_getElem? hk)).caller, _,
      .failAppend k call hk ha,
      Changes.set hk ⟨rfl, rfl, rfl, by simp [Event.lands]⟩
        (fun k' hk' => (Option.some.inj hk').symm) rfl⟩

/-- **The rule of invariants**: what holds at first, and is kept by every task that runs under the
condition, holds at the end of every run. -/
theorem Cluster.RunWhere.induction {P : Cluster → Event → Prop} {I : Cluster → Prop}
    (h : Cluster.RunWhere cfg P (Cluster.init cfg) c) (hinit : I (Cluster.init cfg))
    (hran : ∀ {A : Protocol} {c c' : Cluster} {e : Event} {j : NodeId} {s : RaftNode},
      Safe cfg A c → j ∈ cfg.members → I c → P c e → Cluster.step cfg c e = some c' →
        Ran c e j s → Changes c e c' j s → I c') :
    I c := by
  induction h with
  | refl => exact hinit
  | tail hrun hs ih =>
    obtain ⟨e, he, hstep⟩ := hs
    obtain ⟨A, hA⟩ := exists_safe (Cluster.RunWhere.run hrun)
    obtain ⟨j, hj, s, hran', hch⟩ := hA.ran hstep
    exact hran hA hj ih he hstep hran' hch

/-! ## What every task does -/

/-- No task changes which replica this is, and what was published stays published. -/
structure RaftNode.Remains (s s' : RaftNode) : Prop where
  nodeId : s'.nodeId = s.nodeId
  peers : s'.peers = s.peers
  led : s.history.led ⊆ s'.history.led

namespace RaftNode

theorem Calm.remains {ok : Bool} {s s' : RaftNode} (h : Calm ok s s') : Remains s s' where
  nodeId := congrArg Roles.nodeId h.roles
  peers := congrArg Roles.peers h.roles
  led := by
    have hled : s'.history.led = s.history.led := congrArg Roles.led h.roles
    rw [hled]
    exact List.Subset.refl _

theorem becomeFollower_remains (seenTerm : ℕ) (s : RaftNode) :
    Remains s (becomeFollower seenTerm s) := by
  rw [becomeFollower_eq]
  exact ⟨rfl, rfl, fun _ hl => hl⟩

theorem Leads.remains {s s' : RaftNode} (h : Leads s s') : Remains s s' := by
  obtain ⟨s₁, h₁, rfl⟩ := h
  have h := h₁.remains
  exact ⟨h.nodeId, h.peers, fun _ hl => h.led (List.mem_append_left _ hl)⟩

end RaftNode

theorem Ran.remains (h : Ran c e j s) : RaftNode.Remains (c.nodes j) s := by
  cases h with
  | start => exact ⟨rfl, rfl, fun _ hl => hl⟩
  | electionTimeout i id _ _ hs =>
    rcases hs with hs | rfl
    · exact ⟨hs.remains.nodeId, hs.remains.peers, hs.remains.led⟩
    · exact ⟨rfl, rfl, fun _ hl => hl⟩
  | heartbeat i id _ fault _ hs =>
    obtain ⟨s₁, hs, rfl⟩ := hs
    cases fault <;> exact ⟨hs.remains.nodeId, hs.remains.peers, hs.remains.led⟩
  | submit i command fault _ hs =>
    rcases hs with ⟨-, rfl⟩ | ⟨-, hs⟩
    · exact ⟨rfl, rfl, fun _ hl => hl⟩
    · exact ⟨hs.remains.nodeId, hs.remains.peers, hs.remains.led⟩
  | deliverVote k call _ _ hs =>
    rcases hs with rfl | ⟨s₀, h₀, hs⟩
    · exact ⟨rfl, rfl, fun _ hl => hl⟩
    have hfirst : RaftNode.Remains (c.nodes call.peer) s₀ := by
      rcases h₀ with ⟨-, rfl⟩ | ⟨-, rfl⟩
      · exact ⟨rfl, rfl, fun _ hl => hl⟩
      · exact RaftNode.becomeFollower_remains _ _
    rcases hs with rfl | ⟨-, rfl⟩
    · exact ⟨hfirst.nodeId, hfirst.peers, hfirst.led⟩
    · exact ⟨hfirst.nodeId, hfirst.peers, hfirst.led⟩
  | answerVote k call _ response _ _ hs =>
    rcases hs with rfl | ⟨-, rfl⟩ | ⟨-, -, -, rfl | hs⟩
    · exact ⟨rfl, rfl, fun _ hl => hl⟩
    · exact RaftNode.becomeFollower_remains _ _
    · exact ⟨rfl, rfl, fun _ hl => hl⟩
    · exact ⟨hs.remains.nodeId, hs.remains.peers, hs.remains.led⟩
  | deliverAppend k call _ fault _ hs =>
    rcases hs with rfl | ⟨s₀, h₀, hs⟩
    · exact ⟨rfl, rfl, fun _ hl => hl⟩
    have hfirst : RaftNode.Remains (c.nodes call.peer) s₀ := by
      rcases h₀ with ⟨-, rfl⟩ | ⟨-, rfl⟩
      · exact ⟨rfl, rfl, fun _ hl => hl⟩
      · exact RaftNode.becomeFollower_remains _ _
    have hlast := hs.remains
    exact ⟨hlast.nodeId.trans hfirst.nodeId, hlast.peers.trans hfirst.peers,
      fun _ hl => hlast.led (hfirst.led hl)⟩
  | answerAppend k call _ response _ _ fault _ hs =>
    rcases hs with ⟨-, rfl⟩ | hs
    · have hdown := RaftNode.becomeFollower_remains response.term
        (Cluster.landed call.peer (c.nodes call.caller))
      exact ⟨hdown.nodeId, hdown.peers, hdown.led⟩
    · exact ⟨hs.remains.nodeId, hs.remains.peers, hs.remains.led⟩
  | failAppend => exact ⟨rfl, rfl, fun _ hl => hl⟩

/-! ## What tasks throw -/

/-- The replica has peers and a null key in its log. -/
def RaftNode.NullKeyed (s : RaftNode) : Prop :=
  s.peers ≠ [] ∧ ∃ entry ∈ s.logStore, entry.command.key = none

/-- One task that throws only as it meets a null key. -/
theorem Cluster.exec_faults {α : Type} {task : Task α}
    (hw : Wp task (fun _ s => s.history.faults = (c.nodes i).history.faults)
      (fun _ => RaftNode.NullKeyed) (c.nodes i)) :
    ∀ j, ((c.exec i task).1.nodes j).history.faults = (c.nodes j).history.faults ∨
      ((c.exec i task).1.nodes j).NullKeyed :=
  Cluster.exec_nodes
    (P := fun j s => s.history.faults = (c.nodes j).history.faults ∨ s.NullKeyed)
    (fun _ => Or.inl rfl) hw (fun _ _ hs => Or.inl hs) fun _ _ hs => Or.inr hs

/-- **What tasks throw**: nothing, unless the replica has peers and a null key in its log. -/
theorem Safe.faults (hA : Safe cfg A c) (hstep : Cluster.step cfg c e = some c') (i : NodeId) :
    (c'.nodes i).history.faults = (c.nodes i).history.faults ∨ (c'.nodes i).NullKeyed := by
  have hfails : ∀ {M : Finset NodeId} {n : NodeId} {A : Protocol} (e : Fault) (s : RaftNode),
      Fails M n A e s → s.NullKeyed := fun _ _ hf => hf.2.2
  cases Cluster.happens_of_step hstep with
  | start j _ _ =>
    have hw : Wp (modify RaftNode.resetElectionTimer : Task Unit)
      (fun _ s => s.history.faults = (c.nodes j).history.faults)
      (fun _ => RaftNode.NullKeyed) (c.nodes j) := rfl
    exact Cluster.exec_faults hw i
  | electionTimeout j id _ _ =>
    apply Cluster.exec_faults
    rw [Wp.bind_iff, Wp.modify_iff]
    apply (RaftNode.startElectionRound_role _).mono
    · exact fun _ _ hs => hs.round.faults
    · exact fun _ _ hf => hf.elim
  | heartbeat j id hj _ =>
    apply Cluster.exec_faults
    apply ((hA.heartbeat hj id).and (Cluster.periodic_role id (c.nodes j))).mono
    · rintro - s ⟨-, s₁, hs, rfl⟩
      exact hs.faults
    · exact fun e s hs => hfails e s hs.1
  | submit j command hj =>
    apply Cluster.exec_faults
    apply (((hA.node j hj).submitCommand hA.inv (hA.done j hj) _ command).and
      (RaftNode.submitCommand_role _ command (c.nodes j))).mono
    · rintro - s ⟨-, ⟨-, rfl⟩ | ⟨-, hs⟩⟩
      · rfl
      · exact hs.faults
    · exact fun e s hs => hfails e s hs.1
  | deliverVote k call _ _ hc =>
    have h := Cluster.exec_faults ((RaftNode.handleRequestVote_role call.request
      (c.nodes call.peer)).mono (fun _ _ hs => hs.quiet.faults) fun _ _ hf => hf.elim) i
    rw [hc] at h
    exact h
  | answerVote k call _ _ _ hc =>
    rw [hc]
    exact Cluster.exec_faults ((RaftNode.onVoteResponse_role _ _ _).mono
      (fun _ _ hs => hs.tallied.faults) fun _ _ hf => hf.elim) i
  | deliverAppend k call hk _ hc =>
    have hcall := hA.appendCalls call (List.mem_of_getElem? hk)
    have h := Cluster.exec_faults ((((hA.node _ hcall.peer.1).handleAppendEntries hA.inv
      (hA.done _ hcall.peer.1) hcall.request).and (RaftNode.handleAppendEntries_role call.request
      (c.nodes call.peer))).mono (fun _ _ hs => hs.2.quiet.faults) fun _ _ hf => hf.1.elim) i
    rw [hc] at h
    exact h
  | @answerAppend k call hk response hr _ _ hc =>
    rw [hc]
    have hrole : Wp (do
        modify fun s => { s with inFlight := s.inFlight.erase call.peer }
        RaftNode.onAppendEntriesResponse call.peer call.request.term call.request.prevLogIndex
          call.request.entries.length response : Task Unit)
        (fun _ s => s.history.faults = (c.nodes call.caller).history.faults)
        (fun _ _ => True) (c.nodes call.caller) := by
      rw [Wp.bind_iff, Wp.modify_iff]
      exact (RaftNode.onAppendEntriesResponse_role _ _ _ _ _ _).mono
        (fun _ _ hs => hs.quiet.faults) fun _ _ _ => trivial
    exact Cluster.exec_faults (((hA.answerAppend (List.mem_of_getElem? hk) hr).and hrole).mono
      (fun _ _ hs => hs.2) fun e s hs => hfails e s hs.1) i
  | failAppend k call _ _ hc =>
    have hw : Wp (modify (Cluster.landed call.peer) : Task Unit)
      (fun _ s => s.history.faults = (c.nodes call.caller).history.faults)
      (fun _ => RaftNode.NullKeyed) (c.nodes call.caller) := rfl
    rw [hc]
    exact Cluster.exec_faults hw i

end CowRaft.Raft
