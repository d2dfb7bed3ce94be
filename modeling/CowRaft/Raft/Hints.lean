import CowRaft.Raft.Runs
import CowRaft.Raft.Safety

/-!
# Leader hints

A replica publishes whom it believes to be the leader, with its term. Becoming a candidate clears
the hint, and hearing from a leader sets it; but a replica that adopts a later term from any other
message keeps the hint of the term before (`hint_strays`). Where no such message comes between, a
hint names a leader of the published term (`hints_lead`).
-/

namespace CowRaft.Raft

variable {cfg : Config} {A : Protocol} {c c' : Cluster} {e : Event} {i j : NodeId}
  {s s' : RaftNode} {Led Led' : NodeId → ℕ → Prop}

/-- A replica became leader in a term. -/
def HasLed (c : Cluster) (i : NodeId) (T : ℕ) : Prop := T ∈ (c.nodes i).history.led.map Prod.fst

instance (c : Cluster) (i : NodeId) (T : ℕ) : Decidable (HasLed c i T) :=
  inferInstanceAs (Decidable (T ∈ (c.nodes i).history.led.map Prod.fst))

/-- A message of a later term reaches only replicas that know of no leader, or of the leader of
that term. -/
def Paired (c : Cluster) (e : Event) : Prop :=
  ∀ m ∈ c.carried e, (c.nodes m.1).currentTerm < m.2 →
    ∀ L ∈ (c.nodes m.1).currentLeaderId, HasLed c L m.2

instance (c : Cluster) (e : Event) : Decidable (Paired c e) :=
  inferInstanceAs (Decidable (∀ m ∈ c.carried e, (c.nodes m.1).currentTerm < m.2 →
    ∀ L ∈ (c.nodes m.1).currentLeaderId, HasLed c L m.2))

/-! ## Tasks -/

namespace RaftNode

/-- Hints name replicas that have led the term they are told with, and so do requests. -/
structure Hinted (Led : NodeId → ℕ → Prop) (s : RaftNode) : Prop where
  published : ∀ state ∈ s.history.published, ∀ L, state.leaderId = some L →
    Led L state.currentTerm
  hint : ∀ L, s.currentLeaderId = some L → Led L s.currentTerm
  leader : s.status = .leader → Led s.nodeId s.currentTerm
  requests : ∀ r ∈ s.appendRequests, Led r.2.1.leaderId r.2.1.term

namespace Hinted

theorem mono (h : Hinted Led s) (hle : ∀ L T, Led L T → Led' L T) : Hinted Led' s where
  published state hs L hL := hle _ _ (h.published state hs L hL)
  hint L hL := hle _ _ (h.hint L hL)
  leader hl := hle _ _ (h.leader hl)
  requests r hr := hle _ _ (h.requests r hr)

theorem publishSnapshot (h : Hinted Led s) : Hinted Led s.publishSnapshot where
  published state hs L hL := by
    rcases List.mem_append.1 hs with hs | hs
    · exact h.published state hs L hL
    · obtain rfl := List.mem_singleton.1 hs
      exact h.hint L hL
  hint := h.hint
  leader := h.leader
  requests := h.requests

theorem calm {ok : Bool} (h : Hinted Led s) (hc : Calm ok s s') : Hinted Led s' := by
  have hterm : s'.currentTerm = s.currentTerm := congrArg Roles.currentTerm hc.roles
  have hleader : s'.currentLeaderId = s.currentLeaderId :=
    congrArg Roles.currentLeaderId hc.roles
  have hstatus : s'.status = s.status := congrArg Roles.status hc.roles
  have hid : s'.nodeId = s.nodeId := congrArg Roles.nodeId hc.roles
  refine ⟨?_, ?_, ?_, ?_⟩
  · obtain ⟨states, heq, hstates⟩ := hc.announced
    intro state hs L hL
    rw [heq] at hs
    rcases List.mem_append.1 hs with hs | hs
    · exact h.published state hs L hL
    · obtain ⟨ht, hl⟩ := hstates state hs
      rw [ht]
      exact h.hint L (hl.symm.trans hL)
  · rw [hterm, hleader]
    exact h.hint
  · rw [hterm, hstatus, hid]
    exact h.leader
  · obtain ⟨-, sent, heq, -, hsent⟩ := hc.dispatched
    intro r hr
    rw [heq] at hr
    rcases List.mem_append.1 hr with hr | hr
    · exact h.requests r hr
    · obtain ⟨hl, -, -, ht, hL⟩ := hsent r hr
      rw [ht, hL]
      exact h.leader hl

/-- Stepping down keeps the hint. -/
theorem becomeFollower (h : Hinted Led s) {seenTerm : ℕ} (hle : s.currentTerm ≤ seenTerm)
    (hpaired : s.currentTerm < seenTerm → ∀ L, s.currentLeaderId = some L → Led L seenTerm) :
    Hinted Led (becomeFollower seenTerm s) := by
  have hhint : ∀ L, s.currentLeaderId = some L → Led L (max s.currentTerm seenTerm) := by
    intro L hL
    rw [Nat.max_eq_right hle]
    rcases Nat.lt_or_eq_of_le hle with hlt | heq
    · exact hpaired hlt L hL
    · exact heq ▸ h.hint L hL
  rw [becomeFollower_eq]
  refine ⟨fun state hs L hL => ?_, hhint, fun hl => ServerStatus.noConfusion hl, h.requests⟩
  rcases List.mem_append.1 hs with hs | hs
  · exact h.published state hs L hL
  · obtain rfl := List.mem_singleton.1 hs
    exact hhint L hL

theorem hearLeader (h : Hinted Led s) {L : NodeId} (hL : Led L s.currentTerm) :
    Hinted Led (s.hearLeader L) where
  published := h.published
  hint L' hL' := by
    obtain rfl := Option.some.inj hL'
    exact hL
  leader := h.leader
  requests := h.requests

theorem leads (h : Hinted Led s) (hled : Led s.nodeId s.currentTerm) (hs : Leads s s') :
    Hinted Led s' := by
  obtain ⟨s₁, hs, rfl⟩ := hs
  have hinit : Hinted Led s.initLeader :=
    ⟨h.published, fun L hL => Option.some.inj hL ▸ hled, fun _ => hled, h.requests⟩
  exact { hinit.publishSnapshot.calm hs with }

/-- A candidate knows of no leader. -/
theorem beginElectionRound (h : Hinted Led s) : Hinted Led s.beginElectionRound where
  published := h.published
  hint L hL := absurd hL.symm (Option.some_ne_none L)
  leader hl := ServerStatus.noConfusion hl
  requests := h.requests

end Hinted

theorem Leads.led (h : Leads s s') : s.currentTerm ∈ s'.history.led.map Prod.fst := by
  obtain ⟨s₁, hs, rfl⟩ := h
  have hled : s₁.history.led = s.history.led ++ [(s.currentTerm, s.logStore)] :=
    congrArg Roles.led hs.roles
  refine List.mem_map.2 ⟨(s.currentTerm, s.logStore), ?_, rfl⟩
  change _ ∈ s₁.history.led
  rw [hled]
  exact List.mem_append_right _ (List.mem_singleton_self _)

end RaftNode

/-! ## Runs -/

/-- **Every task** keeps hints true, under the condition. -/
theorem Ran.hinted (h : Ran c e j s) (hh : RaftNode.Hinted Led (c.nodes j))
    (hcalls : ∀ call ∈ c.appendCalls, Led call.request.leaderId call.request.term)
    (hpaired : ∀ m ∈ c.carried e, (c.nodes m.1).currentTerm < m.2 →
      ∀ L, (c.nodes m.1).currentLeaderId = some L → Led L m.2)
    (hled : ∀ T ∈ s.history.led.map Prod.fst, Led (c.nodes j).nodeId T) :
    RaftNode.Hinted Led s := by
  cases h with
  | start => exact { hh with }
  | electionTimeout i id _ _ hs =>
    have hround : RaftNode.Hinted Led (RaftNode.resetElectionTimer (RaftNode.publishSnapshot
        (RaftNode.beginElectionRound (Cluster.timedOut id (c.nodes j))))) := by
      have ht : RaftNode.Hinted Led (Cluster.timedOut id (c.nodes j)) := { hh with }
      exact { ht.beginElectionRound.publishSnapshot with }
    rcases hs with hs | rfl
    · exact hround.leads (hled _ hs.led) hs
    · exact { hround with }
  | heartbeat i id _ fault _ hs =>
    obtain ⟨s₁, hs, rfl⟩ := hs
    cases fault <;> exact { hh.calm hs with }
  | submit i command fault _ hs =>
    rcases hs with ⟨-, rfl⟩ | ⟨-, hs⟩
    · exact { hh with }
    · have ha : RaftNode.Hinted Led
          ((c.nodes j).appendForClient c.submissions.length command) := { hh with }
      exact { ha.calm hs with }
  | deliverVote k call hk _ hs =>
    have hcarried := Cluster.carried_deliverVote hk
    rcases hs with rfl | ⟨s₀, h₀, hs⟩
    · exact hh
    have hfirst : RaftNode.Hinted Led s₀ := by
      rcases h₀ with ⟨-, rfl⟩ | ⟨hlt, rfl⟩
      · exact hh
      · exact hh.becomeFollower hlt.le (hpaired _ hcarried)
    rcases hs with rfl | ⟨-, rfl⟩
    · exact hfirst.publishSnapshot
    · have hg : RaftNode.Hinted Led
          (RaftNode.resetElectionTimer (s₀.grantVote call.request.candidateId)) :=
        { hfirst with }
      exact hg.publishSnapshot
  | answerVote k call hk response hr _ hs =>
    have hcarried := Cluster.carried_answerVote hk hr
    rcases hs with rfl | ⟨hlt, rfl⟩ | ⟨-, -, -, rfl | hs⟩
    · exact hh
    · exact hh.becomeFollower hlt.le (hpaired _ hcarried)
    · exact { hh with }
    · have hv : RaftNode.Hinted Led { c.nodes call.caller with
          votesReceived := (c.nodes call.caller).votesReceived + 1 } := { hh with }
      exact hv.leads (hled _ hs.led) hs
  | deliverAppend k call hk fault _ hs =>
    have hcarried := Cluster.carried_deliverAppend hk
    have hL := hcalls call (List.mem_of_getElem? hk)
    rcases hs with rfl | ⟨s₀, h₀, hs⟩
    · exact { hh with }
    have hfirst : RaftNode.Hinted Led s₀ ∧ s₀.currentTerm = call.request.term := by
      rcases h₀ with ⟨⟨ht, -⟩, rfl⟩ | ⟨hle, rfl⟩
      · exact ⟨hh, ht⟩
      · have hle' : (c.nodes call.peer).currentTerm ≤ call.request.term := by omega
        refine ⟨hh.becomeFollower hle' (hpaired _ hcarried), ?_⟩
        rw [RaftNode.becomeFollower_eq]
        exact Nat.max_eq_right hle'
    exact { (hfirst.1.hearLeader (hfirst.2 ▸ hL)).calm hs with }
  | answerAppend k call hk response hr _ fault _ hs =>
    have hcarried := Cluster.carried_answerAppend hk hr
    have hland : RaftNode.Hinted Led (Cluster.landed call.peer (c.nodes call.caller)) :=
      { hh with }
    rcases hs with ⟨hlt, rfl⟩ | hs
    · exact { hland.becomeFollower hlt.le (hpaired _ hcarried) with }
    · exact { hland.calm hs with }
  | failAppend => exact { hh with }

/-- Every hint is true, and every request on its way names the leader of its term. -/
structure Hinted (c : Cluster) : Prop where
  nodes : ∀ i, RaftNode.Hinted (HasLed c) (c.nodes i)
  appendCalls : ∀ call ∈ c.appendCalls, HasLed c call.request.leaderId call.request.term

theorem Hinted.ran (h : Hinted c) (hid : (c.nodes j).nodeId = j) (he : Paired c e)
    (hran : Ran c e j s) (hch : Changes c e c' j s) : Hinted c' := by
  have hmono : ∀ L T, HasLed c L T → HasLed c' L T := by
    intro L T hL
    by_cases hj : L = j
    · subst hj
      unfold HasLed
      rw [hch.node]
      exact List.map_subset _ hran.remains.led hL
    · unfold HasLed
      rw [hch.other L hj]
      exact hL
  have hs : RaftNode.Hinted (HasLed c') s := by
    refine hran.hinted ((h.nodes j).mono hmono)
      (fun call hcall => hmono _ _ (h.appendCalls call hcall))
      (fun m hm hlt L hL => hmono _ _ (he m hm hlt L hL)) fun T hT => ?_
    unfold HasLed
    rw [hid, hch.node]
    exact hT
  refine ⟨fun i => ?_, fun call hcall => ?_⟩
  · by_cases hi : i = j
    · rw [hi, hch.node]
      exact { hs with requests := fun r hr => absurd hr List.not_mem_nil }
    · rw [hch.other i hi]
      exact (h.nodes i).mono hmono
  · obtain ⟨k, hk⟩ := List.getElem?_of_mem hcall
    rcases hch.call_cases hk with ⟨call₀, hk₀, hgoes⟩ | ⟨-, hnew⟩
    · rw [hgoes.request]
      exact hmono _ _ (h.appendCalls call₀ (List.mem_of_getElem? hk₀))
    · obtain ⟨r, hr, rfl⟩ := List.mem_map.1 (List.mem_of_getElem? hnew)
      exact hs.requests r hr

/-- **Hints lead**: whatever term and leader a replica publishes, that leader has led that term. -/
theorem hints_lead (h : Cluster.RunWhere cfg Paired (Cluster.init cfg) c) (i : NodeId)
    (state : ServerState) (hs : state ∈ (c.nodes i).history.published) (L : NodeId)
    (hL : state.leaderId = some L) :
    ∃ log, (state.currentTerm, log) ∈ (c.nodes L).history.led := by
  have hall : Hinted c := by
    refine Cluster.RunWhere.induction h ⟨fun _ => ?_, fun _ hcall => absurd hcall List.not_mem_nil⟩
      fun hA hj h he _ hran hch => h.ran (hA.node _ hj).nodeId he hran hch
    exact ⟨fun _ hs => absurd hs List.not_mem_nil,
      fun L hL => absurd hL.symm (Option.some_ne_none L),
      fun hl => ServerStatus.noConfusion hl, fun _ hr => absurd hr List.not_mem_nil⟩
  obtain ⟨⟨T, log⟩, hmem, heq⟩ := List.mem_map.1 ((hall.nodes i).published state hs L hL)
  dsimp only at heq
  exact ⟨log, heq ▸ hmem⟩

theorem hints_lead_first : (afterFirst.nodes 2).snapshot.leaderId = some 1 ∧
    ∃ log, (1, log) ∈ (afterFirst.nodes 1).history.led := by
  have hrun : Cluster.RunWhere threeMembers Paired (Cluster.init threeMembers) afterFirst :=
    Cluster.runWhere_after (by decide +kernel)
  have hL : (afterFirst.nodes 2).snapshot.leaderId = some 1 := by decide +kernel
  have hterm : (afterFirst.nodes 2).snapshot.currentTerm = 1 := by decide +kernel
  refine ⟨hL, ?_⟩
  rw [← hterm]
  exact hints_lead hrun 2 _ (by decide +kernel) 1 hL

/-- Member 1 is elected, and then asked by member 2 for a vote in the next term. -/
def afterVoteRequest : Cluster := (Cluster.init threeMembers).after threeMembers
  [.start 1, .electionTimeout 1 0, .deliverVote 0, .answerVote 0, .electionTimeout 2 1,
    .deliverVote 2]

/-- A deposed leader names itself as the leader of the term it has just adopted. -/
theorem hint_strays : Cluster.Reachable threeMembers afterVoteRequest ∧
    (afterVoteRequest.nodes 1).snapshot ∈ (afterVoteRequest.nodes 1).history.published ∧
    (afterVoteRequest.nodes 1).snapshot.status = .follower ∧
    (afterVoteRequest.nodes 1).snapshot.leaderId = some 1 ∧
    (afterVoteRequest.nodes 1).snapshot.currentTerm = 2 ∧
    ∀ log, (2, log) ∉ (afterVoteRequest.nodes 1).history.led := by
  refine ⟨Cluster.run_after _ _ _, by decide +kernel, by decide +kernel, by decide +kernel,
    by decide +kernel, fun log hlog => ?_⟩
  have hled : ¬ HasLed afterVoteRequest 1 2 := by decide +kernel
  exact hled (List.mem_map_of_mem hlog)

end CowRaft.Raft
