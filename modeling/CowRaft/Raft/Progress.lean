import CowRaft.Raft.Canvass
import CowRaft.Raft.Repair
import CowRaft.Raft.CommitIndex
import CowRaft.Raft.MatchIndex

/-!
# Getting a command committed

No state of the cluster is a dead end. A leader that no member of a majority is beyond gives up the
requests it waits for, sends new ones at its next tick, and repairs the log of one member after the
other, until a new entry is on all of them; then it commits the entry and answers the client. So
from every state, whatever was lost on the way there, a majority can get a leader, a command
committed and its client answered without the others (`progress_possible`).
-/

namespace CowRaft.Raft

open Consensus (Quorum)

variable {cfg : Config} {A : Protocol} {c c' c'' : Cluster} {e : Event} {i j p : NodeId}
  {s s' : RaftNode} {Q : Finset NodeId} {T n : ℕ}

namespace RaftNode

/-! ## What a leader keeps -/

/-- The replica kept its role and its log, knows as much of its peers as before or more, and told
no other client that it is not the leader. -/
structure Gains (s s' : RaftNode) : Prop where
  status : s'.status = s.status
  currentTerm : s'.currentTerm = s.currentTerm
  logStore : s'.logStore = s.logStore
  created : s'.history.created = s.history.created
  matchIndex : ∀ p m, lookupKey p s.matchIndex = some m →
    ∃ m', lookupKey p s'.matchIndex = some m' ∧ m ≤ m'
  refused : ∀ f, (f, CommandResult.notLeader) ∈ s'.completed →
    (f, CommandResult.notLeader) ∈ s.completed

namespace Gains

theorem of_eq (hs : s'.status = s.status) (ht : s'.currentTerm = s.currentTerm)
    (hl : s'.logStore = s.logStore) (hc : s'.history.created = s.history.created)
    (hm : s'.matchIndex = s.matchIndex) (hr : s'.completed = s.completed) : Gains s s' :=
  ⟨hs, ht, hl, hc, fun _ m h => ⟨m, hm ▸ h, le_rfl⟩, fun _ h => hr ▸ h⟩

theorem refl (s : RaftNode) : Gains s s := of_eq rfl rfl rfl rfl rfl rfl

theorem trans {s'' : RaftNode} (h : Gains s s') (h' : Gains s' s'') : Gains s s'' where
  status := h'.status.trans h.status
  currentTerm := h'.currentTerm.trans h.currentTerm
  logStore := h'.logStore.trans h.logStore
  created := h'.created.trans h.created
  matchIndex p m hm := by
    obtain ⟨m', hm', hle⟩ := h.matchIndex p m hm
    obtain ⟨m'', hm'', hle'⟩ := h'.matchIndex p m' hm'
    exact ⟨m'', hm'', hle.trans hle'⟩
  refused f hf := h.refused f (h'.refused f hf)

/-- Whatever it has sent, and to whom. -/
theorem of_sent {flight : Finset NodeId} {sent : List (NodeId × RequestAppendEntriesRPC × LogStore)}
    (h : Gains { s with inFlight := flight, appendRequests := sent } s') : Gains s s' :=
  ⟨h.status, h.currentTerm, h.logStore, h.created, h.matchIndex, h.refused⟩

end Gains

instance : Composes fun (_ : Bool) => Gains where
  refl _ := Gains.refl
  trans := Gains.trans

theorem replicateTo_gains (peerId : NodeId) :
    Keeps (fun _ => Gains) (replicateTo peerId) :=
  replicateTo_keeps (fun _ _ _ => .of_eq rfl rfl rfl rfl rfl rfl)
    fun _ _ _ _ _ _ => .of_eq rfl rfl rfl rfl rfl rfl

theorem replicateToAllPeers_gains : Keeps (fun _ => Gains) replicateToAllPeers :=
  replicateToAllPeers_keeps replicateTo_gains

theorem advanceCommitIndex_gains : Keeps (fun _ => Gains) advanceCommitIndex :=
  advanceCommitIndex_keeps fun _ _ => .of_eq rfl rfl rfl rfl rfl rfl

theorem applyEntry_gains (entry : LogEntry) (s : RaftNode) : Gains s (applyEntry entry s) := by
  have hcalm : Calm true s (applyEntry entry s) := applyEntry_calm entry s
  have hrefused := hcalm.refused
  rw [applyEntry_eq] at hrefused ⊢
  exact { Gains.refl s with refused := hrefused }

theorem applyCommitted_gains : Keeps (fun _ => Gains) applyCommitted :=
  applyCommitted_keeps (fun _ => .of_eq rfl rfl rfl rfl rfl rfl) applyEntry_gains
    fun _ => .of_eq rfl rfl rfl rfl rfl rfl

theorem recordMatch_gains (peerId : NodeId) (newMatch : ℕ) (s : RaftNode) :
    Gains s (recordMatch peerId newMatch s) where
  status := rfl
  currentTerm := rfl
  logStore := rfl
  created := rfl
  matchIndex p m hm := by
    change ∃ m', lookupKey p (upsert peerId (s.mergedMatch peerId newMatch) s.matchIndex) =
      some m' ∧ m ≤ m'
    rw [lookupKey_upsert]
    split_ifs with hp
    · refine ⟨_, rfl, ?_⟩
      unfold mergedMatch
      rw [← hp, hm]
      exact le_max_left m newMatch
    · exact ⟨m, hm, le_rfl⟩
  refused _ hf := hf

/-- **A response** of no later term leaves the leader what it has. -/
theorem onAppendEntriesResponse_gains {response : ResponseAppendEntriesRPC}
    (h : response.term ≤ s.currentTerm) (peerId : NodeId) (roundTerm prevLogIndex sentCount : ℕ) :
    Wp (onAppendEntriesResponse peerId roundTerm prevLogIndex sentCount response)
      (fun _ => Gains s) (fun _ => Gains s) s := by
  have hsuccess : Keeps (fun _ => Gains) (do
      modify (recordMatch peerId (prevLogIndex + sentCount))
      advanceCommitIndex
      applyCommitted
      let s ← get
      if (lookupKey peerId s.nextIndex).getD 0 ≤ s.logStore.lastIndex then
        replicateTo peerId
      else
        pure () : Task Unit) :=
    Keeps.bind (Keeps.modify fun s => recordMatch_gains _ _ s) fun _ =>
      Keeps.bind advanceCommitIndex_gains fun _ => Keeps.bind applyCommitted_gains fun _ =>
        Keeps.bind Keeps.get fun _ => Keeps.ite (fun _ => replicateTo_gains _) fun _ => Keeps.pure _
  have hfailure : Keeps (fun _ => Gains) (do
      modify (lowerNextIndex peerId prevLogIndex)
      replicateTo peerId : Task Unit) :=
    Keeps.bind (Keeps.modify fun _ => .of_eq rfl rfl rfl rfl rfl rfl) fun _ => replicateTo_gains _
  unfold onAppendEntriesResponse
  rw [Wp.bind_iff, Wp.get_iff, Wp.ite_iff, Wp.ite_iff, Wp.ite_iff]
  exact ⟨fun hgt => absurd hgt (Nat.not_lt.2 h), fun _ => ⟨fun _ => Gains.refl s,
    fun _ => ⟨fun _ => hsuccess s, fun _ => hfailure s⟩⟩⟩

/-! ## Committing all there is -/

/-- The leader has committed all that it may. -/
def Settled (s : RaftNode) : Prop := ∀ k, s.MayCommit k → k ≤ s.commitIndex

/-- The replica may commit no more than before, and has the same commit index. -/
def Waived (_ok : Bool) (s s' : RaftNode) : Prop :=
  s'.commitIndex = s.commitIndex ∧ ∀ k, s'.MayCommit k → s.MayCommit k

instance : Composes Waived where
  refl _ _ := ⟨rfl, fun _ h => h⟩
  trans h h' := ⟨h'.1.trans h.1, fun k hk => h.2 k (h'.2 k hk)⟩

theorem Settled.waived {ok : Bool} (h : Settled s) (hs : Waived ok s s') : Settled s' :=
  fun k hk => hs.1 ▸ h k (hs.2 k hk)

theorem replicateTo_waived (peerId : NodeId) : Keeps Waived (replicateTo peerId) :=
  replicateTo_keeps (fun _ _ _ => ⟨rfl, fun _ h => h⟩) fun _ _ _ _ _ _ => ⟨rfl, fun _ h => h⟩

theorem applyCommitted_waived : Keeps Waived applyCommitted := by
  refine applyCommitted_keeps (fun _ => ⟨rfl, fun _ h => h⟩) (fun entry s => ?_)
    fun _ => ⟨rfl, fun _ h => h⟩
  rw [applyEntry_eq]
  exact ⟨rfl, fun _ h => h⟩

theorem advanceCommitIndex_settled (h : s.Ordered) (hl : s.status = .leader) :
    Wp advanceCommitIndex (fun _ => Settled) (fun _ _ => False) s := by
  unfold advanceCommitIndex
  rw [Wp.bind_iff, Wp.get_iff, Wp.ite_iff]
  refine ⟨fun hne => absurd hl hne, fun _ => ?_⟩
  apply (advanceFrom_greatest h le_rfl).mono
  · rintro - s' ⟨hs, -, hmax⟩ k hk
    have hmay : s.MayCommit k := by
      rcases hs with rfl | hs
      · exact hk
      · rw [hs] at hk
        exact hk
    exact hmax (Or.inr ⟨hmay.le_lastIndex, hmay⟩)
  · exact fun _ _ hf => hf

theorem recordMatch_ordered (h : s.Ordered) (hs : SortedKeys s.matchIndex) (peerId : NodeId)
    (newMatch : ℕ) : (recordMatch peerId newMatch s).Ordered :=
  ⟨h.sorted, h.term_le, (hs.upsert _ _).nodup_keys⟩

/-- **A success** lets the leader commit all that it may. -/
theorem onAppendEntriesResponse_settled (h : s.Ordered) (hl : s.status = .leader)
    (hs : SortedKeys s.matchIndex) {response : ResponseAppendEntriesRPC}
    (hr : response.success = true) (hle : response.term ≤ s.currentTerm)
    (peerId : NodeId) (prevLogIndex sentCount : ℕ) :
    Wp (onAppendEntriesResponse peerId s.currentTerm prevLogIndex sentCount response)
      (fun _ => Settled) (fun _ _ => True) s := by
  have hrest : Keeps Waived (do
      applyCommitted
      let s ← get
      if (lookupKey peerId s.nextIndex).getD 0 ≤ s.logStore.lastIndex then
        replicateTo peerId
      else
        pure () : Task Unit) :=
    Keeps.bind applyCommitted_waived fun _ => Keeps.bind Keeps.get fun _ =>
      Keeps.ite (fun _ => replicateTo_waived _) fun _ => Keeps.pure _
  unfold onAppendEntriesResponse
  rw [Wp.bind_iff, Wp.get_iff, Wp.ite_iff, Wp.ite_iff, Wp.ite_iff]
  refine ⟨fun hgt => absurd hgt (Nat.not_lt.2 hle), fun _ => ⟨fun hstale => ?_, fun _ =>
    ⟨fun _ => ?_, fun hf => absurd hr hf⟩⟩⟩
  · rcases hstale with hne | hne
    · exact absurd hl hne
    · exact absurd rfl hne
  · rw [Wp.bind_iff, Wp.modify_iff, Wp.bind_iff]
    have hordered := recordMatch_ordered h hs peerId (prevLogIndex + sentCount)
    apply (advanceCommitIndex_settled hordered hl).mono
    · exact fun _ s₁ hs₁ => (hrest s₁).mono (fun _ _ hs => hs₁.waived hs) fun _ _ _ => trivial
    · exact fun _ _ _ => trivial

/-- The peer has taken all entries. -/
theorem Waits.settles {log : LogStore} {L : RaftNode} {request : RequestAppendEntriesRPC}
    (h : Waits p log T n L request) (hL : L.Ordered) (hs : SortedKeys L.matchIndex) :
    Wp (onAppendEntriesResponse p request.term request.prevLogIndex request.entries.length
        ⟨T, true⟩)
      (fun _ L' => Ends p log L' ∧ L'.Settled ∧ Gains L L') (fun _ _ => False)
      { L with appendRequests := [], inFlight := L.inFlight.erase p } := by
  have hterm : request.term = L.currentTerm := h.requestTerm.trans h.currentTerm.symm
  have hsettled : Wp (onAppendEntriesResponse p request.term request.prevLogIndex
      request.entries.length ⟨T, true⟩) (fun _ => Settled) (fun _ _ => True)
      { L with appendRequests := [], inFlight := L.inFlight.erase p } := by
    have hordered : Ordered { L with appendRequests := [], inFlight := L.inFlight.erase p } :=
      ⟨hL.sorted, hL.term_le, hL.known⟩
    rw [hterm]
    refine onAppendEntriesResponse_settled hordered h.status hs ?_ ?_ p _ _
    · rfl
    · exact h.currentTerm.ge
  have hgains : Wp (onAppendEntriesResponse p request.term request.prevLogIndex
      request.entries.length ⟨T, true⟩) (fun _ => Gains L) (fun _ _ => True)
      { L with appendRequests := [], inFlight := L.inFlight.erase p } :=
    (onAppendEntriesResponse_gains h.currentTerm.ge p _ _ _).mono
      (fun _ _ hs => hs.of_sent) fun _ _ _ => trivial
  exact (h.success.and (hsettled.and hgains)).mono (fun _ _ hs => hs) fun _ _ hf => hf.1

/-- The peer lacks the entry before the request's. -/
theorem Waits.retries {log : LogStore} {L : RaftNode} {request : RequestAppendEntriesRPC}
    (h : Waits p log T (n + 1) L request) (hkeyed : KeyedFrom log n) :
    Wp (onAppendEntriesResponse p request.term request.prevLogIndex request.entries.length
        ⟨T, false⟩)
      (fun _ L' => (∃ request', Waits p log T n L' request') ∧ Gains L L') (fun _ _ => False)
      { L with appendRequests := [], inFlight := L.inFlight.erase p } := by
  have hgains : Wp (onAppendEntriesResponse p request.term request.prevLogIndex
      request.entries.length ⟨T, false⟩) (fun _ => Gains L) (fun _ _ => True)
      { L with appendRequests := [], inFlight := L.inFlight.erase p } :=
    (onAppendEntriesResponse_gains h.currentTerm.ge p _ _ _).mono
      (fun _ _ hs => hs.of_sent) fun _ _ _ => trivial
  exact (h.failure.and hgains).mono (fun _ _ hs => hs) fun _ _ hf => hf.1 hkeyed

theorem appendForClient_ordered (h : s.Ordered) (future : FutureId) (command : Command) :
    (s.appendForClient future command).Ordered where
  sorted := by
    refine List.pairwise_append.2 ⟨h.sorted, List.pairwise_singleton _ _, fun x hx y hy => ?_⟩
    rw [List.mem_singleton.1 hy]
    exact h.term_le x hx
  term_le x hx := by
    rcases List.mem_append.1 hx with hx | hx
    · exact h.term_le x hx
    · rw [List.mem_singleton.1 hx]
      exact le_rfl
  known := h.known

/-- **A command** is appended, and committed at once if the leader is alone. -/
theorem submitCommand_gains (hl : s.status = .leader) (h : s.Ordered) (future : FutureId)
    (command : Command) :
    Wp (submitCommand future command)
      (fun _ s' => Gains (s.appendForClient future command) s' ∧ Settled s')
      (fun _ _ => True) s := by
  have hordered := appendForClient_ordered h future command
  unfold submitCommand
  rw [Wp.bind_iff, Wp.get_iff, Wp.ite_iff]
  refine ⟨fun hne => absurd hl hne, fun _ => ?_⟩
  rw [Wp.bind_iff, Wp.modify_iff, Wp.bind_iff]
  apply ((replicateToAllPeers_gains (s.appendForClient future command)).and
    (replicateToAllPeers_level (s.appendForClient future command))).mono
  · rintro - s₁ ⟨hgains, hstatus, hterm, hmatch, hlog⟩
    have hordered₁ : s₁.Ordered := by
      refine ⟨hlog ▸ hordered.sorted, ?_, hmatch ▸ hordered.known⟩
      rw [hlog, hterm]
      exact hordered.term_le
    rw [Wp.bind_iff]
    apply ((advanceCommitIndex_gains s₁).and
      (advanceCommitIndex_settled hordered₁ (hstatus.trans hl))).mono
    · rintro - s₂ ⟨hgains₂, hsettled⟩
      apply ((applyCommitted_gains s₂).and (applyCommitted_waived s₂)).mono
      · exact fun _ s₃ hs₃ => ⟨(hgains.trans hgains₂).trans hs₃.1, hsettled.waived hs₃.2⟩
      · exact fun _ _ _ => trivial
    · exact fun _ _ _ => trivial
  · exact fun _ _ _ => trivial

/-! ## Requests to all peers -/

theorem replicateTo_flying (hl : s.status = .leader) {peerId : NodeId}
    (hnext : ∀ next, lookupKey peerId s.nextIndex = some next → next ≤ s.logStore.lastIndex + 1) :
    Wp (replicateTo peerId) (fun _ s' => peerId ∈ s'.inFlight) (fun _ _ => True) s := by
  by_cases hin : peerId ∈ s.inFlight
  · exact (replicateTo_calm peerId s).mono (fun _ _ hs => hs.dispatched.flying hin)
      fun _ _ _ => trivial
  · apply (replicateTo_idle_wp hl hin hnext).mono
    · rintro - s' ⟨request, -, rfl⟩
      exact Finset.mem_insert_self peerId s.inFlight
    · exact fun _ _ _ => trivial

/-- **Replication** leaves requests to all peers in flight. -/
theorem replicateToAllPeers_flying (hl : s.status = .leader)
    (hnext : ∀ p ∈ s.peers, ∀ next, lookupKey p s.nextIndex = some next →
      next ≤ s.logStore.lastIndex + 1) :
    Wp replicateToAllPeers (fun _ s' => ∀ p ∈ s.peers, p ∈ s'.inFlight) (fun _ _ => True) s := by
  have hall : ∀ (peers : List NodeId) (s₁ : RaftNode), s₁.status = .leader →
      (∀ p ∈ peers, p ∈ s₁.peers ∧ ∀ next, lookupKey p s₁.nextIndex = some next →
        next ≤ s₁.logStore.lastIndex + 1) →
      Wp (peers.forM replicateTo) (fun _ s' => s₁.inFlight ⊆ s'.inFlight ∧
        ∀ p ∈ peers, p ∈ s'.inFlight) (fun _ _ => True) s₁ := by
    intro peers
    induction peers with
    | nil => exact fun s₁ _ _ => ⟨Finset.Subset.refl _, by simp⟩
    | cons q peers ih =>
      intro s₁ hl₁ hnext₁
      obtain ⟨hq, hnextq⟩ := hnext₁ q List.mem_cons_self
      change Wp (replicateTo q >>= fun _ => peers.forM replicateTo) _ _ s₁
      rw [Wp.bind_iff]
      apply ((replicateTo_flying hl₁ hnextq).and
        (replicateTo_wp (fun _ => hq) fun _ => hnextq)).mono
      · rintro - s₂ ⟨hfly, flight, sent, heq, hsub, -⟩
        have hl₂ : s₂.status = .leader := heq ▸ hl₁
        have hsub₂ : s₁.inFlight ⊆ s₂.inFlight := by
          rw [heq]
          exact hsub
        have hnext₂ : ∀ p ∈ peers, p ∈ s₂.peers ∧ ∀ next, lookupKey p s₂.nextIndex = some next →
            next ≤ s₂.logStore.lastIndex + 1 := by
          rw [heq]
          exact fun p hp => hnext₁ p (List.mem_cons_of_mem q hp)
        apply (ih s₂ hl₂ hnext₂).mono
        · rintro - s₃ ⟨hsub₃, hfly₃⟩
          refine ⟨hsub₂.trans hsub₃, fun p hp => ?_⟩
          rcases List.mem_cons.1 hp with rfl | hp
          · exact hsub₃ hfly
          · exact hfly₃ p hp
        · exact fun _ _ h => h
      · exact fun _ _ _ => trivial
  unfold replicateToAllPeers
  rw [Wp.bind_iff, Wp.get_iff, Wp.ite_iff]
  refine ⟨fun hne => absurd hl hne, fun _ => ?_⟩
  exact (hall s.peers s hl fun p hp => ⟨hp, hnext p hp⟩).mono (fun _ _ hs => hs.2) fun _ _ h => h

end RaftNode

/-! ## A leader and its majority -/

/-- A run among `Q` in which the leader `i` stays, and no other replica gets beyond its term. -/
structure Onward (cfg : Config) (Q : Finset NodeId) (i : NodeId) (c c' : Cluster) : Prop where
  run : Cluster.RunWhere cfg (Within Q) c c'
  gains : (c.nodes i).Gains (c'.nodes i)
  terms : ∀ j, j ≠ i →
    (c'.nodes j).currentTerm ≤ max (c.nodes j).currentTerm (c.nodes i).currentTerm

namespace Onward

theorem refl (c : Cluster) : Onward cfg Q i c c :=
  ⟨Relation.ReflTransGen.refl, .refl _, fun _ _ => le_max_left _ _⟩

theorem trans (h : Onward cfg Q i c c') (h' : Onward cfg Q i c' c'') : Onward cfg Q i c c'' where
  run := h.run.trans h'.run
  gains := h.gains.trans h'.gains
  terms j hj := by
    have hle := h'.terms j hj
    rw [h.gains.currentTerm] at hle
    exact hle.trans (max_le (h.terms j hj) (le_max_right _ _))

/-- A task of the leader. -/
theorem put (hs : Cluster.step cfg c e = some c') (hw : Within Q c e)
    (hn : c'.nodes = (c.put i s).nodes)
    (hg : (c.nodes i).Gains s) : Onward cfg Q i c c' where
  run := .one hw hs
  gains := by
    have hnode : c'.nodes i = { s with voteRequests := [], appendRequests := [] } :=
      (congrFun hn i).trans (Function.update_self _ _ _)
    rw [hnode]
    exact hg.trans (.of_eq rfl rfl rfl rfl rfl rfl)
  terms j hj := by
    rw [hn]
    exact (congrArg RaftNode.currentTerm (Function.update_of_ne hj _ _)).trans_le (le_max_left _ _)

/-- A task of another member, that is in the leader's term then. -/
theorem put_other (hs : Cluster.step cfg c e = some c') (hw : Within Q c e)
    (hn : c'.nodes = (c.put p s).nodes) (hne : p ≠ i)
    (ht : s.currentTerm = (c.nodes i).currentTerm) : Onward cfg Q i c c' where
  run := .one hw hs
  gains := by
    rw [show c'.nodes i = c.nodes i from
      (congrFun hn i).trans (Function.update_of_ne hne.symm _ _)]
    exact .refl _
  terms j hj := by
    rw [hn]
    by_cases hjp : j = p
    · rw [hjp, show (c.put p s).nodes p = _ from Function.update_self _ _ _]
      exact ht.trans_le (le_max_right _ _)
    · rw [show (c.put p s).nodes j = _ from Function.update_of_ne hjp _ _]
      exact le_max_left _ _

end Onward

/-- Replica `i` leads, and no member of `Q` is beyond its term. -/
def Reigns (Q : Finset NodeId) (i : NodeId) (c : Cluster) : Prop :=
  (c.nodes i).status = .leader ∧ ∀ j ∈ Q, (c.nodes j).currentTerm ≤ (c.nodes i).currentTerm

theorem Reigns.onward (h : Reigns Q i c) (ho : Onward cfg Q i c c') : Reigns Q i c' := by
  refine ⟨ho.gains.status.trans h.1, fun j hj => ?_⟩
  by_cases hji : j = i
  · rw [hji]
  · rw [ho.gains.currentTerm]
    exact (ho.terms j hji).trans (max_le (h.2 j hj) le_rfl)

/-! ## Sending a request -/

theorem tracked_of_proper (h : Cluster.RunWhere cfg Proper (Cluster.init cfg) c) :
    ∀ i, Tracked c i := by
  suffices hall : KeyedLogs c ∧ ∀ i, Tracked c i from hall.2
  refine Cluster.RunWhere.induction h (I := fun c => KeyedLogs c ∧ ∀ i, Tracked c i) ?_ ?_
  · exact ⟨KeyedLogs.init cfg, fun _ p hp => absurd hp (Finset.notMem_empty p)⟩
  · intro A c c' e j s hA hj ⟨hk, ht⟩ he hstep hran hch
    have hk' := hk.ran he.1.harmless hran hch
    refine ⟨hk', Tracked.ran ht (hA.node j hj).nodeId hran hch ?_⟩
    rw [← (hA.faults hstep j).resolve_right (hk' j), hch.node]

namespace Cluster

theorem step_failAppend (cfg : Config) {k : ℕ} {call : AppendCall}
    (hk : c.appendCalls[k]? = some call) (hs : call.settled = false) :
    step cfg c (.failAppend k) =
      some { c.put call.caller (landed call.peer (c.nodes call.caller)) with
        appendCalls := (c.put call.caller (landed call.peer
          (c.nodes call.caller))).appendCalls.set k { call with settled := true } } := by
  simp only [step, hk, Option.bind_eq_bind, Option.bind_some, hs]
  rfl

theorem step_deliverAppend (cfg : Config) {k : ℕ} {call : AppendCall}
    (hk : c.appendCalls[k]? = some call) (hd : call.delivered = false) :
    step cfg c (.deliverAppend k) =
      some { (c.exec call.peer (RaftNode.handleAppendEntriesInternal call.request)).1 with
        appendCalls := (c.exec call.peer (RaftNode.handleAppendEntriesInternal
          call.request)).1.appendCalls.set k { call with
            delivered := true
            response := (c.exec call.peer
              (RaftNode.handleAppendEntriesInternal call.request)).2 } } := by
  simp only [step, hk, Option.bind_eq_bind, Option.bind_some, hd]
  rfl

theorem step_answerAppend (cfg : Config) {k : ℕ} {call : AppendCall}
    (hk : c.appendCalls[k]? = some call) {response : ResponseAppendEntriesRPC}
    (hr : call.response = some response) (hs : call.settled = false) :
    step cfg c (.answerAppend k) =
      some { (c.exec call.caller do
          modify (landed call.peer)
          RaftNode.onAppendEntriesResponse call.peer call.request.term call.request.prevLogIndex
            call.request.entries.length response).1 with
        appendCalls := (c.exec call.caller do
          modify (landed call.peer)
          RaftNode.onAppendEntriesResponse call.peer call.request.term call.request.prevLogIndex
            call.request.entries.length response).1.appendCalls.set k
              { call with settled := true } } := by
  simp only [step, hk, Option.bind_eq_bind, Option.bind_some, hr, hs]
  rfl

end Cluster

/-- A leader gives up the request to a peer that it waits for. -/
theorem exists_landed (h : Cluster.RunWhere cfg Proper (Cluster.init cfg) c) (hi : i ∈ Q)
    (p : NodeId) : ∃ c', Onward cfg Q i c c' ∧ p ∉ (c'.nodes i).inFlight := by
  by_cases hp : p ∈ (c.nodes i).inFlight
  · obtain ⟨k, call, hk, rfl, rfl, hs⟩ := tracked_of_proper h i p hp
    have hactor : c.actor (.failAppend k) = some call.caller := by
      rw [Cluster.actor, hk]
      rfl
    refine ⟨_, .put (Cluster.step_failAppend cfg hk hs) (within_of rfl rfl hactor hi) rfl
      (.of_eq rfl rfl rfl rfl rfl rfl), ?_⟩
    rw [show Cluster.nodes _ call.caller = _ from Function.update_self _ _ _]
    exact Finset.notMem_erase _ _
  · exact ⟨c, .refl c, hp⟩

/-- A request of the leader `i` to `p`, for the entries from `n` on, is on its way. -/
def Courier (c : Cluster) (i p : NodeId) (n : ℕ) : Prop :=
  ∃ (k : ℕ) (request : RequestAppendEntriesRPC),
    c.appendCalls[k]? = some ⟨i, p, request, (c.nodes i).logStore, false, none, false⟩ ∧
    RaftNode.Waits p (c.nodes i).logStore (c.nodes i).currentTerm n
      { c.nodes i with appendRequests := [(p, request, (c.nodes i).logStore)] } request

/-- What a task has left to be sent is on its way. -/
theorem Cluster.getElem?_put_sent {m : ℕ} {r : NodeId × RequestAppendEntriesRPC × LogStore}
    (hr : s.appendRequests[m]? = some r) :
    (c.put i s).appendCalls[c.appendCalls.length + m]? =
      some ⟨s.nodeId, r.1, r.2.1, r.2.2, false, none, false⟩ := by
  change (c.appendCalls ++ newAppendCalls s)[c.appendCalls.length + m]? = _
  rw [List.getElem?_append_right (Nat.le_add_right _ _), Nat.add_sub_cancel_left, newAppendCalls,
    List.getElem?_map, hr]
  rfl

/-- What a leader knows of its peers lies within its log. -/
theorem matchIndex_le (h : Cluster.Reachable cfg c) (hl : (c.nodes i).status = .leader) {m : ℕ}
    (hm : lookupKey p (c.nodes i).matchIndex = some m) : m ≤ (c.nodes i).logStore.length := by
  obtain ⟨past, ht⟩ := h.exists_trace
  obtain ⟨A, -, -, hw⟩ := ht.exists_witnessed
  exact (hw.credited i hl p m hm).1

/-- **A tick** sends a request to every peer to which none is in flight. -/
theorem exists_courier (h : Cluster.RunWhere cfg Proper (Cluster.init cfg) c)
    (hm : i ∈ cfg.members) (hi : i ∈ Q) (hl : (c.nodes i).status = .leader)
    (hp : p ∈ (c.nodes i).peers) (hin : p ∉ (c.nodes i).inFlight) :
    ∃ c' n, Onward cfg Q i c c' ∧ Courier c' i p n := by
  obtain ⟨A, hA⟩ := exists_safe h.run
  have hnode := hA.node i hm
  obtain ⟨id, -, hid⟩ := (timed_of_steady (steady_of_proper h) i).beat hl
  have hmem : id ∈ (c.nodes i).heartbeats := hid ▸ Finset.mem_singleton_self id
  have hnext : ∀ p ∈ (c.nodes i).peers, ∀ next, lookupKey p (c.nodes i).nextIndex = some next →
      next ≤ (c.nodes i).logStore.lastIndex + 1 := fun _ hp _ hn => hnode.next_le hl hp hn
  have hw : Wp (RaftNode.periodic id RaftNode.replicateToAllPeers)
      (fun _ s => RaftNode.Sends (c.nodes i) s ∧ (∀ p ∈ (c.nodes i).peers, p ∈ s.inFlight) ∧
        RaftNode.Calm true (c.nodes i) s ∧ (c.nodes i).Gains s)
      (fun _ _ => False) (c.nodes i) := by
    apply (periodic_wp ((RaftNode.replicateToAllPeers_wp fun _ => hnext).and
      ((RaftNode.replicateToAllPeers_flying hl hnext).and ((RaftNode.replicateToAllPeers_calm _).and
        (RaftNode.replicateToAllPeers_gains _))))).mono
    · exact fun _ _ hs => hs
    · rintro e s ⟨s₁, ⟨⟨-, -, -, q, hq⟩, -⟩, -⟩
      exact (keyedLogs_of_proper h).not_blocked hq
  obtain ⟨s, ⟨⟨flight, sent, heq, -, hsent⟩, hfly, hcalm, hgains⟩, hput⟩ := Cluster.exec_ok hw
  have hstep : Cluster.step cfg c (.heartbeat i id) = some (c.put i s) := by
    rw [Cluster.step, if_pos ⟨hm, hmem⟩, hput]
  have hreq : (c.nodes i).appendRequests = [] := (hA.sent i hm).2
  rcases hcalm.flights rfl p (hfly p hp) with hold | ⟨⟨q, request, log⟩, hr, rfl⟩
  · exact absurd hold hin
  have hr' : (q, request, log) ∈ sent := by
    rw [heq, hreq] at hr
    exact hr
  obtain ⟨-, -, -, hb, hlog⟩ := hsent _ hr'
  dsimp only at hb hlog hp
  obtain ⟨next, hlook, hpos, hle⟩ := (hnode.leading hl).next q hp
  have hprev : request.prevLogIndex = next - 1 := by
    rw [hb.prevLogIndex, hlook, Option.getD_some]
  obtain ⟨m, hm'⟩ := List.getElem?_of_mem hr
  have hnode' : (c.put i s).nodes i = { s with voteRequests := [], appendRequests := [] } :=
    Function.update_self _ _ _
  have hsame : (c.put i s).nodes i = { c.nodes i with
      inFlight := flight, voteRequests := [], appendRequests := [] } := by
    rw [hnode', heq]
  refine ⟨c.put i s, next - 1, .put hstep (within_of rfl rfl rfl hi) rfl hgains,
    c.appendCalls.length + m, request, ?_, ?_⟩
  · have hid : s.nodeId = i := by
      rw [heq]
      exact hnode.nodeId
    rw [Cluster.getElem?_put_sent hm', hsame, hid, hlog]
  · have hentries := hb.entries
    have hterm := hb.prevLogTerm
    rw [hprev] at hentries hterm
    rw [hsame]
    refine ⟨hl, rfl, rfl, rfl, hb.term, hprev, hterm, hentries, Nat.sub_le_iff_le_add.2 hle, ?_,
      fun m hm => matchIndex_le h.run hl hm, hnode.commitIndex_le hA.inv⟩
    rw [Nat.sub_add_cancel hpos]
    exact hlook

/-! ## Repairing the log of a member -/

/-- A peer that is not beyond the leader's term answers in this term. -/
theorem RaftNode.Waits.answer {log : LogStore} {L F : RaftNode}
    {request : RequestAppendEntriesRPC} (h : RaftNode.Waits p log T n L request)
    (hF : F.currentTerm ≤ T) (hdone : F.commitIndex ≤ F.lastApplied) :
    ∃ ok F', handleAppendEntriesInternal request F = .ok ⟨T, ok⟩ F' ∧ F'.currentTerm = T ∧
      (ok = false → n ≠ 0) := by
  by_cases hprev : PrevMatches F.logStore n request.prevLogTerm
  · obtain ⟨F', hrun, -⟩ := h.accepted hF hdone hprev
    have hterm := (Wp.of_ok hrun).1 (handleAppendEntries_term request F) rfl
    exact ⟨true, F', hrun, hterm.trans h.requestTerm, fun hf => Bool.noConfusion hf⟩
  · obtain ⟨F', hrun, hfollowed⟩ := h.refused hF hprev
    refine ⟨false, F', hrun, hfollowed.currentTerm.trans h.requestTerm, fun _ h0 => hprev ?_⟩
    subst h0
    exact ⟨Nat.zero_le _, fun h0 => absurd rfl h0⟩

/-- **The request** gets to the peer, who answers. -/
theorem Courier.deliver (hc : Courier c i p n) (h : Cluster.Reachable cfg c) (hr : Reigns Q i c)
    (hp : p ∈ Q) (hm : p ∈ cfg.members) (hne : p ≠ i) :
    ∃ (c₁ : Cluster) (k : ℕ) (request : RequestAppendEntriesRPC) (ok : Bool),
      Onward cfg Q i c c₁ ∧ c₁.nodes i = c.nodes i ∧
      c₁.appendCalls[k]? = some ⟨i, p, request, (c.nodes i).logStore, true,
        some ⟨(c.nodes i).currentTerm, ok⟩, false⟩ ∧
      RaftNode.Waits p (c.nodes i).logStore (c.nodes i).currentTerm n
        { c.nodes i with appendRequests := [(p, request, (c.nodes i).logStore)] } request ∧
      (ok = false → n ≠ 0) := by
  obtain ⟨k, request, hk, hw⟩ := hc
  obtain ⟨A, hA⟩ := exists_safe h
  obtain ⟨ok, F', hrun, hterm, hzero⟩ := hw.answer (hr.2 p hp) (hA.done p hm).ge
  have hexec : c.exec p (RaftNode.handleAppendEntriesInternal request) =
      (c.put p F', some ⟨(c.nodes i).currentTerm, ok⟩) := by
    unfold Cluster.exec
    rw [hrun]
  have hstep := Cluster.step_deliverAppend cfg hk rfl
  dsimp only at hstep
  rw [hexec] at hstep
  have hactor : c.actor (.deliverAppend k) = some p := by
    rw [Cluster.actor, hk]
    rfl
  refine ⟨_, k, request, ok, .put_other hstep (within_of rfl rfl hactor hp) rfl hne hterm,
    Function.update_of_ne hne.symm _ _, ?_, hw, hzero⟩
  have hlt : k < (c.put p F').appendCalls.length :=
    (List.getElem?_eq_some_iff.1 hk).1.trans_le (List.length_append ▸ Nat.le_add_right _ _)
  exact List.getElem?_set_self hlt

/-- **The answer** lets the leader commit all that it may, or makes it send one entry more. -/
theorem Courier.exchange (hc : Courier c i p n)
    (h : Cluster.RunWhere cfg Proper (Cluster.init cfg) c) (hr : Reigns Q i c)
    (hi : i ∈ Q) (him : i ∈ cfg.members) (hp : p ∈ Q) (hm : p ∈ cfg.members) (hne : p ≠ i) :
    ∃ c', Onward cfg Q i c c' ∧
      (lookupKey p (c'.nodes i).matchIndex = some (c.nodes i).logStore.length ∧
        (c'.nodes i).Settled ∨ ∃ n', n = n' + 1 ∧ Courier c' i p n') := by
  obtain ⟨c₁, k, request, ok, ho, hsame, hk, hw, hzero⟩ := hc.deliver h.run hr hp hm hne
  have h₁ := h.within ho.run
  obtain ⟨A, hA⟩ := exists_safe h₁.run
  have hnode := hA.node i him
  have hl : (c₁.nodes i).status = .leader := hsame ▸ hr.1
  have hactor : c₁.actor (.answerAppend k) = some i := by
    rw [Cluster.actor, hk]
    rfl
  have hstep := Cluster.step_answerAppend cfg hk rfl rfl
  dsimp only at hstep
  -- the state in which the leader handles the answer
  have hlanded : Cluster.landed p (c₁.nodes i) = { c.nodes i with
      appendRequests := [], inFlight := (c.nodes i).inFlight.erase p } := by
    have hnone : (c₁.nodes i).appendRequests = [] := (hA.sent i him).2
    rw [hsame] at hnone ⊢
    unfold Cluster.landed
    rw [← hnone]
  cases ok with
  | true =>
    have hordered := hA.ordered him hl
    have hsorted := (hA.node i him).leading hl |>.sorted
    rw [hsame] at hordered hsorted
    have htask : Wp (do
        modify (Cluster.landed p)
        RaftNode.onAppendEntriesResponse p request.term request.prevLogIndex
          request.entries.length ⟨(c.nodes i).currentTerm, true⟩ : Task Unit)
        (fun _ s => RaftNode.Ends p (c.nodes i).logStore s ∧ s.Settled ∧ (c.nodes i).Gains s)
        (fun _ _ => False) (c₁.nodes i) := by
      rw [Wp.bind_iff, Wp.modify_iff, hlanded]
      exact (hw.settles ⟨hordered.sorted, hordered.term_le, hordered.known⟩ hsorted).mono
        (fun _ _ hs => ⟨hs.1, hs.2.1, hs.2.2.of_sent⟩)
        fun _ _ hf => hf
    obtain ⟨s, ⟨hends, hset, hg⟩, hexec⟩ := Cluster.exec_ok htask
    rw [hexec] at hstep
    have hput : (c₁.put i s).nodes i = { s with voteRequests := [], appendRequests := [] } :=
      Function.update_self _ _ _
    refine ⟨_, ho.trans (.put hstep (within_of rfl rfl hactor hi) rfl (hsame ▸ hg)),
      Or.inl ⟨?_, ?_⟩⟩
    · exact (congrArg (fun s : RaftNode => lookupKey p s.matchIndex) hput).trans hends.matchIndex
    · change ((c₁.put i s).nodes i).Settled
      rw [hput]
      exact hset
  | false =>
    obtain ⟨n, rfl⟩ := Nat.exists_eq_succ_of_ne_zero (hzero rfl)
    have hkeyed : RaftNode.KeyedFrom (c.nodes i).logStore n := by
      intro entry hentry hnull
      have hpeer : p ∈ (c₁.nodes i).peers := ((hA.node i him).mem_peers p).2 ⟨hm, hne⟩
      refine keyedLogs_of_proper h₁ i ⟨List.ne_nil_of_mem hpeer, entry, ?_, hnull⟩
      rw [hsame]
      exact List.mem_of_mem_drop hentry
    have htask : Wp (do
        modify (Cluster.landed p)
        RaftNode.onAppendEntriesResponse p request.term request.prevLogIndex
          request.entries.length ⟨(c.nodes i).currentTerm, false⟩ : Task Unit)
        (fun _ s => (∃ request', RaftNode.Waits p (c.nodes i).logStore (c.nodes i).currentTerm n s
          request') ∧ (c.nodes i).Gains s) (fun _ _ => False) (c₁.nodes i) := by
      rw [Wp.bind_iff, Wp.modify_iff, hlanded]
      exact (hw.retries hkeyed).mono
        (fun _ _ hs => ⟨hs.1, hs.2.of_sent⟩) fun _ _ hf => hf
    obtain ⟨s, ⟨⟨request', hw'⟩, hg⟩, hexec⟩ := Cluster.exec_ok htask
    rw [hexec] at hstep
    have ho' : Onward cfg Q i c₁ _ :=
      .put hstep (within_of rfl rfl hactor hi) rfl (hsame ▸ hg)
    have hput : (c₁.put i s).nodes i = { s with voteRequests := [], appendRequests := [] } :=
      Function.update_self _ _ _
    have hid : s.nodeId = i := by
      obtain ⟨A', hA'⟩ := exists_safe (h₁.within ho'.run).run
      have hid := (hA'.node i him).nodeId
      dsimp only at hid
      rwa [hput] at hid
    have hsent : s.appendRequests[0]? = some (p, request', (c.nodes i).logStore) := by
      rw [hw'.sent]
      rfl
    have hlt : k < c₁.appendCalls.length := (List.getElem?_eq_some_iff.1 hk).1
    refine ⟨_, ho.trans ho', Or.inr ⟨n, rfl, c₁.appendCalls.length, request', ?_, ?_⟩⟩
    · dsimp only
      rw [List.getElem?_set_ne hlt.ne, hput]
      exact (Cluster.getElem?_put_sent hsent).trans (by rw [hid, hw'.logStore])
    · have hw' : RaftNode.Waits p s.logStore s.currentTerm n s request' := by
        rw [hw'.logStore, hw'.currentTerm]
        exact hw'
      dsimp only
      rw [hput]
      exact ⟨hw'.status, rfl, rfl, rfl, hw'.requestTerm, hw'.prevLogIndex, hw'.prevLogTerm,
        hw'.entries, hw'.le, hw'.next, hw'.matched, hw'.commit⟩

/-- **One request after the other** repairs the log of the peer. -/
theorem Courier.arrive (hc : Courier c i p n)
    (h : Cluster.RunWhere cfg Proper (Cluster.init cfg) c) (hr : Reigns Q i c)
    (hi : i ∈ Q) (him : i ∈ cfg.members) (hp : p ∈ Q) (hm : p ∈ cfg.members) (hne : p ≠ i) :
    ∃ c', Onward cfg Q i c c' ∧
      lookupKey p (c'.nodes i).matchIndex = some (c.nodes i).logStore.length ∧
        (c'.nodes i).Settled := by
  induction n generalizing c with
  | zero =>
    obtain ⟨c', ho, hends | ⟨_, hzero, -⟩⟩ := hc.exchange h hr hi him hp hm hne
    · exact ⟨c', ho, hends⟩
    · exact absurd hzero (Nat.succ_ne_zero _).symm
  | succ n ih =>
    obtain ⟨c₁, ho, hends | ⟨n', hn, hc₁⟩⟩ := hc.exchange h hr hi him hp hm hne
    · exact ⟨c₁, ho, hends⟩
    · obtain rfl := Nat.succ.inj hn
      obtain ⟨c', ho', hends⟩ := ih hc₁ (h.within ho.run) (hr.onward ho)
      rw [ho.gains.logStore] at hends
      exact ⟨c', ho.trans ho', hends⟩

/-- The leader knows that the peers in `V` hold all of its log. -/
def HeldBy (V : Finset NodeId) (s : RaftNode) : Prop :=
  ∀ p ∈ V, ∃ m, lookupKey p s.matchIndex = some m ∧ s.logStore.length ≤ m

theorem HeldBy.gains {V : Finset NodeId} (h : HeldBy V s) (hg : s.Gains s') : HeldBy V s' := by
  intro p hp
  obtain ⟨m, hm, hle⟩ := h p hp
  obtain ⟨m', hm', hle'⟩ := hg.matchIndex p m hm
  exact ⟨m', hm', hg.logStore ▸ hle.trans hle'⟩

/-- **One member after the other** gets the leader's log. -/
theorem exists_acked (h : Cluster.RunWhere cfg Proper (Cluster.init cfg) c) (hr : Reigns Q i c)
    (hi : i ∈ Q) (hQ : Q ⊆ cfg.members) (hs : (c.nodes i).Settled) (V : Finset NodeId)
    (hV : V ⊆ Q.erase i) :
    ∃ c', Onward cfg Q i c c' ∧ HeldBy V (c'.nodes i) ∧ (c'.nodes i).Settled := by
  induction V using Finset.induction_on with
  | empty => exact ⟨c, .refl c, fun p hp => absurd hp (Finset.notMem_empty p), hs⟩
  | insert p V hp ih =>
    obtain ⟨hpQ, hV⟩ := Finset.insert_subset_iff.1 hV
    obtain ⟨hne, hpQ⟩ := Finset.mem_erase.1 hpQ
    obtain ⟨c₁, ho₁, hacked, -⟩ := ih hV
    have h₁ := h.within ho₁.run
    obtain ⟨c₂, ho₂, hin⟩ := exists_landed h₁ hi p
    have h₂ := h₁.within ho₂.run
    have hr₂ := (hr.onward ho₁).onward ho₂
    obtain ⟨A, hA⟩ := exists_safe h₂.run
    have hpeer : p ∈ (c₂.nodes i).peers := ((hA.node i (hQ hi)).mem_peers p).2 ⟨hQ hpQ, hne⟩
    obtain ⟨c₃, n, ho₃, hc⟩ := exists_courier h₂ (hQ hi) hi hr₂.1 hpeer hin
    obtain ⟨c', ho₄, hends, hs'⟩ := hc.arrive (h₂.within ho₃.run) (hr₂.onward ho₃) hi (hQ hi) hpQ
      (hQ hpQ) hne
    have ho : Onward cfg Q i c₁ c' := (ho₂.trans ho₃).trans ho₄
    refine ⟨c', ho₁.trans ho, fun q hq => ?_, hs'⟩
    rcases Finset.mem_insert.1 hq with rfl | hq
    · exact ⟨_, hends, ho₄.gains.logStore ▸ le_rfl⟩
    · exact hacked.gains ho.gains q hq

/-! ## Committing a command -/

/-- What a majority is known to hold may be committed. -/
theorem HeldBy.mayCommit (h : HeldBy (Q.erase i) s) (hn : NodeSim cfg.members A i s)
    (hQ : Quorum cfg.members Q) (hi : i ∈ Q) (hl : s.logStore ≠ [])
    (ht : ∀ entry ∈ s.logStore.getLast?, entry.term = s.currentTerm) :
    s.MayCommit s.logStore.length := by
  refine ⟨List.length_pos_iff.2 hl, ⟨s.logStore.getLast hl, ?_, ?_⟩, ?_⟩
  · rw [← List.getLast?_eq_getElem?]
    exact List.getLast?_eq_some_getLast hl
  · exact ht _ (List.getLast?_eq_some_getLast hl)
  · have hsub : (↑(Q.erase i) : Set NodeId) ⊆
        {p | ∃ m, lookupKey p s.matchIndex = some m ∧ s.logStore.length ≤ m} := fun p hp => h p hp
    have hfinite : {p | ∃ m, lookupKey p s.matchIndex = some m ∧
        s.logStore.length ≤ m}.Finite := by
      refine (List.finite_toSet (s.matchIndex.map Prod.fst)).subset ?_
      rintro p ⟨m, hm, -⟩
      exact List.mem_map.2 ⟨(p, m), mem_of_lookupKey hm, rfl⟩
    have hle := Set.ncard_le_ncard hsub hfinite
    rw [Set.ncard_coe_finset] at hle
    have hcard := Finset.card_erase_add_one hi
    have hmembers := hn.card_members
    have hmajority := hQ.2
    unfold RaftNode.majority RaftNode.holders
    omega

/-- Nobody submits anything while only `Q` acts. -/
theorem submissions_eq (h : Cluster.Reachable cfg c)
    (hrun : Cluster.RunWhere cfg (Within Q) c c') : c'.submissions = c.submissions := by
  induction hrun with
  | refl => rfl
  | tail hrun hs ih =>
    obtain ⟨e, hw, hstep⟩ := hs
    obtain ⟨A, hA⟩ := exists_safe (h.trans (Cluster.RunWhere.run hrun))
    obtain ⟨_, -, _, -, hch⟩ := hA.ran hstep
    rw [hch.submissions, hw.2.1]
    exact (List.append_nil _).trans ih

/-- **A command** that a leader takes is appended to its log for the client. -/
theorem exists_submitted (h : Cluster.RunWhere cfg Proper (Cluster.init cfg) c)
    (hr : Reigns Q i c) (hm : i ∈ cfg.members) {command : Command} (hkey : command.key ≠ none) :
    ∃ c', Cluster.step cfg c (.submit i command) = some c' ∧
      Cluster.RunWhere cfg Proper (Cluster.init cfg) c' ∧ Reigns Q i c' ∧
      c'.submissions = c.submissions ++ [(i, command)] ∧
      ((c.nodes i).appendForClient c.submissions.length command).Gains (c'.nodes i) ∧
      (c'.nodes i).Settled := by
  obtain ⟨A, hA⟩ := exists_safe h.run
  have hordered := hA.ordered hm hr.1
  obtain ⟨fault, s, ⟨hgains, hrole⟩, hput⟩ := Cluster.exec_cases
    (R := fun ok s₀ s => (ok = true →
      (s₀.appendForClient c.submissions.length command).Gains s ∧ s.Settled) ∧
      RaftNode.Submitted c.submissions.length command ok s₀ s)
    (((RaftNode.submitCommand_gains hr.1 hordered c.submissions.length command).and
      (RaftNode.submitCommand_role c.submissions.length command (c.nodes i))).mono
      (fun _ _ hs => ⟨fun _ => hs.1, hs.2⟩) fun _ _ hs => ⟨fun h => Bool.noConfusion h, hs.2⟩)
  have hstep : Cluster.step cfg c (.submit i command) = some
      { c.put i (Cluster.settle fault s) with
        submissions := c.submissions ++ [(i, command)] } := by
    rw [Cluster.step, if_pos hm, hput]
  have hproper : Proper c (.submit i command) :=
    ⟨fun _ hc => Option.some.inj hc ▸ hkey, fun _ hs => (Option.not_mem_none _ hs).elim⟩
  have h' : Cluster.RunWhere cfg Proper (Cluster.init cfg) _ :=
    h.trans (Cluster.RunWhere.one hproper hstep)
  have hnode : (c.put i (Cluster.settle fault s)).nodes i =
      { Cluster.settle fault s with voteRequests := [], appendRequests := [] } :=
    Function.update_self _ _ _
  -- it throws nothing, for no key is null
  have hnone : fault = none := by
    have hf := (hA.faults hstep i).resolve_right (keyedLogs_of_proper h' i)
    have hsame : s.history.faults = (c.nodes i).history.faults := by
      rcases hrole with ⟨hne, -⟩ | ⟨-, hcalm⟩
      · exact absurd hr.1 hne
      · exact hcalm.faults
    dsimp only at hf
    rw [hnode] at hf
    change s.history.faults ++ fault.toList = _ at hf
    rw [hsame, List.append_right_eq_self] at hf
    exact Option.toList_eq_nil_iff.1 hf
  subst hnone
  obtain ⟨hgains, hsettled⟩ := hgains rfl
  have hgains' : ((c.nodes i).appendForClient c.submissions.length command).Gains
      ((c.put i (Cluster.settle none s)).nodes i) := by
    rw [hnode]
    exact hgains.trans (.of_eq rfl rfl rfl rfl rfl rfl)
  refine ⟨_, hstep, h', ⟨hgains'.status.trans hr.1, fun j hj => ?_⟩, rfl, hgains', ?_⟩
  · change ((c.put i (Cluster.settle none s)).nodes j).currentTerm ≤
      ((c.put i (Cluster.settle none s)).nodes i).currentTerm
    rw [hgains'.currentTerm]
    by_cases hji : j = i
    · rw [hji, hgains'.currentTerm]
    · rw [show (c.put i (Cluster.settle none s)).nodes j = _ from Function.update_of_ne hji _ _]
      exact hr.2 j hj
  · change ((c.put i (Cluster.settle none s)).nodes i).Settled
    rw [hnode]
    exact hsettled

/-- The client of a committed entry that was not told that its replica is no leader has been told
the outcome. -/
theorem exists_answer (h : Cluster.Reachable cfg c) (hm : i ∈ cfg.members) {f : FutureId}
    {command : Command} (hsub : c.submissions[f]? = some (i, command)) {entry : LogEntry}
    (hc : Created c i f n entry) (hn : n ≤ (c.nodes i).commitIndex)
    (href : (f, CommandResult.notLeader) ∉ (c.nodes i).completed) :
    ∃ r entry, (f, r) ∈ (c.nodes i).completed ∧ r.status ≠ .notLeader ∧
      entry.command = command ∧ Answered c i f r entry := by
  obtain ⟨A, hA⟩ := exists_safe h
  have hL := exists_ledger h
  have hatt := exists_attended h
  have hclients := (hA.node i hm).clients
  rcases (hatt.knows i f).2 ⟨command, hsub⟩ with hd | hw
  · obtain ⟨⟨_, r⟩, hr, rfl⟩ := List.mem_map.1 hd
    have hne : r.status ≠ .notLeader := by
      rcases hclients.answered _ r hr with rfl | ⟨_, -, -, -, ⟨_, _, -, heq⟩ | ⟨_, -, heq⟩⟩
      · exact absurd hr href
      · rw [heq]
        exact CommandResult.Status.noConfusion
      · rw [heq]
        exact CommandResult.Status.noConfusion
    obtain ⟨entry', ha⟩ := hA.answered hL hm hr hne
    refine ⟨r, entry', hr, hne, ?_, ha⟩
    have hsame := ha.submitted
    rw [hsub] at hsame
    exact (congrArg Prod.snd (Option.some.inj hsame)).symm
  · -- whoever waits for the entry waits for one that is not applied
    obtain ⟨⟨index, _⟩, hp, rfl⟩ := List.mem_map.1 hw
    obtain ⟨entry', hc', -⟩ := hclients.pending _ _ hp
    obtain ⟨rfl, -⟩ := hL.once i _ _ _ _ _ hc hc'
    have hlt := hatt.ahead i _ hp
    rw [hA.done i hm] at hlt
    exact absurd hn (Nat.not_le.2 hlt)

/-- **The cluster can always go on**: from every state of a run without null keys in which no
leader was started, whatever was lost on the way, the members of any majority can, without the
others, make one of them a leader that takes the next command, commits it, and tells its client the
outcome. -/
theorem progress_possible (h : Cluster.RunWhere cfg Proper (Cluster.init cfg) c)
    (hQ : Quorum cfg.members Q) {command : Command} (hkey : command.key ≠ none) :
    ∃ c₁ c₂ c', ∃ i ∈ Q, Cluster.RunWhere cfg (Within Q) c c₁ ∧
      Cluster.step cfg c₁ (.submit i command) = some c₂ ∧ Cluster.RunWhere cfg (Within Q) c₂ c' ∧
      ∃ r entry, (c.submissions.length, r) ∈ (c'.nodes i).completed ∧ r.status ≠ .notLeader ∧
        entry.command = command ∧ Answered c' i c.submissions.length r entry := by
  obtain ⟨c₁, hrun₁, i, hi, hl, hle⟩ := exists_leader h hQ
  have h₁ := h.within hrun₁
  have hm := hQ.1 hi
  obtain ⟨c₂, hstep, h₂, hr₂, hsub₂, hgains₂, hsettled₂⟩ := exists_submitted h₁ ⟨hl, hle⟩ hm hkey
  obtain ⟨c', ho, hheld, hsettled⟩ :=
    exists_acked h₂ hr₂ hi hQ.1 hsettled₂ (Q.erase i) (Finset.Subset.refl _)
  have h' := h₂.within ho.run
  have hsub₁ := submissions_eq h.run hrun₁
  have hsub' := submissions_eq h₂.run ho.run
  refine ⟨c₁, c₂, c', i, hi, hrun₁, hstep, ho.run, ?_⟩
  rw [← hsub₁]
  obtain ⟨A, hA⟩ := exists_safe h'.run
  have hlog : (c'.nodes i).logStore =
      (c₁.nodes i).logStore ++ [⟨(c₁.nodes i).currentTerm, command⟩] :=
    ho.gains.logStore.trans hgains₂.logStore
  have hterm : (c'.nodes i).currentTerm = (c₁.nodes i).currentTerm :=
    ho.gains.currentTerm.trans hgains₂.currentTerm
  have hmay : (c'.nodes i).MayCommit (c'.nodes i).logStore.length := by
    refine hheld.mayCommit (hA.node i hm) hQ hi ?_ fun entry hentry => ?_
    · rw [hlog]
      exact Consensus.snoc_nonempty _ _
    · rw [hlog, List.getLast?_concat] at hentry
      rw [← Option.some.inj hentry, hterm]
  have hcreated : Created c' i c₁.submissions.length ((c₁.nodes i).logStore.lastIndex + 1)
      ⟨(c₁.nodes i).currentTerm, command⟩ := by
    unfold Created
    rw [ho.gains.created, hgains₂.created]
    exact List.mem_append_right _ (List.mem_singleton_self _)
  have hcommit := hsettled _ hmay
  have hsub : c'.submissions[c₁.submissions.length]? = some (i, command) := by
    rw [hsub', hsub₂, List.getElem?_append_right le_rfl, Nat.sub_self]
    rfl
  refine exists_answer h'.run hm hsub hcreated ?_ fun hf => ?_
  · rw [hlog, List.length_append] at hcommit
    exact hcommit
  · -- nobody has been told anything of a client that has not come
    have hold : (c₁.submissions.length, CommandResult.notLeader) ∈ (c₁.nodes i).completed :=
      hgains₂.refused _ (ho.gains.refused _ hf)
    obtain ⟨_, hbefore⟩ := ((exists_attended h₁.run).knows i c₁.submissions.length).1
      (Or.inl (List.mem_map_of_mem hold))
    exact absurd (List.getElem?_eq_some_iff.1 hbefore).1 (lt_irrefl _)

/-- Members 1 and 3 can go on without member 2, who leads in the second reign. -/
theorem progress_possible_second : ∃ c', ∃ i ∈ ({1, 3} : Finset NodeId), ∃ r,
    Cluster.Run threeMembers afterSecond c' ∧
      (afterSecond.submissions.length, r) ∈ (c'.nodes i).completed ∧ r.status ≠ .notLeader := by
  have hrun : Cluster.RunWhere threeMembers Proper (Cluster.init threeMembers) afterSecond :=
    (Cluster.runWhere_after (by decide +kernel)).trans (Cluster.runWhere_after (by decide +kernel))
  have hQ : Quorum threeMembers.members {1, 3} := ⟨by decide, by decide⟩
  have hkey : (⟨some "x", .add, 1⟩ : Command).key ≠ none := by decide
  obtain ⟨c₁, c₂, c', i, hi, hrun₁, hstep, hrun₂, r, -, hr, hne, -⟩ :=
    progress_possible hrun hQ hkey
  exact ⟨c', i, hi, r, (hrun₁.run.tail ⟨_, hstep⟩).trans hrun₂.run, hr, hne⟩

end CowRaft.Raft
