import CowRaft.Raft.Runs
import CowRaft.Raft.Safety

/-!
# Requests in flight

A replica keeps the set of peers that have not answered its last request yet. No client can spoil
it, as long as no leader with peers is given a null key (`flights_outstanding`): then no task
throws, and each peer in flight has an RPC on its way. A null key spoils it for good
(`null_key_strands`).
-/

namespace CowRaft.Raft

variable {cfg : Config} {A : Protocol} {c c' : Cluster} {e : Event} {i j : NodeId}
  {s s' : RaftNode}

/-! ## Null keys -/

/-- No null key reaches a leader that has peers. -/
def Harmless (c : Cluster) (e : Event) : Prop :=
  ∀ sent ∈ e.submission, sent.2.key = none → (c.nodes sent.1).status = .leader →
    (c.nodes sent.1).peers = []

instance (c : Cluster) (e : Event) : Decidable (Harmless c e) :=
  inferInstanceAs (Decidable (∀ sent ∈ e.submission, sent.2.key = none →
    (c.nodes sent.1).status = .leader → (c.nodes sent.1).peers = []))

/-- No log of a replica that has peers holds a null key. -/
def KeyedLogs (c : Cluster) : Prop := ∀ j, ¬ (c.nodes j).NullKeyed

theorem RaftNode.Submitted.fresh {future : FutureId} {command : Command} {ok : Bool}
    (h : RaftNode.Submitted future command ok s s')
    (hkey : command.key = none → s.status ≠ .leader) :
    ∀ entry ∈ s'.logStore, entry ∈ s.logStore ∨ entry.command.key ≠ none := by
  rcases h with ⟨-, rfl⟩ | ⟨hl, h⟩
  · exact fun entry he => Or.inl he
  · intro entry he
    rcases h.fresh entry he with he | he
    · rcases List.mem_append.1 he with he | he
      · exact Or.inl he
      · rw [List.mem_singleton.1 he]
        exact Or.inr fun hnull => hkey hnull hl
    · exact Or.inr he

theorem Ran.fresh (h : Ran c e j s) (he : Harmless c e) (hp : (c.nodes j).peers ≠ []) :
    ∀ entry ∈ s.logStore, entry ∈ (c.nodes j).logStore ∨ entry.command.key ≠ none := by
  cases h with
  | start => exact fun _ h => Or.inl h
  | electionTimeout i id _ _ hs => exact hs.round.fresh
  | heartbeat i id _ fault _ hs =>
    obtain ⟨s₁, hs, rfl⟩ := hs
    cases fault <;> exact hs.fresh
  | submit i command fault _ hs =>
    exact hs.fresh fun hnull hl => hp (he _ rfl hnull hl)
  | deliverVote k call _ _ hs => exact hs.quiet.fresh
  | answerVote k call _ response _ _ hs => exact hs.tallied.fresh
  | deliverAppend k call _ fault _ hs => exact hs.quiet.fresh
  | answerAppend k call _ response _ _ fault _ hs => exact hs.quiet.fresh
  | failAppend => exact fun _ h => Or.inl h

theorem KeyedLogs.ran (h : KeyedLogs c) (he : Harmless c e) (hran : Ran c e j s)
    (hch : Changes c e c' j s) : KeyedLogs c' := by
  rintro i ⟨hp, entry, hentry, hnull⟩
  by_cases hi : i = j
  · subst hi
    rw [hch.node] at hp hentry
    have hp' : (c.nodes i).peers ≠ [] := hran.remains.peers ▸ hp
    rcases hran.fresh he hp' entry hentry with hold | hkey
    · exact h i ⟨hp', entry, hold, hnull⟩
    · exact hkey hnull
  · rw [hch.other i hi] at hp hentry
    exact h i ⟨hp, entry, hentry, hnull⟩

theorem KeyedLogs.init (cfg : Config) : KeyedLogs (Cluster.init cfg) := by
  rintro i ⟨-, entry, hentry, -⟩
  exact List.not_mem_nil hentry

/-! ## Peers in flight -/

/-- An RPC of replica `i` to a peer, which it has not heard of yet. -/
def Outstanding (c : Cluster) (i p : NodeId) (k : ℕ) (call : AppendCall) : Prop :=
  c.appendCalls[k]? = some call ∧ call.caller = i ∧ call.peer = p ∧ call.settled = false

theorem Ran.lands (h : Ran c e j s) {k : ℕ} {call : AppendCall} (hk : e.lands = some k)
    (hc : c.appendCalls[k]? = some call) : call.caller = j := by
  cases h with
  | answerAppend k' call' hk' =>
    obtain rfl := Option.some.inj hk
    rw [hc] at hk'
    rw [Option.some.inj hk']
  | failAppend k' call' hk' =>
    obtain rfl := Option.some.inj hk
    rw [hc] at hk'
    rw [Option.some.inj hk']
  | _ => cases hk

/-- What is not settled now is outstanding still. -/
theorem Changes.outstanding (h : Changes c e c' j s) {p : NodeId} {k : ℕ} {call : AppendCall}
    (hk : Outstanding c i p k call) (hl : e.lands ≠ some k) :
    ∃ call', Outstanding c' i p k call' ∧ call'.request = call.request := by
  obtain ⟨hk, hcaller, hpeer, hsettled⟩ := hk
  obtain ⟨call', hk', hgoes⟩ := h.exists_call hk
  refine ⟨call', ⟨hk', hgoes.caller.trans hcaller, hgoes.peer.trans hpeer, ?_⟩, hgoes.request⟩
  rw [hgoes.settled, hsettled]
  simp [hl]

/-- The peer was in flight, and the event does not land its RPC. -/
def Aloft (c : Cluster) (e : Event) (j p : NodeId) : Prop :=
  p ∈ (c.nodes j).inFlight ∧
    ∀ k call, e.lands = some k → c.appendCalls[k]? = some call → call.peer ≠ p

/-- A peer in flight was in flight before, and its RPC has not landed, or it was just sent a
request. -/
theorem Ran.flights (h : Ran c e j s) (hf : s.history.faults = (c.nodes j).history.faults)
    {p : NodeId} (hp : p ∈ s.inFlight) :
    Aloft c e j p ∨ ∃ r ∈ s.appendRequests, r.1 = p := by
  have hnone : ∀ {fault : Option Fault} {s : RaftNode},
      s.history.faults = (c.nodes j).history.faults →
      (Cluster.settle fault s).history.faults = (c.nodes j).history.faults →
      fault.isNone = true := by
    intro fault s hs heq
    dsimp only [Cluster.settle] at heq
    rw [hs, List.append_right_eq_self] at heq
    rw [Option.isNone_iff_eq_none]
    exact Option.toList_eq_nil_iff.1 heq
  have hkeep : ∀ {s : RaftNode}, (p ∈ (c.nodes j).inFlight ∨ ∃ r ∈ s.appendRequests, r.1 = p) →
      e.lands = none → Aloft c e j p ∨ ∃ r ∈ s.appendRequests, r.1 = p := by
    intro s h hl
    rcases h with h | h
    · exact Or.inl ⟨h, fun k call hk => by rw [hl] at hk; cases hk⟩
    · exact Or.inr h
  have hland : ∀ {s : RaftNode} {k : ℕ} {call : AppendCall}, c.appendCalls[k]? = some call →
      e.lands = some k → p ∈ (Cluster.landed call.peer (c.nodes j)).inFlight →
      Aloft c e j p ∨ ∃ r ∈ s.appendRequests, r.1 = p := by
    intro s k call hk hl hp
    obtain ⟨hne, hp⟩ := Finset.mem_erase.1 hp
    refine Or.inl ⟨hp, fun k' call' hl' hk' heq => hne ?_⟩
    rw [hl] at hl'
    obtain rfl := Option.some.inj hl'
    rw [hk] at hk'
    rw [← heq, Option.some.inj hk']
  cases h with
  | start => exact hkeep (Or.inl hp) rfl
  | electionTimeout i id _ _ hs => exact hkeep (hs.round.flights rfl p hp) rfl
  | heartbeat i id _ fault _ hs =>
    obtain ⟨s₁, hs, rfl⟩ := hs
    cases fault with
    | none => exact hkeep (hs.flights rfl p hp) rfl
    | some e => exact absurd (hnone hs.faults hf) Bool.false_ne_true
  | submit i command fault _ hs =>
    rcases hs with ⟨-, rfl⟩ | ⟨-, hs⟩
    · exact hkeep (Or.inl hp) rfl
    · exact hkeep (hs.flights (hnone hs.faults hf) p hp) rfl
  | deliverVote k call _ _ hs => exact hkeep (hs.quiet.flights rfl p hp) rfl
  | answerVote k call _ response _ _ hs => exact hkeep (hs.tallied.flights rfl p hp) rfl
  | deliverAppend k call _ fault _ hs =>
    exact hkeep (hs.quiet.flights (hnone hs.quiet.faults hf) p hp) rfl
  | answerAppend k call hk response _ _ fault _ hs =>
    rcases hs.quiet.flights (hnone hs.quiet.faults hf) p hp with hp | hp
    · exact hland hk rfl hp
    · exact Or.inr hp
  | failAppend k call hk _ => exact hland hk rfl hp

theorem Changes.sent (h : Changes c e c' j s) {m : ℕ}
    {r : NodeId × RequestAppendEntriesRPC × LogStore} (hr : s.appendRequests[m]? = some r) :
    c'.appendCalls[c.appendCalls.length + m]? =
      some ⟨s.nodeId, r.1, r.2.1, r.2.2, false, none, false⟩ := by
  obtain ⟨calls, heq, hlen, -⟩ := h.calls
  rw [heq, ← hlen, List.getElem?_append_right (Nat.le_add_right _ _), Nat.add_sub_cancel_left]
  unfold Cluster.newAppendCalls
  rw [List.getElem?_map, hr]
  rfl

/-- Peers in flight have RPCs on their way. -/
def Tracked (c : Cluster) (i : NodeId) : Prop :=
  ∀ p ∈ (c.nodes i).inFlight, ∃ k call, Outstanding c i p k call

theorem Tracked.ran (h : ∀ i, Tracked c i) (hid : (c.nodes j).nodeId = j) (hran : Ran c e j s)
    (hch : Changes c e c' j s) (hf : s.history.faults = (c.nodes j).history.faults) :
    ∀ i, Tracked c' i := by
  intro i p hp
  by_cases hi : i = j
  · subst hi
    rw [hch.node] at hp
    rcases hran.flights hf hp with ⟨hold, hland⟩ | ⟨r, hr, rfl⟩
    · obtain ⟨k, call, hk⟩ := h i p hold
      obtain ⟨call', hk', -⟩ := hch.outstanding hk fun hl => hland k call hl hk.1 hk.2.2.1
      exact ⟨k, call', hk'⟩
    · obtain ⟨m, hm⟩ := List.getElem?_of_mem hr
      exact ⟨_, _, hch.sent hm, hran.remains.nodeId.trans hid, rfl, rfl⟩
  · rw [hch.other i hi] at hp
    obtain ⟨k, call, hk⟩ := h i p hp
    obtain ⟨call', hk', -⟩ := hch.outstanding hk fun hl =>
      hi (hk.2.1.symm.trans (hran.lands hl hk.1))
    exact ⟨k, call', hk'⟩

/-- **Commands are harmless** unless a leader with peers is given a null key: then nothing that a
task does throws, and the peers in flight are those with RPCs on their way. -/
theorem flights_outstanding (h : Cluster.RunWhere cfg Harmless (Cluster.init cfg) c)
    (i : NodeId) :
    (c.nodes i).history.faults = [] ∧
      ∀ p ∈ (c.nodes i).inFlight, ∃ k call, Outstanding c i p k call := by
  suffices hall : KeyedLogs c ∧ (∀ j, (c.nodes j).history.faults = []) ∧ ∀ j, Tracked c j from
    ⟨hall.2.1 i, hall.2.2 i⟩
  refine Cluster.RunWhere.induction h
    (I := fun c => KeyedLogs c ∧ (∀ j, (c.nodes j).history.faults = []) ∧ ∀ j, Tracked c j) ?_ ?_
  · exact ⟨KeyedLogs.init cfg, fun _ => rfl, fun _ p hp => absurd hp (Finset.notMem_empty p)⟩
  · intro A c c' e j s hA hj ⟨hk, hf, ht⟩ he hstep hran hch
    have hk' := hk.ran he hran hch
    have hf' : ∀ i, (c'.nodes i).history.faults = (c.nodes i).history.faults :=
      fun i => (hA.faults hstep i).resolve_right (hk' i)
    refine ⟨hk', fun i => (hf' i).trans (hf i), Tracked.ran ht (hA.node j hj).nodeId hran hch ?_⟩
    rw [← hf' j, hch.node]

theorem flights_outstanding_second : ∃ k call, Outstanding afterSecond 2 3 k call := by
  have hrun : Cluster.RunWhere threeMembers Harmless (Cluster.init threeMembers) afterSecond :=
    (Cluster.runWhere_after (by decide +kernel)).trans (Cluster.runWhere_after (by decide +kernel))
  exact (flights_outstanding hrun 2).2 3 (by decide +kernel)

/-- Member 1 is elected, and its peers have answered; then it is given a null key. -/
def afterNullKey : Cluster := (Cluster.init threeMembers).after threeMembers
  [.start 1, .electionTimeout 1 0, .deliverVote 0, .answerVote 0, .deliverAppend 0, .answerAppend 0,
    .deliverAppend 1, .answerAppend 1, .submit 1 ⟨none, .set, 5⟩, .heartbeat 1 2]

/-- A null key throws in the client's task and in the next tick, which is the last one, and leaves
a peer in flight for good. -/
theorem null_key_strands : Cluster.Reachable threeMembers afterNullKey ∧
    (afterNullKey.nodes 1).status = .leader ∧
    (afterNullKey.nodes 1).history.faults = [.nullPointer, .nullPointer] ∧
    (afterNullKey.nodes 1).heartbeats = ∅ ∧ 2 ∈ (afterNullKey.nodes 1).inFlight ∧
    ∀ k call, ¬ Outstanding afterNullKey 1 2 k call := by
  refine ⟨Cluster.run_after _ _ _, by decide +kernel, by decide +kernel, by decide +kernel,
    by decide +kernel, ?_⟩
  have hall : ∀ call ∈ afterNullKey.appendCalls, call.settled = true := by decide +kernel
  rintro k call ⟨hk, -, -, hs⟩
  exact absurd (hall call (List.mem_of_getElem? hk)) (Bool.eq_false_iff.1 hs)

end CowRaft.Raft
