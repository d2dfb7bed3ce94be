import CowRaft.Raft.ClusterSim

/-!
# Safety

What holds in every state the cluster can get to, whatever is lost, delayed or reordered:
`election_safety`, `leader_completeness`, `log_matching`, `state_machine_safety` and
`index_safety`. Each is what the protocol knows (`Consensus.Inv`), told of the replicas.
-/

namespace CowRaft.Raft

open Consensus (State Inv Evolves Move Quorum)

variable {cfg : Config} {A A' : Protocol} {c c' : Cluster} {i : NodeId}

/-! ## A run of three members -/

/-- Three members. -/
def threeMembers : Config := Config.ofList [1, 2, 3] (by decide)

/-- Member 1 is elected, and commits a command with the help of member 2. -/
def firstReign : List Event :=
  [.start 1, .electionTimeout 1 0, .deliverVote 0, .answerVote 0, .deliverAppend 0,
    .answerAppend 0, .submit 1 ⟨some "x", .set, 5⟩, .deliverAppend 2, .answerAppend 2]

/-- Member 2 follows it, and commits another one with the help of member 1. -/
def secondReign : List Event :=
  [.electionTimeout 2 3, .deliverVote 3, .answerVote 3, .submit 2 ⟨some "x", .add, 1⟩,
    .deliverAppend 3, .answerAppend 3, .deliverAppend 5, .answerAppend 5]

/-- The cluster after some events, as long as they can happen. -/
def Cluster.after (cfg : Config) (es : List Event) (c : Cluster) : Cluster :=
  (Cluster.playWhere cfg (fun _ _ => True) es c).getD c

theorem Cluster.run_after (cfg : Config) (es : List Event) (c : Cluster) :
    Cluster.Run cfg c (c.after cfg es) := by
  unfold Cluster.after
  cases h : Cluster.playWhere cfg (fun _ _ => True) es c with
  | none => exact Relation.ReflTransGen.refl
  | some c' => exact (Cluster.runWhere_of_play h).run

theorem Cluster.runWhere_after {P : Cluster → Event → Prop} [∀ c e, Decidable (P c e)]
    {es : List Event} (h : (Cluster.playWhere cfg P es c).isSome = true) :
    Cluster.RunWhere cfg P c (c.after cfg es) := by
  obtain ⟨c', hc'⟩ := Option.isSome_iff_exists.1 h
  unfold Cluster.after
  rw [Cluster.play_of_playWhere hc']
  exact Cluster.runWhere_of_play hc'

/-- The states at the end of both reigns. -/
def afterFirst : Cluster := (Cluster.init threeMembers).after threeMembers firstReign

def afterSecond : Cluster := afterFirst.after threeMembers secondReign

theorem reachable_afterFirst : Cluster.Reachable threeMembers afterFirst :=
  Cluster.run_after _ _ _

theorem reachable_afterSecond : Cluster.Reachable threeMembers afterSecond :=
  reachable_afterFirst.trans (Cluster.run_after _ _ _)

/-! ## Elections -/

/-- **Election safety**: each term has at most one leader, who got the votes of a majority that
includes itself. -/
theorem election_safety (h : Cluster.Reachable cfg c) :
    (∀ i ∈ cfg.members, ∀ j ∈ cfg.members, ∀ T l l', (T, l) ∈ (c.nodes i).history.led →
      (T, l') ∈ (c.nodes j).history.led → i = j) ∧
    ∀ i ∈ cfg.members, ∀ T l, (T, l) ∈ (c.nodes i).history.led →
      ∃ S ⊆ cfg.members, i ∈ S ∧ (c.nodes i).majority ≤ S.card ∧
        ∀ m ∈ S, (T, i) ∈ (c.nodes m).history.ballots := by
  obtain ⟨A, hA⟩ := exists_safe h
  refine ⟨?_, ?_⟩
  · intro i hi j hj T l l' hl hl'
    have h₁ := ((hA.node i hi).led T l hl).1
    have h₂ := ((hA.node j hj).led T l' hl').1
    rw [h₁] at h₂
    exact Option.some.inj h₂
  · intro i hi T l hl
    have hlead := ((hA.node i hi).led T l hl).1
    obtain ⟨S, hS, hv⟩ := hA.inv.elections.leader_votes hlead
    have hself := hA.inv.elections.cand_vote (hA.inv.elections.leader_cand hlead)
    refine ⟨insert i S, Finset.insert_subset hi hS.1, Finset.mem_insert_self _ _, ?_, ?_⟩
    · have hcard := (hA.node i hi).card_members
      have hle := Finset.card_le_card (Finset.subset_insert i S)
      have hquorum := hS.2
      unfold RaftNode.majority
      omega
    · intro m hm
      rw [(hA.node m (Finset.insert_subset hi hS.1 hm)).ballots]
      rcases Finset.mem_insert.1 hm with rfl | hm
      · exact hself
      · exact hv m hm

theorem election_safety_first : ∃ S ⊆ threeMembers.members, 1 ∈ S ∧
    (afterFirst.nodes 1).majority ≤ S.card ∧
      ∀ m ∈ S, (1, 1) ∈ (afterFirst.nodes m).history.ballots :=
  (election_safety reachable_afterFirst).2 1 (by decide) 1 [] (by decide +kernel)

/-- **Leader completeness**: what a leader has committed, every later leader had when it was
elected. -/
theorem leader_completeness (h : Cluster.Reachable cfg c) {i j : NodeId} (hi : i ∈ cfg.members)
    (hj : j ∈ cfg.members) {T T' : ℕ} {l l' : LogStore}
    (hl : (T, l) ∈ (c.nodes i).history.advanced) (hl' : (T', l') ∈ (c.nodes j).history.led)
    (hT : T < T') : l <+: l' := by
  obtain ⟨A, hA⟩ := exists_safe h
  obtain ⟨hchosen, hstart⟩ := (hA.node i hi).advanced T l hl
  obtain ⟨hlead, helect⟩ := (hA.node j hj).led T' l' hl'
  have hne : A.leader T' ≠ none := by
    rw [hlead]
    exact Option.some_ne_none j
  have hcut : (A.leaderLog T).take l.length = l := by
    rw [Consensus.take_eq_of_start hstart le_rfl, List.take_length]
  have := hA.inv.acks.completeness hchosen hT hne
  rwa [hcut, helect] at this

theorem leader_completeness_second : ∃ l l' : LogStore,
    (1, l) ∈ (afterSecond.nodes 1).history.advanced ∧
      (2, l') ∈ (afterSecond.nodes 2).history.led ∧ l <+: l' := by
  have hl : (1, [⟨1, ⟨some "x", .set, 5⟩⟩]) ∈ (afterSecond.nodes 1).history.advanced := by
    decide +kernel
  have hl' : (2, [⟨1, ⟨some "x", .set, 5⟩⟩]) ∈ (afterSecond.nodes 2).history.led := by
    decide +kernel
  exact ⟨_, _, hl, hl', leader_completeness reachable_afterSecond (by decide) (by decide) hl hl'
    (by decide)⟩

/-! ## Logs -/

/-- The log of a replica, or the sender's log of a request that is still on its way. -/
def Cluster.HasLog (cfg : Config) (c : Cluster) (l : LogStore) : Prop :=
  (∃ i ∈ cfg.members, l = (c.nodes i).logStore) ∨
    ∃ call ∈ c.appendCalls, call.delivered = false ∧ l = call.senderLog

theorem Safe.matched (h : Safe cfg A c) {l : LogStore} (hl : c.HasLog cfg l) :
    Consensus.Matched A.leaderLog l := by
  rcases hl with ⟨i, hi, rfl⟩ | ⟨call, hcall, -, rfl⟩
  · rw [← (h.node i hi).log]
    exact h.inv.logs.matched i
  · exact (h.inv.logs.leaderLog_matched h.inv.elections _).start
      (h.appendCalls call hcall).request.start

/-- **Log matching**: two logs with entries of one term at one index agree up to it; terms do not
decrease along a log, nor exceed the replica's. -/
theorem log_matching (h : Cluster.Reachable cfg c) :
    (∀ l l', c.HasLog cfg l → c.HasLog cfg l' → ∀ k e e', l[k]? = some e → l'[k]? = some e' →
      e.term = e'.term → e = e' ∧ l.take (k + 1) = l'.take (k + 1)) ∧
    ∀ i ∈ cfg.members, (c.nodes i).logStore.Pairwise (fun e e' => e.term ≤ e'.term) ∧
      ∀ e ∈ (c.nodes i).logStore, e.term ≤ (c.nodes i).currentTerm := by
  obtain ⟨A, hA⟩ := exists_safe h
  refine ⟨?_, ?_⟩
  · intro l l' hl hl' k e e' he he' hterm
    have hagree := (hA.matched hl).agree (hA.matched hl') he he' hterm
    refine ⟨?_, hagree⟩
    have hget := congrArg (fun m : LogStore => m[k]?) hagree
    rw [List.getElem?_take_of_lt (Nat.lt_succ_self k), he,
      List.getElem?_take_of_lt (Nat.lt_succ_self k), he'] at hget
    exact Option.some.inj hget
  · intro i hi
    have hnode := hA.node i hi
    rw [← hnode.log, ← hnode.term]
    exact ⟨hA.inv.logs.sorted i, hA.inv.logs.term_le i⟩

theorem log_matching_second : (afterSecond.nodes 1).logStore.take 1 =
    (afterSecond.nodes 2).logStore.take 1 :=
  ((log_matching reachable_afterSecond).1 _ _ (Or.inl ⟨1, by decide, rfl⟩)
    (Or.inl ⟨2, by decide, rfl⟩) 0 ⟨1, ⟨some "x", .set, 5⟩⟩ ⟨1, ⟨some "x", .set, 5⟩⟩
    (by decide +kernel) (by decide +kernel) rfl).2

/-! ## State machines -/

/-- What two replicas have committed agrees. -/
theorem Safe.log_agree (h : Safe cfg A c) {i j : NodeId} (hi : i ∈ cfg.members)
    (hj : j ∈ cfg.members) (hle : (c.nodes i).commitIndex ≤ (c.nodes j).commitIndex) :
    (c.nodes i).logStore.take (c.nodes i).commitIndex =
      (c.nodes j).logStore.take (c.nodes i).commitIndex := by
  have hki := h.inv.commits i
  have hkj := h.inv.commits j
  rw [(h.node i hi).commit, (h.node i hi).log] at hki
  rw [(h.node j hj).commit, (h.node j hj).log] at hkj
  exact h.inv.known_agree hki hkj hle

/-- A replica has applied the committed part of its log. -/
theorem Safe.applied_eq (h : Safe cfg A c) (hi : i ∈ cfg.members) :
    (c.nodes i).history.applied = (c.nodes i).logStore.take (c.nodes i).commitIndex := by
  rw [(h.node i hi).applied, h.done i hi]

theorem Safe.applied_start (h : Safe cfg A c) {i j : NodeId} (hi : i ∈ cfg.members)
    (hj : j ∈ cfg.members) (hle : (c.nodes i).commitIndex ≤ (c.nodes j).commitIndex) :
    (c.nodes i).history.applied <+: (c.nodes j).history.applied := by
  rw [h.applied_eq hi, h.applied_eq hj, h.log_agree hi hj hle]
  exact Consensus.take_start_mono _ hle

theorem Safe.applied_agree (h : Safe cfg A c) {i j : NodeId} (hi : i ∈ cfg.members)
    (hj : j ∈ cfg.members) {k : ℕ} {e e' : LogEntry}
    (he : (c.nodes i).history.applied[k]? = some e)
    (he' : (c.nodes j).history.applied[k]? = some e') : e = e' := by
  rcases Nat.le_total (c.nodes i).commitIndex (c.nodes j).commitIndex with hle | hle
  · have := Consensus.getElem?_of_start (h.applied_start hi hj hle) he
    rw [he'] at this
    exact (Option.some.inj this).symm
  · have := Consensus.getElem?_of_start (h.applied_start hj hi hle) he'
    rw [he] at this
    exact Option.some.inj this

/-- **State machine safety**: no two replicas apply different entries at one index, each has
applied its log up to `lastApplied`, in order and once, and commands on unknown keys that need a
value change nothing; so replicas that have applied equally much have equal values. -/
theorem state_machine_safety (h : Cluster.Reachable cfg c) :
    (∀ i ∈ cfg.members, ∀ j ∈ cfg.members, ∀ (k : ℕ) (e e' : LogEntry),
      (c.nodes i).history.applied[k]? = some e → (c.nodes j).history.applied[k]? = some e' →
        e = e') ∧
    (∀ i ∈ cfg.members,
      (c.nodes i).history.applied = (c.nodes i).logStore.take (c.nodes i).lastApplied ∧
      (c.nodes i).history.applied.length = (c.nodes i).lastApplied ∧
      (c.nodes i).stateMachine =
        StateMachine.replay ((c.nodes i).logStore.take (c.nodes i).lastApplied)) ∧
    (∀ values : StateMachine, ∀ command : Command, command.action ≠ .set →
      values command.key = none → values.next command = values) ∧
    ∀ i ∈ cfg.members, ∀ j ∈ cfg.members, (c.nodes i).lastApplied = (c.nodes j).lastApplied →
      (c.nodes i).stateMachine = (c.nodes j).stateMachine := by
  obtain ⟨A, hA⟩ := exists_safe h
  refine ⟨?_, ?_, fun values command => StateMachine.next_of_unknown, ?_⟩
  · intro i hi j hj k e e' he he'
    exact hA.applied_agree hi hj he he'
  · intro i hi
    have hnode := hA.node i hi
    refine ⟨hnode.applied, ?_, ?_⟩
    · have hle := hnode.commitIndex_le hA.inv
      rw [hnode.applied, List.length_take, hA.done i hi, Nat.min_eq_left hle]
    · rw [hnode.machine, hnode.applied]
  · intro i hi j hj heq
    have hle : (c.nodes i).commitIndex = (c.nodes j).commitIndex := by
      rw [← hA.done i hi, ← hA.done j hj, heq]
    have hstart := hA.applied_start hi hj hle.le
    have hstart' := hA.applied_start hj hi hle.ge
    rw [(hA.node i hi).machine, (hA.node j hj).machine,
      hstart.eq_of_length (le_antisymm hstart.length_le hstart'.length_le)]

theorem state_machine_safety_second :
    (afterSecond.nodes 2).stateMachine = StateMachine.replay
      ((afterSecond.nodes 2).logStore.take (afterSecond.nodes 2).lastApplied) :=
  ((state_machine_safety reachable_afterSecond).2.1 2 (by decide)).2.2

/-! ## Indices -/

/-- **Index safety**: everything committed is applied and in the log, no index decreases, nothing
committed is truncated, a leader's indices lie in its log, and no index is ever out of bounds. -/
theorem index_safety (h : Cluster.Reachable cfg c) (hi : i ∈ cfg.members) :
    (c.nodes i).lastApplied = (c.nodes i).commitIndex ∧
    (c.nodes i).commitIndex ≤ (c.nodes i).logStore.lastIndex ∧
    (∀ c', Cluster.Run cfg c c' → (c.nodes i).commitIndex ≤ (c'.nodes i).commitIndex ∧
      (c.nodes i).lastApplied ≤ (c'.nodes i).lastApplied) ∧
    (∀ cut ∈ (c.nodes i).history.truncations, cut.2 < cut.1) ∧
    ((c.nodes i).status = .leader → ∀ p ∈ (c.nodes i).peers,
      (∃ next, lookupKey p (c.nodes i).nextIndex = some next ∧ 1 ≤ next ∧
        next ≤ (c.nodes i).logStore.lastIndex + 1) ∧
      ∃ m, lookupKey p (c.nodes i).matchIndex = some m ∧ m ≤ (c.nodes i).logStore.lastIndex) ∧
    ∀ e ∈ (c.nodes i).history.faults, ∀ message, e ≠ .indexOutOfBounds message := by
  obtain ⟨A, hA⟩ := exists_safe h
  have hnode := hA.node i hi
  refine ⟨hA.done i hi, hnode.commitIndex_le hA.inv, ?_, hnode.truncations, ?_, ?_⟩
  · intro c' hr
    obtain ⟨A', hm, hA'⟩ := hA.run hr
    have hle := hm.commit_le i
    rw [hnode.commit, (hA'.node i hi).commit] at hle
    refine ⟨hle, ?_⟩
    rw [hA.done i hi, hA'.done i hi]
    exact hle
  · intro hl p hp
    have hlead := hnode.leading hl
    refine ⟨hlead.next p hp, ?_⟩
    obtain ⟨m, hm⟩ := exists_lookupKey_iff.2 (hlead.known p hp)
    refine ⟨m, hm, (hlead.matched p m (mem_of_lookupKey hm)).2.trans ?_⟩
    have := hA.inv.acks.acked_le (c.nodes i).currentTerm p
    rwa [hnode.leaderLog_eq hA.inv hl] at this
  · intro e he message
    rw [hnode.faults e he]
    exact Fault.noConfusion

theorem index_safety_second : (afterSecond.nodes 2).status = .leader ∧
    (afterSecond.nodes 2).lastApplied = 2 ∧ 2 ≤ (afterSecond.nodes 2).logStore.lastIndex := by
  have h := index_safety reachable_afterSecond (i := 2) (by decide)
  have hlast : (afterSecond.nodes 2).lastApplied = 2 := by decide +kernel
  refine ⟨by decide +kernel, hlast, ?_⟩
  rw [← hlast, h.1]
  exact h.2.1

end CowRaft.Raft
