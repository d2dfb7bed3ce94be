import CowRaft.Raft.Ledger

/-!
# Refused clients

A replica that steps down tells all waiting clients that it is not the leader, although their
entries may be on their way to being committed: a client that then submits its command again may
have it executed twice (`refused_executed`). Where no replica with waiting clients steps down, a
refused command is never executed (`refused_not_executed`).
-/

namespace CowRaft.Raft

variable {cfg : Config} {A : Protocol} {c c' : Cluster} {e : Event} {i j : NodeId}
  {s s' : RaftNode} {f : FutureId} {index : ℕ}

/-- The entry that was appended for the client with future `f` is committed or applied somewhere. -/
def Executed (cfg : Config) (c : Cluster) (f : FutureId) (index : ℕ) : Prop :=
  ∃ i entry, Created c i f index entry ∧ ∃ m ∈ cfg.members,
    (c.nodes m).history.applied[index - 1]? = some entry ∨
      index ≤ (c.nodes m).commitIndex ∧ (c.nodes m).logStore[index - 1]? = some entry

/-- An event that hands a request with entries to its receiver. -/
def Event.deliversAppend : Event → Bool
  | .deliverAppend _ => true
  | _ => false

/-- No message makes a replica step down for which clients wait. -/
def Undisturbed (c : Cluster) (e : Event) : Prop :=
  ∀ m ∈ c.carried e, (c.nodes m.1).currentTerm < m.2 ∨ e.deliversAppend = true ∧
      (c.nodes m.1).currentTerm = m.2 ∧ (c.nodes m.1).status ≠ .follower →
    (c.nodes m.1).pendingClients = []

instance (c : Cluster) (e : Event) : Decidable (Undisturbed c e) :=
  inferInstanceAs (Decidable (∀ m ∈ c.carried e, (c.nodes m.1).currentTerm < m.2 ∨
      e.deliversAppend = true ∧ (c.nodes m.1).currentTerm = m.2 ∧
        (c.nodes m.1).status ≠ .follower →
    (c.nodes m.1).pendingClients = []))

/-! ## Tasks -/

namespace RaftNode

theorem becomeFollower_completed (h : s.pendingClients = []) (seenTerm : ℕ) :
    (becomeFollower seenTerm s).completed = s.completed := by
  rw [becomeFollower_eq]
  dsimp only [failPendingClients]
  rw [h]
  rfl

/-- A new leader tells nobody that it is none. -/
theorem Leads.refused (h : Leads s s') (hf : (f, CommandResult.notLeader) ∈ s'.completed) :
    (f, CommandResult.notLeader) ∈ s.completed := by
  obtain ⟨s₁, hs, rfl⟩ := h
  exact hs.refused f hf

end RaftNode

/-- A client is told that a replica is not the leader when it asks, or when the replica steps
down. -/
theorem Ran.refused (h : Ran c e j s) (hu : Undisturbed c e)
    (hf : (f, CommandResult.notLeader) ∈ s.completed) :
    (f, CommandResult.notLeader) ∈ (c.nodes j).completed ∨
      f = c.submissions.length ∧ (c.nodes j).status ≠ .leader ∧ e.submission.isSome = true := by
  cases h with
  | start => exact Or.inl hf
  | electionTimeout i id _ _ hs =>
    rcases hs with hs | rfl
    · exact Or.inl (hs.refused hf)
    · exact Or.inl hf
  | heartbeat i id _ fault _ hs =>
    obtain ⟨s₁, hs, rfl⟩ := hs
    cases fault <;> exact Or.inl (hs.refused f hf)
  | submit i command fault s₁ hs =>
    rcases hs with ⟨hl, rfl⟩ | ⟨-, hs⟩
    · have hf : (f, CommandResult.notLeader) ∈
          RaftNode.complete c.submissions.length CommandResult.notLeader
            (c.nodes j).completed := hf
      unfold RaftNode.complete at hf
      split_ifs at hf with hany
      · exact Or.inl hf
      · rcases List.mem_append.1 hf with hf | hf
        · exact Or.inl hf
        · have hf := congrArg Prod.fst (List.mem_singleton.1 hf)
          exact Or.inr ⟨hf, hl, rfl⟩
    · exact Or.inl (hs.refused f hf)
  | deliverVote k call hk s hs =>
    have hcarried := Cluster.carried_deliverVote hk
    rcases hs with rfl | ⟨s₀, h₀, hs⟩
    · exact Or.inl hf
    have hfirst : s₀.completed = (c.nodes call.peer).completed := by
      rcases h₀ with ⟨-, rfl⟩ | ⟨hlt, rfl⟩
      · rfl
      · exact RaftNode.becomeFollower_completed (hu _ hcarried (Or.inl hlt)) _
    rcases hs with rfl | ⟨-, rfl⟩
    · exact Or.inl (hfirst ▸ hf)
    · exact Or.inl (hfirst ▸ hf)
  | answerVote k call hk response hr s hs =>
    have hcarried := Cluster.carried_answerVote hk hr
    rcases hs with rfl | ⟨hlt, rfl⟩ | ⟨-, -, -, rfl | hs⟩
    · exact Or.inl hf
    · rw [RaftNode.becomeFollower_completed (hu _ hcarried (Or.inl hlt))] at hf
      exact Or.inl hf
    · exact Or.inl hf
    · exact Or.inl (hs.refused hf)
  | deliverAppend k call hk fault s hs =>
    have hcarried := Cluster.carried_deliverAppend hk
    rcases hs with rfl | ⟨s₀, h₀, hs⟩
    · exact Or.inl hf
    have hfirst : s₀.completed = (c.nodes call.peer).completed := by
      rcases h₀ with ⟨-, rfl⟩ | ⟨hlt | ⟨heq, hne⟩, rfl⟩
      · rfl
      · exact RaftNode.becomeFollower_completed (hu _ hcarried (Or.inl hlt)) _
      · exact RaftNode.becomeFollower_completed
          (hu _ hcarried (Or.inr ⟨rfl, heq, hne⟩)) _
    exact Or.inl (hfirst ▸ hs.refused f hf)
  | answerAppend k call hk response hr ha fault s hs =>
    have hcarried := Cluster.carried_answerAppend hk hr
    rcases hs with ⟨hlt, rfl⟩ | hs
    · have hnone : (Cluster.landed call.peer (c.nodes call.caller)).pendingClients = [] :=
        hu _ hcarried (Or.inl hlt)
      have hsame := RaftNode.becomeFollower_completed hnone response.term
      exact Or.inl (hsame ▸ hf)
    · exact Or.inl (hs.refused f hf)
  | failAppend => exact Or.inl hf

/-! ## Runs -/

/-- The command of future `f` was submitted, and no entry was appended for it. -/
structure Unwritten (c : Cluster) (f : FutureId) : Prop where
  submitted : f < c.submissions.length
  created : ∀ i index entry, ¬ Created c i f index entry

/-- What was not written at once is never written. -/
theorem Unwritten.ran (h : Unwritten c f) (hran : Ran c e j s) (hch : Changes c e c' j s) :
    Unwritten c' f where
  submitted := by
    rw [hch.submissions, List.length_append]
    exact Nat.lt_add_right _ h.submitted
  created i index entry hc := by
    rcases hch.created hran hc with hc | ⟨-, -, rfl, -⟩
    · exact h.created i index entry hc
    · exact absurd h.submitted (lt_irrefl _)

theorem Unwritten.run (h : Unwritten c f) (hreach : Cluster.Reachable cfg c)
    (hrun : Cluster.Run cfg c c') : Unwritten c' f := by
  induction hrun with
  | refl => exact h
  | tail hrun hs ih =>
    obtain ⟨e, hstep⟩ := hs
    obtain ⟨A, hA⟩ := exists_safe (hreach.trans hrun)
    obtain ⟨j, -, s, hran, hch⟩ := hA.ran hstep
    exact ih.ran hran hch

/-- Nothing was written for clients who were told that the replica is not the leader. -/
def Refused (c : Cluster) : Prop :=
  ∀ i f, (f, CommandResult.notLeader) ∈ (c.nodes i).completed → Unwritten c f

theorem Refused.ran (h : Refused c) (hL : Ledger c) (hu : Undisturbed c e) (hran : Ran c e j s)
    (hch : Changes c e c' j s) : Refused c' := by
  intro i f hf
  by_cases hi : i = j
  · subst hi
    rw [hch.node] at hf
    rcases hran.refused hu hf with hf | ⟨rfl, hl, hsub⟩
    · exact (h i f hf).ran hran hch
    · refine ⟨?_, fun i' index entry hc => ?_⟩
      · obtain ⟨command, hsub⟩ := Option.isSome_iff_exists.1 hsub
        rw [hch.submissions, hsub, List.length_append]
        exact Nat.lt_succ_self _
      · rcases hch.created hran hc with hc | ⟨-, hleader, -⟩
        · exact absurd hc (hL.fresh i' index entry)
        · exact hl hleader
  · rw [hch.other i hi] at hf
    exact (h i f hf).ran hran hch

/-- **Refused commands are not executed**: where no replica with waiting clients steps down, what a
client is told not to have reached a leader is never committed or applied, and any submission is
executed at one index at most. -/
theorem refused_not_executed
    (h : Cluster.RunWhere cfg Undisturbed (Cluster.init cfg) c)
    (hf : (f, CommandResult.notLeader) ∈ (c.nodes i).completed) (hrun : Cluster.Run cfg c c') :
    (∀ index, ¬ Executed cfg c' f index) ∧
      ∀ f' index index', Executed cfg c' f' index → Executed cfg c' f' index' →
        index = index' := by
  obtain ⟨-, hrefused⟩ : Ledger c ∧ Refused c :=
    Cluster.RunWhere.induction (I := fun c => Ledger c ∧ Refused c) h
      ⟨Ledger.init cfg, fun i f hf => absurd hf List.not_mem_nil⟩
      fun hA hj hI hu _ hran hch => ⟨hI.1.ran hA hj hran hch, hI.2.ran hI.1 hu hran hch⟩
  have hun := (hrefused i f hf).run (Cluster.RunWhere.run h) hrun
  have hL := exists_ledger ((Cluster.RunWhere.run h).trans hrun)
  refine ⟨fun index hex => ?_, fun f' index index' hex hex' => ?_⟩
  · obtain ⟨j, entry, hc, -⟩ := hex
    exact hun.created j index entry hc
  · obtain ⟨j, entry, hc, -⟩ := hex
    obtain ⟨j', entry', hc', -⟩ := hex'
    exact hL.index_eq hc hc'

/-- A client asks member 2, and then member 1, who leads. -/
def afterRedirect : Cluster := (Cluster.init threeMembers).after threeMembers
  (firstReign ++ [.submit 2 ⟨some "x", .add, 1⟩, .submit 1 ⟨some "x", .add, 1⟩,
    .deliverAppend 3, .answerAppend 3])

theorem refused_not_executed_redirect :
    (∀ index, ¬ Executed threeMembers afterRedirect 1 index) ∧
      ∀ index, Executed threeMembers afterRedirect 2 index → index = 2 := by
  have hrun : Cluster.RunWhere threeMembers Undisturbed (Cluster.init threeMembers)
      afterRedirect := Cluster.runWhere_after (by decide +kernel)
  have hf : (1, CommandResult.notLeader) ∈ (afterRedirect.nodes 2).completed := by
    decide +kernel
  have hc : (2, 2, ⟨1, ⟨some "x", .add, 1⟩⟩) ∈ (afterRedirect.nodes 1).history.created := by
    decide +kernel
  have happlied : (afterRedirect.nodes 1).history.applied[2 - 1]? =
      some ⟨1, ⟨some "x", .add, 1⟩⟩ := by decide +kernel
  obtain ⟨hnever, honce⟩ := refused_not_executed hrun hf Relation.ReflTransGen.refl
  exact ⟨hnever, fun index hex =>
    honce 2 index 2 hex ⟨1, _, hc, 1, by decide, Or.inl happlied⟩⟩

/-! ## Clients of a leader that steps down -/

/-- Member 1 has sent an entry to member 2 when member 3 asks it for its vote in a later term. The
client goes to member 2, the next leader, which commits both entries. -/
def afterRefusal : Cluster := afterFirst.after threeMembers
  [.submit 1 ⟨some "x", .add, 1⟩, .deliverAppend 3, .start 3, .electionTimeout 3 0,
    .electionTimeout 3 1, .deliverVote 4, .electionTimeout 2 4, .deliverVote 6, .answerVote 6,
    .submit 2 ⟨some "x", .add, 1⟩, .deliverAppend 4, .answerAppend 4, .deliverAppend 6,
    .answerAppend 6]

/-- A client is told that its command did not reach a leader, submits it again, and has it executed
twice. -/
theorem refused_executed : Cluster.Reachable threeMembers afterRefusal ∧
    (1, CommandResult.notLeader) ∈ (afterRefusal.nodes 1).completed ∧
    afterRefusal.submissions =
      [(1, ⟨some "x", .set, 5⟩), (1, ⟨some "x", .add, 1⟩), (2, ⟨some "x", .add, 1⟩)] ∧
    Executed threeMembers afterRefusal 1 2 ∧ Executed threeMembers afterRefusal 2 3 ∧
    (afterRefusal.nodes 2).stateMachine (some "x") = some 7 := by
  have hc : (1, 2, ⟨1, ⟨some "x", .add, 1⟩⟩) ∈ (afterRefusal.nodes 1).history.created := by
    decide +kernel
  have hc' : (2, 3, ⟨2, ⟨some "x", .add, 1⟩⟩) ∈ (afterRefusal.nodes 2).history.created := by
    decide +kernel
  have happlied : (afterRefusal.nodes 2).history.applied[2 - 1]? =
      some ⟨1, ⟨some "x", .add, 1⟩⟩ := by decide +kernel
  have happlied' : (afterRefusal.nodes 2).history.applied[3 - 1]? =
      some ⟨2, ⟨some "x", .add, 1⟩⟩ := by decide +kernel
  exact ⟨reachable_afterFirst.trans (Cluster.run_after _ _ _), by decide +kernel,
    by decide +kernel, ⟨1, _, hc, 2, by decide, Or.inl happlied⟩,
    ⟨2, _, hc', 2, by decide, Or.inl happlied'⟩, by decide +kernel⟩

end CowRaft.Raft
