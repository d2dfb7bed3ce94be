import CowRaft.Raft.Flights

/-!
# One request at a time

A leader sends a peer its next request only when the last one is answered or has failed
(`one_outstanding`), unless an RPC of an earlier leadership comes back while one of the present
leadership is on its way (`Timely`): the set of peers in flight does not tell them apart
(`two_outstanding`).
-/

namespace CowRaft.Raft

variable {cfg : Config} {A : Protocol} {c c' : Cluster} {e : Event} {i j : NodeId}
  {s s' : RaftNode}

/-- No RPC of an earlier leadership comes back to a leader that waits for the same peer. -/
def Timely (c : Cluster) (e : Event) : Prop :=
  ∀ k ∈ e.lands, ∀ call ∈ c.appendCalls[k]?, (c.nodes call.caller).status = .leader →
    call.request.term = (c.nodes call.caller).currentTerm ∨
      ∀ call' ∈ c.appendCalls, call'.caller = call.caller → call'.peer = call.peer →
        call'.request.term = (c.nodes call.caller).currentTerm → call'.settled = true

instance (c : Cluster) (e : Event) : Decidable (Timely c e) :=
  inferInstanceAs (Decidable (∀ k ∈ e.lands, ∀ call ∈ c.appendCalls[k]?,
    (c.nodes call.caller).status = .leader →
      call.request.term = (c.nodes call.caller).currentTerm ∨
        ∀ call' ∈ c.appendCalls, call'.caller = call.caller → call'.peer = call.peer →
          call'.request.term = (c.nodes call.caller).currentTerm → call'.settled = true))

/-- An RPC to a peer that belongs to the present term. -/
def Present (c : Cluster) (i p : NodeId) (k : ℕ) (call : AppendCall) : Prop :=
  Outstanding c i p k call ∧ call.request.term = (c.nodes i).currentTerm

/-- At most one RPC to each peer is on its way, and that peer is in flight. -/
structure Lanes (c : Cluster) (i : NodeId) : Prop where
  single : ∀ p k k' call call', Present c i p k call → Present c i p k' call' → k = k'
  marked : ∀ p k call, Present c i p k call → p ∈ (c.nodes i).inFlight

/-- An RPC of the term of `s` that the event leaves on its way. -/
def Remaining (c : Cluster) (e : Event) (j : NodeId) (s : RaftNode) (p : NodeId) (k : ℕ)
    (call : AppendCall) : Prop :=
  Outstanding c j p k call ∧ call.request.term = s.currentTerm ∧ e.lands ≠ some k

/-- A task sent its requests from `base`, which marks the peers with an RPC on its way. -/
structure SentFrom (c : Cluster) (e : Event) (j : NodeId) (base s : RaftNode) : Prop where
  dispatched : RaftNode.Dispatched base s
  appendRequests : base.appendRequests = []
  single : ∀ p k k' call call', Remaining c e j s p k call → Remaining c e j s p k' call' → k = k'
  marked : ∀ p k call, Remaining c e j s p k call → p ∈ base.inFlight

/-- What a task sent leaves at most one RPC to each peer on its way. -/
theorem SentFrom.lanes {base : RaftNode} (h : SentFrom c e j base s) (hch : Changes c e c' j s) :
    Lanes c' j := by
  obtain ⟨⟨hfly, sent, heq, hnd, hsent⟩, hnone, hsingle, hmarked⟩ := h
  rw [hnone, List.nil_append] at heq
  -- an RPC on its way was on its way before, or is one of those just sent
  have hcases : ∀ p k call, Present c' j p k call → (∃ call₀, Remaining c e j s p k call₀) ∨
      c.appendCalls.length ≤ k ∧ ∃ r, sent[k - c.appendCalls.length]? = some r ∧ r.1 = p := by
    rintro p k call ⟨⟨hk, hcaller, hpeer, hset⟩, hterm⟩
    rcases hch.call_cases hk with ⟨call₀, hk₀, hgoes⟩ | ⟨hle, hnew⟩
    · refine Or.inl ⟨call₀, ⟨hk₀, hgoes.caller.symm.trans hcaller, hgoes.peer.symm.trans hpeer, ?_⟩,
        ?_, ?_⟩
      · rw [hgoes.settled, Bool.or_eq_false_iff] at hset
        exact hset.1
      · rw [← hgoes.request, hterm, hch.node]
      · rw [hgoes.settled, Bool.or_eq_false_iff] at hset
        exact of_decide_eq_false hset.2
    · refine Or.inr ⟨hle, ?_⟩
      unfold Cluster.newAppendCalls at hnew
      rw [List.getElem?_map, heq] at hnew
      obtain ⟨r, hr, rfl⟩ := Option.map_eq_some_iff.1 hnew
      exact ⟨r, hr, hpeer⟩
  refine ⟨?_, ?_⟩
  · intro p k k' call call' h h'
    rcases hcases p k call h with ⟨call₀, h₀⟩ | ⟨hle, r, hr, hrp⟩
    · rcases hcases p k' call' h' with ⟨call₀', h₀'⟩ | ⟨-, r, hr, hrp⟩
      · exact hsingle p k k' call₀ call₀' h₀ h₀'
      · exact absurd (hrp ▸ hmarked p k call₀ h₀) (hsent r (List.mem_of_getElem? hr)).2.1
    · rcases hcases p k' call' h' with ⟨call₀', h₀'⟩ | ⟨hle', r', hr', hrp'⟩
      · exact absurd (hrp ▸ hmarked p k' call₀' h₀') (hsent r (List.mem_of_getElem? hr)).2.1
      · have hget : (sent.map Prod.fst)[k - c.appendCalls.length]? =
            (sent.map Prod.fst)[k' - c.appendCalls.length]? := by
          rw [List.getElem?_map, List.getElem?_map, hr, hr', Option.map_some, Option.map_some,
            hrp, hrp']
        have hlt : k - c.appendCalls.length < (sent.map Prod.fst).length := by
          rw [List.length_map]
          exact (List.getElem?_eq_some_iff.1 hr).1
        have := (List.getElem?_inj hlt hnd).1 hget
        omega
  · intro p k call h
    rw [hch.node]
    rcases hcases p k call h with ⟨call₀, h₀⟩ | ⟨-, r, hr, rfl⟩
    · exact hfly (hmarked p k call₀ h₀)
    · exact (hsent r (List.mem_of_getElem? hr)).2.2.1

/-- Only the requests and the term matter. -/
theorem SentFrom.congr {base : RaftNode} (h : SentFrom c e j base s)
    (hf : s'.inFlight = s.inFlight) (ha : s'.appendRequests = s.appendRequests)
    (ht : s'.currentTerm = s.currentTerm) : SentFrom c e j base s' where
  dispatched := by
    refine ⟨hf ▸ h.dispatched.flying, ?_⟩
    rw [ha, hf]
    exact h.dispatched.sent
  appendRequests := h.appendRequests
  single p k k' call call' hr hr' :=
    h.single p k k' call call' ⟨hr.1, hr.2.1.trans ht, hr.2.2⟩ ⟨hr'.1, hr'.2.1.trans ht, hr'.2.2⟩
  marked p k call hr := h.marked p k call ⟨hr.1, hr.2.1.trans ht, hr.2.2⟩

/-- A leader goes on with its requests. -/
theorem SentFrom.stay {base : RaftNode} (h : Lanes c j) (hd : RaftNode.Dispatched base s)
    (hnone : base.appendRequests = []) (hfly : base.inFlight = (c.nodes j).inFlight)
    (hterm : s.currentTerm = (c.nodes j).currentTerm) : SentFrom c e j base s where
  dispatched := hd
  appendRequests := hnone
  single p k k' call call' hr hr' :=
    h.single p k k' call call' ⟨hr.1, hr.2.1.trans hterm⟩ ⟨hr'.1, hr'.2.1.trans hterm⟩
  marked p k call hr := by
    rw [hfly]
    exact h.marked p k call ⟨hr.1, hr.2.1.trans hterm⟩

/-- A new leader has sent nothing in its term. -/
theorem SentFrom.anew {base : RaftNode} (hd : RaftNode.Dispatched base s)
    (hnone : base.appendRequests = []) (hno : ∀ p k call, ¬ Remaining c e j s p k call) :
    SentFrom c e j base s where
  dispatched := hd
  appendRequests := hnone
  single p k _ call _ hr := absurd hr (hno p k call)
  marked p k call hr := absurd hr (hno p k call)

/-- A leader hears of an RPC to a peer. -/
theorem SentFrom.land (h : Lanes c j) (he : Timely c e) {k : ℕ} {call : AppendCall}
    (hk : c.appendCalls[k]? = some call) (hj : call.caller = j) (ha : call.settled = false)
    (hlead : (c.nodes j).status = .leader) (hl : e.lands = some k)
    (hd : RaftNode.Dispatched (Cluster.landed call.peer (c.nodes j)) s)
    (hnone : (c.nodes j).appendRequests = [])
    (hterm : s.currentTerm = (c.nodes j).currentTerm) :
    SentFrom c e j (Cluster.landed call.peer (c.nodes j)) s where
  dispatched := hd
  appendRequests := hnone
  single p k k' call call' hr hr' :=
    h.single p k k' call call' ⟨hr.1, hr.2.1.trans hterm⟩ ⟨hr'.1, hr'.2.1.trans hterm⟩
  marked p k' call' hr := by
    obtain ⟨hout, hterm', hne⟩ := hr
    have hpres : Present c j p k' call' := ⟨hout, hterm'.trans hterm⟩
    refine Finset.mem_erase.2 ⟨?_, h.marked p k' call' hpres⟩
    rintro rfl
    subst hj
    rcases he k hl call hk hlead with heq | hall
    · exact hne (hl.trans (congrArg some (h.single _ _ _ _ _ ⟨⟨hk, rfl, rfl, ha⟩, heq⟩ hpres)))
    · have hset := hall call' (List.mem_of_getElem? hout.1) hout.2.1 hout.2.2.1 hpres.2
      rw [hout.2.2.2] at hset
      exact absurd hset Bool.false_ne_true

/-- **A leader's requests** are sent from a state that marks those on their way. -/
theorem Ran.sentFrom (h : Ran c e j s) (hA : Safe cfg A c) (hj : j ∈ cfg.members)
    (hlanes : (c.nodes j).status = .leader → Lanes c j) (he : Timely c e)
    (hl : s.status = .leader) : ∃ base, SentFrom c e j base s := by
  have hnode := hA.node j hj
  have hnone := (hA.sent j hj).2
  -- the requests of a term were sent by its leader
  have hterm : ∀ p k call, Outstanding c j p k call → A.leader call.request.term = some j := by
    rintro p k call ⟨hk, hcaller, -, -⟩
    have := (hA.appendCalls call (List.mem_of_getElem? hk)).request.leader
    rwa [hcaller] at this
  have hcalm : ∀ {ok : Bool} {s : RaftNode}, RaftNode.Calm ok (c.nodes j) s →
      s.status = .leader → SentFrom c e j (c.nodes j) s := by
    intro ok s hs hl
    have hlead : (c.nodes j).status = .leader := (congrArg Roles.status hs.roles).symm.trans hl
    exact SentFrom.stay (hlanes hlead) hs.dispatched hnone rfl
      (congrArg Roles.currentTerm hs.roles)
  have hsame : (c.nodes j).status = .leader → SentFrom c e j (c.nodes j) (c.nodes j) :=
    fun hlead => hcalm (Composes.refl true _) hlead
  have hdown : ∀ (seenTerm : ℕ) (s : RaftNode),
      (RaftNode.becomeFollower seenTerm s).status ≠ .leader := by
    intro seenTerm s
    rw [RaftNode.becomeFollower_eq]
    exact ServerStatus.noConfusion
  cases h with
  | start => exact ⟨_, (hsame hl).congr rfl rfl rfl⟩
  | electionTimeout i id _ _ hs =>
    rcases hs with ⟨s₁, hs, rfl⟩ | rfl
    · refine ⟨_, (SentFrom.anew hs.dispatched hnone ?_).congr rfl rfl rfl⟩
      rintro p k call ⟨hout, hcur, -⟩
      have hle := hA.inv.elections.leader_le (hterm p k call hout)
      have hnext : s₁.currentTerm = (c.nodes j).currentTerm + 1 :=
        congrArg Roles.currentTerm hs.roles
      rw [hnode.term] at hle
      omega
    · exact ServerStatus.noConfusion hl
  | heartbeat i id _ fault _ hs =>
    obtain ⟨s₁, hs, rfl⟩ := hs
    cases fault with
    | none => exact ⟨_, (hcalm hs hl).congr rfl rfl rfl⟩
    | some e => exact ⟨_, (hcalm hs hl).congr rfl rfl rfl⟩
  | submit i command fault _ hs =>
    rcases hs with ⟨hne, rfl⟩ | ⟨hlead, hs⟩
    · exact absurd hl hne
    · exact ⟨_, (SentFrom.stay (hlanes hlead) hs.dispatched hnone rfl
        (congrArg Roles.currentTerm hs.roles)).congr rfl rfl rfl⟩
  | deliverVote k call _ _ hs =>
    rcases hs with rfl | ⟨s₀, ⟨-, rfl⟩ | ⟨-, rfl⟩, hs⟩
    · exact ⟨_, hsame hl⟩
    · rcases hs with rfl | ⟨-, rfl⟩ <;> exact ⟨_, (hsame hl).congr rfl rfl rfl⟩
    · have hf := hdown call.request.term (c.nodes call.peer)
      rcases hs with rfl | ⟨-, rfl⟩ <;> exact absurd hl hf
  | answerVote k call _ response _ _ hs =>
    rcases hs with rfl | ⟨-, rfl⟩ | ⟨hcand, -, -, rfl | ⟨s₁, hs, rfl⟩⟩
    · exact ⟨_, hsame hl⟩
    · exact absurd hl (hdown _ _)
    · exact ServerStatus.noConfusion (hcand.symm.trans hl)
    · refine ⟨_, (SentFrom.anew hs.dispatched hnone ?_).congr rfl rfl rfl⟩
      rintro p k call' ⟨hout, hcur, -⟩
      have hcur' : call'.request.term = (c.nodes call.caller).currentTerm :=
        hcur.trans (congrArg Roles.currentTerm hs.roles)
      exact (hnode.candidate hcand).2 (hcur' ▸ hterm p k call' hout)
  | deliverAppend k call _ fault _ hs =>
    rcases hs with rfl | ⟨s₀, h₀, hs⟩
    · exact ⟨_, (hsame hl).congr rfl rfl rfl⟩
    · have hstatus : s₀.status = .leader := (congrArg Roles.status hs.roles).symm.trans hl
      rcases h₀ with ⟨⟨-, hf⟩, rfl⟩ | ⟨-, rfl⟩
      · exact ServerStatus.noConfusion (hf.symm.trans hstatus)
      · exact absurd hstatus (hdown _ _)
  | answerAppend k call hk response _ ha fault _ hs =>
    rcases hs with ⟨-, rfl⟩ | hs
    · exact absurd hl (hdown response.term (Cluster.landed call.peer (c.nodes call.caller)))
    · have hlead : (c.nodes call.caller).status = .leader :=
        (congrArg Roles.status hs.roles).symm.trans hl
      exact ⟨_, (SentFrom.land (hlanes hlead) he hk rfl ha hlead rfl hs.dispatched hnone
        (congrArg Roles.currentTerm hs.roles)).congr rfl rfl rfl⟩
  | failAppend k call hk ha =>
    exact ⟨_, SentFrom.land (hlanes hl) he hk rfl ha hl rfl (RaftNode.Dispatched.of_eq rfl rfl)
      hnone rfl⟩

/-- The RPCs of other replicas are left alone. -/
theorem Lanes.other (h : Lanes c i) (hch : Changes c e c' j s) (hid : s.nodeId = j) (hi : i ≠ j) :
    Lanes c' i := by
  have hold : ∀ p k call, Present c' i p k call → ∃ call₀, Present c i p k call₀ := by
    rintro p k call ⟨⟨hk, hcaller, hpeer, hset⟩, hterm⟩
    rw [hch.other i hi] at hterm
    rcases hch.call_cases hk with ⟨call₀, hk₀, hgoes⟩ | ⟨-, hnew⟩
    · rw [hgoes.settled, Bool.or_eq_false_iff] at hset
      exact ⟨call₀, ⟨hk₀, hgoes.caller.symm.trans hcaller, hgoes.peer.symm.trans hpeer, hset.1⟩,
        hgoes.request ▸ hterm⟩
    · obtain ⟨r, -, rfl⟩ := List.mem_map.1 (List.mem_of_getElem? hnew)
      exact absurd (hcaller.symm.trans hid) hi
  refine ⟨?_, ?_⟩
  · intro p k k' call call' hp hp'
    obtain ⟨call₀, h₀⟩ := hold p k call hp
    obtain ⟨call₀', h₀'⟩ := hold p k' call' hp'
    exact h.single p k k' call₀ call₀' h₀ h₀'
  · intro p k call hp
    obtain ⟨call₀, h₀⟩ := hold p k call hp
    rw [hch.other i hi]
    exact h.marked p k call₀ h₀

/-- **One request at a time**: of the requests that a leader has sent to a peer in its term, at most
one is neither answered nor failed, unless late answers to earlier ones come in between. -/
theorem one_outstanding (h : Cluster.RunWhere cfg Timely (Cluster.init cfg) c)
    (hl : (c.nodes i).status = .leader) (p : NodeId) (k k' : ℕ) (call call' : AppendCall)
    (hk : c.appendCalls[k]? = some call) (hk' : c.appendCalls[k']? = some call')
    (hcall : call.caller = i ∧ call.peer = p ∧ call.request.term = (c.nodes i).currentTerm ∧
      call.settled = false)
    (hcall' : call'.caller = i ∧ call'.peer = p ∧ call'.request.term = (c.nodes i).currentTerm ∧
      call'.settled = false) : k = k' := by
  have hall : ∀ i, (c.nodes i).status = .leader → Lanes c i := by
    refine Cluster.RunWhere.induction h (I := fun c => ∀ i, (c.nodes i).status = .leader →
      Lanes c i) (fun _ hl => ServerStatus.noConfusion hl) ?_
    intro A c c' e j s hA hj hlanes he _ hran hch i hl
    by_cases hi : i = j
    · subst hi
      rw [hch.node] at hl
      obtain ⟨base, hbase⟩ := hran.sentFrom hA hj (hlanes i) he hl
      exact hbase.lanes hch
    · rw [hch.other i hi] at hl
      exact (hlanes i hl).other hch (hran.remains.nodeId.trans (hA.node j hj).nodeId) hi
  obtain ⟨h₁, h₂, h₃, h₄⟩ := hcall
  obtain ⟨h₁', h₂', h₃', h₄'⟩ := hcall'
  exact (hall i hl).single p k k' call call' ⟨⟨hk, h₁, h₂, h₄⟩, h₃⟩ ⟨⟨hk', h₁', h₂', h₄'⟩, h₃'⟩

/-- Who has sent whom a request in which term, and whether it is over. -/
def Cluster.traffic (c : Cluster) : List (NodeId × NodeId × ℕ × Bool) :=
  c.appendCalls.map fun call => (call.caller, call.peer, call.request.term, call.settled)

theorem exists_call_of_traffic {k : ℕ} {p : NodeId} {T : ℕ} {settled : Bool}
    (h : c.traffic[k]? = some (i, p, T, settled)) :
    ∃ call, c.appendCalls[k]? = some call ∧ call.caller = i ∧ call.peer = p ∧
      call.request.term = T ∧ call.settled = settled := by
  unfold Cluster.traffic at h
  rw [List.getElem?_map] at h
  obtain ⟨call, hk, heq⟩ := Option.map_eq_some_iff.1 h
  simp only [Prod.mk.injEq] at heq
  exact ⟨call, hk, heq⟩

theorem one_outstanding_second : ∃ call, afterSecond.appendCalls[4]? = some call ∧
    call.caller = 2 ∧ call.peer = 3 ∧ call.settled = false ∧
    ∀ (k : ℕ) (call' : AppendCall), afterSecond.appendCalls[k]? = some call' →
      call'.caller = 2 ∧ call'.peer = 3 ∧ call'.request.term = 2 ∧ call'.settled = false →
        k = 4 := by
  have hrun : Cluster.RunWhere threeMembers Timely (Cluster.init threeMembers) afterSecond :=
    (Cluster.runWhere_after (by decide +kernel)).trans (Cluster.runWhere_after (by decide +kernel))
  have hl : (afterSecond.nodes 2).status = .leader := by decide +kernel
  have hterm : (afterSecond.nodes 2).currentTerm = 2 := by decide +kernel
  have htraffic : afterSecond.traffic[4]? = some (2, 3, 2, false) := by decide +kernel
  obtain ⟨call, hk, hcaller, hpeer, ht, hs⟩ := exists_call_of_traffic htraffic
  refine ⟨call, hk, hcaller, hpeer, hs, fun k call' hk' hcall' => ?_⟩
  obtain ⟨hcaller', hpeer', ht', hs'⟩ := hcall'
  exact one_outstanding hrun hl 3 k 4 call' call hk' hk
    ⟨hcaller', hpeer', ht'.trans hterm.symm, hs'⟩ ⟨hcaller, hpeer, ht.trans hterm.symm, hs⟩

/-- Member 1 is elected, is deposed by member 2, and is elected again; then its first RPC to
member 3 fails, and the next tick sends another one while the RPC of the present term to member 3
is on its way. -/
def afterReturn : Cluster := (Cluster.init threeMembers).after threeMembers
  [.start 1, .electionTimeout 1 0, .deliverVote 0, .answerVote 0, .electionTimeout 2 1,
    .deliverVote 2, .electionTimeout 1 4, .deliverVote 5, .answerVote 5, .failAppend 1,
    .heartbeat 1 6]

/-- A leader with two requests of its term on their way to one peer. -/
theorem two_outstanding : Cluster.Reachable threeMembers afterReturn ∧
    (afterReturn.nodes 1).status = .leader ∧ (afterReturn.nodes 1).currentTerm = 3 ∧
    ∀ k ∈ [3, 4], ∃ call, afterReturn.appendCalls[k]? = some call ∧ call.caller = 1 ∧
      call.peer = 3 ∧ call.request.term = 3 ∧ call.settled = false := by
  have htraffic : ∀ k ∈ [3, 4], afterReturn.traffic[k]? = some (1, 3, 3, false) := by
    decide +kernel
  exact ⟨Cluster.run_after _ _ _, by decide +kernel, by decide +kernel,
    fun k hk => exists_call_of_traffic (htraffic k hk)⟩

end CowRaft.Raft
