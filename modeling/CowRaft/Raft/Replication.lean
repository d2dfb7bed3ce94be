import CowRaft.Raft.Election

/-!
# Replication follows the protocol

Committing, applying, acknowledgements, client commands and the requests of leaders, as steps of
the protocol. A request that a follower accepts leaves it with the leader's log, or with its own
when that holds all of it (`RaftNode.patched_eq`).
-/

namespace CowRaft.Raft

open Consensus (State Inv Evolves Move Quorum)

variable {M : Finset NodeId} {A A' : Protocol} {n : NodeId} {s s' : RaftNode}

/-! ## Committing -/

/-- The own entries of a leader are what the protocol knows of its log. -/
theorem NodeSim.leaderLog_eq (h : NodeSim M A n s) (hI : Inv M A) (hl : s.status = .leader) :
    A.leaderLog s.currentTerm = s.logStore := by
  rw [← h.term, ← h.log]
  apply hI.logs.leading
  rw [h.term]
  exact (h.leading hl).leader

/-- A majority count stands for a quorum of acknowledgements. -/
theorem NodeSim.replicated (h : NodeSim M A n s) (hl : s.status = .leader) {k : ℕ}
    (hk : k ≤ s.logStore.length) (hm : s.majority ≤ s.replicatedCount k) :
    ∃ S, Quorum M S ∧ ∀ m ∈ S, k ≤ A.acked s.currentTerm m := by
  have hlead := h.leading hl
  have hmem : ∀ p, p ∈ (s.matchIndex.filter fun entry => entry.2 ≥ k).map Prod.fst →
      p ∈ s.peers ∧ k ≤ A.acked s.currentTerm p := by
    intro p hp
    obtain ⟨e, he, rfl⟩ := List.mem_map.1 hp
    obtain ⟨he, hge⟩ := List.mem_filter.1 he
    obtain ⟨hpeer, hle⟩ := hlead.matched e.1 e.2 he
    exact ⟨hpeer, (decide_eq_true_iff.1 hge).trans hle⟩
  have hnodup : ((s.matchIndex.filter fun entry => entry.2 ≥ k).map Prod.fst).Nodup := by
    have hsub := (List.filter_sublist (l := s.matchIndex) (p := fun e => e.2 ≥ k)).map Prod.fst
    exact hsub.nodup hlead.sorted.nodup_keys
  refine ⟨insert n ((s.matchIndex.filter fun entry => entry.2 ≥ k).map Prod.fst).toFinset, ?_, ?_⟩
  · apply h.quorum
    · intro p hp
      rcases Finset.mem_insert.1 hp with rfl | hp
      · exact h.member
      · exact ((h.mem_peers p).1 (hmem p (List.mem_toFinset.1 hp)).1).1
    · rw [Finset.card_insert_of_notMem, List.toFinset_card_of_nodup hnodup, List.length_map]
      · unfold RaftNode.replicatedCount at hm
        omega
      · intro hn
        exact ((h.mem_peers n).1 (hmem n (List.mem_toFinset.1 hn)).1).2 rfl
  · intro p hp
    rcases Finset.mem_insert.1 hp with rfl | hp
    · exact hk.trans hlead.acked
    · exact (hmem p (List.mem_toFinset.1 hp)).2

/-- **A leader commits** what a majority holds. -/
theorem NodeSim.commitTo (h : NodeSim M A n s) (hI : Inv M A) (hl : s.status = .leader) {k : ℕ}
    {entry : LogEntry} (hk : s.commitIndex < k + 1) (hget : s.logStore[k]? = some entry)
    (ht : entry.term = s.currentTerm) (hm : s.majority ≤ s.replicatedCount (k + 1)) :
    Follows M n A (s.commitTo (k + 1)) := by
  have hlen : k + 1 ≤ s.logStore.length := (List.getElem?_eq_some_iff.1 hget).1
  have hlog := h.leaderLog_eq hI hl
  have hchosen : A.Chosen M s.currentTerm (k + 1) := by
    refine ⟨?_, ?_, h.replicated hl hlen hm⟩
    · rw [hlog, ← ht]
      exact Consensus.ends_take hget
    · rwa [hlog]
  have hknown : A.Known M (A.term n) (k + 1) (A.log n) := by
    refine Or.inr ⟨s.currentTerm, k + 1, h.term.ge, hchosen, le_rfl, ?_⟩
    rw [hlog, h.log]
    exact List.take_prefix _ _
  obtain ⟨A', hmove, hterm, hlog', hcommit, hvote⟩ :=
    hI.learn hknown (h.commit ▸ Nat.le_of_lt hk)
  refine ⟨A', hmove, { h with
    toPast := { h.toPast.evolves hmove.evolves with
      advanced := ?_ }
    term := hterm.trans h.term
    log := hlog'.trans h.log
    commit := hcommit
    vote := (hvote _).trans h.vote
    ballots := fun T c => by rw [hvote]; exact h.ballots T c
    candidate := fun hc => by
      change s.status = _ at hc
      rw [hl] at hc
      cases hc
    leading := fun hl => (h.leading hl).evolves hmove.evolves
    lastApplied := h.lastApplied.trans (Nat.le_of_lt hk) }⟩
  intro T l hl'
  rcases List.mem_append.1 hl' with hl' | hl'
  · exact (h.toPast.evolves hmove.evolves).advanced T l hl'
  · obtain ⟨rfl, rfl⟩ := Prod.ext_iff.1 (List.mem_singleton.1 hl')
    rw [List.length_take, Nat.min_eq_left hlen]
    have hstart : s.logStore.take (k + 1) <+: A.leaderLog s.currentTerm := by
      rw [hlog]
      exact List.take_prefix _ _
    exact ⟨hmove.evolves.chosen hchosen, hstart.trans (hmove.evolves.leaderLog _)⟩

theorem NodeSim.advanceCommitIndex (h : NodeSim M A n s) (hI : Inv M A) :
    Wp RaftNode.advanceCommitIndex (fun _ => Follows M n A) (fun _ _ => False) s := by
  apply RaftNode.advanceCommitIndex_wp.mono
  · rintro - s' (rfl | ⟨hl, k, entry, rfl, hk, hget, ht, hm⟩)
    · exact ⟨A, Move.refl hI, h⟩
    · exact h.commitTo hI hl hk hget ht hm
  · exact fun _ _ hf => hf

/-! ## Applying -/

/-- Committed entries are in the log. -/
theorem NodeSim.commitIndex_le (h : NodeSim M A n s) (hI : Inv M A) :
    s.commitIndex ≤ s.logStore.length := by
  have := (hI.commits n).le_length
  rwa [h.commit, h.log] at this

theorem Outcome.snoc {applied : List LogEntry} {index : ℕ} {entry : LogEntry} {r : CommandResult}
    (h : Outcome applied index entry r) (e : LogEntry) :
    Outcome (applied ++ [e]) index entry r := by
  obtain ⟨h0, hget, h⟩ := h
  have hlt : index - 1 < applied.length := (List.getElem?_eq_some_iff.1 hget).1
  refine ⟨h0, ?_, ?_⟩
  · rwa [List.getElem?_append_left hlt]
  · rwa [List.take_append_of_le_length hlt.le]

theorem outcome_answerOf (applied : List LogEntry) (entry : LogEntry) :
    Outcome (applied ++ [entry]) (applied.length + 1) entry
      (RaftNode.answerOf (StateMachine.replay applied) (applied.length + 1) entry) := by
  refine ⟨Nat.succ_pos _, ?_, ?_⟩
  · rw [Nat.add_sub_cancel, List.getElem?_concat_length]
  · rw [Nat.add_sub_cancel, List.take_append_of_le_length le_rfl, List.take_length]
    unfold RaftNode.answerOf
    cases (StateMachine.replay applied).apply entry.command with
    | ok v => exact Or.inl ⟨v.1, v.2, rfl, rfl⟩
    | error e => exact Or.inr ⟨e, rfl, rfl⟩

/-- **An entry is applied**, and its client answered. -/
theorem NodeSim.applyEntry (h : NodeSim M A n s) (hlt : s.lastApplied < s.commitIndex)
    {entry : LogEntry} (hget : s.logStore[s.lastApplied]? = some entry) :
    NodeSim M A n (({ s with lastApplied := s.lastApplied + 1 } : RaftNode).applyEntry entry) := by
  have hlen : s.history.applied.length = s.lastApplied := by
    rw [h.applied, List.length_take]
    have := (List.getElem?_eq_some_iff.1 hget).1
    omega
  rw [RaftNode.applyEntry_eq]
  refine { h with
    applied := ?_
    machine := ?_
    lastApplied := hlt
    clients := ?_ }
  · rw [List.take_add_one, hget, h.applied]
    rfl
  · dsimp only
    rw [StateMachine.replay_snoc, h.machine]
  · refine ⟨?_, ?_, ?_⟩
    · intro hs
      dsimp only
      rw [h.clients.idle hs]
      rfl
    · intro index f hf
      exact h.clients.pending index f (List.mem_filter.1 hf).1
    · intro f r hr
      rcases RaftNode.mem_answerClient hr with hr | ⟨hclient, rfl⟩
      · rcases h.clients.answered f r hr with hn | ⟨e, he, ho⟩
        · exact Or.inl hn
        · exact Or.inr ⟨e, he, ho.snoc entry⟩
      · obtain ⟨e, he, -, hlog⟩ := h.clients.pending _ f (mem_of_lookupKey hclient)
        rw [Nat.add_sub_cancel, hget] at hlog
        obtain rfl := Option.some.inj hlog
        refine Or.inr ⟨entry, ?_, ?_⟩
        · rw [RaftNode.answerOf_index]
          exact he
        · have := outcome_answerOf s.history.applied entry
          rw [hlen, ← h.machine] at this
          rw [RaftNode.answerOf_index]
          exact this

theorem NodeSim.applyNext (hI : Inv M A) (count : ℕ) (h : NodeSim M A n s)
    (hcount : s.lastApplied + count = s.commitIndex) :
    Wp (RaftNode.applyNext count)
      (fun _ s' => NodeSim M A n s' ∧ s'.lastApplied = s'.commitIndex) (fun _ _ => False) s := by
  induction count generalizing s with
  | zero => exact ⟨h, hcount⟩
  | succ count ih =>
    have hlen := h.commitIndex_le hI
    unfold RaftNode.applyNext
    simp only [Wp.bind_iff, Wp.modify_iff, Wp.get_iff]
    apply RaftNode.logGet_wp (Nat.succ_pos _)
    · change s.lastApplied + 1 ≤ s.logStore.length
      omega
    · intro entry hget
      simp only [Wp.bind_iff, Wp.modify_iff]
      apply ih (h.applyEntry (by omega) hget)
      rw [RaftNode.applyEntry_eq]
      change s.lastApplied + 1 + count = s.commitIndex
      omega

/-- **Everything that is committed is applied.** -/
theorem NodeSim.applyCommitted (hI : Inv M A) (h : NodeSim M A n s) :
    Wp RaftNode.applyCommitted
      (fun _ s' => NodeSim M A n s' ∧ s'.lastApplied = s'.commitIndex) (fun _ _ => False) s := by
  unfold RaftNode.applyCommitted
  simp only [Wp.bind_iff, Wp.get_iff]
  have hle := h.lastApplied
  apply (NodeSim.applyNext hI (s.commitIndex - s.lastApplied) h (by omega)).mono
  · exact fun _ _ h' => ⟨h'.1.publishSnapshot, h'.2⟩
  · exact fun _ _ hf => hf

/-- A leader commits and applies what it may. -/
theorem NodeSim.advanceAndApply (h : NodeSim M A n s) (hI : Inv M A) :
    Wp RaftNode.advanceCommitIndex
      (fun _ => Wp RaftNode.applyCommitted (fun _ => Done M n A) (fun _ _ => False))
      (fun _ _ => False) s := by
  apply (h.advanceCommitIndex hI).mono
  · rintro - s₁ ⟨A₁, hm₁, h₁⟩
    apply (NodeSim.applyCommitted hm₁.inv h₁).mono
    · exact fun _ s₂ h₂ => ⟨⟨A₁, hm₁, h₂.1⟩, h₂.2⟩
    · exact fun _ _ hf => hf
  · exact fun _ _ hf => hf

/-! ## Client commands -/

/-- **A leader writes** the command of a client. -/
theorem NodeSim.appendForClient (h : NodeSim M A n s) (hI : Inv M A) (hl : s.status = .leader)
    (future : FutureId) (command : Command) :
    ∃ A', Move M n A A' ∧ NodeSim M A' n (s.appendForClient future command) := by
  have hlead := h.leading hl
  have hlen := h.commitIndex_le hI
  obtain ⟨A', hm, hk, hlog, hleader, hack⟩ :=
    hI.write (e := ⟨s.currentTerm, command⟩) (by rw [h.term]; exact hlead.leader) h.term.symm
  rw [h.log] at hlog hleader hack
  rw [h.term] at hleader hack
  have hleading := hlead.evolves hm.evolves
  refine ⟨A', hm, { h with
    toPast := { h.toPast.evolves hm.evolves with
      created := ?_ }
    term := hk.term.trans h.term
    log := hlog
    commit := hk.commit.trans h.commit
    vote := (hk.vote _).trans h.vote
    ballots := fun T c => by rw [hk.vote]; exact h.ballots T c
    candidate := fun hc => by
      change s.status = _ at hc
      rw [hl] at hc
      cases hc
    leading := fun _ => { hleading with
      acked := hack
      next := fun p hp => by
        obtain ⟨next, hnext, h1, hle⟩ := hleading.next p hp
        refine ⟨next, hnext, h1, ?_⟩
        change next ≤ (s.logStore ++ [_]).length + 1
        rw [List.length_append]
        omega }
    applied := ?_
    clients := ?_ }⟩
  · intro f index entry hf
    rcases List.mem_append.1 hf with hf | hf
    · exact (h.toPast.evolves hm.evolves).created f index entry hf
    · obtain ⟨rfl, rfl, rfl⟩ := by simpa using hf
      refine ⟨hleading.leader, Nat.succ_pos _, ?_⟩
      change (A'.leaderLog s.currentTerm)[_]? = _
      rw [hleader]
      exact List.getElem?_concat_length
  · change s.history.applied = (s.logStore ++ [_]).take s.lastApplied
    rw [List.take_append_of_le_length (h.lastApplied.trans hlen)]
    exact h.applied
  · refine { h.clients with
      idle := ?_
      pending := ?_
      answered := ?_ }
    · intro hs
      change s.status = _ at hs
      rw [hl] at hs
      cases hs
    · intro index f hf
      rcases mem_upsert hf with hf | hf
      · obtain ⟨rfl, rfl⟩ := Prod.mk.inj hf
        exact ⟨_, List.mem_append_right _ (List.mem_singleton_self _), Nat.succ_pos _,
          List.getElem?_concat_length⟩
      · obtain ⟨entry, hc, h0, hget⟩ := h.clients.pending index f hf
        exact ⟨entry, List.mem_append_left _ hc, h0,
          Consensus.getElem?_of_start (List.prefix_append _ _) hget⟩
    · intro f r hr
      rcases h.clients.answered f r hr with hn | ⟨entry, hc, ho⟩
      · exact Or.inl hn
      · exact Or.inr ⟨entry, List.mem_append_left _ hc, ho⟩

/-- **Client commands** follow the protocol. -/
theorem NodeSim.submitCommand (h : NodeSim M A n s) (hI : Inv M A)
    (hdone : s.lastApplied = s.commitIndex) (future : FutureId) (command : Command) :
    Wp (RaftNode.submitCommand future command) (fun _ => Done M n A) (Fails M n A) s := by
  unfold RaftNode.submitCommand
  simp only [Wp.bind_iff, Wp.get_iff, Wp.ite_iff, Wp.modify_iff]
  refine ⟨fun _ => ⟨⟨A, Move.refl hI, { h with clients := ?_ }⟩, hdone⟩, fun hl => ?_⟩
  · refine { h.clients with answered := ?_ }
    intro f r hr
    rcases RaftNode.mem_complete hr with hr | hr
    · exact h.clients.answered f r hr
    · exact Or.inl hr.2
  · obtain ⟨A', hm, h'⟩ := h.appendForClient hI (not_not.1 hl) future command
    apply (h'.replicateToAllPeers hm.inv hdone).mono
    · rintro - s₂ ⟨h₂, -⟩
      rw [Wp.bind_iff]
      apply (h₂.advanceAndApply hm.inv).mono
      · intro _ s₃ hs₃
        exact hs₃.mono (fun _ _ hd => hd.head hm) fun _ _ hf => hf.elim
      · exact fun _ _ hf => hf.elim
    · exact fun _ _ hf => hf.head hm

/-! ## Acknowledgements -/

/-- **An acknowledgement is recorded** as far as the protocol knows of it. -/
theorem NodeSim.recordMatch (h : NodeSim M A n s) (hI : Inv M A) (hl : s.status = .leader)
    {p : NodeId} (hp : p ∈ s.peers) {k : ℕ} (hk : k ≤ A.acked s.currentTerm p) :
    NodeSim M A n (s.recordMatch p k) := by
  have hlead := h.leading hl
  have hmerged : s.mergedMatch p k ≤ A.acked s.currentTerm p := by
    unfold RaftNode.mergedMatch
    cases hm : lookupKey p s.matchIndex with
    | none => exact hk
    | some old => exact max_le (hlead.matched p old (mem_of_lookupKey hm)).2 hk
  have hlen : s.mergedMatch p k ≤ s.logStore.length := by
    have := hI.acks.acked_le s.currentTerm p
    rw [h.leaderLog_eq hI hl] at this
    exact hmerged.trans this
  refine { h with leading := fun _ => { hlead with
    sorted := hlead.sorted.upsert _ _
    matched := ?_
    known := ?_
    next := ?_ } }
  · intro q m hq
    rcases mem_upsert hq with hq | hq
    · obtain ⟨rfl, rfl⟩ := Prod.mk.inj hq
      exact ⟨hp, hmerged⟩
    · exact hlead.matched q m hq
  · intro q hq
    change q ∈ (upsert p (s.mergedMatch p k) s.matchIndex).map Prod.fst
    rw [← exists_lookupKey_iff, lookupKey_upsert]
    by_cases hqp : q = p
    · rw [if_pos hqp]
      exact ⟨_, rfl⟩
    · rw [if_neg hqp, exists_lookupKey_iff]
      exact hlead.known q hq
  · intro q hq
    change ∃ next, lookupKey q (upsert p _ s.nextIndex) = some next ∧ _
    rw [lookupKey_upsert]
    by_cases hqp : q = p
    · rw [if_pos hqp]
      exact ⟨_, rfl, Nat.succ_le_succ (Nat.zero_le _), Nat.succ_le_succ hlen⟩
    · rw [if_neg hqp]
      exact hlead.next q hq

theorem NodeSim.lowerNextIndex (h : NodeSim M A n s) (hl : s.status = .leader) {p : NodeId}
    (hp : p ∈ s.peers) (prevLogIndex : ℕ) : NodeSim M A n (s.lowerNextIndex p prevLogIndex) := by
  have hlead := h.leading hl
  refine { h with leading := fun _ => { hlead with next := ?_ } }
  intro q hq
  change ∃ next, lookupKey q (upsert p _ s.nextIndex) = some next ∧ _
  rw [lookupKey_upsert]
  by_cases hqp : q = p
  · obtain ⟨next, hnext, h1, hle⟩ := hlead.next p hp
    rw [if_pos hqp, hnext, Option.getD_some]
    have hle' : max 1 (next - 1) ≤ s.logStore.length + 1 := max_le (by omega) (by omega)
    exact ⟨_, rfl, le_max_left _ _, hle'⟩
  · rw [if_neg hqp]
    exact hlead.next q hq

/-- **Responses of followers** follow the protocol. -/
theorem NodeSim.onAppendEntriesResponse (h : NodeSim M A n s) (hI : Inv M A)
    (hdone : s.lastApplied = s.commitIndex) {p : NodeId} (hp : p ∈ s.peers)
    {roundTerm prevLogIndex sentCount : ℕ} {response : ResponseAppendEntriesRPC}
    (hack : response.success = true → prevLogIndex + sentCount ≤ A.acked roundTerm p) :
    Wp (RaftNode.onAppendEntriesResponse p roundTerm prevLogIndex sentCount response)
      (fun _ => Done M n A) (Fails M n A) s := by
  unfold RaftNode.onAppendEntriesResponse
  simp only [Wp.bind_iff, Wp.get_iff, Wp.ite_iff, Wp.modify_iff, Wp.pure_iff]
  have hsame : Done M n A s := ⟨⟨A, Move.refl hI, h⟩, hdone⟩
  refine ⟨fun hgt => ?_, fun _ => ⟨fun _ => hsame, fun hstale => ?_⟩⟩
  · refine ⟨h.becomeFollower hI (Nat.le_of_lt hgt), ?_⟩
    rw [RaftNode.becomeFollower_eq]
    exact hdone
  obtain ⟨hl, ht⟩ := not_or.1 hstale
  have hleader := not_not.1 hl
  have hterm := not_not.1 ht
  refine ⟨fun hs => ?_, fun _ => ?_⟩
  · have h₁ := h.recordMatch hI hleader hp (hterm ▸ hack hs)
    apply (h₁.advanceAndApply hI).mono
    · intro _ s₂ hs₂
      rw [Wp.bind_iff]
      apply hs₂.mono
      · rintro - s₃ ⟨⟨A₃, hm₃, h₃⟩, hdone₃⟩
        simp only [Wp.bind_iff, Wp.get_iff, Wp.ite_iff, Wp.pure_iff]
        refine ⟨fun _ => ?_, fun _ => ⟨⟨A₃, hm₃, h₃⟩, hdone₃⟩⟩
        apply Wp.head hm₃
        apply h₃.replicateTo hm₃.inv hdone₃
        exact (h₃.mem_peers p).2 ((h.mem_peers p).1 hp)
      · exact fun _ _ hf => hf.elim
    · exact fun _ _ hf => hf.elim
  · exact (h.lowerNextIndex hleader hp prevLogIndex).replicateTo hI hdone hp

/-! ## Requests of leaders -/

variable {c : NodeId} {request : RequestAppendEntriesRPC} {senderLog : LogStore}

/-- **Entries of the leader are accepted** without touching what is committed. -/
theorem NodeSim.patches (h : NodeSim M A n s) (hI : Inv M A) (hf : s.status = .follower)
    (hr : AppendRequested M A c request senderLog) (hterm : s.currentTerm = request.term)
    (hprev : RaftNode.PrevMatches s.logStore request.prevLogIndex request.prevLogTerm)
    (hs : RaftNode.Patches request.prevLogIndex (senderLog.drop request.prevLogIndex) s s') :
    ∃ A', Move M n A A' ∧ NodeSim M A' n s' ∧ senderLog <+: s'.logStore ∧
      senderLog.length ≤ A'.acked request.term n := by
  obtain ⟨cuts, rfl, hcuts⟩ := hs
  have hterm' : A.term n = request.term := h.term.trans hterm
  have hstart : senderLog <+: A.leaderLog (A.term n) := hterm' ▸ hr.start
  have hlog : Consensus.Matched A.leaderLog s.logStore := h.log ▸ hI.logs.matched n
  have hsender : Consensus.Matched A.leaderLog senderLog :=
    (hI.logs.leaderLog_matched hI.elections _).start hr.start
  have htake := RaftNode.take_eq_of_prevMatches (hlog.matching hsender) hprev hr.prevLogTerm
  obtain ⟨hpatch₁, hpatch₂⟩ := RaftNode.patched_eq (hlog.matching hsender) hr.prevLogIndex htake
  obtain ⟨A', hm, hk, hsame, hnew, hin, hack⟩ := hI.accept hstart
  rw [h.log] at hsame hnew
  have hpatched : A'.log n = RaftNode.patched s.logStore request.prevLogIndex
      (senderLog.drop request.prevLogIndex) := by
    by_cases hp : senderLog <+: s.logStore
    · rw [hsame hp, hpatch₁ hp]
    · rw [hnew hp, hpatch₂ hp]
  -- the committed part of the log is the same as before
  have hcommitted : s.logStore.take s.commitIndex = (A'.log n).take s.commitIndex := by
    have hk₁ := hm.evolves.known (hI.commits n)
    have hk₂ := hm.inv.commits n
    rw [hk.commit] at hk₂
    have := hm.inv.known_agree hk₁ hk₂ le_rfl
    rwa [h.log, h.commit] at this
  refine ⟨A', hm, ?_, hpatched ▸ hin, hterm' ▸ hack⟩
  refine { h with
    toPast := { h.toPast.evolves hm.evolves with }
    term := hk.term.trans h.term
    log := hpatched
    commit := hk.commit.trans h.commit
    vote := (hk.vote _).trans h.vote
    ballots := fun T c => by rw [hk.vote]; exact h.ballots T c
    candidate := fun hc => by
      change s.status = _ at hc
      rw [hf] at hc
      cases hc
    leading := fun hl => by
      change s.status = _ at hl
      rw [hf] at hl
      cases hl
    applied := ?_
    clients := { h.clients with
      pending := fun index f hp => by
        change (index, f) ∈ s.pendingClients at hp
        rw [h.clients.idle hf] at hp
        exact absurd hp List.not_mem_nil }
    truncations := ?_ }
  · have := congrArg (List.take s.lastApplied) hcommitted
    rw [List.take_take, List.take_take, Nat.min_eq_left h.lastApplied, hpatched] at this
    exact h.applied.trans this
  · intro cut hcut
    rcases List.mem_append.1 hcut with hcut | hcut
    · exact h.truncations cut hcut
    obtain ⟨hc, i, x, entry, hi, hx, hentry, hne⟩ := hcuts cut hcut
    rw [hc, hi]
    by_contra hle
    have hlead : A.leader (A.term n) ≠ none := by
      rw [hterm', hr.leader]
      simp
    have hcommit := hI.acks.known_start hI.logs (hI.commits n) hlead
    rw [h.log, h.commit] at hcommit
    have h₁ : (A.leaderLog (A.term n))[request.prevLogIndex + i]? = some x := by
      apply Consensus.getElem?_of_start hcommit
      rw [List.getElem?_take_of_lt (by omega)]
      exact hx
    have h₂ : (A.leaderLog (A.term n))[request.prevLogIndex + i]? = some entry := by
      apply Consensus.getElem?_of_start hstart
      rwa [List.getElem?_drop] at hentry
    rw [h₁] at h₂
    exact hne (congrArg _ (Option.some.inj h₂))

/-- A follower commits what the leader has committed. -/
theorem NodeSim.followCommit (h : NodeSim M A n s) (hI : Inv M A) (hf : s.status = .follower)
    {k : ℕ} (hk : A.Known M s.currentTerm k senderLog) (hp : senderLog <+: s.logStore) :
    Follows M n A (s.followCommit k senderLog.length) := by
  unfold RaftNode.followCommit
  split_ifs with hgt
  · have hle := hk.le_length
    rw [Nat.min_eq_left hle]
    have hknown : A.Known M (A.term n) k (A.log n) := by
      rw [h.term, h.log]
      exact hk.mono le_rfl hp
    obtain ⟨A', hm, hterm, hlog, hcommit, hvote⟩ := hI.learn hknown (h.commit ▸ Nat.le_of_lt hgt)
    exact ⟨A', hm, { h with
      toPast := { h.toPast.evolves hm.evolves with }
      term := hterm.trans h.term
      log := hlog.trans h.log
      commit := hcommit
      vote := (hvote _).trans h.vote
      ballots := fun T c => by rw [hvote]; exact h.ballots T c
      candidate := fun hc => by
        change s.status = _ at hc
        rw [hf] at hc
        cases hc
      leading := fun hl => by
        change s.status = _ at hl
        rw [hf] at hl
        cases hl
      lastApplied := h.lastApplied.trans (Nat.le_of_lt hgt) }⟩
  · exact ⟨A, Move.refl hI, h⟩

/-- A response that tells success tells an acknowledgement of the sender's log. -/
def Acked (M : Finset NodeId) (n : NodeId) (A : Protocol) (request : RequestAppendEntriesRPC)
    (senderLog : LogStore) (response : ResponseAppendEntriesRPC) (s : RaftNode) : Prop :=
  ∃ A', Move M n A A' ∧ NodeSim M A' n s ∧ s.lastApplied = s.commitIndex ∧
    (response.success = true → senderLog.length ≤ A'.acked request.term n)

theorem Acked.head {response : ResponseAppendEntriesRPC} (hm : Move M n A A')
    (h : Acked M n A' request senderLog response s) : Acked M n A request senderLog response s := by
  obtain ⟨A'', hm', h⟩ := h
  exact ⟨A'', hm.trans hm', h⟩

theorem NodeSim.appendFromLeader (h : NodeSim M A n s) (hI : Inv M A)
    (hdone : s.lastApplied = s.commitIndex) (hf : s.status = .follower)
    (hr : AppendRequested M A c request senderLog) (hterm : s.currentTerm = request.term) :
    Wp (RaftNode.appendFromLeader request) (Acked M n A request senderLog) (fun _ _ => False)
      s := by
  unfold RaftNode.appendFromLeader
  simp only [Wp.bind_iff, Wp.modify_iff]
  have h₁ : NodeSim M A n
      ({ s with currentLeaderId := some request.leaderId } : RaftNode).resetElectionTimer :=
    { h with }
  apply (RaftNode.prevLogMatches_wp _ _).mono
  · rintro b s₂ ⟨rfl, hb⟩
    simp only [Wp.bind_iff, Wp.ite_iff, Wp.modify_iff, Wp.get_iff, Wp.pure_iff]
    refine ⟨fun _ => ⟨A, Move.refl hI, h₁.publishSnapshot, hdone,
      fun hs => absurd hs Bool.false_ne_true⟩, fun hb' => ?_⟩
    have hprev := hb.1 (not_not.1 hb')
    have hall := ProtoMapper.forall₂_entriesToProto hr.entries
    apply (RaftNode.patchLog_wp hall hprev.1).mono
    · rintro idx s₃ ⟨rfl, hs₃⟩
      obtain ⟨A₃, hm₃, h₃, hin, hack⟩ := h₁.patches hI hf hr hterm hprev hs₃
      obtain ⟨cuts, heq, -⟩ := hs₃
      have hidx : request.prevLogIndex + (senderLog.drop request.prevLogIndex).length =
          senderLog.length := by
        rw [List.length_drop]
        have := hr.prevLogIndex
        omega
      have hknown : A₃.Known M s₃.currentTerm request.leaderCommit senderLog := by
        have hterm₃ : s₃.currentTerm = request.term := by
          rw [heq]
          exact hterm
        rw [hterm₃]
        exact hm₃.evolves.known hr.leaderCommit
      have hf₃ : s₃.status = .follower := by
        rw [heq]
        exact hf
      rw [hidx]
      obtain ⟨A₄, hm₄, h₄⟩ := h₃.followCommit hm₃.inv hf₃ hknown hin
      simp only [Wp.bind_iff, Wp.modify_iff]
      apply (NodeSim.applyCommitted hm₄.inv h₄).mono
      · intro _ s₅ h₅
        exact ⟨A₄, hm₃.trans hm₄, h₅.1, h₅.2, fun _ => hack.trans (hm₄.evolves.acked _ _)⟩
      · exact fun _ _ hf => hf
    · exact fun _ _ hf => hf
  · exact fun _ _ hf => hf

/-- **Requests of leaders** follow the protocol, and throw nothing. -/
theorem NodeSim.handleAppendEntries (h : NodeSim M A n s) (hI : Inv M A)
    (hdone : s.lastApplied = s.commitIndex) (hr : AppendRequested M A c request senderLog) :
    Wp (RaftNode.handleAppendEntriesInternal request) (Acked M n A request senderLog)
      (fun _ _ => False) s := by
  unfold RaftNode.handleAppendEntriesInternal
  simp only [Wp.bind_iff, Wp.modify_iff, Wp.get_iff, Wp.ite_iff, Wp.pure_iff]
  refine ⟨fun _ => ⟨A, Move.refl hI, h, hdone, fun hs => absurd hs Bool.false_ne_true⟩,
    fun hge => ⟨fun _ => ?_, fun hsame => ?_⟩⟩
  · have hle : s.currentTerm ≤ request.term := Nat.le_of_not_lt hge
    obtain ⟨A', hm, h'⟩ := h.becomeFollower hI hle
    have heq := RaftNode.becomeFollower_eq request.term s
    apply (h'.appendFromLeader hm.inv ?_ ?_ (hr.evolves hm.evolves) ?_).mono
    · exact fun _ _ ha => ha.head hm
    · exact fun _ _ hf => hf
    · rw [heq]
      exact hdone
    · rw [heq]
    · rw [heq]
      exact Nat.max_eq_right hle
  · obtain ⟨hle, hf⟩ := not_or.1 hsame
    exact h.appendFromLeader hI hdone (not_not.1 hf) hr (by omega)

end CowRaft.Raft
