import CowRaft.Raft.AppendEntries

/-!
# Repairing the log of a follower

A leader and one follower that talk to nobody else. `exchange` handles the request that the leader
has left for the follower, and then its response, which makes the leader send the next request or
end; `Repairs` are such exchanges up to the first success. Each failure lowers `nextIndex` by one,
so the leader gets to the highest index below it at which both logs hold entries of one term
(`meeting`), and what it sends from there makes its own log a prefix of the follower's. It gets
there exactly if no entry that it has to send has a null key (`repair_converges_iff`).
-/

namespace CowRaft.Raft

namespace RaftNode

open Consensus (Matching TermSorted)

variable {L L' F F' : RaftNode} {peerId : NodeId} {log flog : LogStore} {term p n : ℕ}
  {request : RequestAppendEntriesRPC}

/-! ## Exchanges -/

/-- The follower `F` handles a request of the leader `L`, who handles the response. -/
def exchange (peerId : NodeId) (request : RequestAppendEntriesRPC) (L F : RaftNode) :
    Option (ResponseAppendEntriesRPC × RaftNode × RaftNode) :=
  match handleAppendEntriesInternal request F with
  | .error _ _ => none
  | .ok response F' =>
    match onAppendEntriesResponse peerId request.term request.prevLogIndex request.entries.length
        response { L with appendRequests := [], inFlight := L.inFlight.erase peerId } with
    | .error _ _ => none
    | .ok _ L' => some (response, L', F')

/-- After `n` exchanges, the last of which succeeds, the leader sends nothing more. -/
inductive Repairs (peerId : NodeId) : ℕ → RaftNode → RaftNode → RaftNode → RaftNode → Prop
  | success {L F L' F' : RaftNode} {request : RequestAppendEntriesRPC} {log : LogStore}
      {response : ResponseAppendEntriesRPC} (hsent : L.appendRequests = [(peerId, request, log)])
      (hx : exchange peerId request L F = some (response, L', F'))
      (hs : response.success = true) (hnone : L'.appendRequests = []) :
      Repairs peerId 1 L F L' F'
  | failure {n : ℕ} {L F L₁ F₁ L' F' : RaftNode} {request : RequestAppendEntriesRPC}
      {log : LogStore} {response : ResponseAppendEntriesRPC}
      (hsent : L.appendRequests = [(peerId, request, log)])
      (hx : exchange peerId request L F = some (response, L₁, F₁))
      (hs : response.success = false) (hrest : Repairs peerId n L₁ F₁ L' F') :
      Repairs peerId (n + 1) L F L' F'

theorem exchange_eq {response : ResponseAppendEntriesRPC}
    (hF : handleAppendEntriesInternal request F = .ok response F') :
    exchange peerId request L F =
      match onAppendEntriesResponse peerId request.term request.prevLogIndex
          request.entries.length response
          { L with appendRequests := [], inFlight := L.inFlight.erase peerId } with
      | .error _ _ => none
      | .ok _ L' => some (response, L', F') := by
  unfold exchange
  rw [hF]

/-! ## Where the logs meet -/

/-- The highest index from `p` down at which both logs hold entries of one term. -/
def meeting (log flog : LogStore) : ℕ → ℕ
  | 0 => 0
  | p + 1 =>
    if (flog[p]?).map (·.term) = (log[p]?).map (·.term) then p + 1 else meeting log flog p

/-- The term that a request names is that of the entry it builds on. -/
def PrevTerm (log : LogStore) (p prevLogTerm : ℕ) : Prop :=
  p ≠ 0 → ∃ entry, log[p - 1]? = some entry ∧ prevLogTerm = entry.term

theorem meeting_of_prevMatches {prevLogTerm : ℕ} (ht : PrevTerm log p prevLogTerm)
    (h : PrevMatches flog p prevLogTerm) : meeting log flog p = p := by
  cases p with
  | zero => rfl
  | succ p =>
    obtain ⟨entry, hentry, rfl⟩ := ht (Nat.succ_ne_zero p)
    obtain ⟨x, hx, hxt⟩ := h.2 (Nat.succ_ne_zero p)
    rw [Nat.add_sub_cancel] at hentry hx
    rw [meeting, hx, hentry]
    exact if_pos (congrArg some hxt)

theorem meeting_of_not {prevLogTerm : ℕ} (ht : PrevTerm log (p + 1) prevLogTerm)
    (h : ¬ PrevMatches flog (p + 1) prevLogTerm) :
    meeting log flog (p + 1) = meeting log flog p := by
  obtain ⟨entry, hentry, rfl⟩ := ht (Nat.succ_ne_zero p)
  rw [Nat.add_sub_cancel] at hentry
  rw [meeting, if_neg]
  intro heq
  rw [hentry, Option.map_some] at heq
  obtain ⟨x, hx, hxt⟩ := Option.map_eq_some_iff.1 heq
  exact h ⟨(List.getElem?_eq_some_iff.1 hx).1, fun _ => ⟨x, hx, hxt⟩⟩

theorem meeting_le (log flog : LogStore) (p : ℕ) : meeting log flog p ≤ p := by
  induction p with
  | zero => exact le_rfl
  | succ p ih =>
    rw [meeting]
    split_ifs
    · exact le_rfl
    · exact ih.trans (Nat.le_succ p)

/-- No entry from an index on has a null key. -/
def KeyedFrom (log : LogStore) (p : ℕ) : Prop := ∀ entry ∈ log.drop p, entry.command.key ≠ none

instance : Decidable (KeyedFrom log p) :=
  inferInstanceAs (Decidable (∀ entry ∈ log.drop p, entry.command.key ≠ none))

theorem KeyedFrom.mono {q : ℕ} (h : KeyedFrom log p) (hle : p ≤ q) : KeyedFrom log q :=
  fun entry he => h entry ((List.drop_sublist_drop_left log hle).subset he)

theorem keyedFrom_of_toProto {protos : List ProtoLogEntry}
    (h : ProtoMapper.entriesToProto (log.drop p) = .ok protos) : KeyedFrom log p := by
  intro entry he hnull
  rw [ProtoMapper.entriesToProto_null he hnull] at h
  cases h

/-! ## The leader -/

/-- The leader has sent the entries behind `p`, and waits for the answer. -/
structure Waits (peerId : NodeId) (log : LogStore) (term p : ℕ) (L : RaftNode)
    (request : RequestAppendEntriesRPC) : Prop where
  status : L.status = .leader
  logStore : L.logStore = log
  currentTerm : L.currentTerm = term
  sent : L.appendRequests = [(peerId, request, log)]
  requestTerm : request.term = term
  prevLogIndex : request.prevLogIndex = p
  prevLogTerm : PrevTerm log p request.prevLogTerm
  entries : ProtoMapper.entriesToProto (log.drop p) = .ok request.entries
  le : p ≤ log.length
  next : lookupKey peerId L.nextIndex = some (p + 1)
  matched : ∀ m, lookupKey peerId L.matchIndex = some m → m ≤ log.length
  commit : L.commitIndex ≤ log.length

/-- A leader that is not waiting sends the entries behind `nextIndex - 1`, if they have keys. -/
theorem replicateTo_waits (hl : L.status = .leader) (hlog : L.logStore = log)
    (hterm : L.currentTerm = term) (hin : peerId ∉ L.inFlight) (hnone : L.appendRequests = [])
    (hnext : lookupKey peerId L.nextIndex = some (p + 1)) (hle : p ≤ log.length)
    (hmatch : ∀ m, lookupKey peerId L.matchIndex = some m → m ≤ log.length)
    (hcommit : L.commitIndex ≤ log.length) :
    Wp (replicateTo peerId) (fun _ L' => ∃ request, Waits peerId log term p L' request)
      (fun _ _ => ¬ KeyedFrom log p) L := by
  subst hlog hterm
  have hle' : ∀ next, lookupKey peerId L.nextIndex = some next →
      next ≤ L.logStore.lastIndex + 1 := by
    intro next h
    rw [hnext] at h
    obtain rfl := Option.some.inj h
    exact Nat.succ_le_succ hle
  apply (replicateTo_idle_wp hl hin hle').mono
  · rintro - L' ⟨request, hb, rfl⟩
    have hprev : request.prevLogIndex = p := by
      rw [hb.prevLogIndex, hnext, Option.getD_some, Nat.add_sub_cancel]
    have hentries := hb.entries
    have hterm := hb.prevLogTerm
    rw [hprev] at hentries hterm
    exact ⟨request, hl, rfl, rfl, by rw [hnone]; rfl, hb.term, hprev, hterm, hentries, hle, hnext,
      hmatch, hcommit⟩
  · rintro e L' ⟨-, he⟩ hkeyed
    rw [hnext, Option.getD_some, LogStore.entriesFrom_eq, Nat.add_sub_cancel] at he
    obtain ⟨-, entry, hentry, hnull⟩ := ProtoMapper.entriesToProto_error he
    exact hkeyed entry hentry hnull

/-- **A failure** makes the leader try again with one more entry. -/
theorem Waits.failure (h : Waits peerId log term (p + 1) L request) :
    Wp (onAppendEntriesResponse peerId request.term request.prevLogIndex request.entries.length
        ⟨term, false⟩)
      (fun _ L' => ∃ request', Waits peerId log term p L' request')
      (fun _ _ => ¬ KeyedFrom log p)
      { L with appendRequests := [], inFlight := L.inFlight.erase peerId } := by
  unfold onAppendEntriesResponse
  simp only [Wp.bind_iff, Wp.get_iff, Wp.ite_iff, Wp.modify_iff, Wp.pure_iff]
  refine ⟨fun hgt => ?_, fun _ => ⟨fun hstale => ?_, fun _ => ⟨fun hs => ?_, fun _ => ?_⟩⟩⟩
  · exact absurd hgt (by rw [h.currentTerm]; exact lt_irrefl _)
  · rcases hstale with hne | hne
    · exact absurd h.status hne
    · exact absurd (h.currentTerm.trans h.requestTerm.symm) hne
  · exact absurd hs Bool.false_ne_true
  · apply replicateTo_waits
    · exact h.status
    · exact h.logStore
    · exact h.currentTerm
    · exact Finset.notMem_erase _ _
    · rfl
    · change lookupKey peerId (upsert peerId (max 1 ((lookupKey peerId L.nextIndex).getD _ - 1))
        L.nextIndex) = _
      rw [lookupKey_upsert, if_pos rfl, h.next, Option.getD_some, Nat.add_sub_cancel,
        Nat.max_eq_right (Nat.succ_pos p)]
    · exact (Nat.le_succ p).trans h.le
    · exact h.matched
    · exact h.commit

/-- The leader knows that the follower holds all of its log, and sends nothing more. -/
structure Ends (peerId : NodeId) (log : LogStore) (L : RaftNode) : Prop where
  logStore : L.logStore = log
  sent : L.appendRequests = []
  matchIndex : lookupKey peerId L.matchIndex = some log.lastIndex
  nextIndex : lookupKey peerId L.nextIndex = some (log.lastIndex + 1)

/-- The converted entries are as many as the entries. -/
theorem length_of_toProto {entries : List LogEntry} {protos : List ProtoLogEntry}
    (h : ProtoMapper.entriesToProto entries = .ok protos) : protos.length = entries.length :=
  (ProtoMapper.forall₂_entriesToProto h).length_eq

/-- **A success** makes the leader end. -/
theorem Waits.success (h : Waits peerId log term p L request) :
    Wp (onAppendEntriesResponse peerId request.term request.prevLogIndex request.entries.length
        ⟨term, true⟩)
      (fun _ L' => Ends peerId log L') (fun _ _ => False)
      { L with appendRequests := [], inFlight := L.inFlight.erase peerId } := by
  have hsent : request.prevLogIndex + request.entries.length = log.length := by
    have hlen := length_of_toProto h.entries
    rw [List.length_drop] at hlen
    have := h.prevLogIndex
    have := h.le
    omega
  unfold onAppendEntriesResponse
  simp only [Wp.bind_iff, Wp.get_iff, Wp.ite_iff, Wp.modify_iff, Wp.pure_iff]
  refine ⟨fun hgt => ?_, fun _ => ⟨fun hstale => ?_, fun _ => ⟨fun _ => ?_, fun hs => ?_⟩⟩⟩
  · exact absurd hgt (by rw [h.currentTerm]; exact lt_irrefl _)
  · rcases hstale with hne | hne
    · exact absurd h.status hne
    · exact absurd (h.currentTerm.trans h.requestTerm.symm) hne
  · rw [hsent]
    set s₁ := recordMatch peerId log.length
      { L with appendRequests := [], inFlight := L.inFlight.erase peerId } with hs₁
    have hmerged : mergedMatch { L with
        appendRequests := [], inFlight := L.inFlight.erase peerId } peerId log.length =
        log.length := by
      unfold mergedMatch
      dsimp only
      cases hm : lookupKey peerId L.matchIndex with
      | none => rfl
      | some m => exact Nat.max_eq_right (h.matched m hm)
    have hends : Ends peerId log s₁ := by
      refine ⟨h.logStore, rfl, ?_, ?_⟩
      · change lookupKey peerId (upsert peerId _ L.matchIndex) = _
        rw [lookupKey_upsert, if_pos rfl, hmerged]
        rfl
      · change lookupKey peerId (upsert peerId _ L.nextIndex) = _
        rw [lookupKey_upsert, if_pos rfl, hmerged]
        rfl
    apply advanceCommitIndex_wp.mono
    · intro _ s₂ hs₂
      have hends₂ : Ends peerId log s₂ ∧ s₂.commitIndex ≤ log.length := by
        rcases hs₂ with rfl | ⟨-, k, entry, rfl, -, hget, -⟩
        · exact ⟨hends, h.commit⟩
        · refine ⟨{ hends with }, ?_⟩
          rw [hends.logStore] at hget
          exact (List.getElem?_eq_some_iff.1 hget).1
      rw [Wp.bind_iff]
      apply (applyCommitted_wp fun _ => hends₂.1.logStore.symm ▸ hends₂.2).mono
      · rintro - s₃ ⟨s₄, ⟨machine, pending, completed, history, rfl⟩, -, rfl⟩
        simp only [Wp.bind_iff, Wp.get_iff, Wp.ite_iff, Wp.pure_iff]
        refine ⟨fun hle => ?_, fun _ => { hends₂.1 with }⟩
        change (lookupKey peerId s₂.nextIndex).getD 0 ≤ s₂.logStore.lastIndex at hle
        rw [hends₂.1.nextIndex, hends₂.1.logStore, Option.getD_some] at hle
        exact absurd hle (Nat.not_succ_le_self _)
      · exact fun _ _ hf => hf
    · exact fun _ _ hf => hf
  · exact absurd trivial hs

/-! ## Until the first success -/

/-- Up to where they meet, the logs are the same. -/
theorem take_meeting (hmatch : Matching flog log) (hle : p ≤ log.length) :
    flog.take (meeting log flog p) = log.take (meeting log flog p) := by
  induction p with
  | zero => rfl
  | succ p ih =>
    rw [meeting]
    split_ifs with heq
    · rw [List.getElem?_eq_getElem hle, Option.map_some] at heq
      obtain ⟨x, hx, hxt⟩ := Option.map_eq_some_iff.1 heq
      exact hmatch p x log[p] hx (List.getElem?_eq_getElem hle) hxt
    · exact ih (Nat.le_of_succ_le hle)

/-- The follower's answer, when it lacks the entry that the request builds on. -/
theorem Waits.refused (h : Waits peerId log term p L request) (hF : F.currentTerm ≤ term)
    (hprev : ¬ PrevMatches F.logStore p request.prevLogTerm) :
    ∃ F', handleAppendEntriesInternal request F = .ok ⟨term, false⟩ F' ∧
      Followed request F.logStore F F' := by
  have hge : ¬ request.term < F.currentTerm := by
    rw [h.requestTerm]
    omega
  rw [← h.prevLogIndex] at hprev
  rw [← h.requestTerm]
  exact handle_mismatch hge hprev

/-- The follower's answer, when it holds the entry that the request builds on. -/
theorem Waits.accepted (h : Waits peerId log term p L request) (hF : F.currentTerm ≤ term)
    (hdone : F.commitIndex ≤ F.lastApplied)
    (hprev : PrevMatches F.logStore p request.prevLogTerm) :
    ∃ F', handleAppendEntriesInternal request F = .ok ⟨term, true⟩ F' ∧
      F'.logStore = patched F.logStore p (log.drop p) := by
  have hge : ¬ request.term < F.currentTerm := by
    rw [h.requestTerm]
    omega
  rw [← h.prevLogIndex] at hprev
  obtain ⟨F', hrun, ht⟩ := handle_taken hge hprev (ProtoMapper.forall₂_entriesToProto h.entries)
    hdone
  rw [h.requestTerm] at hrun
  refine ⟨F', hrun, ?_⟩
  rw [ht.logStore, h.prevLogIndex]

/-- The follower holds the entry that the request builds on, and the leader ends. -/
theorem Waits.repairs_one (h : Waits peerId log term p L request) (hF : F.currentTerm ≤ term)
    (hdone : F.commitIndex ≤ F.lastApplied)
    (hprev : PrevMatches F.logStore p request.prevLogTerm) :
    ∃ L' F', Repairs peerId 1 L F L' F' ∧ Ends peerId log L' ∧
      F'.logStore = patched F.logStore p (log.drop p) := by
  obtain ⟨F', hrun, hF'⟩ := h.accepted hF hdone hprev
  obtain ⟨_, L', hanswer, hends⟩ := h.success.exists_ok
  have hx : exchange peerId request L F = some (⟨term, true⟩, L', F') := by
    rw [exchange_eq hrun, hanswer]
  exact ⟨L', F', .success h.sent hx rfl hends.sent, hends, hF'⟩

/-- **The leader gets there**, if it can send all that it has to. -/
theorem Waits.repairs (h : Waits peerId log term p L request) (hlog : F.logStore = flog)
    (hF : F.currentTerm ≤ term) (hdone : F.commitIndex ≤ F.lastApplied)
    (hkeyed : KeyedFrom log (meeting log flog p)) :
    ∃ n ≤ p + 1, ∃ L' F', Repairs peerId n L F L' F' ∧ Ends peerId log L' ∧
      F'.logStore = patched flog (meeting log flog p) (log.drop (meeting log flog p)) := by
  induction p generalizing L F request with
  | zero =>
    obtain ⟨L', F', hr, he, hF'⟩ :=
      h.repairs_one hF hdone ⟨Nat.zero_le _, fun h0 => absurd rfl h0⟩
    exact ⟨1, le_rfl, L', F', hr, he, hlog ▸ hF'⟩
  | succ p ih =>
    by_cases hprev : PrevMatches F.logStore (p + 1) request.prevLogTerm
    · rw [meeting_of_prevMatches h.prevLogTerm (hlog ▸ hprev)]
      obtain ⟨L', F', hr, he, hF'⟩ := h.repairs_one hF hdone hprev
      exact ⟨1, Nat.le_add_left 1 _, L', F', hr, he, hlog ▸ hF'⟩
    · rw [meeting_of_not h.prevLogTerm (hlog ▸ hprev)] at hkeyed ⊢
      obtain ⟨F₁, hrun, hF₁⟩ := h.refused hF hprev
      rcases h.failure.elim with ⟨_, L₁, hanswer, request', h₁⟩ | ⟨-, -, -, hnot⟩
      · have hx : exchange peerId request L F = some (⟨term, false⟩, L₁, F₁) := by
          rw [exchange_eq hrun, hanswer]
        have hdone₁ : F₁.commitIndex ≤ F₁.lastApplied := by
          rw [hF₁.commitIndex, hF₁.lastApplied]
          exact hdone
        obtain ⟨n, hn, L', F', hr, he, hF'⟩ := ih h₁ (hF₁.logStore.trans hlog)
          (hF₁.currentTerm.trans h.requestTerm).le hdone₁ hkeyed
        exact ⟨n + 1, Nat.succ_le_succ hn, L', F', .failure h.sent hx rfl hr, he, hF'⟩
      · exact absurd (hkeyed.mono (meeting_le log flog p)) hnot

/-- **The leader has sent what it has to**, when it got there. -/
theorem Waits.keyed (h : Waits peerId log term p L request) (hlog : F.logStore = flog)
    (hF : F.currentTerm ≤ term) (hdone : F.commitIndex ≤ F.lastApplied)
    (hr : Repairs peerId n L F L' F') : KeyedFrom log (meeting log flog p) := by
  induction p generalizing L F request n with
  | zero => exact keyedFrom_of_toProto h.entries
  | succ p ih =>
    by_cases hprev : PrevMatches F.logStore (p + 1) request.prevLogTerm
    · rw [meeting_of_prevMatches h.prevLogTerm (hlog ▸ hprev)]
      exact keyedFrom_of_toProto h.entries
    · rw [meeting_of_not h.prevLogTerm (hlog ▸ hprev)]
      obtain ⟨F₁, hrun, hF₁⟩ := h.refused hF hprev
      have hsame : ∀ {request' : RequestAppendEntriesRPC} {l : LogStore},
          L.appendRequests = [(peerId, request', l)] → request' = request := by
        intro request' l hsent
        have := h.sent
        rw [hsent] at this
        simpa using congrArg (List.map fun r => r.2.1) this
      rcases h.failure.elim with ⟨_, L₁, hanswer, request', h₁⟩ | ⟨e, L₁, hanswer, -⟩
      · have hx : exchange peerId request L F = some (⟨term, false⟩, L₁, F₁) := by
          rw [exchange_eq hrun, hanswer]
        have hdone₁ : F₁.commitIndex ≤ F₁.lastApplied := by
          rw [hF₁.commitIndex, hF₁.lastApplied]
          exact hdone
        cases hr with
        | success hsent hx' hs _ =>
          obtain rfl := hsame hsent
          rw [hx] at hx'
          obtain ⟨rfl, -⟩ := Prod.mk.inj (Option.some.inj hx')
          exact absurd hs Bool.false_ne_true
        | failure hsent hx' _ hrest =>
          obtain rfl := hsame hsent
          rw [hx] at hx'
          obtain ⟨rfl, rfl, rfl⟩ := by simpa using hx'
          exact ih h₁ (hF₁.logStore.trans hlog) (hF₁.currentTerm.trans h.requestTerm).le hdone₁
            hrest
      · have hx : exchange peerId request L F = none := by
          rw [exchange_eq hrun, hanswer]
        cases hr with
        | success hsent hx' _ _ =>
          obtain rfl := hsame hsent
          rw [hx] at hx'
          cases hx'
        | failure hsent hx' _ _ =>
          obtain rfl := hsame hsent
          rw [hx] at hx'
          cases hx'

/-! ## Convergence -/

/-- A leader, whose requests to a follower start at `next`, and a follower whose log may be any
that matches the leader's. -/
structure Diverged (peerId : NodeId) (next : ℕ) (L F : RaftNode) : Prop where
  status : L.status = .leader
  term_le : F.currentTerm ≤ L.currentTerm
  matching : Matching F.logStore L.logStore
  leaderSorted : TermSorted L.logStore
  sorted : TermSorted F.logStore
  leaderBounded : ∀ e ∈ L.logStore, e.term ≤ L.currentTerm
  bounded : ∀ e ∈ F.logStore, e.term ≤ F.currentTerm
  nextIndex : lookupKey peerId L.nextIndex = some next
  next_pos : 1 ≤ next
  next_le : next ≤ L.logStore.lastIndex + 1
  matched : ∀ m, lookupKey peerId L.matchIndex = some m → m ≤ L.logStore.lastIndex
  commit : L.commitIndex ≤ L.logStore.lastIndex
  done : F.lastApplied = F.commitIndex
  /-- No request to the follower is on its way. -/
  idle : peerId ∉ L.inFlight ∧ L.appendRequests = []

/-- The leader `L` and the follower `F`, after the log is repaired. -/
structure Converged (peerId : NodeId) (L F L' F' : RaftNode) : Prop where
  matchIndex : lookupKey peerId L'.matchIndex = some L.logStore.lastIndex
  nextIndex : lookupKey peerId L'.nextIndex = some (L.logStore.lastIndex + 1)
  leaderLog : L'.logStore = L.logStore
  start : L.logStore <+: F'.logStore
  /-- Entries that agree stay. -/
  kept : ∀ (k : ℕ) (e e' : LogEntry), F.logStore[k]? = some e → L.logStore[k]? = some e' →
    e.term = e'.term → F'.logStore[k]? = some e
  /-- The logs are equal if the leader's ends in its own term, and the follower's held no entry of
  this term beyond it. -/
  equal : ∀ e, L.logStore.getLast? = some e → e.term = L.currentTerm →
    (∀ (k : ℕ) (x : LogEntry), L.logStore.lastIndex ≤ k → F.logStore[k]? = some x →
      x.term ≠ L.currentTerm) → F'.logStore = L.logStore

theorem Diverged.converged {next : ℕ} (h : Diverged peerId next L F)
    (he : Ends peerId L.logStore L')
    (hF' : F'.logStore = patched F.logStore (meeting L.logStore F.logStore (next - 1))
      (L.logStore.drop (meeting L.logStore F.logStore (next - 1)))) :
    Converged peerId L F L' F' := by
  have hle : next - 1 ≤ L.logStore.length := Nat.sub_le_iff_le_add.2 h.next_le
  have htake := take_meeting h.matching hle
  obtain ⟨hsame, hnew⟩ := patched_eq h.matching ((meeting_le _ _ _).trans hle) htake
  rw [← hF'] at hsame hnew
  refine ⟨he.matchIndex, he.nextIndex, he.logStore, ?_, fun k e e' hk hk' ht => ?_,
    fun e hlast ht hbeyond => ?_⟩
  · by_cases hp : L.logStore <+: F.logStore
    · rwa [hsame hp]
    · rw [hnew hp]
  · by_cases hp : L.logStore <+: F.logStore
    · rwa [hsame hp]
    · have hget := congrArg (fun l : LogStore => l[k]?) (h.matching k e e' hk hk' ht)
      rw [List.getElem?_take_of_lt (Nat.lt_succ_self k),
        List.getElem?_take_of_lt (Nat.lt_succ_self k)] at hget
      rw [hnew hp, ← hget, hk]
  · by_cases hp : L.logStore <+: F.logStore
    · rw [hsame hp]
      obtain ⟨rest, hrest⟩ := id hp
      cases rest with
      | nil => rw [← hrest, List.append_nil]
      | cons x rest =>
        -- the first entry beyond the leader's log would be of its term
        have hx : F.logStore[L.logStore.length]? = some x := by
          rw [← hrest, List.getElem?_append_right le_rfl, Nat.sub_self]
          rfl
        have hxF : x.term ≤ F.currentTerm := h.bounded x (List.mem_of_getElem? hx)
        have hsorted := h.sorted
        rw [← hrest, TermSorted, List.pairwise_append] at hsorted
        have hex := hsorted.2.2 e (List.mem_of_getLast? hlast) x List.mem_cons_self
        have := h.term_le
        exact absurd (by omega) (hbeyond _ x le_rfl hx)
    · exact hnew hp

/-- **Log repair converges** after at most `nextIndex` requests if and only if no entry of the
leader's log from the place on where the logs meet has a null key. -/
theorem repair_converges_iff {next : ℕ} (h : Diverged peerId next L F) :
    (∃ L₀, replicateTo peerId L = .ok () L₀ ∧ ∃ n ≤ next, ∃ L' F',
      Repairs peerId n L₀ F L' F' ∧ Converged peerId L F L' F') ↔
    KeyedFrom L.logStore (meeting L.logStore F.logStore (next - 1)) := by
  have hpos := h.next_pos
  have hnext : lookupKey peerId L.nextIndex = some (next - 1 + 1) := by
    rw [Nat.sub_add_cancel hpos]
    exact h.nextIndex
  have hw := replicateTo_waits h.status rfl rfl h.idle.1 h.idle.2 hnext
    (Nat.sub_le_iff_le_add.2 h.next_le) h.matched h.commit
  constructor
  · rintro ⟨L₀, hrun, n, -, L', F', hr, -⟩
    obtain ⟨request, h₀⟩ := (Wp.of_ok hrun).1 hw
    exact h₀.keyed rfl h.term_le h.done.ge hr
  · intro hkeyed
    rcases hw.elim with ⟨_, L₀, hrun, request, h₀⟩ | ⟨-, -, -, hnot⟩
    · obtain ⟨n, hn, L', F', hr, he, hF'⟩ := h₀.repairs rfl h.term_le h.done.ge hkeyed
      exact ⟨L₀, hrun, n, by omega, L', F', hr, h.converged he hF'⟩
    · exact absurd (hkeyed.mono (meeting_le _ _ _)) hnot

/-- A leader of term 2 with two entries, who starts behind its log. -/
def restarted : RaftNode :=
  { create 1 [2] with
    status := .leader
    currentTerm := 2
    logStore := [⟨1, ⟨some "x", .set, 5⟩⟩, ⟨2, ⟨some "x", .add, 1⟩⟩]
    nextIndex := [(2, 3)]
    matchIndex := [(2, 0)] }

/-- A follower with two entries of term 1 that the leader lacks. -/
def strayed : RaftNode :=
  { create 2 [1] with
    currentTerm := 1
    logStore := [⟨1, ⟨some "x", .set, 5⟩⟩, ⟨1, ⟨some "y", .set, 1⟩⟩, ⟨1, ⟨some "y", .set, 2⟩⟩] }

theorem diverged_strayed : Diverged 2 3 restarted strayed where
  status := rfl
  term_le := by decide
  matching k a b ha hb ht := by
    rcases k with _ | _ | k
    · rfl
    · obtain rfl := Option.some.inj ha
      obtain rfl := Option.some.inj hb
      exact absurd ht (by decide)
    · exact absurd hb (by simp [restarted])
  leaderSorted := by simp [restarted, TermSorted]
  sorted := by simp [strayed, TermSorted]
  leaderBounded := by decide
  bounded := by decide
  nextIndex := by decide
  next_pos := by decide
  next_le := by decide
  matched m hm := by
    rw [show lookupKey 2 restarted.matchIndex = some 0 by decide] at hm
    obtain rfl := Option.some.inj hm
    exact Nat.zero_le _
  commit := by decide
  done := rfl
  idle := ⟨by decide, rfl⟩

theorem repair_converges_strayed : ∃ L₀, replicateTo 2 restarted = .ok () L₀ ∧ ∃ n ≤ 3, ∃ L' F',
    Repairs 2 n L₀ strayed L' F' ∧ Converged 2 restarted strayed L' F' :=
  (repair_converges_iff diverged_strayed).2 (by decide)

/-- A leader whose only entry has a null key. -/
def keyless : RaftNode :=
  { create 1 [2] with
    status := .leader
    currentTerm := 1
    logStore := [⟨1, ⟨none, .set, 5⟩⟩]
    nextIndex := [(2, 1)]
    matchIndex := [(2, 0)] }

theorem diverged_keyless : Diverged 2 1 keyless (create 2 [1]) where
  status := rfl
  term_le := by decide
  matching k a b ha hb ht := by cases ha
  leaderSorted := by simp [keyless, TermSorted]
  sorted := List.Pairwise.nil
  leaderBounded := by decide
  bounded := by decide
  nextIndex := by decide
  next_pos := by decide
  next_le := by decide
  matched m hm := by
    rw [show lookupKey 2 keyless.matchIndex = some 0 by decide] at hm
    obtain rfl := Option.some.inj hm
    exact Nat.zero_le _
  commit := by decide
  done := rfl
  idle := ⟨by decide, rfl⟩

/-- Its log never gets to the follower. -/
theorem repair_stuck : Diverged 2 1 keyless (create 2 [1]) ∧
    ¬ ∃ L₀, replicateTo 2 keyless = .ok () L₀ ∧ ∃ n ≤ 1, ∃ L' F',
      Repairs 2 n L₀ (create 2 [1]) L' F' ∧ Converged 2 keyless (create 2 [1]) L' F' := by
  refine ⟨diverged_keyless, ?_⟩
  rintro ⟨L₀, hrun, -⟩
  have h := diverged_keyless
  have hw := @replicateTo_waits keyless 2 _ _ 0 h.status rfl rfl h.idle.1 h.idle.2 h.nextIndex
    (Nat.zero_le _) h.matched h.commit
  obtain ⟨request, h₀⟩ := (Wp.of_ok hrun).1 hw
  exact keyedFrom_of_toProto h₀.entries ⟨1, ⟨none, .set, 5⟩⟩ (by decide) rfl

end RaftNode

end CowRaft.Raft
