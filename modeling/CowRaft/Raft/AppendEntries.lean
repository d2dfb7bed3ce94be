import CowRaft.Raft.Roles

/-!
# Requests with entries, exactly

What a replica makes of any request with entries, sent by whomever: the log after it (`Spliced`),
and that handling the request again changes nothing (`append_entries_exact`). The state need not
be one that a cluster can get to; all that is assumed is that everything committed is applied.
-/

namespace CowRaft.Raft

namespace RaftNode

variable {s s' : RaftNode} {request : RequestAppendEntriesRPC} {log : LogStore} {idx : ℕ}
  {entries : List LogEntry}

/-! ## The patched log -/

/-- The log has an entry of the term at a 0-based position. -/
def HasTerm (log : LogStore) (i term : ℕ) : Prop := (log[i]?).map (·.term) = some term

/-- The log holds the entries behind `idx`, as far as their terms tell. -/
def Agrees (log : LogStore) (idx : ℕ) (entries : List LogEntry) : Prop :=
  ∀ (i : ℕ) (entry : LogEntry), entries[i]? = some entry → HasTerm log (idx + i) entry.term

/-- `entry` is the first of the entries behind `idx` that the log does not hold. -/
structure Differs (log : LogStore) (idx : ℕ) (entries : List LogEntry) (k : ℕ) (entry : LogEntry) :
    Prop where
  get : entries[k]? = some entry
  ne : ¬ HasTerm log (idx + k) entry.term
  before : ∀ (i : ℕ) (e : LogEntry), i < k → entries[i]? = some e → HasTerm log (idx + i) e.term

theorem agrees_or_differs (log : LogStore) (idx : ℕ) (entries : List LogEntry) :
    Agrees log idx entries ∨ ∃ k entry, Differs log idx entries k entry := by
  by_cases h : ∃ k entry, entries[k]? = some entry ∧ ¬ HasTerm log (idx + k) entry.term
  · classical
    obtain ⟨entry, hget, hne⟩ := Nat.find_spec h
    refine Or.inr ⟨Nat.find h, entry, hget, hne, fun i e hi he => ?_⟩
    by_contra hnot
    exact Nat.find_min h hi ⟨e, he, hnot⟩
  · refine Or.inl fun i entry hi => ?_
    by_contra hnot
    exact h ⟨i, entry, hi, hnot⟩

theorem patched_cons_of_hasTerm {entry : LogEntry} (h : HasTerm log idx entry.term) :
    patched log idx (entry :: entries) = patched log (idx + 1) entries := by
  rw [patched]
  exact if_pos h

theorem patched_cons_of_not {entry : LogEntry} (h : ¬ HasTerm log idx entry.term) :
    patched log idx (entry :: entries) = log.take idx ++ entry :: entries := by
  rw [patched]
  exact if_neg h

theorem Agrees.tail {entry : LogEntry} (h : Agrees log idx (entry :: entries)) :
    Agrees log (idx + 1) entries := fun i e he => by
  have := h (i + 1) e he
  rwa [show idx + (i + 1) = idx + 1 + i by omega] at this

theorem patched_of_agrees (h : Agrees log idx entries) : patched log idx entries = log := by
  induction entries generalizing idx with
  | nil => rfl
  | cons entry entries ih =>
    have h0 : HasTerm log idx entry.term := h 0 entry rfl
    rw [patched_cons_of_hasTerm h0]
    exact ih h.tail

theorem patched_of_differs {k : ℕ} {entry : LogEntry} (h : Differs log idx entries k entry) :
    patched log idx entries = log.take (idx + k) ++ entries.drop k := by
  induction entries generalizing idx k with
  | nil => cases h.get
  | cons e entries ih =>
    cases k with
    | zero =>
      obtain rfl := Option.some.inj h.get
      exact patched_cons_of_not h.ne
    | succ k =>
      have h0 : HasTerm log idx e.term := h.before 0 e (Nat.succ_pos k) rfl
      rw [patched_cons_of_hasTerm h0, show idx + (k + 1) = idx + 1 + k by omega]
      refine ih ⟨h.get, ?_, fun i e' hi he' => ?_⟩
      · have := h.ne
        rwa [show idx + (k + 1) = idx + 1 + k by omega] at this
      · have := h.before (i + 1) e' (Nat.succ_lt_succ hi) he'
        rwa [show idx + (i + 1) = idx + 1 + i by omega] at this

/-- The log reaches the first entry that it does not hold. -/
theorem Differs.le_length {k : ℕ} {entry : LogEntry} (h : Differs log idx entries k entry)
    (hidx : idx ≤ log.length) : idx + k ≤ log.length := by
  cases k with
  | zero => exact hidx
  | succ k =>
    have hlt := (List.getElem?_eq_some_iff.1 h.get).1
    have hk := h.before k entries[k] (Nat.lt_succ_self k) (List.getElem?_eq_getElem (by omega))
    obtain ⟨x, hx, -⟩ := Option.map_eq_some_iff.1 hk
    have := (List.getElem?_eq_some_iff.1 hx).1
    omega

/-- What is before the entries stays. -/
theorem take_patched (hidx : idx ≤ log.length) : (patched log idx entries).take idx =
    log.take idx := by
  rcases agrees_or_differs log idx entries with h | ⟨k, entry, h⟩
  · rw [patched_of_agrees h]
  · rw [patched_of_differs h]
    have := h.le_length hidx
    rw [List.take_append_of_le_length (by rw [List.length_take]; omega), List.take_take,
      Nat.min_eq_left (Nat.le_add_right idx k)]

/-- The patched log holds the entries. -/
theorem agrees_patched (hidx : idx ≤ log.length) :
    Agrees (patched log idx entries) idx entries := by
  rcases agrees_or_differs log idx entries with h | ⟨k, entry, h⟩
  · rwa [patched_of_agrees h]
  · rw [patched_of_differs h]
    have hle := h.le_length hidx
    have hlen : (log.take (idx + k)).length = idx + k := by rw [List.length_take]; omega
    intro i e he
    unfold HasTerm
    rcases Nat.lt_or_ge i k with hik | hik
    · rw [List.getElem?_append_left (by omega), List.getElem?_take_of_lt (by omega)]
      exact h.before i e hik he
    · rw [List.getElem?_append_right (by omega), hlen, List.getElem?_drop,
        show k + (idx + i - (idx + k)) = i by omega, he, Option.map_some]

/-- **Patching twice** is patching once. -/
theorem patched_patched (hidx : idx ≤ log.length) :
    patched (patched log idx entries) idx entries = patched log idx entries :=
  patched_of_agrees (agrees_patched hidx)

theorem length_patched (hidx : idx ≤ log.length) :
    idx + entries.length ≤ (patched log idx entries).length := by
  have htake := congrArg List.length (@take_patched log idx entries hidx)
  rw [List.length_take, List.length_take, Nat.min_eq_left hidx] at htake
  rcases Nat.eq_zero_or_pos entries.length with h0 | hpos
  · omega
  · have hlast := agrees_patched hidx (entries.length - 1) entries[entries.length - 1]
      (List.getElem?_eq_getElem (by omega))
    obtain ⟨x, hx, -⟩ := Option.map_eq_some_iff.1 hlast
    have := (List.getElem?_eq_some_iff.1 hx).1
    omega

theorem prevMatches_patched {prevLogTerm : ℕ} (h : PrevMatches log idx prevLogTerm) :
    PrevMatches (patched log idx entries) idx prevLogTerm := by
  have htake := @take_patched log idx entries h.1
  have hlen := @length_patched log idx entries h.1
  refine ⟨by omega, fun h0 => ?_⟩
  obtain ⟨x, hx, ht⟩ := h.2 h0
  have hget := congrArg (fun l : LogStore => l[idx - 1]?) htake
  simp only [List.getElem?_take_of_lt (show idx - 1 < idx by omega)] at hget
  exact ⟨x, hget.trans hx, ht⟩

/-! ## The handler -/

theorem followCommit_eq (leaderCommit idx : ℕ) (s : RaftNode) :
    followCommit leaderCommit idx s = { s with
      commitIndex := if leaderCommit > s.commitIndex then min leaderCommit idx
        else s.commitIndex } := by
  unfold followCommit
  split_ifs <;> rfl

/-- What is done with a request once the replica follows its sender. -/
def takeUp (request : RequestAppendEntriesRPC) : Task ResponseAppendEntriesRPC := do
  if ¬ (← prevLogMatches request.prevLogIndex request.prevLogTerm) then
    modify publishSnapshot
    return ⟨(← get).currentTerm, false⟩
  else
    let idx ← patchLog request.entries request.prevLogIndex
    modify (followCommit request.leaderCommit idx)
    applyCommitted
    return ⟨(← get).currentTerm, true⟩

/-- The replica as a follower of the sender of a request. -/
def follow (request : RequestAppendEntriesRPC) (s : RaftNode) : RaftNode :=
  (if request.term > s.currentTerm ∨ s.status ≠ .follower then becomeFollower request.term s
    else s).hearLeader request.leaderId

theorem handleAppendEntries_wp {Q : ResponseAppendEntriesRPC → RaftNode → Prop}
    {E : Fault → RaftNode → Prop} (hge : ¬ request.term < s.currentTerm)
    (h : Wp (takeUp request) Q E (s.follow request)) :
    Wp (handleAppendEntriesInternal request) Q E s := by
  unfold handleAppendEntriesInternal
  simp only [Wp.bind_iff, Wp.modify_iff, Wp.get_iff, Wp.ite_iff, Wp.pure_iff]
  refine ⟨fun hlt => absurd hlt hge, fun _ => ⟨fun hdown => ?_, fun hsame => ?_⟩⟩
  · unfold follow at h
    rw [if_pos hdown] at h
    exact h
  · unfold follow at h
    rw [if_neg hsame] at h
    exact h

/-- What handling a request leaves alone when it is handled again. -/
structure Unchanged (s s' : RaftNode) : Prop where
  logStore : s'.logStore = s.logStore
  commitIndex : s'.commitIndex = s.commitIndex
  lastApplied : s'.lastApplied = s.lastApplied
  stateMachine : s'.stateMachine = s.stateMachine
  currentTerm : s'.currentTerm = s.currentTerm
  votedFor : s'.votedFor = s.votedFor
  status : s'.status = s.status

/-- Following a leader changes the role; nothing but the log may have changed besides. -/
structure Followed (request : RequestAppendEntriesRPC) (log : LogStore) (s s' : RaftNode) :
    Prop where
  logStore : s'.logStore = log
  commitIndex : s'.commitIndex = s.commitIndex
  lastApplied : s'.lastApplied = s.lastApplied
  stateMachine : s'.stateMachine = s.stateMachine
  currentTerm : s'.currentTerm = request.term
  votedFor : s'.votedFor = if request.term > s.currentTerm then none else s.votedFor
  status : s'.status = .follower

theorem followed_follow (hge : ¬ request.term < s.currentTerm) :
    Followed request s.logStore s (s.follow request) := by
  unfold follow
  split_ifs with h
  · rw [becomeFollower_eq]
    exact ⟨rfl, rfl, rfl, rfl, Nat.max_eq_right (Nat.le_of_not_lt hge), rfl, rfl⟩
  · obtain ⟨hle, hf⟩ := not_or.1 h
    have hterm : s.currentTerm = request.term := by omega
    exact ⟨rfl, rfl, rfl, rfl, hterm, (if_neg hle).symm, not_not.1 hf⟩

/-- A request whose entries were taken up. -/
structure Taken (request : RequestAppendEntriesRPC) (entries : List LogEntry) (s s' : RaftNode) :
    Prop where
  logStore : s'.logStore = patched s.logStore request.prevLogIndex entries
  commitIndex : s'.commitIndex = if request.leaderCommit > s.commitIndex then
    min request.leaderCommit (request.prevLogIndex + entries.length) else s.commitIndex
  lastApplied : s'.lastApplied = max s.lastApplied s'.commitIndex
  stateMachine : s'.commitIndex ≤ s.lastApplied → s'.stateMachine = s.stateMachine
  currentTerm : s'.currentTerm = request.term
  votedFor : s'.votedFor = if request.term > s.currentTerm then none else s.votedFor
  status : s'.status = .follower

theorem handle_stale (h : request.term < s.currentTerm) :
    handleAppendEntriesInternal request s = .ok ⟨s.currentTerm, false⟩ s := by
  have hw : Wp (handleAppendEntriesInternal request)
      (fun r s' => r = ⟨s.currentTerm, false⟩ ∧ s' = s) (fun _ _ => False) s := by
    unfold handleAppendEntriesInternal
    simp only [Wp.bind_iff, Wp.modify_iff, Wp.get_iff, Wp.ite_iff, Wp.pure_iff]
    exact ⟨fun _ => ⟨trivial, trivial⟩, fun hge => absurd h hge⟩
  obtain ⟨r, s', hrun, rfl, rfl⟩ := hw.exists_ok
  exact hrun

/-- **A request that does not fit the log** is refused. -/
theorem handle_mismatch (hge : ¬ request.term < s.currentTerm)
    (hprev : ¬ PrevMatches s.logStore request.prevLogIndex request.prevLogTerm) :
    ∃ s', handleAppendEntriesInternal request s = .ok ⟨request.term, false⟩ s' ∧
      Followed request s.logStore s s' := by
  have hf := followed_follow hge
  have hw : Wp (handleAppendEntriesInternal request)
      (fun r s' => r = ⟨request.term, false⟩ ∧ Followed request s.logStore s s')
      (fun _ _ => False) s := by
    apply handleAppendEntries_wp hge
    unfold takeUp
    simp only [Wp.bind_iff]
    apply (prevLogMatches_wp _ _).mono
    · rintro b s₁ ⟨rfl, hb⟩
      simp only [Wp.bind_iff, Wp.ite_iff, Wp.modify_iff, Wp.get_iff, Wp.pure_iff]
      refine ⟨fun _ => ⟨congrArg (ResponseAppendEntriesRPC.mk · false) hf.currentTerm,
        { hf with }⟩, fun h => ?_⟩
      rw [hf.logStore] at hb
      exact absurd (hb.1 (not_not.1 h)) hprev
    · exact fun _ _ hf => hf
  obtain ⟨r, s', hrun, rfl, hs'⟩ := hw.exists_ok
  exact ⟨s', hrun, hs'⟩

/-- **A request that fits the log** is taken up. -/
theorem handle_taken (hge : ¬ request.term < s.currentTerm)
    (hprev : PrevMatches s.logStore request.prevLogIndex request.prevLogTerm)
    (hall : List.Forall₂ (fun proto entry => ProtoMapper.fromProto proto = .ok entry)
      request.entries entries) (hdone : s.commitIndex ≤ s.lastApplied) :
    ∃ s', handleAppendEntriesInternal request s = .ok ⟨request.term, true⟩ s' ∧
      Taken request entries s s' := by
  have hf := followed_follow hge
  have hlen := @length_patched _ _ entries hprev.1
  have hw : Wp (handleAppendEntriesInternal request)
      (fun r s' => r = ⟨request.term, true⟩ ∧ Taken request entries s s')
      (fun _ _ => False) s := by
    apply handleAppendEntries_wp hge
    unfold takeUp
    simp only [Wp.bind_iff]
    apply (prevLogMatches_wp _ _).mono
    · rintro b s₁ ⟨rfl, hb⟩
      rw [hf.logStore] at hb
      simp only [Wp.bind_iff, Wp.ite_iff, Wp.modify_iff, Wp.get_iff, Wp.pure_iff]
      refine ⟨fun h => absurd (hb.2 hprev) h, fun _ => ?_⟩
      apply (patchLog_wp hall (hf.logStore ▸ hprev.1)).mono
      · rintro idx s₂ ⟨rfl, cuts, rfl, -⟩
        simp only [Wp.bind_iff, Wp.modify_iff]
        rw [followCommit_eq]
        dsimp only
        rw [hf.commitIndex, hf.logStore]
        set k := if request.leaderCommit > s.commitIndex then
          min request.leaderCommit (request.prevLogIndex + entries.length) else s.commitIndex
          with hk
        have hle : s.lastApplied < k →
            k ≤ (patched s.logStore request.prevLogIndex entries).length := by
          rw [hk]
          split_ifs
          · exact fun _ => (min_le_right _ _).trans hlen
          · exact fun hlt => absurd hlt (Nat.not_lt_of_ge hdone)
        apply (applyCommitted_wp ?_).mono
        · rintro - s₃ ⟨s₄, ⟨machine, pending, completed, history, heq⟩, hsame, rfl⟩
          simp only [Wp.bind_iff, Wp.get_iff, Wp.pure_iff]
          subst heq
          refine ⟨congrArg (ResponseAppendEntriesRPC.mk · true) hf.currentTerm, ?_⟩
          exact {
            logStore := rfl
            commitIndex := rfl
            lastApplied := by
              dsimp only [publishSnapshot]
              rw [hf.lastApplied]
            stateMachine := fun hk => by
              have := congrArg RaftNode.stateMachine (hsame (by
                dsimp only
                rw [hf.lastApplied]
                exact hk))
              exact this.trans hf.stateMachine
            currentTerm := hf.currentTerm
            votedFor := hf.votedFor
            status := hf.status }
        · exact fun _ _ hf => hf
        · dsimp only
          rw [hf.lastApplied]
          exact hle
      · exact fun _ _ hf => hf
    · exact fun _ _ hf => hf
  obtain ⟨r, s', hrun, rfl, hs'⟩ := hw.exists_ok
  exact ⟨s', hrun, hs'⟩

/-- **A request with an action that nobody knows** is taken up as far as there. -/
theorem handle_throws (hge : ¬ request.term < s.currentTerm)
    (hprev : PrevMatches s.logStore request.prevLogIndex request.prevLogTerm)
    {protos rest : List ProtoLogEntry} {proto : ProtoLogEntry} {e : Fault}
    (hall : List.Forall₂ (fun proto entry => ProtoMapper.fromProto proto = .ok entry) protos
      entries) (hbad : ProtoMapper.fromProto proto = .error e)
    (heq : request.entries = protos ++ proto :: rest) :
    ∃ s', handleAppendEntriesInternal request s = .error e s' ∧
      Followed request (patched s.logStore request.prevLogIndex entries) s s' := by
  have hf := followed_follow hge
  have hw : Wp (handleAppendEntriesInternal request) (fun _ _ => False)
      (fun e' s' => e' = e ∧
        Followed request (patched s.logStore request.prevLogIndex entries) s s') s := by
    apply handleAppendEntries_wp hge
    unfold takeUp
    simp only [Wp.bind_iff]
    apply (prevLogMatches_wp _ _).mono
    · rintro b s₁ ⟨rfl, hb⟩
      rw [hf.logStore] at hb
      simp only [Wp.bind_iff, Wp.ite_iff, Wp.modify_iff, Wp.get_iff, Wp.pure_iff]
      refine ⟨fun h => absurd (hb.2 hprev) h, fun _ => ?_⟩
      rw [heq]
      apply patchLog_append_wp hall (hf.logStore ▸ hprev.1)
      rintro s₂ ⟨cuts, rfl, -⟩
      unfold patchLog
      simp only [hbad, Wp.bind_iff, Wp.ofExcept_error]
      refine ⟨trivial, { hf with logStore := ?_ }⟩
      dsimp only
      rw [hf.logStore]
    · exact fun _ _ hf => hf.elim
  obtain ⟨e', s', hrun, rfl, hs'⟩ := hw.exists_error
  exact ⟨s', hrun, hs'⟩

/-! ## Twice -/

/-- Handling the request again ends as it did before, and changes nothing. -/
def Repeats (request : RequestAppendEntriesRPC) (s : RaftNode) : Prop :=
  (∀ reply s', handleAppendEntriesInternal request s = .ok reply s' →
    ∃ s'', handleAppendEntriesInternal request s' = .ok reply s'' ∧ Unchanged s' s'') ∧
  ∀ e s', handleAppendEntriesInternal request s = .error e s' →
    ∃ s'', handleAppendEntriesInternal request s' = .error e s'' ∧ Unchanged s' s''

theorem Repeats.of_ok {reply : ResponseAppendEntriesRPC}
    (h : handleAppendEntriesInternal request s = .ok reply s')
    (h' : ∃ s'', handleAppendEntriesInternal request s' = .ok reply s'' ∧ Unchanged s' s'') :
    Repeats request s := by
  refine ⟨fun reply' s₁ h₁ => ?_, fun e s₁ h₁ => ?_⟩
  · rw [h] at h₁
    cases h₁
    exact h'
  · rw [h] at h₁
    cases h₁

theorem Repeats.of_error {e : Fault} (h : handleAppendEntriesInternal request s = .error e s')
    (h' : ∃ s'', handleAppendEntriesInternal request s' = .error e s'' ∧ Unchanged s' s'') :
    Repeats request s := by
  refine ⟨fun reply s₁ h₁ => ?_, fun e' s₁ h₁ => ?_⟩
  · rw [h] at h₁
    cases h₁
  · rw [h] at h₁
    cases h₁
    exact h'

/-- The sender is already followed. -/
theorem Followed.unchanged {s'' : RaftNode} {log log' : LogStore}
    (h : Followed request log s s') (h' : Followed request log' s' s'') (hlog : log' = log) :
    Unchanged s' s'' where
  logStore := by rw [h'.logStore, h.logStore, hlog]
  commitIndex := h'.commitIndex
  lastApplied := h'.lastApplied
  stateMachine := h'.stateMachine
  currentTerm := h'.currentTerm.trans h.currentTerm.symm
  votedFor := by rw [h'.votedFor, if_neg (by rw [h.currentTerm]; exact lt_irrefl _)]
  status := h'.status.trans h.status.symm

theorem Taken.unchanged {s'' : RaftNode} (h : Taken request entries s s')
    (h' : Taken request entries s' s'') (hidx : request.prevLogIndex ≤ s.logStore.length) :
    Unchanged s' s'' := by
  have hcommit : s''.commitIndex = s'.commitIndex := by
    have h₁ := h.commitIndex
    have h₂ := h'.commitIndex
    split_ifs at h₁ h₂ <;> omega
  have happlied := h.lastApplied
  exact {
    logStore := by rw [h'.logStore, h.logStore, patched_patched hidx]
    commitIndex := hcommit
    lastApplied := by
      rw [h'.lastApplied]
      omega
    stateMachine := h'.stateMachine (by omega)
    currentTerm := h'.currentTerm.trans h.currentTerm.symm
    votedFor := by rw [h'.votedFor, if_neg (by rw [h.currentTerm]; exact lt_irrefl _)]
    status := h'.status.trans h.status.symm }

/-- The entries of a request can be read, or one of them cannot. -/
theorem readable_or_not (protos : List ProtoLogEntry) :
    (∃ entries, List.Forall₂ (fun proto entry => ProtoMapper.fromProto proto = .ok entry) protos
      entries) ∨ ∃ good entries proto e rest, protos = good ++ proto :: rest ∧
        List.Forall₂ (fun proto entry => ProtoMapper.fromProto proto = .ok entry) good entries ∧
        ProtoMapper.fromProto proto = .error e := by
  induction protos with
  | nil => exact Or.inl ⟨[], .nil⟩
  | cons proto protos ih =>
    cases hp : ProtoMapper.fromProto proto with
    | error e => exact Or.inr ⟨[], [], proto, e, protos, rfl, .nil, hp⟩
    | ok entry =>
      rcases ih with ⟨entries, hall⟩ | ⟨good, entries, proto', e, rest, heq, hall, hbad⟩
      · exact Or.inl ⟨entry :: entries, .cons hp hall⟩
      · exact Or.inr ⟨proto :: good, entry :: entries, proto', e, rest, by rw [heq]; rfl,
          .cons hp hall, hbad⟩

theorem exists_of_forall₂ {protos : List ProtoLogEntry} {proto : ProtoLogEntry}
    (hall : List.Forall₂ (fun proto entry => ProtoMapper.fromProto proto = .ok entry) protos
      entries) (hmem : proto ∈ protos) : ∃ entry, ProtoMapper.fromProto proto = .ok entry := by
  induction hall with
  | nil => cases hmem
  | cons hp _ ih =>
    rcases List.mem_cons.1 hmem with rfl | hmem
    · exact ⟨_, hp⟩
    · exact ih hmem

theorem repeats (hdone : s.commitIndex ≤ s.lastApplied) : Repeats request s := by
  by_cases hge : request.term < s.currentTerm
  · have hrun := handle_stale hge
    exact Repeats.of_ok hrun ⟨s, hrun, rfl, rfl, rfl, rfl, rfl, rfl, rfl⟩
  by_cases hprev : PrevMatches s.logStore request.prevLogIndex request.prevLogTerm
  · rcases readable_or_not request.entries with ⟨entries, hall⟩ |
      ⟨good, entries, proto, e, rest, heq, hall, hbad⟩
    · obtain ⟨s', hrun, hs'⟩ := handle_taken hge hprev hall hdone
      have hge' : ¬ request.term < s'.currentTerm := hs'.currentTerm ▸ lt_irrefl _
      have hprev' := @prevMatches_patched _ _ entries _ hprev
      rw [← hs'.logStore] at hprev'
      have happlied := hs'.lastApplied
      obtain ⟨s'', hrun', hs''⟩ := handle_taken hge' hprev' hall (by omega)
      exact Repeats.of_ok hrun ⟨s'', hrun', hs'.unchanged hs'' hprev.1⟩
    · obtain ⟨s', hrun, hs'⟩ := handle_throws hge hprev hall hbad heq
      have hge' : ¬ request.term < s'.currentTerm := hs'.currentTerm ▸ lt_irrefl _
      have hprev' := @prevMatches_patched _ _ entries _ hprev
      rw [← hs'.logStore] at hprev'
      obtain ⟨s'', hrun', hs''⟩ := handle_throws hge' hprev' hall hbad heq
      refine Repeats.of_error hrun ⟨s'', hrun', hs'.unchanged hs'' ?_⟩
      rw [hs'.logStore]
      exact patched_patched hprev.1
  · obtain ⟨s', hrun, hs'⟩ := handle_mismatch hge hprev
    have hge' : ¬ request.term < s'.currentTerm := hs'.currentTerm ▸ lt_irrefl _
    obtain ⟨s'', hrun', hs''⟩ := handle_mismatch hge' (hs'.logStore.symm ▸ hprev)
    exact Repeats.of_ok hrun ⟨s'', hrun', hs'.unchanged hs'' hs'.logStore⟩

/-! ## The answer -/

/-- The request is stale, reaches past the end of the log, or builds on an entry of another
term. -/
def Rejects (request : RequestAppendEntriesRPC) (s : RaftNode) : Prop :=
  request.term < s.currentTerm ∨ s.logStore.lastIndex < request.prevLogIndex ∨
    0 < request.prevLogIndex ∧ ∃ entry, s.logStore[request.prevLogIndex - 1]? = some entry ∧
      entry.term ≠ request.prevLogTerm

theorem rejects_iff : Rejects request s ↔ request.term < s.currentTerm ∨
    ¬ PrevMatches s.logStore request.prevLogIndex request.prevLogTerm := by
  unfold Rejects PrevMatches LogStore.lastIndex
  refine or_congr_right ⟨?_, fun h => ?_⟩
  · rintro (h | ⟨hpos, x, hx, hne⟩) ⟨hle, hterm⟩
    · omega
    · obtain ⟨y, hy, ht⟩ := hterm (Nat.ne_of_gt hpos)
      rw [hx] at hy
      exact hne (Option.some.inj hy ▸ ht)
  · by_contra hnot
    obtain ⟨hle, hsame⟩ := not_or.1 hnot
    refine h ⟨Nat.le_of_not_lt hle, fun h0 => ?_⟩
    have hlt : request.prevLogIndex - 1 < s.logStore.length := by omega
    refine ⟨_, List.getElem?_eq_getElem hlt, ?_⟩
    by_contra hne
    exact hsame ⟨Nat.pos_of_ne_zero h0, _, List.getElem?_eq_getElem hlt, hne⟩

/-- The log after a request that was accepted: nothing has changed if it holds all the entries,
and it ends with all of them from the first one on that it lacks. -/
structure Spliced (log : LogStore) (idx : ℕ) (entries : List LogEntry) (log' : LogStore) :
    Prop where
  kept : Agrees log idx entries → log' = log
  spliced : ∀ k entry, Differs log idx entries k entry →
    log' = log.take (idx + k) ++ entries.drop k

/-- **Requests are handled exactly, and twice is once**: a request that is rejected leaves what is
stored as it was, a request that is accepted splices its entries into the log, and handling it
again gives the same answer and changes nothing. A request that is not rejected is accepted if all
its actions are known, and throws otherwise. -/
theorem append_entries_exact (s : RaftNode) (request : RequestAppendEntriesRPC)
    (hdone : s.lastApplied = s.commitIndex) :
    (Rejects request s → ∃ s',
      handleAppendEntriesInternal request s = .ok ⟨max s.currentTerm request.term, false⟩ s' ∧
        s'.logStore = s.logStore ∧ s'.commitIndex = s.commitIndex ∧
        s'.stateMachine = s.stateMachine) ∧
    (¬ Rejects request s → ∀ entries,
      List.Forall₂ (fun proto entry => ProtoMapper.fromProto proto = .ok entry) request.entries
        entries →
      ∃ s', handleAppendEntriesInternal request s = .ok ⟨request.term, true⟩ s' ∧
        Spliced s.logStore request.prevLogIndex entries s'.logStore) ∧
    (¬ Rejects request s → (∃ proto ∈ request.entries, proto.command.action = .unrecognized) →
      ∃ e s', handleAppendEntriesInternal request s = .error e s') ∧
    Repeats request s := by
  refine ⟨fun hr => ?_, fun hr entries hall => ?_, fun hr hbad => ?_, repeats hdone.ge⟩
  · by_cases hge : request.term < s.currentTerm
    · refine ⟨s, ?_, rfl, rfl, rfl⟩
      rw [Nat.max_eq_left hge.le]
      exact handle_stale hge
    · obtain ⟨s', hrun, hs'⟩ := handle_mismatch hge ((rejects_iff.1 hr).resolve_left hge)
      rw [Nat.max_eq_right (Nat.le_of_not_lt hge)]
      exact ⟨s', hrun, hs'.logStore, hs'.commitIndex, hs'.stateMachine⟩
  · obtain ⟨hge, hprev⟩ := not_or.1 (mt rejects_iff.2 hr)
    obtain ⟨s', hrun, hs'⟩ := handle_taken hge (not_not.1 hprev) hall hdone.ge
    refine ⟨s', hrun, fun h => ?_, fun k entry h => ?_⟩
    · rw [hs'.logStore, patched_of_agrees h]
    · rw [hs'.logStore, patched_of_differs h]
  · obtain ⟨hge, hprev⟩ := not_or.1 (mt rejects_iff.2 hr)
    obtain ⟨proto, hmem, haction⟩ := hbad
    rcases readable_or_not request.entries with ⟨entries, hall⟩ |
      ⟨good, entries, proto', e, rest, heq, hall, herr⟩
    · obtain ⟨entry, hentry⟩ := exists_of_forall₂ hall hmem
      exact absurd hentry (by
        unfold ProtoMapper.fromProto ProtoMapper.commandFromProto
        rw [haction]
        exact fun h => by cases h)
    · obtain ⟨s', hrun, -⟩ := handle_throws hge (not_not.1 hprev) hall herr heq
      exact ⟨e, s', hrun⟩

theorem append_entries_exact_new :
    Repeats ⟨1, 2, 0, 0, [⟨1, "x", .set, 5⟩], 0⟩ (create 1 [2]) :=
  (append_entries_exact (create 1 [2]) ⟨1, 2, 0, 0, [⟨1, "x", .set, 5⟩], 0⟩ rfl).2.2.2

end RaftNode

end CowRaft.Raft
