import CowRaft.Raft.Ledger
import CowRaft.Raft.Parts

/-!
# Where entries come from

Every entry of every log was appended at the index it has there, by the leader of its term, for the
client who submitted its command (`entries_submitted`): replication moves entries between logs, and
neither makes them up nor moves them to other indices. So a log is a sequence of submissions.
-/

namespace CowRaft.Raft

variable {cfg : Config} {A : Protocol} {c c' : Cluster} {e : Event} {i j : NodeId}
  {s s' : RaftNode} {P Q : ℕ → LogEntry → Prop}

/-! ## Tasks -/

/-- A log whose entries are `P`, each at its position. -/
def LogStore.Sourced (P : ℕ → LogEntry → Prop) (log : LogStore) : Prop :=
  ∀ (k : ℕ) (entry : LogEntry), log[k]? = some entry → P k entry

theorem LogStore.Sourced.mono {log : LogStore} (h : log.Sourced P)
    (hle : ∀ k entry, P k entry → Q k entry) : log.Sourced Q :=
  fun k entry he => hle k entry (h k entry he)

theorem LogStore.Sourced.append {log : LogStore} (h : log.Sourced P) {entry : LogEntry}
    (he : P log.length entry) : LogStore.Sourced P (log.append entry) := by
  intro k x hx
  unfold LogStore.append at hx
  rcases Nat.lt_trichotomy k log.length with hlt | rfl | hgt
  · rw [List.getElem?_append_left hlt] at hx
    exact h k x hx
  · rw [List.getElem?_append_right le_rfl, Nat.sub_self] at hx
    obtain rfl := Option.some.inj hx
    exact he
  · rw [List.getElem?_eq_none (by rw [List.length_append]; exact hgt)] at hx
    cases hx

namespace RaftNode

/-- The log and those behind the requests that are sent hold entries that are `P`. -/
structure Sourced (P : ℕ → LogEntry → Prop) (s : RaftNode) : Prop where
  log : s.logStore.Sourced P
  sent : ∀ r ∈ s.appendRequests, LogStore.Sourced P r.2.2

theorem Sourced.mono (h : Sourced P s) (hle : ∀ k entry, P k entry → Q k entry) : Sourced Q s where
  log := h.log.mono hle
  sent r hr := (h.sent r hr).mono hle

/-- What a task leaves in the log, and sends, are entries that were there before. -/
def Sources (P : ℕ → LogEntry → Prop) (_ok : Bool) (s s' : RaftNode) : Prop :=
  Sourced P s → Sourced P s'

instance : Composes (Sources P) where
  refl _ _ h := h
  trans h h' hs := h' (h hs)

theorem Sources.of_eq {ok : Bool} (hl : s'.logStore = s.logStore)
    (hr : s'.appendRequests = s.appendRequests) : Sources P ok s s' :=
  fun h => ⟨hl ▸ h.log, hr ▸ h.sent⟩

theorem sources_parts : Parts (Sources P) where
  reset _ := Sources.of_eq rfl rfl
  publish _ := Sources.of_eq rfl rfl
  follower seenTerm s := by
    rw [becomeFollower_eq]
    exact Sources.of_eq rfl rfl
  mark _ _ := Sources.of_eq rfl rfl
  send peerId s request h := by
    refine ⟨h.log, fun r hr => ?_⟩
    rcases List.mem_append.1 hr with hr | hr
    · exact h.sent r hr
    · rw [List.mem_singleton.1 hr]
      exact h.log
  commit := advanceCommitIndex_keeps fun _ _ => Sources.of_eq rfl rfl
  apply := by
    refine applyCommitted_keeps (fun _ => Sources.of_eq rfl rfl) (fun entry s => ?_)
      fun _ => Sources.of_eq rfl rfl
    rw [applyEntry_eq]
    exact Sources.of_eq rfl rfl
  lead _ := Sources.of_eq rfl rfl
  beat _ := Sources.of_eq rfl rfl
  round _ := Sources.of_eq rfl rfl
  ask _ := Sources.of_eq rfl rfl
  vote _ _ := Sources.of_eq rfl rfl
  count _ := Sources.of_eq rfl rfl
  record _ _ _ := Sources.of_eq rfl rfl
  lower _ _ _ := Sources.of_eq rfl rfl
  hear _ _ := Sources.of_eq rfl rfl
  expire _ _ := Sources.of_eq rfl rfl
  stop _ _ _ hs h := ⟨(hs h).log, (hs h).sent⟩
  land _ _ := Sources.of_eq rfl rfl

/-- A leader appends an entry that is `P` at the end of its log. -/
theorem submitCommand_sources (future : FutureId) (command : Command)
    (hnew : s.status = .leader → P s.logStore.length ⟨s.currentTerm, command⟩) :
    Wp (submitCommand future command) (fun _ => Sources P true s) (fun _ => Sources P false s)
      s := by
  unfold submitCommand
  rw [Wp.bind_iff, Wp.get_iff, Wp.ite_iff]
  refine ⟨fun _ h => ⟨h.log, h.sent⟩, fun hl => ?_⟩
  have happend : Sources P true s (s.appendForClient future command) :=
    fun h => ⟨h.log.append (hnew (not_not.1 hl)), h.sent⟩
  rw [Wp.bind_iff, Wp.modify_iff]
  apply (sources_parts.afterAppend _).mono
  · exact fun _ _ hs => Composes.trans happend hs
  · exact fun _ _ hs => Composes.trans happend hs

/-- Patching takes entries from the sequence at their places. -/
theorem patched_sourced {log : LogStore} {entries : List LogEntry} {idx : ℕ}
    (h : log.Sourced P) (hentries : ∀ k entry, entries[k]? = some entry → P (idx + k) entry)
    (hidx : idx ≤ log.length) : (patched log idx entries).Sourced P := by
  induction entries generalizing idx with
  | nil => exact h
  | cons entry entries ih =>
    unfold patched
    split_ifs with ht
    · obtain ⟨x, hx, -⟩ := Option.map_eq_some_iff.1 ht
      refine ih (fun k e he => ?_) (List.getElem?_eq_some_iff.1 hx).1
      rw [Nat.add_assoc, Nat.add_comm 1 k]
      exact hentries (k + 1) e he
    · intro k x hx
      rcases Nat.lt_or_ge k idx with hlt | hge
      · rw [List.getElem?_append_left (by rw [List.length_take]; omega),
          List.getElem?_take_of_lt hlt] at hx
        exact h k x hx
      · rw [List.getElem?_append_right (by rw [List.length_take]; omega), List.length_take,
          Nat.min_eq_left hidx] at hx
        have := hentries (k - idx) x hx
        rwa [Nat.add_sub_cancel' hge] at this

/-- The log after a request holds entries of the sender's log or of the old one, each at its
index. -/
theorem handleAppendEntries_log (h : Sourced P s) {request : RequestAppendEntriesRPC}
    {senderLog : LogStore} (hdone : s.commitIndex ≤ s.lastApplied)
    (hentries : ProtoMapper.entriesToProto (senderLog.drop request.prevLogIndex) =
      .ok request.entries) (hlog : senderLog.Sourced P) :
    Wp (handleAppendEntriesInternal request) (fun _ s' => s'.logStore.Sourced P)
      (fun _ _ => False) s := by
  have hall := ProtoMapper.forall₂_entriesToProto hentries
  by_cases hge : request.term < s.currentTerm
  · exact (Wp.of_ok (handle_stale hge)).2 h.log
  by_cases hprev : PrevMatches s.logStore request.prevLogIndex request.prevLogTerm
  · obtain ⟨s', hrun, hs'⟩ := handle_taken hge hprev hall hdone
    rw [Wp.of_ok hrun, hs'.logStore]
    refine patched_sourced h.log (fun k entry he => ?_) hprev.1
    rw [List.getElem?_drop] at he
    exact hlog _ entry he
  · obtain ⟨s', hrun, hs'⟩ := handle_mismatch hge hprev
    rw [Wp.of_ok hrun, hs'.logStore]
    exact h.log

/-- A follower sends no requests. -/
theorem Heard.sent {request : RequestAppendEntriesRPC} {ok : Bool} (hs : Heard request ok s s') :
    s'.appendRequests = s.appendRequests := by
  rcases hs with rfl | ⟨s₀, h₀, hs⟩
  · rfl
  have hfirst : s₀.appendRequests = s.appendRequests ∧ s₀.status = .follower := by
    rcases h₀ with ⟨⟨-, hf⟩, rfl⟩ | ⟨-, rfl⟩
    · exact ⟨rfl, hf⟩
    · rw [becomeFollower_eq]
      exact ⟨rfl, rfl⟩
  obtain ⟨-, sent, heq, -, hsent⟩ := hs.dispatched
  cases sent with
  | nil =>
    rw [heq, List.append_nil]
    exact hfirst.1
  | cons r sent =>
    have hl : s₀.status = .leader := (hsent r List.mem_cons_self).1
    rw [hfirst.2] at hl
    cases hl

/-- **A request brings the sender's entries**, each at its index. -/
theorem handleAppendEntries_sourced (h : Sourced P s) {request : RequestAppendEntriesRPC}
    {senderLog : LogStore} (hdone : s.commitIndex ≤ s.lastApplied)
    (hentries : ProtoMapper.entriesToProto (senderLog.drop request.prevLogIndex) =
      .ok request.entries) (hlog : senderLog.Sourced P) :
    Wp (handleAppendEntriesInternal request) (fun _ => Sourced P) (fun _ _ => False) s := by
  have hw : Wp (handleAppendEntriesInternal request) (fun _ s' => s'.logStore.Sourced P)
      (fun _ _ => False) s := handleAppendEntries_log h hdone hentries hlog
  apply (hw.and (handleAppendEntries_role request s)).mono
  · exact fun _ s' hs => ⟨hs.1, hs.2.sent ▸ h.sent⟩
  · exact fun _ _ hf => hf.1

end RaftNode

/-! ## Runs -/

/-- All entries of the cluster, in logs and behind requests, are `P`, each at its position. -/
structure Cluster.Sourced (P : ℕ → LogEntry → Prop) (c : Cluster) : Prop where
  nodes : ∀ i, (c.nodes i).Sourced P
  calls : ∀ call ∈ c.appendCalls, call.senderLog.Sourced P

theorem Cluster.Sourced.mono (h : c.Sourced P) (hle : ∀ k entry, P k entry → Q k entry) :
    c.Sourced Q where
  nodes i := (h.nodes i).mono hle
  calls call hcall := (h.calls call hcall).mono hle

/-- The entry was appended for some client, at the index of the position. -/
def Recorded (c : Cluster) (k : ℕ) (entry : LogEntry) : Prop :=
  ∃ i f, Created c i f (k + 1) entry

/-- What was appended for a client stays recorded. -/
theorem Changes.created_mono (h : Changes c e c' j s) (hran : Ran c e j s) {f : FutureId}
    {index : ℕ} {entry : LogEntry} (hc : Created c i f index entry) :
    Created c' i f index entry := by
  unfold Created at hc ⊢
  by_cases hi : i = j
  · subst hi
    rw [h.node]
    dsimp only
    rcases hran.created with heq | ⟨command, -, -, heq⟩
    · rwa [heq]
    · rw [heq]
      exact List.mem_append_left _ hc
  · rwa [h.other i hi]

/-- What a leader appends for a client is recorded. -/
theorem Changes.recorded {command : Command} (h : Changes c e c' j s) (hran : Ran c e j s)
    (hsub : e = .submit i command) (hl : (c.nodes i).status = .leader) :
    Recorded c' (c.nodes i).logStore.length ⟨(c.nodes i).currentTerm, command⟩ := by
  subst hsub
  cases hran with
  | submit _ _ fault s hs =>
    rcases hs with ⟨hne, -⟩ | ⟨-, hs⟩
    · exact absurd hl hne
    · refine ⟨i, c.submissions.length, ?_⟩
      have hcreated : s.history.created = (c.nodes i).history.created ++
          [(c.submissions.length, (c.nodes i).logStore.lastIndex + 1,
            ⟨(c.nodes i).currentTerm, command⟩)] := congrArg Roles.created hs.roles
      unfold Created
      rw [h.node]
      change _ ∈ s.history.created
      rw [hcreated]
      exact List.mem_append_right _ (List.mem_singleton_self _)

/-- **One event** moves entries, and appends what a client submits. -/
theorem Cluster.Sourced.step (h : c.Sourced P) (hA : Safe cfg A c)
    (hstep : Cluster.step cfg c e = some c')
    (hnew : ∀ i command, e = .submit i command → (c.nodes i).status = .leader →
      P (c.nodes i).logStore.length ⟨(c.nodes i).currentTerm, command⟩) : c'.Sourced P := by
  obtain ⟨j, -, fault, s, hs, hn, hsent⟩ := RaftNode.sources_parts.step hA hstep
    (fun i command he _ => RaftNode.submitCommand_sources _ _ (hnew i command he))
    fun k call _ hk => by
      have hmem := List.mem_of_getElem? hk
      have hcall := hA.appendCalls call hmem
      exact (RaftNode.handleAppendEntries_sourced (h.nodes call.peer) (hA.done _ hcall.peer.1).ge
        hcall.request.entries (h.calls call hmem)).mono (fun _ _ hs _ => hs) fun _ _ hf => hf.elim
  have hsourced := hs (h.nodes j)
  refine ⟨fun i => ?_, fun call hcall => ?_⟩
  · rw [hn]
    exact Cluster.put_nodes (P := fun _ s => s.Sourced P) (s := Cluster.settle fault s)
      ⟨hsourced.log, fun r hr => absurd hr List.not_mem_nil⟩ (fun j _ => h.nodes j) i
  · rcases hsent call hcall with ⟨old, hold, -, heq⟩ | hnew
    · rw [heq]
      exact h.calls old hold
    · obtain ⟨r, hr, rfl⟩ := List.mem_map.1 hnew
      exact hsourced.sent r hr

theorem exists_sourced (h : Cluster.Reachable cfg c) : c.Sourced (Recorded c) := by
  induction h with
  | refl =>
    refine ⟨fun _ => ⟨fun k entry he => ?_, fun r hr => absurd hr List.not_mem_nil⟩,
      fun call hcall => absurd hcall List.not_mem_nil⟩
    cases he
  | tail hrun hs ih =>
    obtain ⟨e, hstep⟩ := hs
    obtain ⟨A, hA⟩ := exists_safe hrun
    obtain ⟨j, -, s, hran, hch⟩ := hA.ran hstep
    refine (ih.mono ?_).step hA hstep fun i command hsub hl => hch.recorded hran hsub hl
    exact fun k entry ⟨i, f, hc⟩ => ⟨i, f, hch.created_mono hran hc⟩

/-- **Entries come from clients**: every entry of a log, or of the log behind a request, was
appended at its index for a client who submitted its command, and no two indices of any logs hold
entries for one submission. -/
theorem entries_submitted (h : Cluster.Reachable cfg c) :
    (∀ l, c.HasLog cfg l → ∀ (k : ℕ) (entry : LogEntry), l[k]? = some entry →
      ∃ i f, Created c i f (k + 1) entry ∧ c.submissions[f]? = some (i, entry.command)) ∧
    ∀ f i j index index' entry entry', Created c i f index entry →
      Created c j f index' entry' → i = j ∧ index = index' ∧ entry = entry' := by
  have hL := exists_ledger h
  have hS := exists_sourced h
  refine ⟨fun l hl k entry he => ?_, fun f i j index index' entry entry' hc hc' => ?_⟩
  · have hrec : Recorded c k entry := by
      rcases hl with ⟨i, -, rfl⟩ | ⟨call, hcall, -, rfl⟩
      · exact (hS.nodes i).log k entry he
      · exact hS.calls call hcall k entry he
    obtain ⟨i, f, hc⟩ := hrec
    exact ⟨i, f, hc, hL.submitted i f _ entry hc⟩
  · have hsub := hL.submitted i f index entry hc
    rw [hL.submitted j f index' entry' hc'] at hsub
    obtain rfl : j = i := congrArg Prod.fst (Option.some.inj hsub)
    exact ⟨rfl, hL.once j f index index' entry entry' hc hc'⟩

theorem entries_submitted_second : ∃ i f, Created afterSecond i f 2 ⟨2, ⟨some "x", .add, 1⟩⟩ ∧
    afterSecond.submissions[f]? = some (i, ⟨some "x", .add, 1⟩) := by
  have hlog : (afterSecond.nodes 2).logStore[1]? = some ⟨2, ⟨some "x", .add, 1⟩⟩ := by
    decide +kernel
  exact (entries_submitted reachable_afterSecond).1 _ (Or.inl ⟨2, by decide, rfl⟩) 1 _ hlog

end CowRaft.Raft
