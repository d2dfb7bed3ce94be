import CowRaft.Raft.Ledger
import CowRaft.Raft.Parts

/-!
# Futures

A replica knows the futures of the clients who came to it: each of them is completed once, or it
waits for an entry that is not applied yet (`futures_accounted`). No step-down, election, lost
request or exception loses a client, and none is answered twice or by another replica.
-/

namespace CowRaft.Raft

variable {cfg : Config} {A : Protocol} {c c' : Cluster} {e : Event} {i j : NodeId}
  {s s' : RaftNode} {f : FutureId} {ok : Bool}

namespace RaftNode

/-! ## Completing futures -/

/-- The futures completed so far. -/
def done (completed : List (FutureId × CommandResult)) : List FutureId := completed.map Prod.fst

theorem mem_done_complete {f' : FutureId} {r : CommandResult}
    {completed : List (FutureId × CommandResult)} :
    f ∈ done (complete f' r completed) ↔ f ∈ done completed ∨ f = f' := by
  unfold complete
  split_ifs with hany
  · have hmem : f' ∈ done completed := by
      obtain ⟨fr, hfr, heq⟩ := List.any_eq_true.1 hany
      exact List.mem_map.2 ⟨fr, hfr, of_decide_eq_true heq⟩
    exact ⟨Or.inl, fun h => h.elim id fun h => h ▸ hmem⟩
  · unfold done
    rw [List.map_append, List.mem_append, List.map_singleton, List.mem_singleton]

theorem complete_start (f' : FutureId) (r : CommandResult)
    (completed : List (FutureId × CommandResult)) : completed <+: complete f' r completed := by
  unfold complete
  split_ifs
  · exact List.prefix_rfl
  · exact List.prefix_append _ _

theorem nodup_done_complete {f' : FutureId} {r : CommandResult}
    {completed : List (FutureId × CommandResult)} (h : (done completed).Nodup) :
    (done (complete f' r completed)).Nodup := by
  unfold complete
  split_ifs with hany
  · exact h
  · unfold done at h ⊢
    rw [List.map_append, List.map_singleton, List.nodup_append']
    refine ⟨h, List.nodup_singleton _, fun x hx hx' => hany ?_⟩
    obtain rfl := List.mem_singleton.1 hx'
    obtain ⟨fr, hfr, heq⟩ := List.mem_map.1 hx
    exact List.any_eq_true.2 ⟨fr, hfr, decide_eq_true heq⟩

/-- Completing the futures of all waiting clients. -/
theorem completeAll (pending : List (ℕ × FutureId)) (r : CommandResult)
    (completed : List (FutureId × CommandResult)) :
    let all := pending.foldl (fun completed p => complete p.2 r completed) completed
    completed <+: all ∧ ((done completed).Nodup → (done all).Nodup) ∧
      ∀ f, f ∈ done all ↔ f ∈ done completed ∨ f ∈ pending.map Prod.snd := by
  induction pending generalizing completed with
  | nil => exact ⟨List.prefix_rfl, id, fun f => by simp⟩
  | cons p pending ih =>
    obtain ⟨hstart, hnodup, hmem⟩ := ih (complete p.2 r completed)
    refine ⟨(complete_start _ _ _).trans hstart, fun h => hnodup (nodup_done_complete h),
      fun f => ?_⟩
    rw [List.foldl_cons, hmem, mem_done_complete, List.map_cons, List.mem_cons, or_assoc]

/-! ## What a replica owes -/

/-- The client with future `f` came to this replica: it is answered, or it waits. -/
def Knows (s : RaftNode) (f : FutureId) : Prop :=
  f ∈ done s.completed ∨ f ∈ s.pendingClients.map Prod.snd

/-- Clients wait for different entries, and nobody who waits is answered. -/
structure Orderly (s : RaftNode) : Prop where
  sorted : SortedKeys s.pendingClients
  clients : (s.pendingClients.map Prod.snd).Nodup
  once : (done s.completed).Nodup
  apart : ∀ p ∈ s.pendingClients, p.2 ∉ done s.completed

/-- Clients wait for entries that are not applied. -/
def Ahead (s : RaftNode) : Prop := ∀ p ∈ s.pendingClients, s.lastApplied < p.1

/-- From `s` to `s'` nobody came, and nobody was lost: some of those who waited were answered. -/
structure Attends (ok : Bool) (s s' : RaftNode) : Prop where
  orderly : s.Orderly → s'.Orderly
  completed : s.completed <+: s'.completed
  knows : s.Orderly → ∀ f, s'.Knows f ↔ s.Knows f
  /-- Unless the task threw at the end of the log. -/
  ahead : s.Ahead → s'.Ahead ∨ ok = false ∧ s'.logStore.length < s'.lastApplied

theorem Attends.of_eq (hp : s'.pendingClients = s.pendingClients)
    (hc : s'.completed = s.completed) (ha : s'.lastApplied = s.lastApplied) : Attends ok s s' where
  orderly h := ⟨hp ▸ h.sorted, hp ▸ h.clients, hc ▸ h.once, by rw [hp, hc]; exact h.apart⟩
  completed := by rw [hc]
  knows _ f := by
    unfold Knows
    rw [hp, hc]
  ahead h := by
    left
    unfold Ahead
    rw [hp, ha]
    exact h

instance : Composes Attends where
  refl _ _ := Attends.of_eq rfl rfl rfl
  trans h h' :=
    { orderly := fun hs => h'.orderly (h.orderly hs)
      completed := h.completed.trans h'.completed
      knows := fun hs f => (h'.knows (h.orderly hs) f).trans (h.knows hs f)
      ahead := fun hs => h'.ahead ((h.ahead hs).resolve_right fun hf => Bool.noConfusion hf.1) }

theorem becomeFollower_attends (seenTerm : ℕ) (s : RaftNode) :
    Attends ok s (becomeFollower seenTerm s) := by
  obtain ⟨hstart, hnodup, hmem⟩ :=
    completeAll s.pendingClients CommandResult.notLeader s.completed
  rw [becomeFollower_eq]
  refine ⟨fun h => ⟨List.Pairwise.nil, List.nodup_nil, hnodup h.once, fun p hp => ?_⟩, hstart,
    fun _ f => ?_, fun _ => Or.inl fun p hp => ?_⟩
  · cases hp
  · unfold Knows
    rw [show f ∈ done s.failPendingClients.completed ↔ _ from hmem f]
    simp
  · cases hp

/-- Answering the client who waits for the entry that is applied. -/
theorem applyEntry_attends (entry : LogEntry) (s : RaftNode) :
    Attends true s (applyEntry entry { s with lastApplied := s.lastApplied + 1 }) := by
  rw [applyEntry_eq]
  dsimp only
  set index := s.lastApplied + 1 with hindex
  generalize answerOf s.stateMachine index entry = r
  -- the client found is the one who waits for the index
  have hfound : s.Orderly → ∀ f, lookupKey index s.pendingClients = some f ↔
      (index, f) ∈ s.pendingClients :=
    fun h f => lookupKey_eq_some_iff h.sorted.nodup_keys
  have hdone : ∀ f, f ∈ done (answerClient (lookupKey index s.pendingClients) r s.completed) ↔
      f ∈ done s.completed ∨ lookupKey index s.pendingClients = some f := by
    intro f
    cases lookupKey index s.pendingClients with
    | none => simp [answerClient]
    | some f' =>
      rw [answerClient, mem_done_complete, Option.some_inj, eq_comm (a := f)]
  have hsub : (s.pendingClients.filter fun p => decide (p.1 ≠ index)).Sublist s.pendingClients :=
    List.filter_sublist
  refine ⟨fun h => ⟨h.sorted.sublist hsub, (hsub.map _).nodup h.clients, ?_, ?_⟩, ?_, ?_, ?_⟩
  · cases lookupKey index s.pendingClients with
    | none => exact h.once
    | some f' => exact nodup_done_complete h.once
  · intro p hp hd
    obtain ⟨hp, hne⟩ := List.mem_filter.1 hp
    rcases (hdone _).1 hd with hd | hl
    · exact h.apart p hp hd
    · -- the same client would wait for two entries
      have heq := List.inj_on_of_nodup_map h.clients hp (((hfound h) _).1 hl) rfl
      exact of_decide_eq_true hne (congrArg Prod.fst heq)
  · cases lookupKey index s.pendingClients with
    | none => exact List.prefix_rfl
    | some f' => exact complete_start _ _ _
  · intro h f
    unfold Knows
    dsimp only
    rw [hdone, hfound h, or_assoc]
    refine or_congr_right ?_
    simp only [List.mem_map, List.mem_filter, decide_eq_true_eq, Prod.exists, exists_eq_right]
    refine ⟨?_, fun ⟨k, hk⟩ => ?_⟩
    · rintro (hp | ⟨k, hk, -⟩)
      · exact ⟨_, hp⟩
      · exact ⟨k, hk⟩
    · by_cases hkey : k = index
      · exact Or.inl (hkey ▸ hk)
      · exact Or.inr ⟨k, hk, hkey⟩
  · intro h
    refine Or.inl fun p hp => ?_
    obtain ⟨hp, hne⟩ := List.mem_filter.1 hp
    have hlt := h p hp
    have hne := of_decide_eq_true hne
    dsimp only
    omega

theorem applyNext_attends (count : ℕ) : Keeps Attends (applyNext count) := by
  induction count with
  | zero => exact Keeps.pure _
  | succ count ih =>
    intro s
    unfold applyNext
    simp only [Wp.bind_iff, Wp.modify_iff, Wp.get_iff]
    unfold logGet
    rw [Wp.bind_iff, Wp.get_iff]
    rcases Nat.lt_or_ge s.lastApplied s.logStore.length with hlt | hge
    · obtain ⟨entry, -, hget⟩ := LogStore.exists_get (Nat.succ_pos s.lastApplied)
        (show s.lastApplied + 1 ≤ s.logStore.lastIndex from hlt)
      dsimp only
      rw [hget, Wp.ofExcept_ok]
      have happly := applyEntry_attends entry s
      exact (ih _).mono (fun _ _ hs => Composes.trans happly hs)
        fun _ _ hs => Composes.trans happly hs
    · -- there is no such entry
      have hnone : s.logStore.get (s.lastApplied + 1) =
          .error
            (.indexOutOfBounds ("no log entry at index " ++ toString (s.lastApplied + 1))) := by
        unfold LogStore.get
        rw [if_neg (Nat.succ_ne_zero _), Nat.add_sub_cancel, List.getElem?_eq_none hge]
      dsimp only
      rw [hnone, Wp.ofExcept_error]
      refine ⟨fun h => ⟨h.sorted, h.clients, h.once, h.apart⟩, List.prefix_rfl,
        fun _ _ => Iff.rfl, fun _ => Or.inr ⟨rfl, ?_⟩⟩
      exact Nat.lt_succ_of_le hge

theorem patchLog_attends (protos : List ProtoLogEntry) (idx : ℕ) :
    Keeps Attends (patchLog protos idx) := by
  induction protos generalizing idx with
  | nil => exact Keeps.pure _
  | cons proto protos ih =>
    unfold patchLog
    refine Keeps.bind (Keeps.ofExcept _) fun entry => Keeps.bind Keeps.get fun s =>
      Keeps.ite (fun _ => ?_) fun _ => ?_
    · refine Keeps.bind (logGet_keeps _) fun x => Keeps.ite (fun _ => ih _) fun _ => ?_
      exact Keeps.bind (Keeps.modify fun _ => Attends.of_eq rfl rfl rfl) fun _ => ih _
    · exact Keeps.bind (Keeps.modify fun _ => Attends.of_eq rfl rfl rfl) fun _ => ih _

theorem attends_parts : Parts Attends where
  reset _ := Attends.of_eq rfl rfl rfl
  publish _ := Attends.of_eq rfl rfl rfl
  follower := becomeFollower_attends
  mark _ _ := Attends.of_eq rfl rfl rfl
  send _ _ _ := Attends.of_eq rfl rfl rfl
  commit := advanceCommitIndex_keeps fun _ _ => Attends.of_eq rfl rfl rfl
  apply := by
    unfold applyCommitted
    exact Keeps.bind Keeps.get fun s => Keeps.bind (applyNext_attends _) fun _ =>
      Keeps.modify fun _ => Attends.of_eq rfl rfl rfl
  lead _ := Attends.of_eq rfl rfl rfl
  beat _ := Attends.of_eq rfl rfl rfl
  round _ := Attends.of_eq rfl rfl rfl
  ask _ := Attends.of_eq rfl rfl rfl
  vote _ _ := Attends.of_eq rfl rfl rfl
  count _ := Attends.of_eq rfl rfl rfl
  record _ _ _ := Attends.of_eq rfl rfl rfl
  lower _ _ _ := Attends.of_eq rfl rfl rfl
  hear _ _ := Attends.of_eq rfl rfl rfl
  expire _ _ := Attends.of_eq rfl rfl rfl
  stop _ _ _ h := ⟨fun hs => ⟨(h.orderly hs).sorted, (h.orderly hs).clients, (h.orderly hs).once,
    (h.orderly hs).apart⟩, h.completed, h.knows, h.ahead⟩
  land _ _ := Attends.of_eq rfl rfl rfl

theorem handleAppendEntries_attends (request : RequestAppendEntriesRPC) :
    Keeps Attends (handleAppendEntriesInternal request) :=
  attends_parts.handleAppendEntries patchLog_attends (fun leaderCommit idx s => by
    rw [followCommit_eq]
    exact Attends.of_eq rfl rfl rfl) request

/-- From `s` to `s'` the client with future `f` came: it is answered at once, or waits for the next
entry. -/
def Admits (f : FutureId) (s s' : RaftNode) : Prop :=
  s'.lastApplied = s.lastApplied ∧
    (s'.pendingClients = s.pendingClients ∧
        s'.completed = complete f CommandResult.notLeader s.completed ∨
      s'.pendingClients = upsert (s.logStore.length + 1) f s.pendingClients ∧
        s'.completed = s.completed)

namespace Admits

variable (h : Admits f s s')
include h

theorem completed : s.completed <+: s'.completed := by
  rcases h.2 with ⟨-, hc⟩ | ⟨-, hc⟩
  · rw [hc]
    exact complete_start _ _ _
  · rw [hc]

/-- The new client waits behind all others. -/
theorem pending (hle : ∀ p ∈ s.pendingClients, p.1 ≤ s.logStore.length) :
    s'.pendingClients = s.pendingClients ∧
        s'.completed = complete f CommandResult.notLeader s.completed ∨
      s'.pendingClients = s.pendingClients ++ [(s.logStore.length + 1, f)] ∧
        s'.completed = s.completed := by
  refine h.2.imp_right fun hp => ⟨?_, hp.2⟩
  have hlast : ∀ p ∈ s.pendingClients, p.1 < s.logStore.length + 1 :=
    fun p hp => Nat.lt_succ_of_le (hle p hp)
  have hinsert : upsert (s.logStore.length + 1) f (s.pendingClients ++ []) =
      s.pendingClients ++ [(s.logStore.length + 1, f)] := upsert_insert f hlast (by simp)
  rw [List.append_nil] at hinsert
  rw [hp.1, hinsert]

theorem knows (hle : ∀ p ∈ s.pendingClients, p.1 ≤ s.logStore.length) (f' : FutureId) :
    s'.Knows f' ↔ s.Knows f' ∨ f' = f := by
  unfold Knows
  rcases h.pending hle with ⟨hp, hc⟩ | ⟨hp, hc⟩
  · rw [hp, hc, mem_done_complete, or_right_comm]
  · rw [hp, hc, List.map_append, List.mem_append, List.map_singleton, List.mem_singleton, or_assoc]

theorem orderly (hle : ∀ p ∈ s.pendingClients, p.1 ≤ s.logStore.length) (hs : s.Orderly)
    (hf : ¬ s.Knows f) : s'.Orderly := by
  obtain ⟨hdone, hwait⟩ := not_or.1 hf
  rcases h.pending hle with ⟨hp, hc⟩ | ⟨hp, hc⟩
  · refine ⟨hp ▸ hs.sorted, hp ▸ hs.clients, hc ▸ nodup_done_complete hs.once, fun p hp' => ?_⟩
    rw [hp] at hp'
    rw [hc, mem_done_complete]
    rintro (hd | heq)
    · exact hs.apart p hp' hd
    · exact hwait (heq ▸ List.mem_map_of_mem hp')
  · refine ⟨?_, ?_, hc ▸ hs.once, fun p hp' => ?_⟩
    · rw [hp]
      refine List.pairwise_append.2 ⟨hs.sorted, List.pairwise_singleton _ _, fun p hp' q hq => ?_⟩
      rw [List.mem_singleton.1 hq]
      exact Nat.lt_succ_of_le (hle p hp')
    · rw [hp, List.map_append, List.map_singleton, List.nodup_append']
      refine ⟨hs.clients, List.nodup_singleton _, fun x hx hx' => hwait ?_⟩
      obtain rfl := List.mem_singleton.1 hx'
      exact hx
    · rw [hp] at hp'
      rw [hc]
      rcases List.mem_append.1 hp' with hp' | hp'
      · exact hs.apart p hp'
      · rw [List.mem_singleton.1 hp']
        exact hdone

theorem ahead (hle : ∀ p ∈ s.pendingClients, p.1 ≤ s.logStore.length) (hs : s.Ahead)
    (happlied : s.lastApplied ≤ s.logStore.length) : s'.Ahead := by
  intro p hp'
  rw [h.1]
  rcases h.pending hle with ⟨hp, -⟩ | ⟨hp, -⟩
  · rw [hp] at hp'
    exact hs p hp'
  · rw [hp] at hp'
    rcases List.mem_append.1 hp' with hp' | hp'
    · exact hs p hp'
    · rw [List.mem_singleton.1 hp']
      exact Nat.lt_succ_of_le happlied

end Admits

/-- A client is admitted, and others may be answered then. -/
theorem submitCommand_admits (future : FutureId) (command : Command) (s : RaftNode) :
    Wp (submitCommand future command)
      (fun _ s' => ∃ s₀, Admits future s s₀ ∧ Attends true s₀ s')
      (fun _ s' => ∃ s₀, Admits future s s₀ ∧ Attends false s₀ s') s := by
  unfold submitCommand
  rw [Wp.bind_iff, Wp.get_iff, Wp.ite_iff]
  refine ⟨fun _ => ?_, fun _ => ?_⟩
  · have hadmits : Admits future s { s with
        completed := complete future CommandResult.notLeader s.completed } :=
      ⟨rfl, Or.inl ⟨rfl, rfl⟩⟩
    exact ⟨_, hadmits, Attends.of_eq rfl rfl rfl⟩
  have hadmits : Admits future s (s.appendForClient future command) := ⟨rfl, Or.inr ⟨rfl, rfl⟩⟩
  rw [Wp.bind_iff, Wp.modify_iff]
  apply (attends_parts.afterAppend _).mono
  · exact fun _ _ hs => ⟨_, hadmits, hs⟩
  · exact fun _ _ hs => ⟨_, hadmits, hs⟩

end RaftNode

/-! ## Runs -/

/-- Every replica knows the clients who came to it and no others, and is orderly. -/
structure Attended (c : Cluster) : Prop where
  orderly : ∀ i, (c.nodes i).Orderly
  knows : ∀ i f, (c.nodes i).Knows f ↔ ∃ command, c.submissions[f]? = some (i, command)
  ahead : ∀ i, (c.nodes i).Ahead

theorem Attended.init (cfg : Config) : Attended (Cluster.init cfg) where
  orderly _ := ⟨List.Pairwise.nil, List.nodup_nil, List.nodup_nil, fun _ hp => by cases hp⟩
  knows i f := by
    refine ⟨?_, fun ⟨command, hf⟩ => by cases hf⟩
    rintro (h | h)
    · exact absurd h List.not_mem_nil
    · exact absurd h List.not_mem_nil
  ahead _ _ hp := absurd hp List.not_mem_nil

/-- Clients wait for entries of the log. -/
theorem Safe.pending_le (hA : Safe cfg A c) (hi : i ∈ cfg.members) :
    ∀ p ∈ (c.nodes i).pendingClients, p.1 ≤ (c.nodes i).logStore.length := by
  intro p hp
  obtain ⟨entry, -, hpos, hget⟩ := (hA.node i hi).clients.pending p.1 p.2 hp
  have := (List.getElem?_eq_some_iff.1 hget).1
  omega

/-- A replica never applies entries that it does not hold. -/
theorem Safe.lastApplied_le (hA : Safe cfg A c) (hi : i ∈ cfg.members) :
    (c.nodes i).lastApplied ≤ (c.nodes i).logStore.length := by
  rw [hA.done i hi]
  exact (hA.node i hi).commitIndex_le hA.inv

/-- One replica has admitted a client, or nobody has come. -/
theorem Attended.put (h : Attended c) (hA' : Safe cfg A c') (hj : j ∈ cfg.members)
    {fault : Option Fault} {s₀ : RaftNode}
    (hn : c'.nodes = (c.put j (Cluster.settle fault s)).nodes)
    (hs : RaftNode.Attends fault.isNone s₀ s) (horderly : s₀.Orderly) (hahead : s₀.Ahead)
    (hknows : ∀ i f, (if i = j then s₀ else c.nodes i).Knows f ↔
      ∃ command, c'.submissions[f]? = some (i, command)) : Attended c' := by
  have hnode : ∀ i, c'.nodes i = if i = j then
      { Cluster.settle fault s with voteRequests := [], appendRequests := [] }
    else c.nodes i := by
    intro i
    rw [hn]
    exact Function.update_apply _ _ _ _
  refine ⟨fun i => ?_, fun i f => ?_, fun i => ?_⟩
  · rw [hnode]
    split_ifs with hi
    · have ho := hs.orderly horderly
      exact ⟨ho.sorted, ho.clients, ho.once, ho.apart⟩
    · exact h.orderly i
  · rw [← hknows, hnode]
    split_ifs with hi
    · exact hs.knows horderly f
    · exact Iff.rfl
  · have hle := fun hi : i ∈ cfg.members => hA'.lastApplied_le hi
    rw [hnode] at hle ⊢
    split_ifs at hle ⊢ with hi
    · rcases hs.ahead hahead with ha | ⟨-, hlt⟩
      · exact ha
      · exact absurd (hle (hi ▸ hj)) (Nat.not_le.2 hlt)
    · exact h.ahead i

/-- **One event** loses no client. -/
theorem Attended.step (h : Attended c) (hA : Safe cfg A c) {A' : Protocol} (hA' : Safe cfg A' c')
    (hstep : Cluster.step cfg c e = some c') : Attended c' ∧
      ∀ i, (c.nodes i).completed <+: (c'.nodes i).completed := by
  have hstart : ∀ {j : NodeId} {fault : Option Fault} {s : RaftNode},
      c'.nodes = (c.put j (Cluster.settle fault s)).nodes →
      (c.nodes j).completed <+: s.completed →
      ∀ i, (c.nodes i).completed <+: (c'.nodes i).completed := by
    intro j fault s hn hs i
    rw [hn]
    exact Cluster.put_nodes (P := fun i s => (c.nodes i).completed <+: s.completed)
      (s := Cluster.settle fault s) hs (fun _ _ => List.prefix_rfl) i
  by_cases hsub : ∃ i command, e = .submit i command
  · obtain ⟨i, command, rfl⟩ := hsub
    cases Cluster.happens_of_step hstep with
    | submit _ _ hi =>
      obtain ⟨fault, s, ⟨s₀, hadmits, hs⟩, hput⟩ := Cluster.exec_cases
        (R := fun ok s s' => ∃ s₀, RaftNode.Admits c.submissions.length s s₀ ∧
          RaftNode.Attends ok s₀ s')
        (RaftNode.submitCommand_admits c.submissions.length command (c.nodes i))
      have hle := hA.pending_le hi
      have hnew : ¬ (c.nodes i).Knows c.submissions.length := by
        rw [h.knows]
        rintro ⟨_, hf⟩
        exact absurd (List.getElem?_eq_some_iff.1 hf).1 (lt_irrefl _)
      have hn := congrArg Cluster.nodes hput
      refine ⟨h.put hA' hi hn hs (hadmits.orderly hle (h.orderly i) hnew)
        (hadmits.ahead hle (h.ahead i) (hA.lastApplied_le hi)) fun m f => ?_,
        hstart hn (hadmits.completed.trans hs.completed)⟩
      -- only the new future is known to more replicas than before
      have hold : (∃ command', (c.submissions ++ [(i, command)])[f]? = some (m, command')) ↔
          (∃ command', c.submissions[f]? = some (m, command')) ∨
            m = i ∧ f = c.submissions.length := by
        rcases Nat.lt_trichotomy f c.submissions.length with hlt | rfl | hgt
        · rw [List.getElem?_append_left hlt]
          exact ⟨Or.inl, fun h => h.resolve_right fun h => absurd h.2 hlt.ne⟩
        · rw [List.getElem?_append_right le_rfl, Nat.sub_self,
            List.getElem?_eq_none (le_refl c.submissions.length)]
          simp [eq_comm]
        · rw [List.getElem?_eq_none (by rw [List.length_append]; exact hgt),
            List.getElem?_eq_none hgt.le]
          simp [hgt.ne']
      dsimp only
      rw [hold, ← h.knows]
      split_ifs with hm
      · subst hm
        rw [hadmits.knows hle]
        simp
      · simp [hm]
  · obtain ⟨j, hj, fault, s, hs, hn, -⟩ := RaftNode.attends_parts.step hA hstep
      (fun i command he _ => absurd ⟨i, command, he⟩ hsub)
      fun _ call _ _ => RaftNode.handleAppendEntries_attends call.request _
    obtain ⟨_, -, _, -, hch⟩ := hA.ran hstep
    have hsame : c'.submissions = c.submissions := by
      rw [hch.submissions]
      cases e with
      | submit i command => exact absurd ⟨i, command, rfl⟩ hsub
      | _ => exact List.append_nil _
    refine ⟨h.put hA' hj hn hs (h.orderly j) (h.ahead j) fun i f => ?_, hstart hn hs.completed⟩
    rw [hsame, ← h.knows]
    split_ifs with hi
    · rw [hi]
    · rfl

theorem exists_attended (h : Cluster.Reachable cfg c) : Attended c := by
  induction h with
  | refl => exact Attended.init cfg
  | tail hrun hs ih =>
    obtain ⟨e, hstep⟩ := hs
    obtain ⟨A, hA⟩ := exists_safe hrun
    obtain ⟨-, -, A', -, hA'⟩ := hA.step hstep
    exact (ih.step hA hA' hstep).1

/-- Commands go to members. -/
theorem submitted_to_member (h : Cluster.Reachable cfg c) {command : Command}
    (hf : c.submissions[f]? = some (i, command)) : i ∈ cfg.members := by
  induction h with
  | refl => cases hf
  | tail hrun hs ih =>
    obtain ⟨e, hstep⟩ := hs
    obtain ⟨A, hA⟩ := exists_safe hrun
    obtain ⟨j, hj, s, hran, hch⟩ := hA.ran hstep
    rw [hch.submissions, List.getElem?_append] at hf
    split_ifs at hf
    · exact ih hf
    · cases hran with
      | submit =>
        rw [show i = _ from congrArg Prod.fst (List.mem_singleton.1 (List.mem_of_getElem? hf))]
        exact hj
      | _ => cases hf

/-- What is answered stays answered. -/
theorem completed_start (h : Cluster.Reachable cfg c) (hrun : Cluster.Run cfg c c') (i : NodeId) :
    (c.nodes i).completed <+: (c'.nodes i).completed := by
  induction hrun with
  | refl => exact List.prefix_rfl
  | tail hrun hs ih =>
    obtain ⟨e, hstep⟩ := hs
    obtain ⟨A, hA⟩ := exists_safe (h.trans hrun)
    obtain ⟨-, -, A', -, hA'⟩ := hA.step hstep
    exact ih.trans (((exists_attended (h.trans hrun)).step hA hA' hstep).2 i)

/-- The client with future `f` waits for the entry at an index of the log of replica `i`. -/
structure Waits (c : Cluster) (i : NodeId) (f : FutureId) (command : Command) (index : ℕ) :
    Prop where
  pending : (index, f) ∈ (c.nodes i).pendingClients
  active : (c.nodes i).status ≠ .follower
  unapplied : (c.nodes i).lastApplied < index
  entry : ∃ entry, (c.nodes i).logStore[index - 1]? = some entry ∧ entry.command = command

/-- Whoever waits, waits for an entry with its command. -/
theorem Attended.waits (hatt : Attended c) (h : Cluster.Reachable cfg c) {command : Command}
    (hf : c.submissions[f]? = some (i, command)) {index : ℕ}
    (hp : (index, f) ∈ (c.nodes i).pendingClients) : Waits c i f command index := by
  obtain ⟨A, hA⟩ := exists_safe h
  have hclients := (hA.node i (submitted_to_member h hf)).clients
  obtain ⟨entry, hc, -, hget⟩ := hclients.pending _ _ hp
  have hsub := (exists_ledger h).submitted i _ index entry hc
  rw [hf] at hsub
  have hcommand : entry.command = command := (congrArg Prod.snd (Option.some.inj hsub)).symm
  refine ⟨hp, fun hs => ?_, hatt.ahead i _ hp, entry, hget, hcommand⟩
  rw [hclients.idle hs] at hp
  cases hp

/-- **No client is lost**: whoever has submitted a command to a replica either has one answer, from
this replica and for good, or waits at one index for an entry with its command that the replica
holds and has not applied; no other replica knows of it. -/
theorem futures_accounted (h : Cluster.Reachable cfg c) {command : Command}
    (hf : c.submissions[f]? = some (i, command)) :
    ((∃! r, (f, r) ∈ (c.nodes i).completed) ∧
        (∀ index, (index, f) ∉ (c.nodes i).pendingClients) ∨
      (∃! index, Waits c i f command index) ∧ ∀ r, (f, r) ∉ (c.nodes i).completed) ∧
    (∀ j, j ≠ i → ¬ (c.nodes j).Knows f) ∧
    ∀ c', Cluster.Run cfg c c' → ∀ r, (f, r) ∈ (c.nodes i).completed →
      ∀ r', (f, r') ∈ (c'.nodes i).completed ↔ r' = r := by
  have hatt := exists_attended h
  have ho := hatt.orderly i
  have hunique : ∀ {c : Cluster}, Attended c → ∀ {r r'}, (f, r) ∈ (c.nodes i).completed →
      (f, r') ∈ (c.nodes i).completed → r' = r := fun hatt _ _ hr hr' =>
    congrArg Prod.snd (List.inj_on_of_nodup_map (hatt.orderly i).once hr' hr rfl)
  refine ⟨?_, fun j hj hk => ?_, fun c' hrun r hr r' => ⟨fun hr' => ?_, ?_⟩⟩
  · rcases (hatt.knows i f).2 ⟨command, hf⟩ with hd | hw
    · obtain ⟨⟨_, r⟩, hr, rfl⟩ := List.mem_map.1 hd
      refine Or.inl ⟨⟨r, hr, fun r' hr' => hunique hatt hr hr'⟩, fun index hp => ?_⟩
      exact ho.apart _ hp hd
    · obtain ⟨⟨index, _⟩, hp, rfl⟩ := List.mem_map.1 hw
      refine Or.inr ⟨⟨index, hatt.waits h hf hp, fun index' hw' => ?_⟩,
        fun r hr => ho.apart _ hp (List.mem_map_of_mem hr)⟩
      exact congrArg Prod.fst (List.inj_on_of_nodup_map ho.clients hw'.pending hp rfl)
  · obtain ⟨command', hf'⟩ := (hatt.knows j f).1 hk
    rw [hf] at hf'
    exact hj (congrArg Prod.fst (Option.some.inj hf')).symm
  · have hstart := completed_start h hrun i
    exact hunique (exists_attended (h.trans hrun)) (hstart.subset hr) hr'
  · rintro rfl
    exact (completed_start h hrun i).subset hr

/-- The client of the first reign has its answer for good. -/
theorem futures_accounted_first :
    (∃! r, (0, r) ∈ (afterFirst.nodes 1).completed) ∧
      ∀ c', Cluster.Run threeMembers afterFirst c' →
        ∀ r', (0, r') ∈ (c'.nodes 1).completed ↔ r' = .committed 1 (some "x") 5 := by
  have hf : afterFirst.submissions[0]? = some (1, ⟨some "x", .set, 5⟩) := by decide +kernel
  have hr : (0, CommandResult.committed 1 (some "x") 5) ∈ (afterFirst.nodes 1).completed := by
    decide +kernel
  obtain ⟨h, -, hlater⟩ := futures_accounted reachable_afterFirst hf
  refine ⟨?_, fun c' hrun => hlater c' hrun _ hr⟩
  rcases h with ⟨h, -⟩ | ⟨-, h⟩
  · exact h
  · exact absurd hr (h _)

end CowRaft.Raft
