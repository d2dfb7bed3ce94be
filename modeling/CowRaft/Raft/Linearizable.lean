import CowRaft.Foundations.Linearizability
import CowRaft.Raft.Futures
import CowRaft.Raft.Provenance

/-!
# The cluster as one store

What clients see of a cluster, whatever is lost, delayed or reordered and whoever leads, they could
have seen of one `Server` that executes one command after another (`cluster_linearizable`): there is
one order of commands, in which each has the index, the value or the failure that its client was
told, and which never contradicts the order in which clients called and heard. A client who hears
that a replica is not the leader learns nothing: its command may take part in the order or not.
-/

namespace CowRaft.Raft

open Linearizability (Act Linearizes Linearizable WellFormed)

variable {cfg : Config} {A : Protocol} {c c' : Cluster} {e : Event} {i j : NodeId}
  {s : RaftNode} {f : FutureId} {r : CommandResult} {command : Command}

/-! ## One server -/

/-- One state machine, and how many commands it has executed. -/
structure Server where
  values : StateMachine
  count : ℕ

namespace Server

def new : Server := ⟨StateMachine.empty, 0⟩

/-- Execute the next command. -/
def execute (server : Server) (command : Command) : Server × CommandResult :=
  match server.values.apply command with
  | .ok (value, values) =>
    (⟨values, server.count + 1⟩, .committed (server.count + 1) command.key value)
  | .error e =>
    (⟨server.values, server.count + 1⟩, .failed (server.count + 1) command.key e.message)

theorem execute_state (server : Server) (command : Command) :
    (server.execute command).1 = ⟨server.values.next command, server.count + 1⟩ := by
  unfold execute StateMachine.next
  cases server.values.apply command <;> rfl

/-- Executing the commands of a log. -/
theorem after_log (log : List LogEntry) :
    Linearizability.after execute new (log.map (·.command)) =
      ⟨StateMachine.replay log, log.length⟩ := by
  induction log using List.reverseRecOn with
  | nil => rfl
  | append_singleton log entry ih =>
    rw [List.map_append, List.map_singleton, Linearizability.after_concat, ih, execute_state,
      StateMachine.replay_snoc, List.length_append, List.length_singleton]

/-- The answer at an index of the log is the server's. -/
theorem execute_outcome {applied : List LogEntry} {index : ℕ} {entry : LogEntry}
    (h : Outcome applied index entry r) :
    r = (execute ⟨StateMachine.replay (applied.take (index - 1)), index - 1⟩ entry.command).2 := by
  obtain ⟨hpos, -, ⟨value, values, happly, rfl⟩ | ⟨e, happly, rfl⟩⟩ := h
  · unfold execute
    dsimp only
    rw [happly, Nat.sub_add_cancel hpos]
  · unfold execute
    dsimp only
    rw [happly, Nat.sub_add_cancel hpos]

end Server

/-! ## What clients see -/

/-- What a client sees of the cluster. -/
abbrev ClientAct := Act FutureId Command CommandResult

/-- What a client learns from an answer; that a replica is not the leader says nothing of the
command. -/
def heard (answer : FutureId × CommandResult) : Option ClientAct :=
  if answer.2.status = .notLeader then none else some (.ret answer.1 answer.2)

namespace Cluster

/-- The replica whose task an event runs. -/
def actor (c : Cluster) : Event → Option NodeId
  | .start i => some i
  | .electionTimeout i _ => some i
  | .heartbeat i _ => some i
  | .submit i _ => some i
  | .deliverVote k => c.voteCalls[k]?.map VoteCall.peer
  | .answerVote k => c.voteCalls[k]?.map VoteCall.caller
  | .deliverAppend k => c.appendCalls[k]?.map AppendCall.peer
  | .answerAppend k => c.appendCalls[k]?.map AppendCall.caller
  | .failAppend k => c.appendCalls[k]?.map AppendCall.caller

/-- The call of the client whose command is submitted. -/
def called (c : Cluster) (e : Event) : List ClientAct :=
  (e.command.map fun command => Act.call c.submissions.length command).toList

/-- What clients hear from replica `j` between two states. -/
def answered (c c' : Cluster) (j : NodeId) : List ClientAct :=
  ((c'.nodes j).completed.drop (c.nodes j).completed.length).filterMap heard

/-- What clients see of an event. -/
def seen (c : Cluster) (e : Event) (c' : Cluster) : List ClientAct :=
  c.called e ++ (c.actor e).elim [] (c.answered c')

/-- A run of the cluster, with what clients have seen of it. -/
inductive Observed (cfg : Config) : List ClientAct → Cluster → Prop
  | init : Observed cfg [] (init cfg)
  | step {H : List ClientAct} {c c' : Cluster} {e : Event} (h : Observed cfg H c)
    (hs : step cfg c e = some c') : Observed cfg (H ++ c.seen e c') c'

variable {H : List ClientAct}

theorem Observed.reachable (h : Observed cfg H c) : Reachable cfg c := by
  induction h with
  | init => exact Relation.ReflTransGen.refl
  | step _ hs ih => exact ih.tail ⟨_, hs⟩

/-- What clients see of some events, as long as they can happen. -/
def observe (cfg : Config) : List Event → List ClientAct × Cluster → List ClientAct × Cluster
  | [], view => view
  | e :: es, view => match step cfg view.2 e with
    | some c' => observe cfg es (view.1 ++ view.2.seen e c', c')
    | none => view

theorem Observed.observe (es : List Event) {view : List ClientAct × Cluster}
    (h : Observed cfg view.1 view.2) :
    Observed cfg (observe cfg es view).1 (observe cfg es view).2 := by
  induction es generalizing view with
  | nil => exact h
  | cons e es ih =>
    unfold Cluster.observe
    cases hs : Cluster.step cfg view.2 e with
    | none => exact h
    | some c' => exact ih (h.step hs)

end Cluster

theorem Ran.actor (h : Ran c e j s) : c.actor e = some j := by
  cases h with
  | start => rfl
  | electionTimeout => rfl
  | heartbeat => rfl
  | submit => rfl
  | deliverVote k call hk => exact congrArg (Option.map _) hk
  | answerVote k call hk => exact congrArg (Option.map _) hk
  | deliverAppend k call hk => exact congrArg (Option.map _) hk
  | answerAppend k call hk => exact congrArg (Option.map _) hk
  | failAppend k call hk => exact congrArg (Option.map _) hk

theorem mem_answered : Act.ret f r ∈ c.answered c' j ↔
    (f, r) ∈ (c'.nodes j).completed.drop (c.nodes j).completed.length ∧
      r.status ≠ .notLeader := by
  unfold Cluster.answered heard
  rw [List.mem_filterMap]
  constructor
  · rintro ⟨⟨f', r'⟩, hmem, heq⟩
    split_ifs at heq with hs
    obtain ⟨rfl, rfl⟩ := Act.ret.inj (Option.some.inj heq)
    exact ⟨hmem, hs⟩
  · rintro ⟨hmem, hs⟩
    exact ⟨(f, r), hmem, if_neg hs⟩

theorem call_notMem_answered : Act.call f command ∉ c.answered c' j := by
  unfold Cluster.answered heard
  rw [List.mem_filterMap]
  rintro ⟨answer, -, heq⟩
  split_ifs at heq
  cases heq

theorem ret_notMem_called : Act.ret f r ∉ c.called e := by
  unfold Cluster.called
  cases e.command <;> simp

theorem mem_called : Act.call f command ∈ c.called e ↔
    f = c.submissions.length ∧ e.command = some command := by
  unfold Cluster.called
  cases e.command <;> simp [eq_comm]

/-- Answers are about the clients who get them. -/
theorem map_op_heard (answers : List (FutureId × CommandResult)) :
    ((answers.filterMap heard).map Act.op).Sublist (answers.map Prod.fst) := by
  induction answers with
  | nil => exact List.Sublist.refl _
  | cons answer answers ih =>
    rw [List.filterMap_cons, List.map_cons]
    unfold heard at ih ⊢
    by_cases hs : answer.2.status = .notLeader
    · rw [if_pos hs]
      exact ih.cons _
    · rw [if_neg hs]
      exact ih.cons_cons _

/-- What clients see of one event: the submission, if it is one, and what is answered. -/
theorem Safe.seen (hA : Safe cfg A c) (hstep : Cluster.step cfg c e = some c') :
    ∃ j ∈ cfg.members, c.seen e c' = c.called e ++ c.answered c' j ∧
      (∀ i, i ≠ j → c'.nodes i = c.nodes i) ∧
      c'.submissions = c.submissions ++ e.submission.toList := by
  obtain ⟨j, hj, s, hran, hch⟩ := hA.ran hstep
  refine ⟨j, hj, ?_, hch.other, hch.submissions⟩
  unfold Cluster.seen
  rw [hran.actor]
  rfl

namespace Cluster.Observed

variable {H : List ClientAct}

/-- What clients have called and heard is what was submitted and answered. -/
theorem mem_iff (h : Cluster.Observed cfg H c) :
    (∀ f command, Act.call f command ∈ H ↔ ∃ i, c.submissions[f]? = some (i, command)) ∧
    ∀ f r, Act.ret f r ∈ H ↔ ∃ i, (f, r) ∈ (c.nodes i).completed ∧ r.status ≠ .notLeader := by
  induction h with
  | init =>
    refine ⟨fun f command => ⟨fun h => ?_, fun ⟨i, h⟩ => ?_⟩,
      fun f r => ⟨fun h => ?_, fun ⟨i, h, _⟩ => ?_⟩⟩ <;> cases h
  | @step H c c' e h hs ih =>
    obtain ⟨A, hA⟩ := exists_safe h.reachable
    obtain ⟨j, -, hseen, hother, hsub⟩ := hA.seen hs
    rw [hseen]
    refine ⟨fun f command => ?_, fun f r => ?_⟩
    · rw [List.mem_append, List.mem_append, ih.1, mem_called,
        or_iff_left (show Act.call f command ∉ c.answered c' j from call_notMem_answered), hsub]
      rcases Nat.lt_or_ge f c.submissions.length with hlt | hge
      · rw [List.getElem?_append_left hlt]
        exact or_iff_left fun h => absurd h.1 hlt.ne
      · rw [List.getElem?_append_right hge, List.getElem?_eq_none hge]
        cases e with
        | submit i command' =>
          rcases Nat.eq_or_lt_of_le hge with rfl | hgt
          · simp [Event.command, Event.submission]
          · rw [List.getElem?_eq_none (by
              rw [Event.submission, Option.toList_some, List.length_singleton]
              omega)]
            simp [hgt.ne']
        | _ => simp [Event.command, Event.submission]
    · rw [List.mem_append, List.mem_append, ih.2, mem_answered,
        or_iff_right (show Act.ret f r ∉ c.called e from ret_notMem_called)]
      obtain ⟨rest, hrest⟩ :=
        completed_start h.reachable (Relation.ReflTransGen.single ⟨e, hs⟩) j
      rw [← hrest, List.drop_left]
      constructor
      · rintro (⟨i, hmem, hne⟩ | ⟨hmem, hne⟩)
        · exact ⟨i, (completed_start h.reachable
            (Relation.ReflTransGen.single ⟨e, hs⟩) i).subset hmem, hne⟩
        · exact ⟨j, hrest ▸ List.mem_append_right _ hmem, hne⟩
      · rintro ⟨i, hmem, hne⟩
        by_cases hi : i = j
        · subst hi
          rw [← hrest] at hmem
          exact (List.mem_append.1 hmem).imp (fun hmem => ⟨i, hmem, hne⟩) fun hmem => ⟨hmem, hne⟩
        · rw [hother i hi] at hmem
          exact Or.inl ⟨i, hmem, hne⟩

/-- What is answered was submitted to the replica that answers. -/
theorem exists_submission (h : Cluster.Observed cfg H c) (hr : (f, r) ∈ (c.nodes i).completed) :
    i ∈ cfg.members ∧ ∃ command, c.submissions[f]? = some (i, command) := by
  obtain ⟨command, hf⟩ := ((exists_attended h.reachable).knows i f).1
    (Or.inl (List.mem_map_of_mem hr))
  exact ⟨submitted_to_member h.reachable hf, command, hf⟩

/-- **Between** what a client has heard and what another one called later, there is a state of the
run in which the first is answered and the other has not come. -/
theorem between (h : Cluster.Observed cfg H c) {f' : FutureId}
    (hsub : [Act.ret f r, Act.call f' command].Sublist H) :
    ∃ c₁, Cluster.Reachable cfg c₁ ∧ Cluster.Run cfg c₁ c ∧ r.status ≠ .notLeader ∧
      (∃ i ∈ cfg.members, (f, r) ∈ (c₁.nodes i).completed) ∧ c₁.submissions.length ≤ f' := by
  induction h with
  | init => cases hsub
  | @step H c c' e h hs ih =>
    have hstep : Cluster.Run cfg c c' := Relation.ReflTransGen.single ⟨e, hs⟩
    obtain ⟨A, hA⟩ := exists_safe h.reachable
    obtain ⟨j, -, hseen, -⟩ := hA.seen hs
    rw [hseen] at hsub
    rcases Linearizability.pair_sublist_append hsub with hsub | ⟨hret, hcall⟩ | hsub
    · obtain ⟨c₁, hreach, hrun, hrest⟩ := ih hsub
      exact ⟨c₁, hreach, hrun.trans hstep, hrest⟩
    · obtain ⟨i, hmem, hne⟩ := (h.mem_iff.2 f r).1 hret
      rcases List.mem_append.1 hcall with hcall | hcall
      · exact ⟨c, h.reachable, hstep, hne, ⟨i, (h.exists_submission hmem).1, hmem⟩,
          (mem_called.1 hcall).1.ge⟩
      · exact absurd hcall call_notMem_answered
    · -- an event is no call behind an answer
      rcases Linearizability.pair_sublist_append hsub with hsub | ⟨hret, -⟩ | hsub
      · exact absurd (hsub.subset List.mem_cons_self) ret_notMem_called
      · exact absurd hret ret_notMem_called
      · exact absurd (hsub.subset (List.mem_cons_of_mem _ List.mem_cons_self)) call_notMem_answered

/-- Clients call once and hear once, what they have called. -/
theorem wellFormed (h : Cluster.Observed cfg H c) : WellFormed H := by
  induction h with
  | init =>
    refine ⟨fun _ _ _ hsub => ?_, fun _ _ _ hsub => ?_, fun _ _ hr => ?_⟩
    · cases hsub
    · cases hsub
    · cases hr
  | @step H c c' e h hs ih =>
    have h' := h.step hs
    obtain ⟨A, hA⟩ := exists_safe h.reachable
    obtain ⟨j, -, hseen, -⟩ := hA.seen hs
    have horderly := ((exists_attended h'.reachable).orderly j).once
    obtain ⟨rest, hrest⟩ := completed_start h.reachable (Relation.ReflTransGen.single ⟨e, hs⟩) j
    rw [hseen] at h' ⊢
    -- the new answers are to different clients, none of whom had one
    have hnew : ∀ f r, Act.ret f r ∈ c.answered c' j → (f, r) ∈ rest := by
      intro f r hr
      rw [mem_answered, ← hrest, List.drop_left] at hr
      exact hr.1
    have hdistinct : (rest.map Prod.fst).Nodup ∧
        ∀ f r r', (f, r) ∈ (c.nodes j).completed → (f, r') ∉ rest := by
      unfold RaftNode.done at horderly
      rw [← hrest, List.map_append, List.nodup_append'] at horderly
      exact ⟨horderly.2.1, fun f r r' hr hr' => horderly.2.2 (List.mem_map_of_mem hr)
        (List.mem_map.2 ⟨(f, r'), hr', rfl⟩)⟩
    have hown : ∀ f r, (f, r) ∈ rest → ∃ command, c'.submissions[f]? = some (j, command) :=
      fun f r hr => (h'.exists_submission (hrest ▸ List.mem_append_right _ hr)).2
    refine ⟨fun f x x' hsub => ?_, fun f r r' hsub => ?_, fun f r hr => ?_⟩
    · rcases Linearizability.pair_sublist_append hsub with hsub | ⟨hcall, hcall'⟩ | hsub
      · exact ih.calledOnce f x x' hsub
      · obtain ⟨i, hf⟩ := (h.mem_iff.1 f x).1 hcall
        have hlt := (List.getElem?_eq_some_iff.1 hf).1
        rcases List.mem_append.1 hcall' with hcall' | hcall'
        · exact hlt.ne (mem_called.1 hcall').1
        · exact call_notMem_answered hcall'
      · rcases Linearizability.pair_sublist_append hsub with hsub | ⟨-, hcall'⟩ | hsub
        · have hle := hsub.length_le
          unfold Cluster.called at hle
          cases hcommand : e.command <;> simp [hcommand] at hle
        · exact call_notMem_answered hcall'
        · exact call_notMem_answered (hsub.subset List.mem_cons_self)
    · rcases Linearizability.pair_sublist_append hsub with hsub | ⟨hr, hr'⟩ | hsub
      · exact ih.returnedOnce f r r' hsub
      · obtain ⟨i, hmem, -⟩ := (h.mem_iff.2 f r).1 hr
        have hrest' := hnew f r' ((List.mem_append.1 hr').resolve_left ret_notMem_called)
        obtain ⟨command, hf⟩ := hown f r' hrest'
        obtain ⟨-, command', hf'⟩ := h'.exists_submission ((completed_start h.reachable
          (Relation.ReflTransGen.single ⟨e, hs⟩) i).subset hmem)
        rw [hf] at hf'
        obtain rfl : j = i := congrArg Prod.fst (Option.some.inj hf')
        exact hdistinct.2 f r r' hmem hrest'
      · rcases Linearizability.pair_sublist_append hsub with hsub | ⟨hr, -⟩ | hsub
        · exact ret_notMem_called (hsub.subset List.mem_cons_self)
        · exact ret_notMem_called hr
        · unfold Cluster.answered at hsub
          rw [← hrest, List.drop_left] at hsub
          have hpair := (hsub.map Act.op).trans (map_op_heard rest)
          exact absurd (hpair.nodup hdistinct.1) (by simp [Act.op])
    · rcases List.mem_append.1 hr with hr | hr
      · obtain ⟨x, hsub⟩ := ih.answered f r hr
        exact ⟨x, hsub.trans (List.sublist_append_left _ _)⟩
      · have hr := (List.mem_append.1 hr).resolve_left ret_notMem_called
        obtain ⟨command, hf⟩ := hown f r (hnew f r hr)
        have hcall := (h'.mem_iff.1 f command).2 ⟨j, hf⟩
        rw [← List.append_assoc] at hcall ⊢
        have hbefore := (List.mem_append.1 hcall).resolve_right call_notMem_answered
        exact ⟨command, (List.singleton_sublist.2 hbefore).append (List.singleton_sublist.2 hr)⟩

end Cluster.Observed

/-! ## One order -/

/-- The entries that some member has applied, in one sequence. -/
theorem Safe.exists_applied (hA : Safe cfg A c) :
    ∃ L : List LogEntry, (∀ i ∈ cfg.members, (c.nodes i).history.applied <+: L) ∧
      ∀ (k : ℕ) (entry : LogEntry), L[k]? = some entry →
        ∃ m ∈ cfg.members, (c.nodes m).history.applied[k]? = some entry := by
  rcases cfg.members.eq_empty_or_nonempty with hnone | hsome
  · refine ⟨[], fun i hi => ?_, fun k entry he => by cases he⟩
    rw [hnone] at hi
    exact absurd hi (Finset.notMem_empty i)
  · obtain ⟨m, hm, hmax⟩ :=
      Finset.exists_max_image cfg.members (fun i => (c.nodes i).commitIndex) hsome
    exact ⟨(c.nodes m).history.applied, fun i hi => hA.applied_start hi hm (hmax i hi),
      fun k entry he => ⟨m, hm, he⟩⟩

/-- What is applied was appended for a client, at its index. -/
theorem Safe.recorded (hA : Safe cfg A c) (hS : c.Sourced (Recorded c)) (hi : i ∈ cfg.members)
    {k : ℕ} {entry : LogEntry} (he : (c.nodes i).history.applied[k]? = some entry) :
    Recorded c k entry := by
  rw [(hA.node i hi).applied] at he
  exact (hS.nodes i).log k entry
    (Consensus.getElem?_of_start (List.take_prefix _ _) he)

/-- Two clients for whom one entry was appended at one index are one. -/
theorem Safe.created_unique (hA : Safe cfg A c) (hL : Ledger c) (hi : i ∈ cfg.members)
    (hj : j ∈ cfg.members) {f' : FutureId} {index : ℕ} {entry : LogEntry}
    (h : Created c i f index entry) (h' : Created c j f' index entry) : f = f' := by
  have hlead := ((hA.node i hi).created _ _ _ h).1
  rw [((hA.node j hj).created _ _ _ h').1] at hlead
  obtain rfl := Option.some.inj hlead
  exact hL.apart j f f' index entry entry h h' rfl

/-- **A later client has a later place**: an entry that is applied, and was appended for a client
who came when another one had an answer, lies behind the other's entry. -/
theorem Safe.index_lt (hA : Safe cfg A c) (hL : Ledger c) (hi : i ∈ cfg.members)
    (hr : (f, r) ∈ (c.nodes i).completed) (hne : r.status ≠ .notLeader)
    (hrun : Cluster.Run cfg c c') {f' : FutureId}
    (hlater : c.submissions.length ≤ f') {m : NodeId} (hm : m ∈ cfg.members) {k : ℕ}
    {entry' : LogEntry} (hc : Created c' j f' (k + 1) entry')
    (happlied : (c'.nodes m).history.applied[k]? = some entry') : r.index < k + 1 := by
  obtain ⟨A₁, hmoves, hA₁, -, hbehind⟩ := created_behind hA hL hrun
  obtain ⟨entry, hent⟩ := hA.answered hL hi hr hne
  obtain ⟨hpos, hcommit⟩ := hent.index
  have hle := (hA.node i hi).commitIndex_le hA.inv
  by_contra hge
  -- otherwise the later entry lay in the log already when the first client heard
  obtain ⟨e₁, he₁⟩ : ∃ e₁, (c.nodes i).logStore[k]? = some e₁ :=
    ⟨_, List.getElem?_eq_getElem (show k < (c.nodes i).logStore.length by
      have : (c.nodes i).logStore.lastIndex = (c.nodes i).logStore.length := rfl
      omega)⟩
  have hfirst : (c.nodes i).history.applied[k]? = some e₁ := by
    rw [hA.applied_eq hi, List.getElem?_take_of_lt (by omega), he₁]
  have hsame : e₁ = entry' := hA₁.applied_agree hi hm
    (Consensus.getElem?_of_start (hA.applied_later hA₁ hmoves hi) hfirst) happlied
  subst hsame
  have hlen := hA.index_le_leaderLog hi he₁
  have hbe := hbehind j f' (k + 1) e₁ hlater hc
  omega

/-- **The cluster is linearizable**: what clients have seen of a run, they could have seen of one
server that executes one command after another, in an order that starts with the commands that any
replica has applied. -/
theorem cluster_linearizable {H : List ClientAct} (h : Cluster.Observed cfg H c) :
    WellFormed H ∧ ∃ order, Linearizes Server.execute Server.new H order ∧
      ∀ i ∈ cfg.members, (c.nodes i).history.applied.map (·.command) <+: order.map Prod.snd := by
  obtain ⟨A, hA⟩ := exists_safe h.reachable
  have hL := exists_ledger h.reachable
  have hS := exists_sourced h.reachable
  obtain ⟨L, hstart, hmem⟩ := hA.exists_applied
  -- the client whose command is at a position
  have howner : ∀ k, ∃ f, ∀ entry, L[k]? = some entry →
      ∃ i ∈ cfg.members, Created c i f (k + 1) entry := by
    intro k
    cases hk : L[k]? with
    | none => exact ⟨0, fun entry he => by cases he⟩
    | some entry =>
      obtain ⟨m, hm, happlied⟩ := hmem k entry hk
      obtain ⟨i, f, hc⟩ := hA.recorded hS hm happlied
      refine ⟨f, fun entry' he => ⟨i, ?_, Option.some.inj he ▸ hc⟩⟩
      exact submitted_to_member h.reachable (hL.submitted i f _ entry hc)
  choose owner howner using howner
  have hentry : ∀ {k : ℕ} {input : Command}, (L.map (·.command))[k]? = some input →
      ∃ entry, L[k]? = some entry ∧ entry.command = input := by
    intro k input hk
    rw [List.getElem?_map] at hk
    exact Option.map_eq_some_iff.1 hk
  refine ⟨h.wellFormed, (L.map (·.command)).mapIdx fun k input => (owner k, input),
    Linearizes.of_log ?_ ?_ ?_ ?_, fun i hi => ?_⟩
  · intro k hk k' hk' heq
    rw [List.length_map] at hk hk'
    obtain ⟨i, -, hc⟩ := howner k _ (List.getElem?_eq_getElem hk)
    obtain ⟨i', -, hc'⟩ := howner k' _ (List.getElem?_eq_getElem hk')
    rw [heq] at hc
    exact Nat.succ.inj (hL.index_eq hc hc')
  · intro k input hk
    obtain ⟨entry, he, rfl⟩ := hentry hk
    obtain ⟨i, -, hc⟩ := howner k entry he
    exact (h.mem_iff.1 _ _).2 ⟨i, hL.submitted i _ _ entry hc⟩
  · intro f r hr
    obtain ⟨i, hmem, hne⟩ := (h.mem_iff.2 f r).1 hr
    have hi := (h.exists_submission hmem).1
    obtain ⟨entry, hc, hout⟩ :=
      ((hA.node i hi).clients.answered f r hmem).resolve_left fun h => hne (h ▸ rfl)
    have hpos := hout.1
    have hlt := (List.getElem?_eq_some_iff.1 hout.2.1).1
    have he := Consensus.getElem?_of_start (hstart i hi) hout.2.1
    have hlt' := (List.getElem?_eq_some_iff.1 he).1
    refine ⟨r.index - 1, entry.command, ?_, ?_, ?_⟩
    · rw [List.getElem?_map, he, Option.map_some]
    · obtain ⟨i', hi', hc'⟩ := howner _ entry he
      rw [Nat.sub_add_cancel hpos] at hc'
      exact hA.created_unique hL hi' hi hc' hc
    · rw [← List.map_take, Server.after_log, List.length_take, Nat.min_eq_left hlt'.le,
        Consensus.take_eq_of_start (hstart i hi) hlt.le]
      exact Server.execute_outcome hout
  · intro f r f' command hsub k hk k' hk' hf hf'
    rw [List.length_map] at hk hk'
    obtain ⟨c₁, hreach, hrun, hne, ⟨i, hi, hdone⟩, hlater⟩ := h.between hsub
    obtain ⟨A₁, hA₁⟩ := exists_safe hreach
    obtain ⟨j, -, hc⟩ := howner k _ (List.getElem?_eq_getElem hk)
    obtain ⟨j', -, hc'⟩ := howner k' _ (List.getElem?_eq_getElem hk')
    obtain ⟨m, hm, happlied⟩ := hmem k' _ (List.getElem?_eq_getElem hk')
    rw [hf] at hc
    rw [hf'] at hc'
    have hlt := hA₁.index_lt (exists_ledger hreach) hi hdone hne hrun hlater hm hc' happlied
    -- the client who heard is the owner of the index it heard of
    obtain ⟨entry, hent, -⟩ := ((hA.node i hi).clients.answered f r
      ((completed_start hreach hrun i).subset hdone)).resolve_left fun h => hne (h ▸ rfl)
    have := hL.index_eq hent hc
    omega
  · rw [Linearizability.map_snd_owned]
    exact (hstart i hi).map _

/-- What clients see of two reigns: one of them adds to what the other one has set. -/
def twoReigns : List ClientAct × Cluster :=
  Cluster.observe threeMembers (firstReign ++ secondReign) ([], Cluster.init threeMembers)

theorem cluster_linearizable_second :
    twoReigns.1 = [.call 0 ⟨some "x", .set, 5⟩, .ret 0 (.committed 1 (some "x") 5),
      .call 1 ⟨some "x", .add, 1⟩, .ret 1 (.committed 2 (some "x") 6)] ∧
    Linearizable Server.execute Server.new twoReigns.1 := by
  have hH : twoReigns.1 = [.call 0 ⟨some "x", .set, 5⟩, .ret 0 (.committed 1 (some "x") 5),
      .call 1 ⟨some "x", .add, 1⟩, .ret 1 (.committed 2 (some "x") 6)] := by decide +kernel
  have h : Cluster.Observed threeMembers twoReigns.1 twoReigns.2 :=
    Cluster.Observed.observe _ (Cluster.Observed.init)
  obtain ⟨-, order, horder, -⟩ := cluster_linearizable h
  exact ⟨hH, order, horder⟩

end CowRaft.Raft
