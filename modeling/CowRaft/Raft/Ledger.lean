import CowRaft.Raft.Runs
import CowRaft.Raft.Safety

/-!
# Client commands

Which entry was appended for which client (`Ledger`): each for one submission, with its command, and
no two at one index in one term. With what the protocol knows of committed entries, this says that
clients are told the truth about their own commands (`answers_truthful`), and that commands take
effect in the order in which clients gave and heard of them (`real_time_order`).
-/

namespace CowRaft.Raft

open Consensus (State Inv Evolves Move)

variable {cfg : Config} {A A' : Protocol} {c c' : Cluster} {e : Event} {i j m : NodeId}
  {s : RaftNode}

/-! ## The ledger -/

/-- An entry was appended by replica `i` for the client with future `f`. -/
def Created (c : Cluster) (i : NodeId) (f : FutureId) (index : ℕ) (entry : LogEntry) : Prop :=
  (f, index, entry) ∈ (c.nodes i).history.created

/-- What is appended for clients is what they have submitted, each submission once, and no two at
one index in one term. -/
structure Ledger (c : Cluster) : Prop where
  submitted : ∀ i f index entry, Created c i f index entry →
    c.submissions[f]? = some (i, entry.command)
  once : ∀ i f index index' entry entry', Created c i f index entry →
    Created c i f index' entry' → index = index' ∧ entry = entry'
  apart : ∀ i f f' index entry entry', Created c i f index entry →
    Created c i f' index entry' → entry.term = entry'.term → f = f'

/-- A leader appends an entry for the client who submits a command, and nobody else appends. -/
theorem Ran.created (h : Ran c e j s) : s.history.created = (c.nodes j).history.created ∨
    ∃ command, e.submission = some (j, command) ∧ (c.nodes j).status = .leader ∧
      s.history.created = (c.nodes j).history.created ++
        [(c.submissions.length, (c.nodes j).logStore.lastIndex + 1,
          ⟨(c.nodes j).currentTerm, command⟩)] := by
  cases h with
  | start => exact Or.inl rfl
  | electionTimeout i id _ _ hs => exact Or.inl hs.round.created
  | heartbeat i id _ fault _ hs =>
    obtain ⟨s₁, hs, rfl⟩ := hs
    have hcreated : s₁.history.created = (c.nodes j).history.created :=
      congrArg Roles.created hs.roles
    cases fault <;> exact Or.inl hcreated
  | submit i command fault _ hs =>
    rcases hs with ⟨-, rfl⟩ | ⟨hl, hs⟩
    · exact Or.inl rfl
    · exact Or.inr ⟨command, rfl, hl, congrArg Roles.created hs.roles⟩
  | deliverVote k call _ _ hs => exact Or.inl hs.quiet.created
  | answerVote k call _ response _ _ hs => exact Or.inl hs.tallied.created
  | deliverAppend k call _ fault _ hs => exact Or.inl hs.quiet.created
  | answerAppend k call _ response _ _ fault _ hs => exact Or.inl hs.quiet.created
  | failAppend => exact Or.inl rfl

/-- An entry was appended before, or the event submits its command to a leader. -/
theorem Changes.created (h : Changes c e c' j s) (hran : Ran c e j s) {f : FutureId} {index : ℕ}
    {entry : LogEntry} (hc : Created c' i f index entry) :
    Created c i f index entry ∨ i = j ∧ (c.nodes j).status = .leader ∧
      f = c.submissions.length ∧ index = (c.nodes j).logStore.lastIndex + 1 ∧
      ∃ command, e.submission = some (j, command) ∧
        entry = ⟨(c.nodes j).currentTerm, command⟩ := by
  unfold Created at hc
  by_cases hi : i = j
  · subst hi
    rw [h.node] at hc
    dsimp only at hc
    rcases hran.created with heq | ⟨command, hsub, hl, heq⟩
    · rw [heq] at hc
      exact Or.inl hc
    · rw [heq] at hc
      rcases List.mem_append.1 hc with hc | hc
      · exact Or.inl hc
      · simp only [List.mem_singleton, Prod.mk.injEq] at hc
        obtain ⟨hf, hindex, hentry⟩ := hc
        exact Or.inr ⟨rfl, hl, hf, hindex, command, hsub, hentry⟩
  · rw [h.other i hi] at hc
    exact Or.inl hc

/-- A leader's log holds all that was appended in its term. -/
theorem Safe.created_le (hA : Safe cfg A c) (hi : i ∈ cfg.members) {f : FutureId} {index : ℕ}
    {entry : LogEntry} (hc : Created c i f index entry) :
    0 < index ∧ index ≤ (A.leaderLog entry.term).length := by
  obtain ⟨-, hpos, hget⟩ := (hA.node i hi).created f index entry hc
  have := (List.getElem?_eq_some_iff.1 hget).1
  omega

/-- Nothing was appended for a client that has not come yet. -/
theorem Ledger.fresh (h : Ledger c) (i : NodeId) (index : ℕ) (entry : LogEntry) :
    ¬ Created c i c.submissions.length index entry :=
  fun hc => absurd (List.getElem?_eq_some_iff.1 (h.submitted _ _ _ _ hc)).1 (lt_irrefl _)

/-- What is appended for a client has one place. -/
theorem Ledger.index_eq (h : Ledger c) {f : FutureId} {index index' : ℕ}
    {entry entry' : LogEntry} (hc : Created c i f index entry) (hc' : Created c j f index' entry') :
    index = index' := by
  have hsub := h.submitted i f index entry hc
  rw [h.submitted j f index' entry' hc'] at hsub
  obtain rfl : j = i := congrArg Prod.fst (Option.some.inj hsub)
  exact (h.once j f index index' entry entry' hc hc').1

theorem Ledger.ran (h : Ledger c) (hA : Safe cfg A c) (hj : j ∈ cfg.members)
    (hran : Ran c e j s) (hch : Changes c e c' j s) : Ledger c' := by
  have hlt : ∀ {i f index entry}, Created c i f index entry → f < c.submissions.length :=
    fun hc => (List.getElem?_eq_some_iff.1 (h.submitted _ _ _ _ hc)).1
  -- a new entry lies behind all entries of its term
  have hnew : ∀ {f index entry}, (c.nodes j).status = .leader → Created c j f index entry →
      entry.term = (c.nodes j).currentTerm → index ≠ (c.nodes j).logStore.lastIndex + 1 := by
    intro f index entry hl hc hterm heq
    have hle := (hA.created_le hj hc).2
    rw [hterm, (hA.node j hj).leaderLog_eq hA.inv hl] at hle
    have hlast : (c.nodes j).logStore.lastIndex = (c.nodes j).logStore.length := rfl
    omega
  constructor
  · intro i f index entry hc
    rw [hch.submissions]
    rcases hch.created hran hc with hc | ⟨rfl, -, rfl, -, command, hsub, rfl⟩
    · rw [List.getElem?_append_left (hlt hc)]
      exact h.submitted i f index entry hc
    · rw [hsub, List.getElem?_append_right le_rfl, Nat.sub_self]
      rfl
  · intro i f index index' entry entry' hc hc'
    rcases hch.created hran hc with hc | ⟨rfl, -, rfl, rfl, command, hsub, rfl⟩
    · rcases hch.created hran hc' with hc' | ⟨-, -, rfl, -⟩
      · exact h.once i f index index' entry entry' hc hc'
      · exact absurd (hlt hc) (lt_irrefl _)
    · rcases hch.created hran hc' with hc' | ⟨-, -, -, rfl, command', hsub', rfl⟩
      · exact absurd (hlt hc') (lt_irrefl _)
      · rw [hsub] at hsub'
        have hcommand : command = command' := congrArg Prod.snd (Option.some.inj hsub')
        exact ⟨rfl, congrArg _ hcommand⟩
  · intro i f f' index entry entry' hc hc' hterm
    rcases hch.created hran hc with hc | ⟨rfl, hl, rfl, rfl, command, -, rfl⟩
    · rcases hch.created hran hc' with hc' | ⟨rfl, hl, rfl, rfl, command, -, rfl⟩
      · exact h.apart i f f' index entry entry' hc hc' hterm
      · exact absurd rfl (hnew hl hc hterm)
    · rcases hch.created hran hc' with hc' | ⟨-, -, rfl, -⟩
      · exact absurd rfl (hnew hl hc' hterm.symm)
      · rfl

theorem Ledger.init (cfg : Config) : Ledger (Cluster.init cfg) where
  submitted _ _ _ _ hc := absurd hc List.not_mem_nil
  once _ _ _ _ _ _ hc := absurd hc List.not_mem_nil
  apart _ _ _ _ _ _ hc := absurd hc List.not_mem_nil

theorem exists_ledger (h : Cluster.Reachable cfg c) : Ledger c :=
  Cluster.RunWhere.induction (Cluster.Run.runWhere h) (Ledger.init cfg)
    fun hA hj hl _ _ hran hch => hl.ran hA hj hran hch

/-! ## Answers -/

/-- What the answer to a client's command says about the entry that was appended for it. -/
structure Answered (c : Cluster) (i : NodeId) (f : FutureId) (r : CommandResult)
    (entry : LogEntry) : Prop where
  created : Created c i f r.index entry
  submitted : c.submissions[f]? = some (i, entry.command)
  /-- The entry is committed. -/
  index : 0 < r.index ∧ r.index ≤ (c.nodes i).commitIndex
  log : (c.nodes i).logStore[r.index - 1]? = some entry
  key : r.key = entry.command.key
  /-- The value is the outcome behind exactly the entries before. -/
  committed : r.status = .committed → ∃ value values,
    (StateMachine.replay ((c.nodes i).logStore.take (r.index - 1))).apply entry.command =
      .ok (value, values) ∧ r.value = some value
  /-- The command failed there, and changed nothing. -/
  failed : r.status = .failed → ∃ e,
    (StateMachine.replay ((c.nodes i).logStore.take (r.index - 1))).apply entry.command =
      .error e ∧
    StateMachine.replay ((c.nodes i).logStore.take r.index) =
      StateMachine.replay ((c.nodes i).logStore.take (r.index - 1))

theorem Safe.answered (hA : Safe cfg A c) (hL : Ledger c) (hi : i ∈ cfg.members) {f : FutureId}
    {r : CommandResult} (hr : (f, r) ∈ (c.nodes i).completed) (hne : r.status ≠ .notLeader) :
    ∃ entry, Answered c i f r entry := by
  have hnode := hA.node i hi
  rcases hnode.clients.answered f r hr with rfl | ⟨entry, hc, hpos, hget, hout⟩
  · exact absurd rfl hne
  have hlt := (List.getElem?_eq_some_iff.1 hget).1
  rw [hnode.applied, List.length_take] at hlt
  have htake : (c.nodes i).history.applied.take (r.index - 1) =
      (c.nodes i).logStore.take (r.index - 1) := by
    rw [hnode.applied, List.take_take, Nat.min_eq_left (by omega)]
  have hlog : (c.nodes i).logStore[r.index - 1]? = some entry := by
    rw [hnode.applied, List.getElem?_take_of_lt (by omega)] at hget
    exact hget
  have hdone := hA.done i hi
  rw [htake] at hout
  refine ⟨entry, hc, hL.submitted i f _ entry hc, ⟨hpos, by omega⟩, hlog, ?_, ?_, ?_⟩
  · rcases hout with ⟨value, values, -, heq⟩ | ⟨e, -, heq⟩
    · exact congrArg CommandResult.key heq
    · exact congrArg CommandResult.key heq
  · intro hs
    rcases hout with ⟨value, values, happly, heq⟩ | ⟨e, -, heq⟩
    · exact ⟨value, values, happly, congrArg CommandResult.value heq⟩
    · exact CommandResult.Status.noConfusion (hs.symm.trans (congrArg CommandResult.status heq))
  · intro hs
    rcases hout with ⟨value, values, -, heq⟩ | ⟨e, happly, -⟩
    · exact CommandResult.Status.noConfusion (hs.symm.trans (congrArg CommandResult.status heq))
    · refine ⟨e, happly, ?_⟩
      have hsnoc : (c.nodes i).logStore.take r.index =
          (c.nodes i).logStore.take (r.index - 1) ++ [entry] := by
        have := List.take_add_one (l := (c.nodes i).logStore) (i := r.index - 1)
        rwa [Nat.sub_add_cancel hpos, hlog] at this
      rw [hsnoc, StateMachine.replay_snoc]
      exact StateMachine.next_of_error happly

/-- Answers about one entry are answers to one client. -/
theorem Safe.answered_unique (hA : Safe cfg A c) (hL : Ledger c) (hi : i ∈ cfg.members)
    (hj : j ∈ cfg.members) {f f' : FutureId} {r r' : CommandResult} {entry entry' : LogEntry}
    (h : Answered c i f r entry) (h' : Answered c j f' r' entry') (heq : r.index = r'.index) :
    i = j ∧ f = f' := by
  have happlied : ∀ {i : NodeId} {f : FutureId} {r : CommandResult} {entry : LogEntry},
      i ∈ cfg.members → Answered c i f r entry →
      (c.nodes i).history.applied[r.index - 1]? = some entry := by
    intro i f r entry hi h
    have hindex := h.index
    rw [hA.applied_eq hi, List.getElem?_take_of_lt (by omega)]
    exact h.log
  have hentry : entry = entry' :=
    hA.applied_agree hi hj (happlied hi h) (heq ▸ happlied hj h')
  subst hentry
  have hlead := ((hA.node i hi).created _ _ _ h.created).1
  have hlead' := ((hA.node j hj).created _ _ _ h'.created).1
  rw [hlead] at hlead'
  obtain rfl := Option.some.inj hlead'
  exact ⟨rfl, hL.apart i f f' _ entry entry h.created (heq ▸ h'.created) rfl⟩

/-- **Answers are truthful**: a client that is told that its command was committed or failed is told
the outcome of the entry that was appended for it, behind exactly the committed entries before, and
no other client is told of that entry. -/
theorem answers_truthful (h : Cluster.Reachable cfg c) (hi : i ∈ cfg.members) {f : FutureId}
    {r : CommandResult} (hr : (f, r) ∈ (c.nodes i).completed) (hne : r.status ≠ .notLeader) :
    ∃ entry, Answered c i f r entry ∧
      ∀ j ∈ cfg.members, ∀ f' r', (f', r') ∈ (c.nodes j).completed → r'.status ≠ .notLeader →
        r'.index = r.index → j = i ∧ f' = f := by
  obtain ⟨A, hA⟩ := exists_safe h
  have hL := exists_ledger h
  obtain ⟨entry, hent⟩ := hA.answered hL hi hr hne
  refine ⟨entry, hent, fun j hj f' r' hr' hne' heq => ?_⟩
  obtain ⟨entry', hent'⟩ := hA.answered hL hj hr' hne'
  exact hA.answered_unique hL hj hi hent' hent heq

theorem answers_truthful_second :
    ∃ entry, Answered afterSecond 2 1 (.committed 2 (some "x") 6) entry :=
  (answers_truthful reachable_afterSecond (by decide) (by decide +kernel)
    (by decide)).imp fun _ h => h.1

/-! ## Real time -/

/-- What a replica has applied stays applied. -/
theorem Safe.applied_later (hA : Safe cfg A c) (hA' : Safe cfg A' c') (hm : Moves cfg A A')
    (hi : i ∈ cfg.members) : (c.nodes i).history.applied <+: (c'.nodes i).history.applied := by
  have hle := hm.commit_le i
  rw [(hA.node i hi).commit, (hA'.node i hi).commit] at hle
  have hk := hm.known (hA.inv.commits i)
  have hk' := hA'.inv.commits i
  rw [(hA.node i hi).commit, (hA.node i hi).log] at hk
  rw [(hA'.node i hi).commit, (hA'.node i hi).log] at hk'
  rw [hA.applied_eq hi, hA'.applied_eq hi, hA'.inv.known_agree hk hk' hle]
  exact Consensus.take_start_mono _ hle

/-- A replica holds nothing of a term that the leader of the term has not written. -/
theorem Safe.index_le_leaderLog (hA : Safe cfg A c) (hi : i ∈ cfg.members) {k : ℕ}
    {entry : LogEntry} (he : (c.nodes i).logStore[k]? = some entry) :
    k + 1 ≤ (A.leaderLog entry.term).length := by
  have hmatched := hA.inv.logs.matched i
  rw [(hA.node i hi).log] at hmatched
  have hlen := (List.getElem?_eq_some_iff.1 he).1
  have hsnoc : (c.nodes i).logStore.take k ++ [entry] = (c.nodes i).logStore.take (k + 1) := by
    rw [List.take_add_one, he]
    rfl
  have hstart := (hmatched ((c.nodes i).logStore.take k) entry
    (hsnoc ▸ List.take_prefix _ _)).length_le
  rw [List.length_append, List.length_take] at hstart
  simp only [List.length_singleton] at hstart
  omega

/-- Whatever is submitted later in a term is appended behind the term's log. -/
theorem created_behind (hA : Safe cfg A c) (hL : Ledger c) (hrun : Cluster.Run cfg c c') :
    ∃ A', Moves cfg A A' ∧ Safe cfg A' c' ∧ c.submissions.length ≤ c'.submissions.length ∧
      ∀ j f index entry, c.submissions.length ≤ f → Created c' j f index entry →
        (A.leaderLog entry.term).length < index := by
  induction hrun with
  | refl =>
    refine ⟨A, Relation.ReflTransGen.refl, hA, le_rfl, fun j f index entry hle hc => ?_⟩
    have hlt := (List.getElem?_eq_some_iff.1 (hL.submitted j f index entry hc)).1
    exact absurd hlt (Nat.not_lt.2 hle)
  | @tail b _ _ hs ih =>
    obtain ⟨A₁, hm, hA₁, hlen, hbehind⟩ := ih
    obtain ⟨e, hstep⟩ := hs
    obtain ⟨j, hj, s, hran, hch⟩ := hA₁.ran hstep
    obtain ⟨i, hi, A₂, hmove, hA₂⟩ := hA₁.step hstep
    refine ⟨A₂, hm.tail ⟨i, hi, hmove⟩, hA₂, ?_, fun i f index entry hle hc => ?_⟩
    · rw [hch.submissions, List.length_append]
      omega
    · rcases hch.created hran hc with hc | ⟨-, hl, -, rfl, command, -, rfl⟩
      · exact hbehind i f index entry hle hc
      · have hstart := (hm.leaderLog (b.nodes j).currentTerm).length_le
        rw [(hA₁.node j hj).leaderLog_eq hA₁.inv hl] at hstart
        exact Nat.lt_succ_of_le hstart

/-- **Real-time order**: if a client was told the outcome of its command before another command was
submitted, the entry of the later one has a higher index wherever it is applied, behind the entry
of the first. -/
theorem real_time_order (h : Cluster.Reachable cfg c) (hrun : Cluster.Run cfg c c')
    (hi : i ∈ cfg.members) {f : FutureId} {r : CommandResult}
    (hr : (f, r) ∈ (c.nodes i).completed) (hne : r.status ≠ .notLeader) {f' : FutureId}
    {index : ℕ} {entry' : LogEntry} (hlater : c.submissions.length ≤ f')
    (hc : Created c' j f' index entry') (hj : j ∈ cfg.members) (hm : m ∈ cfg.members)
    (happlied : (c'.nodes m).history.applied[index - 1]? = some entry') :
    r.index < index ∧ ∃ entry, Created c i f r.index entry ∧
      (c'.nodes m).history.applied[r.index - 1]? = some entry := by
  obtain ⟨A, hA⟩ := exists_safe h
  have hL := exists_ledger h
  obtain ⟨A', hmoves, hA', -, hbehind⟩ := created_behind hA hL hrun
  obtain ⟨entry, hent⟩ := hA.answered hL hi hr hne
  obtain ⟨hpos, hcommit⟩ := hent.index
  have hstart := hA.applied_later hA' hmoves hi
  have hcut : ∀ k < (c.nodes i).commitIndex,
      (c.nodes i).history.applied[k]? = (c.nodes i).logStore[k]? := by
    intro k hk
    rw [hA.applied_eq hi, List.getElem?_take_of_lt hk]
  have hle := (hA.node i hi).commitIndex_le hA.inv
  have hpos' : 0 < index := (hA'.created_le hj hc).1
  have hlt : r.index < index := by
    by_contra hge
    -- otherwise the later entry lay in the log already when the client heard of the first
    have hk : index - 1 < (c.nodes i).commitIndex := by omega
    obtain ⟨e₁, he₁⟩ : ∃ e₁, (c.nodes i).logStore[index - 1]? = some e₁ :=
      ⟨_, List.getElem?_eq_getElem (hk.trans_le hle)⟩
    have hsame : e₁ = entry' := by
      refine hA'.applied_agree hi hm (Consensus.getElem?_of_start hstart ?_) happlied
      rw [hcut _ hk, he₁]
    subst hsame
    have hlen := hA.index_le_leaderLog hi he₁
    have hbe := hbehind j f' index e₁ hlater hc
    omega
  refine ⟨hlt, entry, hent.created, ?_⟩
  have hfirst : (c'.nodes i).history.applied[r.index - 1]? = some entry := by
    refine Consensus.getElem?_of_start hstart ?_
    rw [hcut _ (by omega), hent.log]
  have hlast := (List.getElem?_eq_some_iff.1 happlied).1
  obtain ⟨e₂, he₂⟩ : ∃ e₂, (c'.nodes m).history.applied[r.index - 1]? = some e₂ :=
    ⟨_, List.getElem?_eq_getElem (by omega)⟩
  rw [he₂, hA'.applied_agree hi hm hfirst he₂]

theorem real_time_order_second : ∃ entry, Created afterFirst 1 0 1 entry ∧
    (afterSecond.nodes 2).history.applied[0]? = some entry := by
  have hr : (0, CommandResult.committed 1 (some "x") 5) ∈ (afterFirst.nodes 1).completed := by
    decide +kernel
  have hc : (1, 2, ⟨2, ⟨some "x", .add, 1⟩⟩) ∈ (afterSecond.nodes 2).history.created := by
    decide +kernel
  have hlater : afterFirst.submissions.length ≤ 1 := by decide +kernel
  have happlied : (afterSecond.nodes 2).history.applied[2 - 1]? =
      some ⟨2, ⟨some "x", .add, 1⟩⟩ := by decide +kernel
  have hrun : Cluster.Run threeMembers afterFirst afterSecond := Cluster.run_after _ _ _
  have hne : (CommandResult.committed 1 (some "x") 5).status ≠ .notLeader := by decide
  have h2 : (2 : NodeId) ∈ threeMembers.members := by decide
  exact (real_time_order reachable_afterFirst hrun (i := 1) (by decide) hr hne hlater hc h2 h2
    happlied).2

end CowRaft.Raft
