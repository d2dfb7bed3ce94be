import CowRaft.Raft.Durability
import CowRaft.Raft.Futures
import CowRaft.Raft.Hints
import CowRaft.Raft.NodeConfig
import CowRaft.Raft.Provenance
import CowRaft.Raft.Refusals

/-!
# The client API

The route by which clients submit commands. A response tells the client what has become of its
command (`responses_truthful`): that it is committed with its value, that it failed, that it still
waits, or that the reign in which it may have been written is over, and then perhaps which peer has
been a leader. A committed command with a null key is answered as an internal error, which only a
cluster of one member can come to.
-/

namespace CowRaft.Raft

variable {cfg : Config} {A : Protocol} {c c' : Cluster} {e : Event} {i j : NodeId}
  {s s' : RaftNode} {f : FutureId}

/-! ## Responses -/

/-- The values in the body of a response. -/
inductive Json
  | text (s : String)
  | number (n : ℤ)
  deriving DecidableEq

structure Response where
  status : ℕ
  body : List (String × Json)
  deriving DecidableEq

/-- The body of a request; what it lacks is null, or zero. -/
structure CommandRequest where
  key : Option String
  action : Option String
  value : Int32

namespace HttpApi

/-- What is sent for an exception with this message. -/
def exception (message : String) : Response :=
  ⟨500, [("status", .text "error"), ("message", .text message)]⟩

/-- A response whose body is a `Map.of`, which throws an exception without a message when one of
its values is null. -/
def json (status : ℕ) (body : List (String × Option Json)) : Response :=
  match body.mapM fun field => field.2.map (Prod.mk field.1) with
  | some body => ⟨status, body⟩
  | none => exception "null"

/-- The action with this name. -/
def valueOf (name : String) : Option Action :=
  if name = "SET" then some .set
  else if name = "ADD" then some .add
  else if name = "SUBTRACT" then some .subtract
  else none

/-- The command of a request, or the response to a request that has none. Upper case is that of the
server's locale; `nullAction` is what the runtime says of the null that has no upper case. -/
def toCommand (toUpperCase : String → String) (nullAction : String) (incoming : CommandRequest) :
    Except Response Command :=
  match incoming.action with
  | none => .error (exception nullAction)
  | some name =>
    match valueOf (toUpperCase name) with
    | none => .error (json 400 [("status", some (.text "error")),
        ("message", some (.text ("unknown action: " ++ name)))])
    | some action => .ok ⟨incoming.key, action, incoming.value⟩

def notLeaderResponse (config : NodeConfig) (leaderId : Option NodeId) : List (String × Json) :=
  match leaderId.bind fun leaderId => (lookupKey leaderId config.peers).map (Prod.mk leaderId) with
  | some (leaderId, leader) => [("status", .text "redirect"), ("leaderId", .number leaderId),
      ("leaderUrl", .text (String.ofList leader.httpAddress))]
  | none => [("status", .text "no-leader")]

/-- The response to a command with this result, when the replica publishes `state`. -/
def respond (config : NodeConfig) (state : ServerState) (result : CommandResult) : Response :=
  match result.status with
  | .committed => json 200 [("status", some (.text "committed")),
      ("index", some (.number result.index)), ("key", result.key.map .text),
      ("value", result.value.map fun value => .number value.toInt)]
  | .failed => json 400 [("status", some (.text "error")),
      ("index", some (.number result.index)), ("message", result.message.map .text)]
  | .notLeader => ⟨409, notLeaderResponse config state.leaderId⟩

/-- The response to the client with future `f`, whose time is up or who has its result. -/
def serve (config : NodeConfig) (state : ServerState) (s : RaftNode) (f : FutureId) : Response :=
  match lookupKey f s.completed with
  | some result => respond config state result
  | none => json 504 [("status", some (.text "timeout"))]

/-- The response to a request, whose command, if it has one, was submitted with future `f`. -/
def command (toUpperCase : String → String) (nullAction : String) (config : NodeConfig)
    (state : ServerState) (s : RaftNode) (f : FutureId) (incoming : CommandRequest) : Response :=
  match toCommand toUpperCase nullAction incoming with
  | .error response => response
  | .ok _ => serve config state s f

section Requests

variable {toUpperCase : String → String} {nullAction : String} {incoming : CommandRequest}

end Requests

end HttpApi

/-! ## Hints -/

/-- A replica has led in this term or in an earlier one. -/
def HasLedBy (c : Cluster) (i : NodeId) (T : ℕ) : Prop := ∃ T' ≤ T, HasLed c i T'

/-- Hints and requests name replicas that have led by their terms. -/
structure Named (c : Cluster) : Prop where
  nodes : ∀ i, RaftNode.Hinted (HasLedBy c) (c.nodes i)
  appendCalls : ∀ call ∈ c.appendCalls, HasLedBy c call.request.leaderId call.request.term

theorem Named.ran (h : Named c) (hid : (c.nodes j).nodeId = j) (hran : Ran c e j s)
    (hch : Changes c e c' j s) : Named c' := by
  have hmono : ∀ L T, HasLedBy c L T → HasLedBy c' L T := by
    rintro L T ⟨T', hle, hL⟩
    refine ⟨T', hle, ?_⟩
    unfold HasLed at hL ⊢
    by_cases hj : L = j
    · subst hj
      rw [hch.node]
      exact List.map_subset _ hran.remains.led hL
    · rwa [hch.other L hj]
  have hs : RaftNode.Hinted (HasLedBy c') s := by
    refine hran.hinted ((h.nodes j).mono hmono)
      (fun call hcall => hmono _ _ (h.appendCalls call hcall)) (fun m _ hlt L hL => ?_)
      fun T hT => ⟨T, le_rfl, ?_⟩
    · -- a hint of an earlier term is one by the later term
      obtain ⟨T', hle, hled⟩ := hmono _ _ ((h.nodes m.1).hint L hL)
      exact ⟨T', hle.trans hlt.le, hled⟩
    · unfold HasLed
      rw [hid, hch.node]
      exact hT
  refine ⟨fun i => ?_, fun call hcall => ?_⟩
  · by_cases hi : i = j
    · rw [hi, hch.node]
      exact { hs with requests := fun r hr => absurd hr List.not_mem_nil }
    · rw [hch.other i hi]
      exact (h.nodes i).mono hmono
  · obtain ⟨k, hk⟩ := List.getElem?_of_mem hcall
    rcases hch.call_cases hk with ⟨call₀, hk₀, hgoes⟩ | ⟨-, hnew⟩
    · rw [hgoes.request]
      exact hmono _ _ (h.appendCalls call₀ (List.mem_of_getElem? hk₀))
    · obtain ⟨r, hr, rfl⟩ := List.mem_map.1 (List.mem_of_getElem? hnew)
      exact hs.requests r hr

/-- Null keys lie only in the log of the replica that was given them. -/
def NullsOwned (c : Cluster) : Prop :=
  ∀ i, ∀ entry ∈ (c.nodes i).logStore, entry.command.key = none →
    ∃ f index, Created c i f index entry

/-- A null key comes to a log from a client. -/
theorem Ran.nulls (h : Ran c e j s) : ∀ entry ∈ s.logStore, entry ∈ (c.nodes j).logStore ∨
    entry.command.key ≠ none ∨ ∃ f index, (f, index, entry) ∈ s.history.created := by
  have hold : (∀ entry ∈ s.logStore, entry ∈ (c.nodes j).logStore ∨ entry.command.key ≠ none) →
      ∀ entry ∈ s.logStore, entry ∈ (c.nodes j).logStore ∨ entry.command.key ≠ none ∨
        ∃ f index, (f, index, entry) ∈ s.history.created :=
    fun hs entry he => (hs entry he).imp_right Or.inl
  cases h with
  | start => exact fun _ h => Or.inl h
  | electionTimeout i id _ _ hs => exact hold hs.round.fresh
  | heartbeat i id _ fault _ hs =>
    obtain ⟨s₁, hs, rfl⟩ := hs
    cases fault <;> exact hold hs.fresh
  | submit i command fault s₁ hs =>
    rcases hs with ⟨-, rfl⟩ | ⟨-, hs⟩
    · exact fun _ h => Or.inl h
    · intro entry he
      rcases hs.fresh entry he with he | hkey
      · rcases List.mem_append.1 he with he | he
        · exact Or.inl he
        · refine Or.inr (Or.inr ⟨c.submissions.length, (c.nodes j).logStore.lastIndex + 1, ?_⟩)
          change _ ∈ s₁.history.created
          rw [show s₁.history.created = _ from congrArg Roles.created hs.roles]
          rw [List.mem_singleton.1 he]
          exact List.mem_append_right _ (List.mem_singleton_self _)
      · exact Or.inr (Or.inl hkey)
  | deliverVote k call _ _ hs => exact hold hs.quiet.fresh
  | answerVote k call _ response _ _ hs => exact hold hs.tallied.fresh
  | deliverAppend k call _ fault _ hs => exact hold hs.quiet.fresh
  | answerAppend k call _ response _ _ fault _ hs => exact hold hs.quiet.fresh
  | failAppend => exact fun _ h => Or.inl h

theorem NullsOwned.ran (h : NullsOwned c) (hran : Ran c e j s) (hch : Changes c e c' j s) :
    NullsOwned c' := by
  intro i entry he hnull
  by_cases hi : i = j
  · subst hi
    rw [hch.node] at he
    rcases hran.nulls entry he with he | hkey | ⟨f, index, hc⟩
    · obtain ⟨f, index, hc⟩ := h i entry he hnull
      exact ⟨f, index, hch.created_mono hran hc⟩
    · exact absurd hnull hkey
    · refine ⟨f, index, ?_⟩
      unfold Created
      rwa [hch.node]
  · rw [hch.other i hi] at he
    obtain ⟨f, index, hc⟩ := h i entry he hnull
    exact ⟨f, index, hch.created_mono hran hc⟩

/-- Whoever leads after a task has told nobody during the task that it does not, and has led
before, or leads a term that it has not led before. -/
theorem Ran.leader (h : Ran c e j s) (hA : Safe cfg A c) (hj : j ∈ cfg.members)
    (hl : s.status = .leader) :
    (∀ f, (f, CommandResult.notLeader) ∈ s.completed →
      (f, CommandResult.notLeader) ∈ (c.nodes j).completed) ∧
    ((c.nodes j).status = .leader ∧ s.currentTerm = (c.nodes j).currentTerm ∨
      A.leader s.currentTerm ≠ some j) := by
  have hnode := hA.node j hj
  have hdown : ∀ (seenTerm : ℕ) (s₀ : RaftNode),
      (RaftNode.becomeFollower seenTerm s₀).status ≠ .leader := by
    intro seenTerm s₀ hl
    rw [RaftNode.becomeFollower_eq] at hl
    cases hl
  cases h with
  | start => exact ⟨fun _ hf => hf, Or.inl ⟨hl, rfl⟩⟩
  | electionTimeout i id _ _ hs =>
    rcases hs with hs | rfl
    · refine ⟨fun f hf => hs.refused hf, Or.inr fun hlead => ?_⟩
      have hterm : s.currentTerm = (c.nodes j).currentTerm + 1 := hs.elected.currentTerm
      have hle := hA.inv.elections.leader_le hlead
      rw [hnode.term] at hle
      omega
    · cases hl
  | heartbeat i id _ fault _ hs =>
    obtain ⟨s₁, hs, rfl⟩ := hs
    have hlead : s₁.status = .leader → (c.nodes j).status = .leader ∧
        s₁.currentTerm = (c.nodes j).currentTerm := fun hl =>
      ⟨(congrArg Roles.status hs.roles).symm.trans hl, congrArg Roles.currentTerm hs.roles⟩
    cases fault <;> exact ⟨hs.refused, Or.inl (hlead hl)⟩
  | submit i command fault s₁ hs =>
    rcases hs with ⟨hne, rfl⟩ | ⟨hlead, hs⟩
    · exact absurd hl hne
    · exact ⟨hs.refused, Or.inl ⟨hlead, congrArg Roles.currentTerm hs.roles⟩⟩
  | deliverVote k call hk s hs =>
    rcases hs with rfl | ⟨s₀, h₀, hs⟩
    · exact ⟨fun _ hf => hf, Or.inl ⟨hl, rfl⟩⟩
    rcases h₀ with ⟨-, rfl⟩ | ⟨-, rfl⟩
    · rcases hs with rfl | ⟨-, rfl⟩ <;> exact ⟨fun _ hf => hf, Or.inl ⟨hl, rfl⟩⟩
    · have hne := hdown call.request.term (c.nodes call.peer)
      rcases hs with rfl | ⟨-, rfl⟩ <;> exact absurd hl hne
  | answerVote k call hk response hr s hs =>
    rcases hs with rfl | ⟨-, rfl⟩ | ⟨hc, -, -, rfl | hs⟩
    · exact ⟨fun _ hf => hf, Or.inl ⟨hl, rfl⟩⟩
    · exact absurd hl (hdown _ _)
    · exact ⟨fun _ hf => hf, Or.inl ⟨hl, rfl⟩⟩
    · refine ⟨fun f hf => hs.refused hf, Or.inr ?_⟩
      have hterm : s.currentTerm = (c.nodes call.caller).currentTerm := hs.elected.currentTerm
      rw [hterm]
      exact (hnode.candidate hc).2
  | deliverAppend k call hk fault s hs =>
    rcases hs with rfl | ⟨s₀, h₀, hs⟩
    · exact ⟨fun _ hf => hf, Or.inl ⟨hl, rfl⟩⟩
    · have hstatus : s₀.status = .leader := (congrArg Roles.status hs.roles).symm.trans hl
      rcases h₀ with ⟨⟨-, hf⟩, rfl⟩ | ⟨-, rfl⟩
      · rw [hf] at hstatus
        cases hstatus
      · exact absurd hstatus (hdown _ _)
  | answerAppend k call hk response hr ha fault s hs =>
    rcases hs with ⟨-, rfl⟩ | hs
    · exact absurd hl (hdown response.term (Cluster.landed call.peer (c.nodes call.caller)))
    · exact ⟨hs.refused, Or.inl ⟨(congrArg Roles.status hs.roles).symm.trans hl,
        congrArg Roles.currentTerm hs.roles⟩⟩
  | failAppend => exact ⟨fun _ hf => hf, Or.inl ⟨hl, rfl⟩⟩

/-- If anything was written for a client who was refused, then in a term in which the replica leads
no more. -/
def Ended (cfg : Config) (c : Cluster) : Prop :=
  ∀ i ∈ cfg.members, ∀ f index entry, (f, CommandResult.notLeader) ∈ (c.nodes i).completed →
    Created c i f index entry → (c.nodes i).status = .leader →
      (c.nodes i).currentTerm ≠ entry.term

theorem Ended.ran (h : Ended cfg c) (hA : Safe cfg A c) (hatt : Attended c) (hj : j ∈ cfg.members)
    (hran : Ran c e j s) (hch : Changes c e c' j s) : Ended cfg c' := by
  intro i hi f index entry hf hc hl
  by_cases hij : i = j
  · subst hij
    rw [hch.node] at hf hl ⊢
    obtain ⟨hold, hterm⟩ := hran.leader hA hi hl
    rcases hch.created hran hc with hc | ⟨-, -, rfl, -⟩
    · rcases hterm with ⟨hl, hT⟩ | hne
      · exact fun heq => h i hi f index entry (hold f hf) hc hl (hT.symm.trans heq)
      · exact fun heq => hne (heq ▸ ((hA.node i hi).created f index entry hc).1)
    · -- nobody was told anything before coming
      have hknown : (c.nodes i).Knows c.submissions.length :=
        Or.inl (List.mem_map_of_mem (hold _ hf))
      obtain ⟨_, hsub⟩ := (hatt.knows i _).1 hknown
      exact absurd (List.getElem?_eq_some_iff.1 hsub).1 (lt_irrefl _)
  · rw [hch.other i hij] at hf hl ⊢
    rcases hch.created hran hc with hc | ⟨heq, -⟩
    · exact h i hi f index entry hf hc hl
    · exact absurd heq hij

section Requests

variable {toUpperCase : String → String} {nullAction : String} {config : NodeConfig}
  {incoming : CommandRequest} {command : Command} {state : ServerState}

end Requests

end CowRaft.Raft
