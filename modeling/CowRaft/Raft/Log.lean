import CowRaft.Foundations.TermLog
import CowRaft.Foundations.Program

/-!
# Commands, the state machine and the log store

The data of one replica: client commands and the key/value state machine that executes them, the
log store with its 1-based indices, and the wire format of log entries. A Java reference that may
be null is an `Option`, an `int` value wraps as `Int32` does, and what a method throws is its
`Except` error.
-/

namespace CowRaft.Raft

open Consensus (Entry)

/-! ## Commands -/

/-- What a command does to the value of its key. -/
inductive Action
  | set
  | add
  | subtract
  deriving DecidableEq, Repr

/-- A client command; the key is `none` when the request carried no key. -/
structure Command where
  key : Option String
  action : Action
  value : Int32
  deriving DecidableEq

/-- A command targets a key that does not exist. -/
structure UnknownKeyException where
  message : String
  deriving DecidableEq, Repr

/-- The exception about a key. -/
def UnknownKeyException.ofKey (key : Option String) : UnknownKeyException :=
  ⟨"unknown key: " ++ key.getD "null"⟩

/-- The values of the state machine. -/
abbrev StateMachine := Option String → Option Int32

namespace StateMachine

/-- No key has a value. -/
def empty : StateMachine := fun _ => none

/-- Add `delta` to the value of a key that exists. -/
def update (values : StateMachine) (key : Option String) (delta : Int32) :
    Except UnknownKeyException (Int32 × StateMachine) :=
  match values key with
  | none => .error (.ofKey key)
  | some current => .ok (current + delta, Function.update values key (some (current + delta)))

/-- Execute a command: the value it answers with, and the new values. -/
def apply (values : StateMachine) (command : Command) :
    Except UnknownKeyException (Int32 × StateMachine) :=
  match command.action with
  | .set => .ok (command.value, Function.update values command.key (some command.value))
  | .add => values.update command.key command.value
  | .subtract => values.update command.key (-command.value)

/-- The values after a command, which leaves them as they are when it fails. -/
def next (values : StateMachine) (command : Command) : StateMachine :=
  match values.apply command with
  | .ok (_, values') => values'
  | .error _ => values

theorem next_of_error {values : StateMachine} {command : Command} {e : UnknownKeyException}
    (h : values.apply command = .error e) : values.next command = values := by
  unfold next
  rw [h]

/-- The values after the commands of log entries, from first to last. -/
def replay (entries : List (Entry Command)) : StateMachine :=
  entries.foldl (fun values entry => values.next entry.command) empty

theorem replay_snoc (entries : List (Entry Command)) (entry : Entry Command) :
    replay (entries ++ [entry]) = (replay entries).next entry.command := by
  rw [replay, List.foldl_append]
  rfl

/-- Commands that need a value change nothing when the key has none. -/
theorem next_of_unknown {values : StateMachine} {command : Command}
    (ha : command.action ≠ .set) (hk : values command.key = none) :
    values.next command = values := by
  have herr : values.apply command = .error (.ofKey command.key) := by
    unfold apply update
    rw [hk]
    cases hc : command.action with
    | set => exact absurd hc ha
    | add => rfl
    | subtract => rfl
  exact next_of_error herr

end StateMachine

/-! ## The log store -/

/-- An entry of the log. -/
abbrev LogEntry := Entry Command

/-- What a task of the event loop may throw. -/
inductive Fault
  | indexOutOfBounds (message : String)
  | nullPointer
  | unknownKey (e : UnknownKeyException)
  deriving DecidableEq, Repr

/-- The entries of the log, the first of which has index 1. -/
abbrev LogStore := List LogEntry

namespace LogStore

def append (entries : LogStore) (entry : LogEntry) : LogStore := entries ++ [entry]

/-- The entry at a 1-based index. -/
def get (entries : LogStore) (index : ℕ) : Except Fault LogEntry :=
  match if index = 0 then none else entries[index - 1]? with
  | some entry => .ok entry
  | none => .error (.indexOutOfBounds ("no log entry at index " ++ toString index))

def lastIndex (entries : LogStore) : ℕ := entries.length

def lastTerm (entries : LogStore) : ℕ :=
  match entries.getLast? with
  | none => 0
  | some entry => entry.term

def entriesFrom (entries : LogStore) (index : ℕ) : List LogEntry :=
  let index := if index < 1 then 1 else index
  if index > entries.length then [] else entries.drop (index - 1)

/-- Delete all entries from `index` (at least 1) to the end. -/
def truncateFrom (entries : LogStore) (index : ℕ) : LogStore := entries.take (index - 1)

theorem get_succ {entries : LogStore} {i : ℕ} {entry : LogEntry} (h : entries[i]? = some entry) :
    get entries (i + 1) = .ok entry := by
  unfold get
  rw [if_neg (Nat.succ_ne_zero i), Nat.add_sub_cancel, h]

/-- Every index of the log has an entry. -/
theorem exists_get {entries : LogStore} {index : ℕ} (h0 : 0 < index)
    (h : index ≤ lastIndex entries) :
    ∃ entry, entries[index - 1]? = some entry ∧ get entries index = .ok entry := by
  have hlt : index - 1 < entries.length := by
    unfold lastIndex at h
    omega
  refine ⟨entries[index - 1], List.getElem?_eq_getElem hlt, ?_⟩
  have := get_succ (List.getElem?_eq_getElem hlt)
  rwa [Nat.sub_add_cancel h0] at this

theorem lastTerm_eq (entries : LogStore) : lastTerm entries = Consensus.lastTerm entries := by
  unfold lastTerm Consensus.lastTerm
  cases entries.getLast? <;> rfl

theorem entriesFrom_eq (entries : LogStore) (index : ℕ) :
    entriesFrom entries index = entries.drop (index - 1) := by
  unfold entriesFrom
  dsimp only
  split_ifs with h₁ h₂ h₂
  · rw [List.drop_eq_nil_of_le (by omega)]
  · rw [Nat.lt_one_iff.1 h₁]
  · rw [List.drop_eq_nil_of_le (by omega)]
  · rfl

end LogStore

/-! ## Messages -/

/-- The id of a member, as in `NODE_ID`. -/
abbrev NodeId := ℤ

structure RequestVoteRPC where
  term : ℕ
  candidateId : NodeId
  lastLogIndex : ℕ
  lastLogTerm : ℕ
  deriving DecidableEq, Repr

structure ResponseVoteRPC where
  term : ℕ
  voteGranted : Bool
  deriving DecidableEq, Repr

/-- The actions on the wire, with the value that stands for any number the schema lacks. -/
inductive ProtoAction
  | set
  | add
  | subtract
  | unrecognized
  deriving DecidableEq, Repr

/-- A command on the wire, whose key is never null. -/
structure ProtoCommand where
  key : String
  action : ProtoAction
  value : Int32
  deriving DecidableEq

structure ProtoLogEntry where
  term : ℕ
  command : ProtoCommand
  deriving DecidableEq

structure RequestAppendEntriesRPC where
  term : ℕ
  leaderId : NodeId
  prevLogIndex : ℕ
  prevLogTerm : ℕ
  entries : List ProtoLogEntry
  leaderCommit : ℕ
  deriving DecidableEq

structure ResponseAppendEntriesRPC where
  term : ℕ
  success : Bool
  deriving DecidableEq, Repr

namespace ProtoMapper

def actionToProto : Action → ProtoAction
  | .set => .set
  | .add => .add
  | .subtract => .subtract

def actionFromProto : ProtoAction → Except Fault Action
  | .set => .ok .set
  | .add => .ok .add
  | .subtract => .ok .subtract
  | .unrecognized => .error (.unknownKey (.ofKey (some "unrecognized action")))

/-- The setter of the key throws on null. -/
def commandToProto (command : Command) : Except Fault ProtoCommand :=
  match command.key with
  | none => .error .nullPointer
  | some key => .ok ⟨key, actionToProto command.action, command.value⟩

def commandFromProto (proto : ProtoCommand) : Except Fault Command := do
  let action ← actionFromProto proto.action
  return ⟨some proto.key, action, proto.value⟩

def toProto (entry : LogEntry) : Except Fault ProtoLogEntry := do
  let command ← commandToProto entry.command
  return ⟨entry.term, command⟩

def fromProto (proto : ProtoLogEntry) : Except Fault LogEntry := do
  let command ← commandFromProto proto.command
  return ⟨proto.term, command⟩

/-- The entries of a request, converted one after another. -/
def entriesToProto : List LogEntry → Except Fault (List ProtoLogEntry)
  | [] => .ok []
  | entry :: entries => do
    let proto ← toProto entry
    let protos ← entriesToProto entries
    return proto :: protos

theorem fromProto_toProto {entry : LogEntry} {proto : ProtoLogEntry}
    (h : toProto entry = .ok proto) : fromProto proto = .ok entry := by
  obtain ⟨term, key, action, value⟩ := entry
  cases key with
  | none => cases h
  | some key =>
    obtain rfl := Except.ok.inj h
    cases action <;> rfl

/-- No key is null that was on the wire. -/
theorem fromProto_key {proto : ProtoLogEntry} {entry : LogEntry} (h : fromProto proto = .ok entry) :
    entry.command.key ≠ none := by
  obtain ⟨term, key, action, value⟩ := proto
  cases action with
  | unrecognized => cases h
  | set | add | subtract =>
    obtain rfl := Except.ok.inj h
    exact Option.some_ne_none key

/-- Conversion fails on a null key only. -/
theorem toProto_error {entry : LogEntry} {e : Fault} (h : toProto entry = .error e) :
    entry.command.key = none ∧ e = .nullPointer := by
  obtain ⟨term, key, action, value⟩ := entry
  cases key with
  | none => exact ⟨rfl, (Except.error.inj h).symm⟩
  | some key => cases h

theorem toProto_null {entry : LogEntry} (h : entry.command.key = none) :
    toProto entry = .error .nullPointer := by
  unfold toProto commandToProto
  rw [h]
  rfl

/-- The entries that arrive are the entries that were sent. -/
theorem forall₂_entriesToProto {entries : List LogEntry} {protos : List ProtoLogEntry}
    (h : entriesToProto entries = .ok protos) :
    List.Forall₂ (fun proto entry => fromProto proto = .ok entry) protos entries := by
  induction entries generalizing protos with
  | nil =>
    obtain rfl := Except.ok.inj h
    exact List.Forall₂.nil
  | cons entry entries ih =>
    cases hp : toProto entry with
    | error e =>
      rw [entriesToProto, hp] at h
      cases h
    | ok proto =>
      cases hps : entriesToProto entries with
      | error e =>
        rw [entriesToProto, hp, hps] at h
        cases h
      | ok protos' =>
        rw [entriesToProto, hp, hps] at h
        obtain rfl := Except.ok.inj h
        exact List.Forall₂.cons (fromProto_toProto hp) (ih hps)

/-- Entries are converted unless one of them has a null key. -/
theorem entriesToProto_error {entries : List LogEntry} {e : Fault}
    (h : entriesToProto entries = .error e) :
    e = .nullPointer ∧ ∃ entry ∈ entries, entry.command.key = none := by
  induction entries with
  | nil => cases h
  | cons entry entries ih =>
    cases hp : toProto entry with
    | error e' =>
      rw [entriesToProto, hp] at h
      obtain ⟨hnull, rfl⟩ := toProto_error hp
      exact ⟨(Except.error.inj h).symm, entry, by simp, hnull⟩
    | ok proto =>
      cases hps : entriesToProto entries with
      | error e' =>
        rw [entriesToProto, hp, hps] at h
        obtain ⟨rfl, a, ha, hnull⟩ := ih (Except.error.inj h ▸ hps)
        exact ⟨rfl, a, List.mem_cons_of_mem _ ha, hnull⟩
      | ok protos' =>
        rw [entriesToProto, hp, hps] at h
        cases h

theorem entriesToProto_null {entries : List LogEntry} {entry : LogEntry} (h : entry ∈ entries)
    (hnull : entry.command.key = none) : entriesToProto entries = .error .nullPointer := by
  induction entries with
  | nil => cases h
  | cons a entries ih =>
    rw [entriesToProto]
    cases hp : toProto a with
    | error e =>
      rw [(toProto_error hp).2]
      rfl
    | ok proto =>
      rcases List.mem_cons.1 h with rfl | h
      · rw [toProto_null hnull] at hp
        cases hp
      · rw [ih h]
        rfl

end ProtoMapper

end CowRaft.Raft
