import CowRaft.Raft.Cluster

/-!
# Configurations

A replica reads its own id and its peers from two strings. The parser takes a repeated id, and the
replica's own id, for what it takes any other: the accepted configurations whose majorities are
majorities of the declared members are those that declare every id once (`accepted_quorums_iff`).
Such configurations make a cluster (`exists_cluster`).
-/

namespace CowRaft.Raft

/-- The characters of a string. -/
abbrev Text := List Char

/-! ## Strings -/

namespace Text

/-- A Unicode space that is not a non-breaking one, or a control character that separates. -/
def isWhitespace (c : Char) : Bool :=
  let n := c.toNat
  (9 ≤ n ∧ n ≤ 13) ∨ (28 ≤ n ∧ n ≤ 32) ∨ n = 0x1680 ∨ (0x2000 ≤ n ∧ n ≤ 0x2006) ∨
    (0x2008 ≤ n ∧ n ≤ 0x200A) ∨ n = 0x2028 ∨ n = 0x2029 ∨ n = 0x205F ∨ n = 0x3000

def isBlank (s : Text) : Bool := s.all isWhitespace

/-- The text without the characters up to the space at both ends. -/
def trim (s : Text) : Text := (s.dropWhile (·.toNat ≤ 32)).rdropWhile (·.toNat ≤ 32)

/-- The parts between separators, without empty ones at the end; the text itself if it has no
separator. -/
def split (separator : Char) (s : Text) : List Text :=
  if separator ∈ s then (s.splitOn separator).rdropWhile List.isEmpty else [s]

/-- The parts before and after the first separator; the text itself if it has none. -/
def splitFirst (separator : Char) (s : Text) : List Text :=
  if separator ∈ s then [s.takeWhile (· ≠ separator), (s.dropWhile (· ≠ separator)).tail] else [s]

/-- The zeros of the scripts that have decimal digits, among the characters of one code unit. -/
def zeros : List ℕ :=
  [0x30, 0x660, 0x6F0, 0x7C0, 0x966, 0x9E6, 0xA66, 0xAE6, 0xB66, 0xBE6, 0xC66, 0xCE6, 0xD66, 0xDE6,
    0xE50, 0xED0, 0xF20, 0x1040, 0x1090, 0x17E0, 0x1810, 0x1946, 0x19D0, 0x1A80, 0x1A90, 0x1B50,
    0x1BB0, 0x1C40, 0x1C50, 0xA620, 0xA8D0, 0xA900, 0xA9D0, 0xA9F0, 0xAA50, 0xABF0, 0xFF10]

/-- The value of a decimal digit. -/
def digit (c : Char) : Option ℕ :=
  (zeros.find? fun z => z ≤ c.toNat ∧ c.toNat < z + 10).map (c.toNat - ·)

/-- The number that digits denote, after those read so far. -/
def digits : ℕ → Text → Option ℕ
  | n, [] => some n
  | n, c :: s => do digits (10 * n + (← digit c)) s

/-- The number that a text denotes, if it is not empty and denotes one. -/
def parseDigits (s : Text) : Option ℕ := if s.isEmpty then none else digits 0 s

/-- A number of 32 bits with an optional sign. -/
def parseInt : Text → Option ℤ
  | '-' :: s => do
    let n ← parseDigits s
    if n ≤ 2 ^ 31 then some (-n) else none
  | '+' :: s => do
    let n ← parseDigits s
    if n < 2 ^ 31 then some n else none
  | s => do
    let n ← parseDigits s
    if n < 2 ^ 31 then some n else none

end Text

/-! ## The parser -/

inductive ConfigException
  | illegalArgument (message : Text)
  | numberFormat (input : Text)
  deriving DecidableEq

structure PeerInfo where
  grpcAddress : Text
  httpAddress : Text
  deriving DecidableEq

structure NodeConfig where
  nodeId : NodeId
  peers : List (NodeId × PeerInfo)
  deriving DecidableEq

/-- The variables of the environment. -/
abbrev Env := String → Option Text

namespace NodeConfig

def clusterSize (config : NodeConfig) : ℕ := config.peers.length + 1

def majority (config : NodeConfig) : ℕ := config.clusterSize / 2 + 1

def parseInt (s : Text) : Except ConfigException ℤ :=
  match Text.parseInt s with
  | some n => .ok n
  | none => .error (.numberFormat s)

/-- One entry, `id=host:grpcPort:httpPort`. -/
def parsePeer (trimmed : Text) : Except ConfigException (NodeId × PeerInfo) :=
  match Text.splitFirst '=' trimmed with
  | [rawId, address] => do
    let id ← parseInt (Text.trim rawId)
    match Text.split ':' (Text.trim address) with
    | [host, grpcPort, httpPort] =>
      .ok (id, ⟨host ++ ":".toList ++ grpcPort, "http://".toList ++ host ++ ":".toList ++ httpPort⟩)
    | _ => .error (.illegalArgument
      ("Invalid PEERS address (expected host:grpcPort:httpPort): ".toList ++ trimmed))
  | _ => .error (.illegalArgument ("Invalid PEERS entry: ".toList ++ trimmed))

/-- Put the peers of the entries that are not empty into a map. -/
def putPeers : List Text → List (NodeId × PeerInfo) →
    Except ConfigException (List (NodeId × PeerInfo))
  | [], peers => .ok peers
  | entry :: entries, peers =>
    let trimmed := Text.trim entry
    if trimmed.isEmpty then putPeers entries peers
    else do
      let (id, info) ← parsePeer trimmed
      putPeers entries (upsert id info peers)

def parsePeers : Option Text → Except ConfigException (List (NodeId × PeerInfo))
  | none => .ok []
  | some raw => if Text.isBlank raw then .ok [] else putPeers (Text.split ',' raw) []

end NodeConfig

def NodeConfig.from (env : Env) : Except ConfigException NodeConfig :=
  match env "NODE_ID" with
  | none => .error (.illegalArgument "NODE_ID is required".toList)
  | some rawNodeId =>
    if Text.isBlank rawNodeId then .error (.illegalArgument "NODE_ID is required".toList)
    else do
      let nodeId ← NodeConfig.parseInt (Text.trim rawNodeId)
      let peers ← NodeConfig.parsePeers (env "PEERS")
      .ok ⟨nodeId, peers⟩

/-! ## Accepted configurations -/

namespace NodeConfig

/-- The entries of `PEERS` that are not empty. -/
def peerEntries (env : Env) : List Text :=
  match env "PEERS" with
  | none => []
  | some raw =>
    if Text.isBlank raw then []
    else ((Text.split ',' raw).map Text.trim).filter fun entry => !entry.isEmpty

/-- The ids that `NODE_ID` and the entries of `PEERS` declare. -/
def declaredIds (env : Env) : List NodeId :=
  ((env "NODE_ID").bind fun raw => Text.parseInt (Text.trim raw)).toList ++
    (peerEntries env).filterMap fun entry => (parsePeer entry).toOption.map Prod.fst

/-- The entries are these peers. -/
def Parses (entries : List Text) (parsed : List (NodeId × PeerInfo)) : Prop :=
  List.Forall₂ (fun entry peer => parsePeer entry = .ok peer) entries parsed

theorem Parses.ids {entries : List Text} {parsed : List (NodeId × PeerInfo)}
    (h : Parses entries parsed) :
    (entries.filterMap fun entry => (parsePeer entry).toOption.map Prod.fst) =
      parsed.map Prod.fst := by
  induction h with
  | nil => rfl
  | cons hp _ ih =>
    rw [List.filterMap_cons, hp, ih]
    rfl

theorem putPeers_ok {entries : List Text} {peers peers' : List (NodeId × PeerInfo)}
    (h : putPeers entries peers = .ok peers') :
    ∃ parsed, Parses ((entries.map Text.trim).filter fun entry => !entry.isEmpty) parsed ∧
      peers' = upsertAll parsed peers := by
  induction entries generalizing peers with
  | nil => exact ⟨[], List.Forall₂.nil, (Except.ok.inj h).symm⟩
  | cons entry entries ih =>
    rw [putPeers] at h
    dsimp only at h
    rw [List.map_cons]
    by_cases he : (Text.trim entry).isEmpty
    · rw [if_pos he] at h
      rw [List.filter_cons_of_neg (by simp [he])]
      exact ih h
    · rw [if_neg he] at h
      rw [List.filter_cons_of_pos (by simp [he])]
      cases hp : parsePeer (Text.trim entry) with
      | error e =>
        rw [hp] at h
        cases h
      | ok peer =>
        rw [hp] at h
        obtain ⟨parsed, hparsed, rfl⟩ := ih h
        exact ⟨peer :: parsed, List.Forall₂.cons hp hparsed, rfl⟩

theorem parsePeers_ok {env : Env} {peers : List (NodeId × PeerInfo)}
    (h : parsePeers (env "PEERS") = .ok peers) :
    ∃ parsed, Parses (peerEntries env) parsed ∧ peers = upsertAll parsed [] := by
  unfold peerEntries
  cases hraw : env "PEERS" with
  | none =>
    rw [hraw] at h
    exact ⟨[], List.Forall₂.nil, (Except.ok.inj h).symm⟩
  | some raw =>
    rw [hraw, parsePeers] at h
    by_cases hb : Text.isBlank raw
    · rw [if_pos hb] at h
      dsimp only
      rw [if_pos hb]
      exact ⟨[], List.Forall₂.nil, (Except.ok.inj h).symm⟩
    · rw [if_neg hb] at h
      dsimp only
      rw [if_neg hb]
      exact putPeers_ok h

/-- What an accepted environment declares. -/
theorem from_ok {env : Env} {config : NodeConfig} (h : NodeConfig.from env = .ok config) :
    ∃ parsed, Parses (peerEntries env) parsed ∧ config.peers = upsertAll parsed [] ∧
      declaredIds env = config.nodeId :: parsed.map Prod.fst := by
  unfold NodeConfig.from at h
  unfold declaredIds
  cases hraw : env "NODE_ID" with
  | none =>
    rw [hraw] at h
    cases h
  | some raw =>
    rw [hraw] at h
    dsimp only at h
    split_ifs at h
    rw [Option.bind_some]
    unfold parseInt at h
    cases hid : Text.parseInt (Text.trim raw) with
    | none =>
      rw [hid] at h
      cases h
    | some id =>
      rw [hid] at h
      cases hpeers : parsePeers (env "PEERS") with
      | error e =>
        rw [hpeers] at h
        cases h
      | ok peers =>
        rw [hpeers] at h
        obtain rfl := Except.ok.inj h
        obtain ⟨parsed, hparsed, rfl⟩ := parsePeers_ok hpeers
        refine ⟨parsed, hparsed, rfl, ?_⟩
        rw [hparsed.ids]
        rfl

/-! ## Quorums -/

/-- The configuration counts every declared member once. -/
structure Sound (env : Env) (config : NodeConfig) : Prop where
  own : config.nodeId ∉ config.peers.map Prod.fst
  /-- Each entry that is not empty is a peer of its own. -/
  contributes : ∃ parsed, Parses (peerEntries env) parsed ∧ parsed.Perm config.peers
  clusterSize : config.clusterSize = (declaredIds env).toFinset.card

theorem mem_peers {parsed : List (NodeId × PeerInfo)} (id : NodeId) :
    id ∈ (upsertAll parsed []).map Prod.fst ↔ id ∈ parsed.map Prod.fst := by
  rw [mem_keys_upsertAll, List.map_nil, or_iff_left List.not_mem_nil]

/-- An accepted configuration is sound if and only if it declares every id once. -/
theorem sound_iff {env : Env} {config : NodeConfig} (h : NodeConfig.from env = .ok config) :
    Sound env config ↔ (declaredIds env).Nodup := by
  obtain ⟨parsed, hparsed, hpeers, hids⟩ := from_ok h
  constructor
  · intro hs
    rw [hids, List.nodup_cons]
    refine ⟨fun hown => hs.own ?_, ?_⟩
    · rw [hpeers]
      exact (mem_peers _).2 hown
    · obtain ⟨parsed', hparsed', hperm⟩ := hs.contributes
      have hsorted : SortedKeys config.peers := by
        rw [hpeers]
        exact sortedKeys_upsertAll SortedKeys.nil
      rw [← hparsed.ids, hparsed'.ids]
      exact (hperm.map Prod.fst).nodup_iff.2 hsorted.nodup_keys
  · intro hnd
    have hnd' := hnd
    rw [hids, List.nodup_cons] at hnd'
    have hperm := perm_upsertAll_nil hnd'.2
    refine ⟨?_, ⟨parsed, hparsed, ?_⟩, ?_⟩
    · rw [hpeers]
      exact fun hown => hnd'.1 ((mem_peers _).1 hown)
    · rw [hpeers]
      exact hperm.symm
    · rw [List.toFinset_card_of_nodup hnd, hids, List.length_cons, List.length_map, clusterSize,
        hpeers, hperm.length_eq]

/-- Some peers whose votes, with the replica's own one, are a majority. -/
def Elects (config : NodeConfig) (voters : Finset NodeId) : Prop :=
  voters ⊆ (config.peers.map Prod.fst).toFinset ∧
    (RaftNode.create config.nodeId (config.peers.map Prod.fst)).majority ≤ 1 + voters.card

theorem majority_create (config : NodeConfig) :
    (RaftNode.create config.nodeId (config.peers.map Prod.fst)).majority = config.majority := by
  unfold RaftNode.majority RaftNode.clusterSize majority clusterSize
  rw [← List.length_map Prod.fst]
  rfl

/-- The votes of a majority come from different members. -/
theorem Elects.members {env : Env} {config : NodeConfig} (h : NodeConfig.from env = .ok config)
    (hs : Sound env config) {voters : Finset NodeId} (hv : config.Elects voters) :
    insert config.nodeId voters ⊆ (declaredIds env).toFinset ∧
      (insert config.nodeId voters).card = 1 + voters.card ∧
      config.majority ≤ (insert config.nodeId voters).card := by
  obtain ⟨parsed, -, hpeers, hids⟩ := from_ok h
  obtain ⟨hsub, hmaj⟩ := hv
  have hown : config.nodeId ∉ voters := fun hmem => hs.own (List.mem_toFinset.1 (hsub hmem))
  have hcard : (insert config.nodeId voters).card = 1 + voters.card := by
    rw [Finset.card_insert_of_notMem hown, Nat.add_comm]
  refine ⟨?_, hcard, ?_⟩
  · rw [hids, List.toFinset_cons]
    refine Finset.insert_subset_insert _ fun p hp => List.mem_toFinset.2 ?_
    rw [← mem_peers, ← hpeers]
    exact List.mem_toFinset.1 (hsub hp)
  · rw [hcard, ← majority_create]
    exact hmaj

end NodeConfig

open NodeConfig in
/-- **Quorums of accepted configurations**: of replicas whose accepted configurations name the same
members, each counts every member once, and the votes that elect them come from different members
and any two such sets meet, if and only if each configuration declares every id once. -/
theorem accepted_quorums_iff {ι : Type} (env : ι → Env) (config : ι → NodeConfig)
    (h : ∀ n, NodeConfig.from (env n) = .ok (config n))
    (hsame : ∀ n m, (declaredIds (env n)).toFinset = (declaredIds (env m)).toFinset) :
    ((∀ n, Sound (env n) (config n)) ∧ ∀ n m voters voters', (config n).Elects voters →
      (config m).Elects voters' →
        (insert (config n).nodeId voters).card = 1 + voters.card ∧
        (insert (config n).nodeId voters ∩ insert (config m).nodeId voters').Nonempty) ↔
      ∀ n, (declaredIds (env n)).Nodup := by
  constructor
  · exact fun hs n => (sound_iff (h n)).1 (hs.1 n)
  · intro hnd
    have hs : ∀ n, Sound (env n) (config n) := fun n => (sound_iff (h n)).2 (hnd n)
    refine ⟨hs, fun n m voters voters' hv hv' => ?_⟩
    obtain ⟨hsub, hcard, hmaj⟩ := hv.members (h n) (hs n)
    obtain ⟨hsub', -, hmaj'⟩ := hv'.members (h m) (hs m)
    rw [← hsame n m] at hsub'
    refine ⟨hcard, Finset.inter_nonempty_of_card_lt_card_add_card hsub hsub' ?_⟩
    have hsize := (hs n).clusterSize
    have hsize' := (hs m).clusterSize
    rw [← hsame n m] at hsize'
    unfold majority at hmaj hmaj'
    omega

/-- The environment with two strings. -/
def envOf (nodeId peers : String) : Env := fun name =>
  if name = "NODE_ID" then some nodeId.toList
  else if name = "PEERS" then some peers.toList
  else none

/-- Two members that declare each other. -/
def twoEnvs : Bool → Env
  | false => envOf "1" "2=b:6001:7000"
  | true => envOf " 2 " "1=a:6001:7000 ,,"

def twoConfigs : Bool → NodeConfig
  | false => ⟨1, [(2, ⟨"b:6001".toList, "http://b:7000".toList⟩)]⟩
  | true => ⟨2, [(1, ⟨"a:6001".toList, "http://a:7000".toList⟩)]⟩

theorem accepted_quorums_two : NodeConfig.Sound (twoEnvs true) (twoConfigs true) :=
  ((accepted_quorums_iff twoEnvs twoConfigs (by decide +kernel) (by decide +kernel)).2
    (by decide +kernel)).1 true

/-- Two members that declare both. -/
def bothEnvs : Bool → Env
  | false => envOf "1" "1=a:6001:7000,2=b:6001:7000"
  | true => envOf "2" "1=a:6001:7000,2=b:6001:7000"

def bothConfigs (n : Bool) : NodeConfig where
  nodeId := if n then 2 else 1
  peers := [(1, ⟨"a:6001".toList, "http://a:7000".toList⟩),
    (2, ⟨"b:6001".toList, "http://b:7000".toList⟩)]

/-- A candidate asks itself for its vote. -/
def askItself (id : NodeId) : Task Unit := do
  RaftNode.startElectionRound
  let response ← RaftNode.handleRequestVoteInternal ⟨1, id, 0, 0⟩
  RaftNode.onVoteResponse 1 response

/-- Members that declare themselves are accepted, count three of two, and are elected by their own
votes, both in one term. -/
theorem own_vote_elects :
    (∀ n, NodeConfig.from (bothEnvs n) = .ok (bothConfigs n) ∧ (bothConfigs n).clusterSize = 3 ∧
      (bothConfigs n).nodeId ∈ (bothConfigs n).peers.map Prod.fst ∧
      (bothConfigs n).Elects {(bothConfigs n).nodeId}) ∧
    (∀ n, ∃ s, askItself (bothConfigs n).nodeId (RaftNode.create (bothConfigs n).nodeId
      ((bothConfigs n).peers.map Prod.fst)) = .ok () s ∧ s.status = .leader ∧ s.currentTerm = 1) ∧
    insert (bothConfigs false).nodeId {(bothConfigs false).nodeId} ∩
      insert (bothConfigs true).nodeId {(bothConfigs true).nodeId} = (∅ : Finset NodeId) := by
  refine ⟨?_, ?_, by decide +kernel⟩
  · unfold NodeConfig.Elects
    decide +kernel
  · intro n
    cases n
    · exact ⟨_, rfl, rfl, rfl⟩
    · exact ⟨_, rfl, rfl, rfl⟩

/-! ## Clusters -/

/-- Configurations that declare every id once, and the same members, make a cluster. -/
theorem exists_cluster (members : Finset NodeId) (env : NodeId → Env)
    (config : NodeId → NodeConfig) (h : ∀ i ∈ members, NodeConfig.from (env i) = .ok (config i) ∧
      (config i).nodeId = i ∧ (NodeConfig.declaredIds (env i)).Nodup ∧
      (NodeConfig.declaredIds (env i)).toFinset = members) :
    ∃ cfg : Config, cfg.members = members ∧
      ∀ i ∈ members, cfg.peers i = (config i).peers.map Prod.fst := by
  have hkeys : ∀ i ∈ members, ((config i).peers.map Prod.fst).Nodup ∧
      ∀ j, j ∈ (config i).peers.map Prod.fst ↔ j ∈ members ∧ j ≠ i := by
    intro i hi
    obtain ⟨hok, hid, hnd, hmem⟩ := h i hi
    obtain ⟨parsed, -, hpeers, hids⟩ := NodeConfig.from_ok hok
    have hsorted : SortedKeys (config i).peers := by
      rw [hpeers]
      exact sortedKeys_upsertAll SortedKeys.nil
    refine ⟨hsorted.nodup_keys, fun j => ?_⟩
    rw [hids, List.nodup_cons, hid] at hnd
    rw [hpeers, NodeConfig.mem_peers, ← hmem, List.mem_toFinset, hids, hid, List.mem_cons]
    constructor
    · exact fun hj => ⟨Or.inr hj, fun heq => hnd.1 (heq ▸ hj)⟩
    · exact fun hj => hj.1.resolve_left hj.2
  refine ⟨⟨members, fun i => if i ∈ members then (config i).peers.map Prod.fst else [], ?_, ?_⟩,
    rfl, fun i hi => if_pos hi⟩
  · intro i
    split_ifs with hi
    · exact (hkeys i hi).1
    · exact List.nodup_nil
  · intro i hi j
    rw [if_pos hi]
    exact (hkeys i hi).2 j

end CowRaft.Raft
