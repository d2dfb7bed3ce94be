import CowRaft.Raft.Safety

/-!
# The commit index of a leader

What a leader commits as it hears from its peers: `advanceCommitIndex` looks for an entry of the
present term that a majority holds, from the end of the log down, and stops at the first entry of an
older term. As the log is sorted by terms, nothing that it may commit stands further down, so it
finds the greatest index there is (`commit_index_greatest`).
-/

namespace CowRaft.Raft

variable {cfg : Config} {A : Protocol} {c : Cluster} {i : NodeId} {s : RaftNode} {n : ℕ}

/-! ## Committing -/

namespace RaftNode

/-- The log is sorted by terms, none of them later than the present one, and every peer is counted
once. -/
structure Ordered (s : RaftNode) : Prop where
  sorted : s.logStore.Pairwise fun entry entry' => entry.term ≤ entry'.term
  term_le : ∀ entry ∈ s.logStore, entry.term ≤ s.currentTerm
  known : (s.matchIndex.map Prod.fst).Nodup

/-- The members that hold the log up to `n`: the leader, and the peers that have acknowledged it. -/
noncomputable def holders (s : RaftNode) (n : ℕ) : ℕ :=
  1 + {p | ∃ m, lookupKey p s.matchIndex = some m ∧ n ≤ m}.ncard

/-- The entry at `n` is of the present term, and a majority holds it. -/
def MayCommit (s : RaftNode) (n : ℕ) : Prop :=
  0 < n ∧ (∃ entry, s.logStore[n - 1]? = some entry ∧ entry.term = s.currentTerm) ∧
    s.majority ≤ s.holders n

theorem Ordered.replicatedCount_eq (h : s.Ordered) (n : ℕ) : s.replicatedCount n = s.holders n := by
  rw [holders, ncard_lookupKey_where h.known fun m => n ≤ m]
  rfl

theorem MayCommit.le_lastIndex (h : s.MayCommit n) : n ≤ s.logStore.lastIndex := by
  obtain ⟨hpos, ⟨entry, hget, -⟩, -⟩ := h
  have hlt := (List.getElem?_eq_some_iff.1 hget).1
  have hlast : s.logStore.lastIndex = s.logStore.length := rfl
  omega

/-- **No older entry** stands behind an entry that may be committed. -/
theorem MayCommit.term_eq (hn : s.MayCommit n) (h : s.Ordered) {k : ℕ} (hk : n ≤ k + 1)
    {entry : LogEntry} (hget : s.logStore[k]? = some entry) : entry.term = s.currentTerm := by
  obtain ⟨hpos, ⟨entry', hget', hterm⟩, -⟩ := hn
  have hle := h.term_le entry (List.mem_of_getElem? hget)
  rcases Nat.lt_or_eq_of_le hk with hlt | rfl
  · obtain ⟨hi, rfl⟩ := List.getElem?_eq_some_iff.1 hget'
    obtain ⟨hj, rfl⟩ := List.getElem?_eq_some_iff.1 hget
    have := List.pairwise_iff_getElem.1 h.sorted (n - 1) k hi hj (by omega)
    omega
  · rw [Nat.add_sub_cancel, hget] at hget'
    rw [Option.some.inj hget', hterm]

/-- **The search from `n` down** ends at the greatest index up to `n` that may be committed. -/
theorem advanceFrom_greatest (h : s.Ordered) (hn : n ≤ s.logStore.lastIndex) :
    Wp (advanceFrom n) (fun _ s' => (s' = s ∨ s' = commitTo s'.commitIndex s) ∧
      IsGreatest (insert s.commitIndex {k | k ≤ n ∧ s.MayCommit k}) s'.commitIndex)
      (fun _ _ => False) s := by
  induction n with
  | zero =>
    refine ⟨Or.inl rfl, Set.mem_insert _ _, ?_⟩
    rintro k (rfl | ⟨hk, hpos, -⟩)
    · exact le_rfl
    · exact absurd hpos (by omega)
  | succ n ih =>
    unfold advanceFrom
    simp only [Wp.bind_iff, Wp.get_iff, Wp.ite_iff, Wp.pure_iff]
    refine ⟨fun hc => ?_, fun hc => ⟨Or.inl trivial, Set.mem_insert _ _, ?_⟩⟩
    · apply logGet_wp (Nat.succ_pos n) hn
      intro entry hget
      simp only [Wp.ite_iff, Wp.pure_iff, Wp.modify_iff]
      refine ⟨fun hterm => ⟨Or.inl trivial, Set.mem_insert _ _, ?_⟩, fun hterm => ⟨fun hm => ?_,
        fun hm => ?_⟩⟩
      · -- the search stops here, and nothing above may be committed
        rintro k (rfl | ⟨hk, hmay⟩)
        · exact le_rfl
        · exact absurd (hmay.term_eq h hk hget) hterm
      · refine ⟨Or.inr rfl, Or.inr ⟨le_rfl, Nat.succ_pos n, ⟨entry, hget, not_not.1 hterm⟩, ?_⟩, ?_⟩
        · rw [← h.replicatedCount_eq]
          exact hm
        · rintro k (rfl | ⟨hk, -⟩)
          · exact Nat.le_of_lt hc
          · exact hk
      · apply (ih (Nat.le_of_succ_le hn)).mono
        · rintro - s' ⟨hs, hin, hmax⟩
          refine ⟨hs, ?_, ?_⟩
          · rcases hin with heq | ⟨hle, hmay⟩
            · exact Or.inl heq
            · exact Or.inr ⟨Nat.le_succ_of_le hle, hmay⟩
          · rintro k (rfl | ⟨hk, hmay⟩)
            · exact hmax (Set.mem_insert _ _)
            · rcases Nat.lt_or_eq_of_le hk with hlt | rfl
              · exact hmax (Or.inr ⟨Nat.le_of_lt_succ hlt, hmay⟩)
              · rw [h.replicatedCount_eq] at hm
                exact absurd hmay.2.2 hm
        · exact fun _ _ hf => hf
    · rintro k (rfl | ⟨hk, -⟩)
      · exact le_rfl
      · omega

end RaftNode

/-- Every leader is ordered. -/
theorem Safe.ordered (hA : Safe cfg A c) (hi : i ∈ cfg.members)
    (hl : (c.nodes i).status = .leader) : (c.nodes i).Ordered where
  sorted := by
    rw [← (hA.node i hi).log]
    exact hA.inv.logs.sorted i
  term_le := by
    rw [← (hA.node i hi).log, ← (hA.node i hi).term]
    exact hA.inv.logs.term_le i
  known := ((hA.node i hi).leading hl).sorted.nodup_keys

/-- **A leader commits the greatest index** that it may, if that is above its commit index, and
changes nothing else; and all leaders that can come about are ordered. -/
theorem commit_index_greatest :
    (∀ s : RaftNode, s.status = .leader → s.Ordered → ∃ n advanced,
      RaftNode.advanceCommitIndex s = .ok () { s with
        commitIndex := n
        history := { s.history with advanced := advanced } } ∧
      IsGreatest (insert s.commitIndex {n | s.MayCommit n}) n ∧
      ∀ n k entry, s.MayCommit n → n ≤ k → s.logStore[k - 1]? = some entry →
        entry.term = s.currentTerm) ∧
    ∀ cfg c, Cluster.Reachable cfg c → ∀ i ∈ cfg.members, (c.nodes i).status = .leader →
      (c.nodes i).Ordered := by
  refine ⟨fun s hl h => ?_, fun cfg c hreach i hi hl => ?_⟩
  · have hw : Wp RaftNode.advanceCommitIndex (fun _ s' =>
        (s' = s ∨ s' = RaftNode.commitTo s'.commitIndex s) ∧
        IsGreatest (insert s.commitIndex {k | k ≤ s.logStore.lastIndex ∧ s.MayCommit k})
          s'.commitIndex) (fun _ _ => False) s := by
      unfold RaftNode.advanceCommitIndex
      simp only [Wp.bind_iff, Wp.get_iff, Wp.ite_iff, Wp.pure_iff]
      exact ⟨fun hne => absurd hl hne, fun _ => RaftNode.advanceFrom_greatest h le_rfl⟩
    obtain ⟨_, s', hrun, hs, hin, hmax⟩ := hw.exists_ok
    refine ⟨s'.commitIndex, s'.history.advanced, ?_, ⟨?_, ?_⟩, ?_⟩
    · rw [hrun]
      rcases hs with rfl | hs
      · rfl
      · rw [hs]
        rfl
    · rcases hin with heq | ⟨-, hmay⟩
      · exact Or.inl heq
      · exact Or.inr hmay
    · rintro k (rfl | hmay)
      · exact hmax (Set.mem_insert _ _)
      · exact hmax (Or.inr ⟨hmay.le_lastIndex, hmay⟩)
    · intro n k entry hmay hk hget
      have hpos : 0 < n := hmay.1
      exact hmay.term_eq h (by omega) hget
  · obtain ⟨A, hA⟩ := exists_safe hreach
    exact hA.ordered hi hl

/-- A leader of three, one of whose peers holds all of its log. -/
def RaftNode.ahead : RaftNode :=
  { RaftNode.create 1 [2, 3] with
    currentTerm := 1
    status := .leader
    logStore := [⟨1, ⟨some "x", .set, 5⟩⟩, ⟨1, ⟨some "x", .add, 1⟩⟩]
    matchIndex := [(2, 2), (3, 0)] }

theorem commit_index_greatest_ahead : ∃ advanced,
    RaftNode.advanceCommitIndex .ahead = .ok () { RaftNode.ahead with
      commitIndex := 2
      history := { RaftNode.ahead.history with advanced := advanced } } := by
  have hord : RaftNode.ahead.Ordered := ⟨by decide, by decide, by decide⟩
  have hmay : RaftNode.ahead.MayCommit 2 := by
    refine ⟨by decide, ⟨_, rfl, rfl⟩, ?_⟩
    rw [← hord.replicatedCount_eq]
    decide
  obtain ⟨n, advanced, hrun, ⟨hin, hmax⟩, -⟩ := commit_index_greatest.1 .ahead rfl hord
  have hle : n ≤ 2 := by
    rcases hin with rfl | hn
    · exact Nat.zero_le 2
    · exact hn.le_lastIndex
  have hn : n = 2 := le_antisymm hle (hmax (Or.inr hmay))
  exact ⟨advanced, hn ▸ hrun⟩

end CowRaft.Raft
