import CowRaft.Foundations.Consensus

/-!
# Leader completeness

What a quorum has acknowledged stays in the logs of all later leaders. A replica that has
acknowledged entries of term `t`'s leader holds them until a leader of a later term, elected
without them, overwrites its log (`Acks.lineage`); the votes it gives in between go to candidates
that hold them too (`Acks.ballots`). As a quorum acknowledged them and a quorum elects a leader,
no later leader can be the first to be elected without them (`Acks.completeness`). So committed
entries are never overwritten (`Commits`), the committed parts of all logs agree
(`Inv.known_agree`), and a quorum holds them at any time (`Inv.known_durable`). Within a term a
replica holds all that it has acknowledged in it, committed or not (`State.Retained`).
-/

namespace CowRaft.Consensus

open State

variable {ν α : Type*} {M : Finset ν} {n : ν} {A A' A'' : State ν α} {t i k B : ℕ}
  {l : List (Entry α)}

/-! ## What later steps keep -/

namespace Evolves

variable (h : Evolves n A A')
include h

theorem term_mono (m : ν) : A.term m ≤ A'.term m := by
  by_cases hm : m = n
  · exact hm ▸ h.term_le
  · exact (h.others hm).1.ge

theorem commit_mono (m : ν) : A.commit m ≤ A'.commit m := by
  by_cases hm : m = n
  · exact hm ▸ h.commit_le
  · exact (h.others hm).2.2.1.ge

theorem leader_ne (T : ℕ) (hT : A.leader T ≠ none) : A'.leader T ≠ none := by
  obtain ⟨c, hc⟩ := Option.ne_none_iff_exists'.1 hT
  rw [(h.leader hc).1]
  simp

theorem take_leaderLog (hi : i ≤ (A.leaderLog t).length) :
    (A'.leaderLog t).take i = (A.leaderLog t).take i :=
  take_eq_of_start (h.leaderLog t) hi

theorem broken (hi : i ≤ (A.leaderLog t).length) (hb : A.Broken t i B) : A'.Broken t i B := by
  obtain ⟨w, h₁, h₂, hw, hs⟩ := hb
  obtain ⟨c, hc⟩ := Option.ne_none_iff_exists'.1 hw
  refine ⟨w, h₁, h₂, h.leader_ne w hw, ?_⟩
  rw [h.take_leaderLog hi, (h.leader hc).2]
  exact hs

theorem chosen (hc : A.Chosen M t i) : A'.Chosen M t i := by
  obtain ⟨he, hi, S, hS, ha⟩ := hc
  refine ⟨?_, hi.trans (h.leaderLog t).length_le, S, hS, fun m hm => (ha m hm).trans (h.acked t m)⟩
  rw [h.take_leaderLog hi]
  exact he

theorem known {T : ℕ} (hk : A.Known M T k l) : A'.Known M T k l := by
  rcases hk with hk | ⟨t, i, ht, hc, hki, hl⟩
  · exact Or.inl hk
  · refine Or.inr ⟨t, i, ht, h.chosen hc, hki, ?_⟩
    rw [h.take_leaderLog (hki.trans hc.2.1)]
    exact hl

end Evolves

theorem State.Broken.mono {B' : ℕ} (h : A.Broken t i B) (hB : B ≤ B') : A.Broken t i B' := by
  obtain ⟨w, h₁, h₂, hw⟩ := h
  exact ⟨w, h₁, h₂.trans_le hB, hw⟩

theorem State.Known.mono {T T' : ℕ} {l' : List (Entry α)} (h : A.Known M T k l) (hT : T ≤ T')
    (hl : l <+: l') : A.Known M T' k l' := by
  rcases h with h | ⟨t, i, ht, hc, hk, hp⟩
  · exact Or.inl h
  · exact Or.inr ⟨t, i, ht.trans hT, hc, hk, hp.trans hl⟩

/-! ## Acknowledgements -/

/-- Replica `m` has acknowledged the first `i` entries of term `t`'s leader, the last of which is
of term `t`. -/
def State.Held (A : State ν α) (m : ν) (t i : ℕ) : Prop :=
  i ≤ A.acked t m ∧ Ends t ((A.leaderLog t).take i)

/-- What acknowledged entries mean for the logs and votes to come. -/
structure Acks (M : Finset ν) (A : State ν α) : Prop where
  acked_le : ∀ t m, A.acked t m ≤ (A.leaderLog t).length
  acked_term : ∀ {t m}, 0 < A.acked t m → t ≤ A.term m
  lineage : ∀ {m t i}, A.Held m t i →
    (A.leaderLog t).take i <+: A.log m ∨ A.Broken t i (A.term m + 1)
  ballots : ∀ {m T c l t i}, A.vote m T = some c → A.cand c T = some l → t < T → A.Held m t i →
    (A.leaderLog t).take i <+: l ∨ A.Broken t i (T + 1)
  support : ∀ {T c}, A.leader T = some c → ∃ S, Quorum M S ∧ ∀ m ∈ S, T ≤ A.term m ∧
    ∀ t i, t < T → A.Held m t i → (A.leaderLog t).take i <+: A.electLog T ∨ A.Broken t i T

namespace Acks

theorem held_pos {m : ν} (h : A.Held m t i) : 0 < i := by
  have := h.2.length_pos
  rw [List.length_take] at this
  omega

theorem init : Acks M (State.init ν α) where
  acked_le _ _ := le_rfl
  acked_term h := absurd h (Nat.lt_irrefl 0)
  lineage h := absurd (held_pos h) (by simp [Nat.le_zero.1 h.1])
  ballots h := absurd h (by simp [State.init])
  support h := absurd h (by simp [State.init])

variable (h : Acks M A)
include h

theorem held_le {m : ν} (hh : A.Held m t i) : i ≤ (A.leaderLog t).length :=
  hh.1.trans (h.acked_le t m)

/-- Entries acknowledged before are acknowledged entries of the present. -/
theorem held_of_le (hev : Evolves n A A') {m : ν} (hh : A'.Held m t i) (hi : i ≤ A.acked t m) :
    A.Held m t i := by
  refine ⟨hi, ?_⟩
  rw [← hev.take_leaderLog (hi.trans (h.acked_le t m))]
  exact hh.2

/-- **Leader completeness**: the entries a quorum has acknowledged are in the log with which any
later leader was elected. -/
theorem completeness (hc : A.Chosen M t i) {T : ℕ} (ht : t < T) (hl : A.leader T ≠ none) :
    (A.leaderLog t).take i <+: A.electLog T := by
  induction T using Nat.strong_induction_on with
  | _ T ih =>
    obtain ⟨c, hT⟩ := Option.ne_none_iff_exists'.1 hl
    obtain ⟨hends, -, S, hS, hack⟩ := hc
    obtain ⟨S', hS', hsup⟩ := h.support hT
    obtain ⟨m, hm, hm'⟩ := hS.exists_common hS'
    rcases (hsup m hm').2 t i ht ⟨hack m hm, hends⟩ with hs | ⟨w, h₁, h₂, hw, hs⟩
    · exact hs
    · -- an earlier leader without the entries is what the induction excludes
      exact absurd (ih w h₂ h₁ hw) hs

end Acks

/-- A vote goes to a candidate that holds what the voter has acknowledged, unless some leader was
elected without it. -/
theorem Acks.grant (h : Acks M A) (he : Elections M A) (hL : Logs A) {c m : ν}
    (hc : A.cand c (A.term m) = some l) (hl : UpToDate l (A.log m)) (hh : A.Held m t i) :
    (A.leaderLog t).take i <+: l ∨ A.Broken t i (A.term m + 1) := by
  rcases h.lineage hh with hs | hb
  · rcases (hL.cand_matched hc).carries (hL.matched m) (hL.sorted m) hl hh.2 hs with
      hp | ⟨u, htu, hu, hlu⟩
    · exact Or.inl hp
    · have helect := hL.electLog_start_of_ends he hlu hu
      by_cases hw : (A.leaderLog t).take i <+: A.electLog u
      · exact Or.inl (hw.trans helect)
      · right
        obtain ⟨p, e, hp, heu⟩ := hu
        have hlt : u < A.term m := heu ▸ hL.cand_lt hc e (by simp [hp])
        have hne : A.leader u ≠ none := by
          intro hnone
          rw [hL.unled hnone, List.prefix_nil] at hlu
          simp [hlu] at hp
        exact ⟨u, htu, Nat.lt_succ_of_lt hlt, hne, hw⟩
  · exact Or.inr hb

/-- A replica that overwrites its log keeps what it has acknowledged, unless the leader was elected
without it. -/
theorem Acks.overwrite (h : Acks M A) (hL : Logs A) (hl : l <+: A.leaderLog (A.term n))
    (hn : ¬ l <+: A.log n) (hh : A.Held n t i) :
    (A.leaderLog t).take i <+: l ∨ A.Broken t i (A.term n + 1) := by
  rcases h.lineage hh with hs | hb
  · -- of two parts of the leader's log, the shorter one starts the longer one
    have hcmp : (A.leaderLog t).take i <+: A.leaderLog (A.term n) →
        (A.leaderLog t).take i <+: l := by
      intro hx
      rcases List.prefix_or_prefix_of_prefix hx hl with hx | hx
      · exact hx
      · exact absurd (hx.trans hs) hn
    have hle : t ≤ A.term n := h.acked_term ((Acks.held_pos hh).trans_le hh.1)
    rcases Nat.lt_or_ge t (A.term n) with hlt | hge
    · by_cases hw : (A.leaderLog t).take i <+: A.electLog (A.term n)
      · exact Or.inl (hcmp (hw.trans (hL.electLog_start _)))
      · right
        refine ⟨A.term n, hlt, Nat.lt_succ_self _, ?_, hw⟩
        intro hnone
        rw [hL.unled hnone, List.prefix_nil] at hl
        exact hn (hl ▸ List.nil_prefix)
    · obtain rfl := Nat.le_antisymm hle hge
      exact Or.inl (hcmp (List.take_prefix _ _))
  · exact Or.inr hb

/-! ## Committed entries -/

/-- What a replica takes to be committed has been acknowledged by a quorum. -/
def Commits (M : Finset ν) (A : State ν α) : Prop :=
  ∀ m, A.Known M (A.term m) (A.commit m) (A.log m)

theorem Commits.init : Commits M (State.init ν α) := fun _ => Or.inl rfl

/-- A log that starts with chosen entries is cut there as the leader's log is. -/
theorem State.Chosen.take_eq (hc : A.Chosen M t i) (hk : k ≤ i)
    (hl : (A.leaderLog t).take k <+: l) : l.take k = (A.leaderLog t).take k := by
  have hlen : k ≤ ((A.leaderLog t).take k).length := by
    rw [List.length_take]
    have := hc.2.1
    omega
  rw [take_eq_of_start hl hlen, List.take_take, Nat.min_self]

/-- Committed entries are in the log of the leader of the present term, if it has one. -/
theorem Acks.known_start (h : Acks M A) (hL : Logs A) {T : ℕ} (hk : A.Known M T k l)
    (hT : A.leader T ≠ none) : l.take k <+: A.leaderLog T := by
  rcases hk with rfl | ⟨t, i, ht, hc, hki, hl⟩
  · exact List.nil_prefix
  · rw [hc.take_eq hki hl]
    rcases Nat.lt_or_ge t T with hlt | hge
    · exact (take_start_mono _ hki).trans
        ((h.completeness hc hlt hT).trans (hL.electLog_start T))
    · obtain rfl := Nat.le_antisymm ht hge
      exact List.take_prefix _ _

/-- Committed entries are in the log. -/
theorem State.Known.le_length {T : ℕ} (hk : A.Known M T k l) : k ≤ l.length := by
  rcases hk with rfl | ⟨t, i, -, hc, hki, hl⟩
  · exact Nat.zero_le _
  · have := hl.length_le
    rw [List.length_take] at this
    have := hc.2.1
    omega

/-- Entries that a quorum has acknowledged are in the log of each replica that has acknowledged
them. -/
theorem Acks.chosen_start (h : Acks M A) (hc : A.Chosen M t i) {m : ν} (hm : i ≤ A.acked t m) :
    (A.leaderLog t).take i <+: A.log m := by
  rcases h.lineage ⟨hm, hc.1⟩ with hp | ⟨w, hw, -, hl, hs⟩
  · exact hp
  · -- no later leader was elected without them
    exact absurd (h.completeness hc hw hl) hs

/-! ## The invariant -/

/-- The invariant of the replicas and their history. -/
structure Inv (M : Finset ν) (A : State ν α) : Prop where
  elections : Elections M A
  logs : Logs A
  acks : Acks M A
  commits : Commits M A

namespace Inv

theorem init : Inv M (State.init ν α) :=
  ⟨Elections.init, Logs.init, Acks.init, Commits.init⟩

/-- **State machine safety**: committed parts of logs agree. -/
theorem known_agree (h : Inv M A) {T T' k' : ℕ} {l' : List (Entry α)} (hk : A.Known M T k l)
    (hk' : A.Known M T' k' l') (hle : k ≤ k') : l.take k = l'.take k := by
  rcases hk with rfl | ⟨t, i, -, hc, hki, hl⟩
  · rfl
  rcases hk' with rfl | ⟨t', i', -, hc', hki', hl'⟩
  · rw [Nat.le_zero.1 hle, List.take_zero, List.take_zero]
  have hlater : ∀ {t i t' i' : ℕ}, A.Chosen M t i → A.Chosen M t' i' → t ≤ t' →
      (A.leaderLog t).take i <+: A.leaderLog t' := by
    intro t i t' i' hc hc' htt
    rcases Nat.lt_or_ge t t' with hlt | hge
    · refine (h.acks.completeness hc hlt ?_).trans (h.logs.electLog_start t')
      intro hnone
      have := hc'.1.length_pos
      rw [h.logs.unled hnone] at this
      simp at this
    · obtain rfl := Nat.le_antisymm htt hge
      exact List.take_prefix _ _
  have hl₁ : l'.take k = (A.leaderLog t').take k := by
    have := congrArg (List.take k) (hc'.take_eq hki' hl')
    rwa [List.take_take, List.take_take, Nat.min_eq_left hle] at this
  rw [hc.take_eq hki hl, hl₁]
  rcases Nat.le_total t t' with htt | htt
  · exact (hc.take_eq hki ((take_start_mono _ hki).trans (hlater hc hc' htt))).symm
  · have hk₁ := hle.trans hki'
    exact hc'.take_eq hk₁ ((take_start_mono _ hk₁).trans (hlater hc' hc htt))

/-- **Durability**: committed entries are in the logs of a quorum. -/
theorem known_durable (h : Inv M A) (hM : Quorum M M) {T : ℕ} (hk : A.Known M T k l) :
    ∃ S, Quorum M S ∧ ∀ m ∈ S, l.take k <+: A.log m := by
  rcases hk with rfl | ⟨t, i, -, hc, hki, hl⟩
  · exact ⟨M, hM, fun _ _ => List.nil_prefix⟩
  · have hall := hc
    obtain ⟨-, -, S, hS, hack⟩ := hall
    refine ⟨S, hS, fun m hm => ?_⟩
    rw [hc.take_eq hki hl]
    exact (take_start_mono _ hki).trans (h.acks.chosen_start hc (hack m hm))

end Inv

variable [DecidableEq ν]

/-- **Acknowledgements**: steps keep what acknowledged entries mean. -/
theorem Acks.step (h : Acks M A) (he : Elections M A) (hL : Logs A) (hev : Evolves n A A')
    (hs : Step M n A A') : Acks M A' := by
  -- acknowledgements of the present that are not new
  have hback : ∀ {m t i}, A'.Held m t i → i ≤ A.acked t m →
      A.Held m t i ∧ (A'.leaderLog t).take i = (A.leaderLog t).take i := by
    intro m t i hh hi
    exact ⟨h.held_of_le hev hh hi, hev.take_leaderLog (hi.trans (h.acked_le t m))⟩
  have hbroken : ∀ {m t i B}, A.Held m t i → A.Broken t i B → A'.Broken t i B :=
    fun hh hb => hev.broken (h.held_le hh) hb
  have hlineage : ∀ {m t i}, A.Held m t i → A.log m <+: A'.log m →
      (A.leaderLog t).take i <+: A'.log m ∨ A'.Broken t i (A'.term m + 1) := by
    intro m t i hh hlog
    rcases h.lineage hh with hp | hb
    · exact Or.inl (hp.trans hlog)
    · exact Or.inr ((hbroken hh hb).mono (Nat.succ_le_succ (hev.term_mono m)))
  have hballots : ∀ {m T c l t i}, A.vote m T = some c → A.cand c T = some l → t < T →
      A.Held m t i → (A.leaderLog t).take i <+: l ∨ A'.Broken t i (T + 1) := by
    intro m T c l t i hv hc ht hh
    exact (h.ballots hv hc ht hh).imp_right (hbroken hh)
  have hsupport : (∀ {t m T}, t < T → T ≤ A.term m → A'.acked t m = A.acked t m) →
      ∀ {T c}, A.leader T = some c → ∃ S, Quorum M S ∧ ∀ m ∈ S, T ≤ A'.term m ∧
        ∀ t i, t < T → A'.Held m t i →
          (A'.leaderLog t).take i <+: A'.electLog T ∨ A'.Broken t i T := by
    intro hack T c hT
    obtain ⟨S, hS, hm⟩ := h.support hT
    refine ⟨S, hS, fun m hmS => ⟨(hm m hmS).1.trans (hev.term_mono m), ?_⟩⟩
    intro t i ht hh
    obtain ⟨hh', heq⟩ := hback hh (hack ht (hm m hmS).1 ▸ hh.1)
    rw [heq, (hev.leader hT).2]
    exact ((hm m hmS).2 t i ht hh').imp_right (hbroken hh')
  cases hs with
  | timeout =>
    refine ⟨h.acked_le, fun hpos => (h.acked_term hpos).trans (hev.term_mono _), ?_, ?_,
      hsupport fun _ _ => rfl⟩
    · intro m t i hh
      exact hlineage (hback hh hh.1).1 List.prefix_rfl
    · intro m T c l t i hv hc ht hh
      dsimp only at hv hc
      rw [set₂_apply] at hv hc
      split_ifs at hv hc with h₁ h₂ h₂
      · -- the vote for oneself
        rw [← Option.some.inj hc, h₁.2]
        rcases h.lineage (hback hh hh.1).1 with hp | hb
        · exact Or.inl (h₁.1 ▸ hp)
        · rw [h₁.1] at hb
          exact Or.inr ((hbroken (hback hh hh.1).1 hb).mono (Nat.le_succ _))
      · rw [h₁.2, not_and] at h₂
        exact absurd rfl (h₂ (Option.some.inj hv).symm)
      · have := h.held_le (hback hh hh.1).1
        rw [h₂.1, h₂.2] at hv
        exact absurd (he.cand_next n) (he.vote_cand hv)
      · exact hballots hv hc ht (hback hh hh.1).1
  | adopt T hT =>
    refine ⟨h.acked_le, fun hpos => (h.acked_term hpos).trans (hev.term_mono _), ?_, ?_,
      hsupport fun _ _ => rfl⟩
    · intro m t i hh
      exact hlineage (hback hh hh.1).1 List.prefix_rfl
    · intro m T' c l t i hv hc ht hh
      exact hballots hv hc ht (hback hh hh.1).1
  | grant c l hc hl hv =>
    refine ⟨h.acked_le, h.acked_term, ?_, ?_, hsupport fun _ _ => rfl⟩
    · intro m t i hh
      exact hlineage (hback hh hh.1).1 List.prefix_rfl
    · intro m T d l' t i hd hc' ht hh
      dsimp only at hd
      rw [set₂_apply] at hd
      split_ifs at hd with heq
      · obtain ⟨rfl, rfl⟩ := heq
        obtain rfl := Option.some.inj hd
        dsimp only at hc'
        rw [hc] at hc'
        obtain rfl := Option.some.inj hc'
        exact (h.grant he hL hc hl (hback hh hh.1).1).imp_right (hbroken (hback hh hh.1).1)
      · exact hballots hd hc' ht (hback hh hh.1).1
  | elect S hS hv hc hn =>
    have hnone := he.leader_none hS hv hn
    refine ⟨fun t m => (h.acked_le t m).trans (hev.leaderLog t).length_le, h.acked_term, ?_, ?_,
      ?_⟩
    · intro m t i hh
      obtain ⟨hh', heq⟩ := hback hh hh.1
      rw [heq]
      exact hlineage hh' List.prefix_rfl
    · intro m T c l t i hv' hc' ht hh
      obtain ⟨hh', heq⟩ := hback hh hh.1
      rw [heq]
      exact hballots hv' hc' ht hh'
    · intro T c hT
      dsimp only at hT
      by_cases heq : T = A.term n
      · subst heq
        refine ⟨S, hS, fun m hm => ⟨he.vote_le (hv m hm), ?_⟩⟩
        intro t i ht hh
        obtain ⟨hh', htake⟩ := hback hh hh.1
        rw [htake]
        dsimp only
        rw [Function.update_self]
        rcases h.ballots (hv m hm) hc ht hh' with hp | ⟨w, h₁, h₂, hw, hs⟩
        · exact Or.inl hp
        · -- the term had no leader before
          have hlt : w < A.term n := by
            apply lt_of_le_of_ne (Nat.le_of_lt_succ h₂)
            rintro rfl
            exact hw hnone
          exact Or.inr (hbroken hh' ⟨w, h₁, hlt, hw, hs⟩)
      · rw [Function.update_of_ne heq] at hT
        exact hsupport (fun _ _ => rfl) hT
  | append e hn ht =>
    refine ⟨fun t m => (h.acked_le t m).trans (hev.leaderLog t).length_le, h.acked_term, ?_, ?_,
      hsupport fun _ _ => rfl⟩
    · intro m t i hh
      obtain ⟨hh', heq⟩ := hback hh hh.1
      rw [heq]
      apply hlineage hh'
      dsimp only
      rw [Function.update_apply]
      split_ifs with hm
      · rw [hm]
        exact List.prefix_append _ _
      · exact List.prefix_rfl
    · intro m T c l t i hv hc ht hh
      obtain ⟨hh', heq⟩ := hback hh hh.1
      rw [heq]
      exact hballots hv hc ht hh'
  | ack l hl hn =>
    have hold : ∀ {t m T}, t < T → T ≤ A.term m →
        set₂ A.acked (A.term n) n (max (A.acked (A.term n) n) l.length) t m = A.acked t m := by
      intro t m T ht hT
      rw [set₂_apply, if_neg]
      rintro ⟨rfl, rfl⟩
      omega
    refine ⟨?_, ?_, ?_, ?_, hsupport hold⟩
    · intro t m
      dsimp only
      rw [set₂_apply]
      split_ifs with heq
      · rw [heq.1]
        exact max_le (h.acked_le _ _) hl.length_le
      · exact h.acked_le t m
    · intro t m hpos
      dsimp only at hpos ⊢
      rw [set₂_apply] at hpos
      split_ifs at hpos with heq
      · rw [heq.1, heq.2]
      · exact h.acked_term hpos
    · intro m t i hh
      have hi : i ≤ set₂ A.acked (A.term n) n (max (A.acked (A.term n) n) l.length) t m := hh.1
      rw [set₂_apply] at hi
      split_ifs at hi with heq
      · rcases le_max_iff.1 hi with hi | hi
        · rw [← heq.1, ← heq.2] at hi
          exact hlineage (hback hh hi).1 List.prefix_rfl
        · rw [heq.1, heq.2]
          exact Or.inl ((take_start_of_start hl hi).trans hn)
      · exact hlineage (hback hh hi).1 List.prefix_rfl
    · intro m T c l' t i hv hc ht hh
      have hi : i ≤ A.acked t m := hold ht (he.vote_le hv) ▸ hh.1
      exact hballots hv hc ht (hback hh hi).1
  | overwrite l hl hn =>
    refine ⟨h.acked_le, h.acked_term, ?_, ?_, hsupport fun _ _ => rfl⟩
    · intro m t i hh
      obtain ⟨hh', -⟩ := hback hh hh.1
      by_cases hm : m = n
      · subst hm
        dsimp only
        rw [Function.update_self]
        exact (h.overwrite hL hl hn hh').imp_right (hbroken hh')
      · apply hlineage hh'
        dsimp only
        rw [Function.update_of_ne hm]
    · intro m T c l' t i hv hc ht hh
      exact hballots hv hc ht (hback hh hh.1).1
  | learn k hk =>
    refine ⟨h.acked_le, h.acked_term, ?_, ?_, hsupport fun _ _ => rfl⟩
    · intro m t i hh
      exact hlineage (hback hh hh.1).1 List.prefix_rfl
    · intro m T c l t i hv hc ht hh
      exact hballots hv hc ht (hback hh hh.1).1

/-- **Committed entries** stay where they are. -/
theorem Commits.step (h : Commits M A) (ha : Acks M A) (hL : Logs A) (hev : Evolves n A A')
    (hs : Step M n A A') : Commits M A' := by
  have hkept : ∀ m, A.log m <+: A'.log m →
      A'.Known M (A'.term m) (A.commit m) (A'.log m) := by
    intro m hlog
    exact (hev.known (h m)).mono (hev.term_mono m) hlog
  cases hs with
  | timeout => exact fun m => hkept m List.prefix_rfl
  | adopt T hT => exact fun m => hkept m List.prefix_rfl
  | grant c l hc hl hv => exact fun m => hkept m List.prefix_rfl
  | elect S hS hv hc hn => exact fun m => hkept m List.prefix_rfl
  | append e hn he =>
    intro m
    apply hkept
    dsimp only
    rw [Function.update_apply]
    split_ifs with hm
    · rw [hm]
      exact List.prefix_append _ _
    · exact List.prefix_rfl
  | ack l hl hn => exact fun m => hkept m List.prefix_rfl
  | overwrite l hl hn =>
    intro m
    by_cases hm : m = n
    · subst hm
      have hlead : A.leader (A.term m) ≠ none := by
        intro hnone
        rw [hL.unled hnone, List.prefix_nil] at hl
        exact hn (hl ▸ List.nil_prefix)
      have hstart : (A.log m).take (A.commit m) <+: l := by
        rcases List.prefix_or_prefix_of_prefix (ha.known_start hL (h m) hlead) hl with hp | hp
        · exact hp
        · exact absurd (hp.trans (List.take_prefix _ _)) hn
      dsimp only
      rw [Function.update_self]
      rcases h m with h0 | ⟨t, i, ht, hc, hk, hp⟩
      · exact Or.inl h0
      · refine Or.inr ⟨t, i, ht, hc, hk, ?_⟩
        exact hc.take_eq hk hp ▸ hstart
    · apply hkept
      dsimp only
      rw [Function.update_of_ne hm]
  | learn k hk =>
    intro m
    by_cases hm : m = n
    · subst hm
      dsimp only
      rw [Function.update_self]
      rcases max_choice (A.commit m) k with hmax | hmax
      · rw [hmax]
        exact hkept m List.prefix_rfl
      · rw [hmax]
        exact hev.known hk
    · dsimp only
      rw [Function.update_of_ne hm]
      exact hkept m List.prefix_rfl

/-- Any number of steps of replica `n`. -/
def Steps (M : Finset ν) (n : ν) : State ν α → State ν α → Prop :=
  Relation.ReflTransGen (Step M n)

namespace Inv

theorem evolves (h : Inv M A) (hs : Step M n A A') : Evolves n A A' :=
  h.elections.evolves h.logs hs

/-- **The invariant is kept by every step.** -/
theorem step (h : Inv M A) (hs : Step M n A A') : Inv M A' :=
  have hev := h.evolves hs
  { elections := h.elections.step hev hs
    logs := h.logs.step h.elections hev hs
    acks := h.acks.step h.elections h.logs hev hs
    commits := h.commits.step h.acks h.logs hev hs }

theorem steps (h : Inv M A) (hs : Steps M n A A') : Inv M A' := by
  induction hs with
  | refl => exact h
  | tail _ hs ih => exact ih.step hs

end Inv

/-! ## Acknowledgements within a term -/

/-- While it stays in a term, a replica's log holds what it has acknowledged in it. -/
def State.Retained (A : State ν α) : Prop :=
  ∀ m, (A.leaderLog (A.term m)).take (A.acked (A.term m) m) <+: A.log m

namespace State.Retained

omit [DecidableEq ν] in
theorem init : (State.init ν α).Retained := fun _ => List.prefix_rfl

theorem step (h : A.Retained) (hI : Inv M A) (hs : Step M n A A') : A'.Retained := by
  have hev := hI.evolves hs
  have hkept : (A'.leaderLog (A.term n)).take (A.acked (A.term n) n) <+: A.log n := by
    rw [hev.take_leaderLog (hI.acks.acked_le _ _)]
    exact h n
  -- nothing is acknowledged in a term that the replica has not reached
  have hlater : ∀ {T}, A.term n < T → (A'.leaderLog T).take (A.acked T n) <+: A.log n := by
    intro T hT
    have hzero : A.acked T n = 0 := by
      by_contra hne
      exact absurd (hI.acks.acked_term (Nat.pos_of_ne_zero hne)) (Nat.not_le.2 hT)
    rw [hzero, List.take_zero]
    exact List.nil_prefix
  intro m
  by_cases hm : m = n
  · subst hm
    cases hs with
    | timeout =>
      dsimp only
      rw [Function.update_self]
      exact hlater (Nat.lt_succ_self _)
    | adopt T hT =>
      dsimp only
      rw [Function.update_self]
      exact hlater hT
    | grant => exact hkept
    | elect => exact hkept
    | append e =>
      dsimp only
      rw [Function.update_self m]
      exact hkept.trans (List.prefix_append _ _)
    | ack l hl hn =>
      dsimp only
      rw [set₂_self]
      rcases max_choice (A.acked (A.term m) m) l.length with hmax | hmax
      · rw [hmax]
        exact hkept
      · rw [hmax, take_eq_of_start hl le_rfl, List.take_length]
        exact hn
    | overwrite l hl hn =>
      dsimp only
      rw [Function.update_self]
      rcases Nat.le_total (A.acked (A.term m) m) l.length with hle | hle
      · exact take_start_of_start hl hle
      · -- the shorter part of the leader's log would be in the own log
        refine absurd ?_ hn
        have hcut : l <+: (A.leaderLog (A.term m)).take (A.acked (A.term m) m) := by
          rw [List.prefix_iff_eq_take.1 hl]
          exact take_start_mono _ hle
        exact hcut.trans hkept
    | learn => exact hkept
  · obtain ⟨hterm, hlog, -, -, -, hacked⟩ := hev.others hm
    rw [hterm, hlog, hacked, hev.take_leaderLog (hI.acks.acked_le _ _)]
    exact h m

theorem steps (h : A.Retained) (hI : Inv M A) (hs : Steps M n A A') : A'.Retained := by
  induction hs with
  | refl => exact h
  | tail hrun hs ih => exact ih.step (hI.steps hrun) hs

end State.Retained

end CowRaft.Consensus
