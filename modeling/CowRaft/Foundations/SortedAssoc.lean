import Mathlib

/-!
# Finite maps as sorted association lists

The abstract contents of an ordered index: a list of bindings with strictly increasing keys, the
lookup `lookupKey`, and the sorted insertion `upsert`. The lemmas say how the two act on a list
that is cut into pieces, which is what a search tree does with its contents. `upsertAll` binds many
keys, all of them if they differ (`perm_upsertAll`).
-/

namespace CowRaft

variable {κ ν : Type*} [LinearOrder κ]

/-- The keys are strictly increasing. -/
def SortedKeys (m : List (κ × ν)) : Prop := m.Pairwise fun a b => a.1 < b.1

/-- Bind `k` to `v`, in key order. -/
def upsert (k : κ) (v : ν) : List (κ × ν) → List (κ × ν)
  | [] => [(k, v)]
  | e :: m =>
    if k < e.1 then (k, v) :: e :: m else if k = e.1 then (k, v) :: m else e :: upsert k v m

namespace SortedKeys

@[simp] theorem nil : SortedKeys ([] : List (κ × ν)) := List.Pairwise.nil

@[simp] theorem singleton (e : κ × ν) : SortedKeys [e] := List.pairwise_singleton _ e

theorem append_iff {m₁ m₂ : List (κ × ν)} :
    SortedKeys (m₁ ++ m₂) ↔
      SortedKeys m₁ ∧ SortedKeys m₂ ∧ ∀ a ∈ m₁, ∀ b ∈ m₂, a.1 < b.1 := List.pairwise_append

theorem left {m₁ m₂ : List (κ × ν)} (h : SortedKeys (m₁ ++ m₂)) : SortedKeys m₁ :=
  (append_iff.1 h).1

theorem right {m₁ m₂ : List (κ × ν)} (h : SortedKeys (m₁ ++ m₂)) : SortedKeys m₂ :=
  (append_iff.1 h).2.1

theorem cons_iff {e : κ × ν} {m : List (κ × ν)} :
    SortedKeys (e :: m) ↔ (∀ b ∈ m, e.1 < b.1) ∧ SortedKeys m := List.pairwise_cons

theorem map_fst {m : List (κ × ν)} (h : SortedKeys m) :
    (m.map Prod.fst).Pairwise (· < ·) := List.pairwise_map.2 h

theorem nodup_keys {m : List (κ × ν)} (h : SortedKeys m) : (m.map Prod.fst).Nodup :=
  h.map_fst.imp ne_of_lt

theorem getElem_lt {m : List (κ × ν)} (h : SortedKeys m) {i j : ℕ} (hij : i < j)
    (hi : i < m.length) (hj : j < m.length) : m[i].1 < m[j].1 :=
  List.pairwise_iff_getElem.1 h i j hi hj hij

end SortedKeys

/-! ## Insertion -/

theorem upsert_ne_nil (k : κ) (v : ν) (m : List (κ × ν)) : upsert k v m ≠ [] := by
  cases m with
  | nil => simp [upsert]
  | cons e m => rw [upsert]; split_ifs <;> simp

/-- Bindings below the key are passed over. -/
theorem upsert_append_of_lt {k : κ} (v : ν) {m₁ : List (κ × ν)} (m₂ : List (κ × ν))
    (h : ∀ e ∈ m₁, e.1 < k) : upsert k v (m₁ ++ m₂) = m₁ ++ upsert k v m₂ := by
  induction m₁ with
  | nil => rfl
  | cons e m₁ ih =>
    have he : e.1 < k := h e (by simp)
    rw [List.cons_append, upsert, if_neg (lt_asymm he), if_neg (ne_of_gt he),
      ih fun x hx => h x (by simp [hx]), List.cons_append]

theorem upsert_of_lt {k : κ} (v : ν) {m : List (κ × ν)} (h : ∀ e ∈ m, k < e.1) :
    upsert k v m = (k, v) :: m := by
  cases m with
  | nil => rfl
  | cons e m => rw [upsert, if_pos (h e (by simp))]

/-- Bindings above the key are left as they are. -/
theorem upsert_append_of_gt {k : κ} (v : ν) (m₁ : List (κ × ν)) {m₂ : List (κ × ν)}
    (h : ∀ e ∈ m₂, k < e.1) : upsert k v (m₁ ++ m₂) = upsert k v m₁ ++ m₂ := by
  induction m₁ with
  | nil => simpa [upsert] using upsert_of_lt v h
  | cons e m₁ ih =>
    simp only [List.cons_append, upsert, ih]
    split_ifs <;> rfl

/-- An absent key is inserted between the bindings below and above it. -/
theorem upsert_insert {k : κ} (v : ν) {m₁ m₂ : List (κ × ν)} (h₁ : ∀ e ∈ m₁, e.1 < k)
    (h₂ : ∀ e ∈ m₂, k < e.1) : upsert k v (m₁ ++ m₂) = m₁ ++ (k, v) :: m₂ := by
  rw [upsert_append_of_lt v m₂ h₁, upsert_of_lt v h₂]

/-- A present key is replaced in place. -/
theorem upsert_replace {k : κ} (v w : ν) {m₁ : List (κ × ν)} (m₂ : List (κ × ν))
    (h₁ : ∀ e ∈ m₁, e.1 < k) : upsert k v (m₁ ++ (k, w) :: m₂) = m₁ ++ (k, v) :: m₂ := by
  rw [upsert_append_of_lt v _ h₁, upsert, if_neg (lt_irrefl k), if_pos rfl]

theorem mem_upsert {k : κ} {v : ν} {m : List (κ × ν)} {e : κ × ν} (h : e ∈ upsert k v m) :
    e = (k, v) ∨ e ∈ m := by
  induction m with
  | nil => exact Or.inl (by simpa [upsert] using h)
  | cons x m ih =>
    rw [upsert] at h
    split_ifs at h with h₁ h₂
    · simpa using h
    · rcases List.mem_cons.1 h with rfl | h
      · exact Or.inl rfl
      · exact Or.inr (List.mem_cons_of_mem _ h)
    · rcases List.mem_cons.1 h with rfl | h
      · exact Or.inr (by simp)
      · exact (ih h).imp_right (List.mem_cons_of_mem _)

theorem SortedKeys.upsert {m : List (κ × ν)} (h : SortedKeys m) (k : κ) (v : ν) :
    SortedKeys (upsert k v m) := by
  induction m with
  | nil => simp [CowRaft.upsert]
  | cons e m ih =>
    obtain ⟨he, hm⟩ := SortedKeys.cons_iff.1 h
    rw [CowRaft.upsert]
    split_ifs with h₁ h₂
    · refine SortedKeys.cons_iff.2 ⟨fun b hb => ?_, h⟩
      rcases List.mem_cons.1 hb with rfl | hb
      · exact h₁
      · exact h₁.trans (he b hb)
    · exact SortedKeys.cons_iff.2 ⟨fun b hb => h₂ ▸ he b hb, hm⟩
    · refine SortedKeys.cons_iff.2 ⟨fun b hb => ?_, ih hm⟩
      rcases mem_upsert hb with rfl | hb
      · exact lt_of_le_of_ne (not_lt.1 h₁) (Ne.symm h₂)
      · exact he b hb

/-! ## Lookup -/

/-- The value of the first binding of `k`. -/
def lookupKey (k : κ) : List (κ × ν) → Option ν
  | [] => none
  | e :: m => if k = e.1 then some e.2 else lookupKey k m

theorem lookupKey_append (k : κ) (m₁ m₂ : List (κ × ν)) :
    lookupKey k (m₁ ++ m₂) = (lookupKey k m₁).or (lookupKey k m₂) := by
  induction m₁ with
  | nil => rfl
  | cons e m₁ ih =>
    rw [List.cons_append, lookupKey, lookupKey, ih]
    split_ifs <;> rfl

theorem lookupKey_of_forall_ne {k : κ} {m : List (κ × ν)} (h : ∀ e ∈ m, e.1 ≠ k) :
    lookupKey k m = none := by
  induction m with
  | nil => rfl
  | cons e m ih =>
    rw [lookupKey, if_neg (h e (by simp)).symm, ih fun x hx => h x (by simp [hx])]

/-- The keys that are found. -/
theorem exists_lookupKey_iff {k : κ} {m : List (κ × ν)} :
    (∃ v, lookupKey k m = some v) ↔ k ∈ m.map Prod.fst := by
  induction m with
  | nil => simp [lookupKey]
  | cons e m ih =>
    rw [List.map_cons, List.mem_cons, ← ih, lookupKey]
    by_cases hk : k = e.1 <;> simp [hk]

/-- Where every key is bound once, a value is found exactly if it is bound. -/
theorem lookupKey_eq_some_iff {k : κ} {v : ν} {m : List (κ × ν)} (h : (m.map Prod.fst).Nodup) :
    lookupKey k m = some v ↔ (k, v) ∈ m := by
  induction m with
  | nil => simp [lookupKey]
  | cons e m ih =>
    rw [List.map_cons, List.nodup_cons] at h
    rw [lookupKey, List.mem_cons]
    by_cases hk : k = e.1
    · subst hk
      rw [if_pos rfl, Option.some.injEq]
      refine ⟨fun hv => Or.inl (Prod.ext rfl hv.symm), ?_⟩
      rintro (he | hm)
      · exact (congrArg Prod.snd he).symm
      · exact absurd (List.mem_map_of_mem hm) h.1
    · rw [if_neg hk, ih h.2]
      exact ⟨Or.inr, fun hm => hm.resolve_left fun he => hk (congrArg Prod.fst he)⟩

/-- How many keys are bound to a value with property `P`. -/
theorem ncard_lookupKey_where {m : List (κ × ν)} (h : (m.map Prod.fst).Nodup) (P : ν → Prop)
    [DecidablePred P] :
    {k | ∃ v, lookupKey k m = some v ∧ P v}.ncard = (m.filter fun e => P e.2).length := by
  have hnodup : ((m.filter fun e => P e.2).map Prod.fst).Nodup :=
    (List.filter_sublist.map Prod.fst).nodup h
  have hset : {k | ∃ v, lookupKey k m = some v ∧ P v} =
      (((m.filter fun e => P e.2).map Prod.fst).toFinset : Set κ) := by
    ext k
    simp only [Set.mem_ofPred_eq, lookupKey_eq_some_iff h, Finset.mem_coe, List.mem_toFinset,
      List.mem_map, List.mem_filter, decide_eq_true_eq, Prod.exists, exists_and_right,
      exists_eq_right]
  rw [hset, Set.ncard_coe_finset, List.toFinset_card_of_nodup hnodup, List.length_map]

/-- A value that is found is bound. -/
theorem mem_of_lookupKey {k : κ} {v : ν} {m : List (κ × ν)} (h : lookupKey k m = some v) :
    (k, v) ∈ m := by
  induction m with
  | nil => cases h
  | cons e m ih =>
    rw [lookupKey] at h
    split_ifs at h with hk
    · obtain rfl := Option.some.inj h
      rw [hk]
      exact List.mem_cons_self
    · exact List.mem_cons_of_mem _ (ih h)

/-- A key is looked up in the middle piece when it lies between the two outer ones. -/
theorem lookupKey_middle {k : κ} {m₁ m₂ m₃ : List (κ × ν)} (h₁ : ∀ e ∈ m₁, e.1 < k)
    (h₃ : ∀ e ∈ m₃, k < e.1) : lookupKey k (m₁ ++ (m₂ ++ m₃)) = lookupKey k m₂ := by
  rw [lookupKey_append, lookupKey_append, lookupKey_of_forall_ne fun e he => ne_of_lt (h₁ e he),
    lookupKey_of_forall_ne fun e he => ne_of_gt (h₃ e he), Option.none_or, Option.or_none]

theorem lookupKey_upsert (m : List (κ × ν)) (k : κ) (v : ν) (k' : κ) :
    lookupKey k' (upsert k v m) = if k' = k then some v else lookupKey k' m := by
  induction m with
  | nil => rfl
  | cons e m ih =>
    rcases lt_trichotomy k e.1 with h | h | h
    · rw [upsert, if_pos h, lookupKey]
    · rw [upsert, if_neg (h ▸ lt_irrefl k), if_pos h, lookupKey, lookupKey, ← h]
      by_cases hk : k' = k <;> simp [hk]
    · rw [upsert, if_neg (lt_asymm h), if_neg (ne_of_gt h), lookupKey, ih, lookupKey]
      by_cases hk : k' = k
      · rw [if_pos hk, if_pos hk, if_neg (hk ▸ ne_of_gt h)]
      · rw [if_neg hk, if_neg hk]

/-! ## Many bindings -/

/-- A new key comes to the others. -/
theorem perm_upsert {k : κ} (v : ν) {m : List (κ × ν)} (h : k ∉ m.map Prod.fst) :
    (upsert k v m).Perm ((k, v) :: m) := by
  induction m with
  | nil => exact List.Perm.refl _
  | cons e m ih =>
    rw [List.map_cons, List.mem_cons, not_or] at h
    rw [upsert, if_neg h.1]
    split_ifs
    · exact List.Perm.refl _
    · exact ((ih h.2).cons e).trans (List.Perm.swap _ _ _)

theorem mem_keys_upsert (k : κ) (v : ν) (m : List (κ × ν)) (k' : κ) :
    k' ∈ (upsert k v m).map Prod.fst ↔ k' = k ∨ k' ∈ m.map Prod.fst := by
  rw [← exists_lookupKey_iff, ← exists_lookupKey_iff, lookupKey_upsert]
  by_cases hk : k' = k <;> simp [hk]

/-- Bind the keys of some bindings, one after another. -/
def upsertAll (bindings m : List (κ × ν)) : List (κ × ν) :=
  bindings.foldl (fun m binding => upsert binding.1 binding.2 m) m

theorem sortedKeys_upsertAll {bindings m : List (κ × ν)} (h : SortedKeys m) :
    SortedKeys (upsertAll bindings m) := by
  induction bindings generalizing m with
  | nil => exact h
  | cons binding bindings ih => exact ih (h.upsert _ _)

theorem mem_keys_upsertAll (bindings m : List (κ × ν)) (k : κ) :
    k ∈ (upsertAll bindings m).map Prod.fst ↔
      k ∈ bindings.map Prod.fst ∨ k ∈ m.map Prod.fst := by
  induction bindings generalizing m with
  | nil => simp [upsertAll]
  | cons binding bindings ih =>
    rw [upsertAll, List.foldl_cons, ← upsertAll, ih, mem_keys_upsert, List.map_cons,
      List.mem_cons]
    tauto

/-- Different keys are all bound. -/
theorem perm_upsertAll {bindings m : List (κ × ν)}
    (h : (bindings.map Prod.fst ++ m.map Prod.fst).Nodup) :
    (upsertAll bindings m).Perm (bindings ++ m) := by
  induction bindings generalizing m with
  | nil => exact List.Perm.refl _
  | cons binding bindings ih =>
    rw [List.map_cons, List.cons_append] at h
    obtain ⟨hnot, hnd⟩ := List.nodup_cons.1 h
    have hput := perm_upsert binding.2 fun hm => hnot (List.mem_append_right _ hm)
    have hkeys : (bindings.map Prod.fst ++ (upsert binding.1 binding.2 m).map Prod.fst).Perm
        (binding.1 :: (bindings.map Prod.fst ++ m.map Prod.fst)) :=
      ((hput.map Prod.fst).append_left _).trans List.perm_middle
    have hrest := ih (hkeys.nodup_iff.2 h)
    exact (hrest.trans (hput.append_left _)).trans List.perm_middle

theorem perm_upsertAll_nil {bindings : List (κ × ν)} (h : (bindings.map Prod.fst).Nodup) :
    (upsertAll bindings []).Perm bindings := by
  have hnil : (bindings.map Prod.fst ++ ([] : List (κ × ν)).map Prod.fst).Nodup := by
    simpa using h
  have hperm := perm_upsertAll hnil
  rwa [List.append_nil] at hperm

end CowRaft
