import Mathlib

/-!
# Trees stored in a heap

A heap whose cells name their successors, seen as a graph `succ : ι → List ι`. `unfold succ h r`
lists the cells met when the graph is unfolded from `r` down to depth `h`, in pre-order, repeated
as often as they are met. When every path from `r` has length `h` (`Levelled`) these are the cells
reachable from `r` (`mem_unfold_iff`), and the unfolding has no repetition exactly when the graph
below `r` is a tree. Both depend only on the cells listed (`unfold_congr`).
-/

namespace CowRaft.HeapTree

variable {ι : Type*} {succ succ' : ι → List ι}

/-- The cells of the unfolding of depth `h` from `r`. -/
def unfold (succ : ι → List ι) : ℕ → ι → List ι
  | 0, r => [r]
  | h + 1, r => r :: (succ r).flatMap (unfold succ h)

/-- The cells of the unfoldings of depth `h - 1` from the successors `cs` of a cell. -/
def below (succ : ι → List ι) : ℕ → List ι → List ι
  | 0, _ => []
  | h + 1, cs => cs.flatMap (unfold succ h)

theorem unfold_eq_cons (h : ℕ) (r : ι) : unfold succ h r = r :: below succ h (succ r) := by
  cases h <;> rfl

/-- Every path from `r` ends after exactly `h` edges. -/
def Levelled (succ : ι → List ι) : ℕ → ι → Prop
  | 0, r => succ r = []
  | h + 1, r => succ r ≠ [] ∧ ∀ c ∈ succ r, Levelled succ h c

/-- `p` is reachable from `r`. -/
def Reaches (succ : ι → List ι) : ι → ι → Prop := Relation.ReflTransGen fun a b => b ∈ succ a

theorem mem_unfold_self (h : ℕ) (r : ι) : r ∈ unfold succ h r := by
  cases h <;> simp [unfold]

theorem reaches_of_mem_unfold {h : ℕ} {r p : ι} (hp : p ∈ unfold succ h r) : Reaches succ r p := by
  induction h generalizing r with
  | zero =>
    obtain rfl := List.mem_singleton.1 hp
    exact .refl
  | succ h ih =>
    rcases List.mem_cons.1 hp with rfl | hp
    · exact .refl
    · obtain ⟨c, hc, hp⟩ := List.mem_flatMap.1 hp
      exact .head hc (ih hp)

/-- In a levelled graph the unfolding lists the reachable cells. -/
theorem mem_unfold_iff {h : ℕ} {r p : ι} (hl : Levelled succ h r) :
    p ∈ unfold succ h r ↔ Reaches succ r p := by
  refine ⟨reaches_of_mem_unfold, fun hp => ?_⟩
  induction h generalizing r with
  | zero =>
    rcases hp.cases_head with rfl | ⟨c, hc, -⟩
    · exact mem_unfold_self 0 _
    · exact absurd (hl ▸ hc) List.not_mem_nil
  | succ h ih =>
    rcases hp.cases_head with rfl | ⟨c, hc, hp⟩
    · exact mem_unfold_self _ _
    · exact List.mem_cons_of_mem _ (List.mem_flatMap.2 ⟨c, hc, ih (hl.2 c hc) hp⟩)

/-- The unfolding depends only on the cells it lists. -/
theorem unfold_congr {h : ℕ} {r : ι} (hs : ∀ p ∈ unfold succ h r, succ' p = succ p) :
    unfold succ' h r = unfold succ h r := by
  induction h generalizing r with
  | zero => rfl
  | succ h ih =>
    rw [unfold, unfold, hs r (mem_unfold_self _ _)]
    congr 1
    exact List.flatMap_congr fun c hc => ih fun p hp =>
      hs p (List.mem_cons_of_mem _ (List.mem_flatMap.2 ⟨c, hc, hp⟩))

theorem Levelled.congr {h : ℕ} {r : ι} (hs : ∀ p ∈ unfold succ h r, succ' p = succ p)
    (hl : Levelled succ h r) : Levelled succ' h r := by
  induction h generalizing r with
  | zero => rw [Levelled, hs r (mem_unfold_self _ _)]; exact hl
  | succ h ih =>
    rw [Levelled, hs r (mem_unfold_self _ _)]
    exact ⟨hl.1, fun c hc => ih (fun p hp =>
      hs p (List.mem_cons_of_mem _ (List.mem_flatMap.2 ⟨c, hc, hp⟩))) (hl.2 c hc)⟩

end CowRaft.HeapTree
