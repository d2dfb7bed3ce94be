import Mathlib.Data.List.Nodup

/-!
# Linearizability

Clients call operations on an object and hear of their results; the sequence of what they see is a
history. It is `Linearizable` with respect to a machine that executes one operation after another
if the operations can be put into one order in which the machine gives the results that clients have
heard, and in which an operation that had returned before another one was called comes before it.
Operations that have not returned may take part or not.

A replicated log gives such an order: `Linearizes.of_log` asks for an owner of each position of the
log, and for the position of each operation that has returned.
-/

namespace CowRaft.Linearizability

variable {ω ι ρ σ : Type*}

/-- What clients see. -/
inductive Act (ω ι ρ : Type*)
  | call (op : ω) (input : ι)
  | ret (op : ω) (result : ρ)
  deriving DecidableEq

/-- The operation that an event is about. -/
def Act.op : Act ω ι ρ → ω
  | .call op _ => op
  | .ret op _ => op

/-- The state of the machine after some inputs. -/
def after (step : σ → ι → σ × ρ) (init : σ) (inputs : List ι) : σ :=
  inputs.foldl (fun s input => (step s input).1) init

@[simp] theorem after_nil (step : σ → ι → σ × ρ) (init : σ) : after step init [] = init := rfl

theorem after_concat (step : σ → ι → σ × ρ) (init : σ) (inputs : List ι) (input : ι) :
    after step init (inputs ++ [input]) = (step (after step init inputs) input).1 := by
  unfold after
  rw [List.foldl_append, List.foldl_cons, List.foldl_nil]

/-- Executing the operations in this order explains the history. -/
structure Linearizes (step : σ → ι → σ × ρ) (init : σ) (H : List (Act ω ι ρ))
    (order : List (ω × ι)) : Prop where
  once : (order.map Prod.fst).Nodup
  called : ∀ p ∈ order, Act.call p.1 p.2 ∈ H
  returned : ∀ op result, Act.ret op result ∈ H → ∃ (k : ℕ) (input : ι),
    order[k]? = some (op, input) ∧
      result = (step (after step init ((order.take k).map Prod.snd)) input).2
  /-- What had returned before another operation was called comes before it. -/
  realTime : ∀ op result op' input', [Act.ret op result, Act.call op' input'].Sublist H →
    ∀ (k k' : ℕ) (p p' : ω × ι), order[k]? = some p → order[k']? = some p' → p.1 = op →
      p'.1 = op' → k < k'

/-- Some order of operations explains the history. -/
def Linearizable (step : σ → ι → σ × ρ) (init : σ) (H : List (Act ω ι ρ)) : Prop :=
  ∃ order, Linearizes step init H order

/-- Operations are called once, and return once, after they were called. -/
structure WellFormed (H : List (Act ω ι ρ)) : Prop where
  calledOnce : ∀ op input input', [Act.call op input, Act.call op input'].Sublist H → False
  returnedOnce : ∀ op result result', [Act.ret op result, Act.ret op result'].Sublist H → False
  answered : ∀ op result, Act.ret op result ∈ H →
    ∃ input, [Act.call op input, Act.ret op result].Sublist H

/-- Two events in a row of a history that goes on. -/
theorem pair_sublist_append {α : Type*} {a b : α} {H H' : List α} (h : [a, b].Sublist (H ++ H')) :
    [a, b].Sublist H ∨ a ∈ H ∧ b ∈ H' ∨ [a, b].Sublist H' := by
  obtain ⟨l, l', heq, hl, hl'⟩ := List.sublist_append_iff.1 h
  cases l with
  | nil =>
    rw [List.nil_append] at heq
    exact Or.inr (Or.inr (heq ▸ hl'))
  | cons x l =>
    cases l with
    | nil =>
      rw [List.singleton_append, List.cons.injEq] at heq
      obtain ⟨rfl, rfl⟩ := heq
      exact Or.inr (Or.inl ⟨List.singleton_sublist.1 hl, List.singleton_sublist.1 hl'⟩)
    | cons y l =>
      simp only [List.cons_append, List.cons.injEq] at heq
      obtain ⟨rfl, rfl, -⟩ := heq
      exact Or.inl ((List.sublist_append_left [a, b] l).trans hl)

/-- The inputs of a log with owners are the log. -/
theorem map_snd_owned (owner : ℕ → ω) (log : List ι) :
    (log.mapIdx fun k input => (owner k, input)).map Prod.snd = log := by
  apply List.ext_getElem?
  intro k
  rw [List.getElem?_map, List.getElem?_mapIdx, Option.map_map]
  exact Option.map_id'

/-- **A log of inputs linearizes a history** if its positions have different owners, who called
their inputs, and each operation that has returned owns a position with its result. -/
theorem Linearizes.of_log {step : σ → ι → σ × ρ} {init : σ} {H : List (Act ω ι ρ)}
    {log : List ι} {owner : ℕ → ω}
    (honce : ∀ k < log.length, ∀ k' < log.length, owner k = owner k' → k = k')
    (hcalled : ∀ k input, log[k]? = some input → Act.call (owner k) input ∈ H)
    (hreturned : ∀ op result, Act.ret op result ∈ H → ∃ k input, log[k]? = some input ∧
      owner k = op ∧ result = (step (after step init (log.take k)) input).2)
    (hreal : ∀ op result op' input', [Act.ret op result, Act.call op' input'].Sublist H →
      ∀ k < log.length, ∀ k' < log.length, owner k = op → owner k' = op' → k < k') :
    Linearizes step init H (log.mapIdx fun k input => (owner k, input)) := by
  have hget : ∀ (k : ℕ) (p : ω × ι), (log.mapIdx fun k input => (owner k, input))[k]? = some p →
      log[k]? = some p.2 ∧ p.1 = owner k := by
    intro k p hp
    rw [List.getElem?_mapIdx] at hp
    obtain ⟨input, hinput, rfl⟩ := Option.map_eq_some_iff.1 hp
    exact ⟨hinput, rfl⟩
  have hlt : ∀ {k : ℕ} {input : ι}, log[k]? = some input → k < log.length :=
    fun h => (List.getElem?_eq_some_iff.1 h).1
  refine ⟨?_, fun p hp => ?_, fun op result hr => ?_, ?_⟩
  · rw [List.nodup_iff_injective_getElem]
    rintro ⟨k, hk⟩ ⟨k', hk'⟩ heq
    rw [List.length_map, List.length_mapIdx] at hk hk'
    simp only [List.getElem_map, List.getElem_mapIdx] at heq
    exact Fin.ext (honce k hk k' hk' heq)
  · obtain ⟨k, hk⟩ := List.mem_iff_getElem?.1 hp
    obtain ⟨hinput, howner⟩ := hget k p hk
    rw [howner]
    exact hcalled k p.2 hinput
  · obtain ⟨k, input, hk, rfl, hres⟩ := hreturned op result hr
    refine ⟨k, input, ?_, ?_⟩
    · rw [List.getElem?_mapIdx, hk, Option.map_some]
    · rw [List.map_take, map_snd_owned]
      exact hres
  · intro op result op' input' hsub k k' p p' hk hk' hp hp'
    obtain ⟨hinput, howner⟩ := hget k p hk
    obtain ⟨hinput', howner'⟩ := hget k' p' hk'
    exact hreal op result op' input' hsub k (hlt hinput) k' (hlt hinput') (howner ▸ hp)
      (howner' ▸ hp')

end CowRaft.Linearizability
