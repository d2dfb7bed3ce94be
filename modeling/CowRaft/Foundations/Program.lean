import Mathlib

/-!
# Programs with state and exceptions

Pre- and postconditions for programs that read and write a state and may throw, where the state at
the time of a throw is kept. `Wp m Q E s` says that `m`, run from `s`, ends normally as `Q` says or
throws as `E` says; the rules below take a program apart along its statements.
-/

namespace CowRaft

universe u

variable {ε σ α β : Type u}

/-- From `s` the program ends normally with `Q`, or throws with `E`. -/
def Wp (m : EStateM ε σ α) (Q : α → σ → Prop) (E : ε → σ → Prop) (s : σ) : Prop :=
  match m s with
  | .ok a s' => Q a s'
  | .error e s' => E e s'

namespace Wp

variable {m : EStateM ε σ α} {f : α → EStateM ε σ β} {Q Q' : α → σ → Prop}
  {R : β → σ → Prop} {E E' : ε → σ → Prop} {s : σ}

theorem of_ok {a : α} {s' : σ} (h : m s = .ok a s') : Wp m Q E s ↔ Q a s' := by
  unfold Wp
  rw [h]

theorem of_error {e : ε} {s' : σ} (h : m s = .error e s') : Wp m Q E s ↔ E e s' := by
  unfold Wp
  rw [h]

/-- A program that neither succeeds nor throws against its postconditions. -/
theorem elim (h : Wp m Q E s) :
    (∃ a s', m s = .ok a s' ∧ Q a s') ∨ ∃ e s', m s = .error e s' ∧ E e s' := by
  cases hm : m s with
  | ok a s' => exact Or.inl ⟨a, s', rfl, (of_ok hm).1 h⟩
  | error e s' => exact Or.inr ⟨e, s', rfl, (of_error hm).1 h⟩

/-- A program that does not throw. -/
theorem exists_ok (h : Wp m Q (fun _ _ => False) s) : ∃ a s', m s = .ok a s' ∧ Q a s' := by
  rcases h.elim with h | ⟨-, -, -, hf⟩
  · exact h
  · exact hf.elim

/-- A program that throws. -/
theorem exists_error (h : Wp m (fun _ _ => False) E s) : ∃ e s', m s = .error e s' ∧ E e s' := by
  rcases h.elim with ⟨-, -, -, hf⟩ | h
  · exact hf.elim
  · exact h

/-- The rule of consequence. -/
theorem mono (h : Wp m Q E s) (hQ : ∀ a s', Q a s' → Q' a s') (hE : ∀ e s', E e s' → E' e s') :
    Wp m Q' E' s := by
  cases hm : m s with
  | ok a s' => exact (of_ok hm).2 (hQ a s' ((of_ok hm).1 h))
  | error e s' => exact (of_error hm).2 (hE e s' ((of_error hm).1 h))

/-- However a program ends, what holds of all states holds of its last one. -/
theorem of_post (h : ∀ a s', Q a s') : Wp m Q (fun _ _ => True) s := by
  cases hm : m s with
  | ok a s' => exact (of_ok hm).2 (h a s')
  | error e s' => exact (of_error hm).2 trivial

/-- What two postconditions say holds together. -/
theorem and (h : Wp m Q E s) (h' : Wp m Q' E' s) :
    Wp m (fun a s' => Q a s' ∧ Q' a s') (fun e s' => E e s' ∧ E' e s') s := by
  cases hm : m s with
  | ok a s' => exact (of_ok hm).2 ⟨(of_ok hm).1 h, (of_ok hm).1 h'⟩
  | error e s' => exact (of_error hm).2 ⟨(of_error hm).1 h, (of_error hm).1 h'⟩

@[simp] theorem pure_iff (a : α) : Wp (pure a : EStateM ε σ α) Q E s ↔ Q a s := Iff.rfl

@[simp] theorem get_iff {Q : σ → σ → Prop} : Wp (get : EStateM ε σ σ) Q E s ↔ Q s s := Iff.rfl

@[simp] theorem modify_iff (g : σ → σ) {Q : PUnit → σ → Prop} :
    Wp (modify g : EStateM ε σ PUnit) Q E s ↔ Q ⟨⟩ (g s) := Iff.rfl

@[simp] theorem throw_iff (e : ε) : Wp (throw e : EStateM ε σ α) Q E s ↔ E e s := Iff.rfl

@[simp] theorem ofExcept_ok (a : α) : Wp (ofExcept (.ok a) : EStateM ε σ α) Q E s ↔ Q a s := Iff.rfl

@[simp] theorem ofExcept_error (e : ε) :
    Wp (ofExcept (.error e : Except ε α) : EStateM ε σ α) Q E s ↔ E e s := Iff.rfl

@[simp] theorem bind_iff : Wp (m >>= f) R E s ↔ Wp m (fun a => Wp (f a) R E) E s := by
  simp only [Wp, bind, EStateM.bind]
  cases m s <;> rfl

@[simp] theorem ite_iff {p : Prop} [Decidable p] {m' : EStateM ε σ α} :
    Wp (if p then m else m') Q E s ↔ (p → Wp m Q E s) ∧ (¬ p → Wp m' Q E s) := by
  split_ifs with hp <;> simp [hp]

/-- The rule of loops over a list. -/
theorem forM {m : α → EStateM ε σ PUnit} {I : σ → Prop} {l : List α}
    (hm : ∀ a ∈ l, ∀ s, I s → Wp (m a) (fun _ => I) E s) (h : I s) :
    Wp (l.forM m) (fun _ => I) E s := by
  induction l generalizing s with
  | nil => exact h
  | cons a l ih =>
    change Wp (m a >>= fun _ => l.forM m) (fun _ => I) E s
    rw [bind_iff]
    apply (hm a (by simp) s h).mono
    · intro _ s' hs'
      exact ih (fun b hb => hm b (by simp [hb])) hs'
    · exact fun _ _ he => he

end Wp

/-! ## Programs that keep a relation to their start -/

/-- A relation for each way to end, normally (`true`) or with an exception (`false`), such that
what holds of the parts of a program holds of the program. -/
class Composes (R : Bool → σ → σ → Prop) : Prop where
  refl : ∀ ok s, R ok s s
  trans : ∀ {ok s s' s''}, R true s s' → R ok s' s'' → R ok s s''

/-- Wherever it starts, the program ends in a state related to its start. -/
def Keeps (R : Bool → σ → σ → Prop) (m : EStateM ε σ α) : Prop :=
  ∀ s, Wp m (fun _ => R true s) (fun _ => R false s) s

namespace Keeps

variable {R : Bool → σ → σ → Prop} {m m' : EStateM ε σ α} {f : α → EStateM ε σ β}

theorem modify {g : σ → σ} (h : ∀ s, R true s (g s)) : Keeps R (modify g : EStateM ε σ PUnit) := h

variable [Composes R]

theorem pure (a : α) : Keeps R (pure a : EStateM ε σ α) := Composes.refl true

theorem get : Keeps R (get : EStateM ε σ σ) := Composes.refl true

theorem ofExcept (x : Except ε α) : Keeps R (ofExcept x : EStateM ε σ α) := by
  intro s
  cases x with
  | ok a => exact Composes.refl true s
  | error e => exact Composes.refl false s

theorem bind (hm : Keeps R m) (hf : ∀ a, Keeps R (f a)) : Keeps R (m >>= f) := by
  intro s
  rw [Wp.bind_iff]
  apply (hm s).mono
  · intro a s' hs
    apply (hf a s').mono
    · exact fun _ _ h => Composes.trans hs h
    · exact fun _ _ h => Composes.trans hs h
  · exact fun _ _ h => h

omit [Composes R] in
theorem ite {p : Prop} [Decidable p] (hm : p → Keeps R m) (hm' : ¬ p → Keeps R m') :
    Keeps R (if p then m else m') := by
  intro s
  rw [Wp.ite_iff]
  exact ⟨fun hp => hm hp s, fun hp => hm' hp s⟩

theorem forM {m : α → EStateM ε σ PUnit} (hm : ∀ a, Keeps R (m a)) (l : List α) :
    Keeps R (l.forM m) := by
  induction l with
  | nil => exact pure _
  | cons a l ih => exact bind (hm a) fun _ => ih

end Keeps

end CowRaft
