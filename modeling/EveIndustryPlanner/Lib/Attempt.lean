import Mathlib

/-!
# Attempts

Code that writes to a store and may throw: what it wrote before it threw stays
written.  An attempt ends with a value or with an exception, and in both cases it
leaves a state behind; what is known of the two ends is computed backwards through
the code.

## Main definitions

* `Attempt`, `Attempt.exec` — code, and how it ends in a state.
* `Attempt.Ends` — what holds at the two ends of an attempt.
* `Attempt.Keeps` — what holds before an attempt holds at both ends.

## Main results

* `Attempt.ends_bind`, `Attempt.ends_tryCatch`, … — one rule for each way to build code.
* `Attempt.Ends.forM` — **a loop, by what holds after each part of its list.**
* `Attempt.Keeps.bind`, `Attempt.Keeps.forM`, … — what is kept by parts is kept by the
  whole.
-/

namespace EveIndustryPlanner

/-- Code that changes a state and may throw. -/
abbrev Attempt (ε σ α : Type) := ExceptT ε (StateM σ) α

namespace Attempt

variable {ε σ α β : Type}

/-- How an attempt ends, and what it leaves behind. -/
def exec (x : Attempt ε σ α) (s : σ) : Except ε α × σ := StateT.run (ExceptT.run x) s

/-- From a state an attempt ends with a value as in `Q` or throws as in `E`. -/
def Ends (x : Attempt ε σ α) (Q : α → σ → Prop) (E : ε → σ → Prop) (s : σ) : Prop :=
  match x.exec s with
  | (.ok a, s') => Q a s'
  | (.error e, s') => E e s'

variable {Q Q' : α → σ → Prop} {E E' : ε → σ → Prop} {s s' : σ}

/-! ### The ends -/

theorem Ends.of_ok {x : Attempt ε σ α} (h : x.Ends Q E s) {a : α} (hx : x.exec s = (.ok a, s')) :
    Q a s' := by
  rw [Ends, hx] at h
  exact h

theorem Ends.of_error {x : Attempt ε σ α} (h : x.Ends Q E s) {e : ε}
    (hx : x.exec s = (.error e, s')) : E e s' := by
  rw [Ends, hx] at h
  exact h

/-- What holds at both ends holds of what is left behind. -/
theorem Ends.left {x : Attempt ε σ α} {P : σ → Prop} (h : x.Ends (fun _ => P) (fun _ => P) s) :
    P (x.exec s).2 := by
  unfold Ends at h
  split at h
  · next a s' hx => rwa [hx]
  · next e s' hx => rwa [hx]

/-- Every attempt ends in one of the two ways. -/
theorem ends_iff {x : Attempt ε σ α} : x.Ends Q E s ↔
    (∃ a s', x.exec s = (.ok a, s') ∧ Q a s') ∨ ∃ e s', x.exec s = (.error e, s') ∧ E e s' := by
  constructor
  · intro h
    rcases hx : x.exec s with ⟨r, s'⟩
    cases r with
    | ok a => exact Or.inl ⟨a, s', rfl, h.of_ok hx⟩
    | error e => exact Or.inr ⟨e, s', rfl, h.of_error hx⟩
  · rintro (⟨a, s', hx, hQ⟩ | ⟨e, s', hx, hE⟩)
    · rw [Ends, hx]
      exact hQ
    · rw [Ends, hx]
      exact hE

/-- More is known of the ends than is asked for. -/
theorem Ends.mono {x : Attempt ε σ α} (h : x.Ends Q E s) (hQ : ∀ a s', Q a s' → Q' a s')
    (hE : ∀ e s', E e s' → E' e s') : x.Ends Q' E' s := by
  rcases ends_iff.mp h with ⟨a, s', hx, ha⟩ | ⟨e, s', hx, he⟩
  · exact ends_iff.mpr (Or.inl ⟨a, s', hx, hQ a s' ha⟩)
  · exact ends_iff.mpr (Or.inr ⟨e, s', hx, hE e s' he⟩)

/-- Two things are known of the ends. -/
theorem Ends.and {x : Attempt ε σ α} (h : x.Ends Q E s) (h' : x.Ends Q' E' s) :
    x.Ends (fun a s => Q a s ∧ Q' a s) (fun e s => E e s ∧ E' e s) s := by
  rcases ends_iff.mp h with ⟨a, s', hx, ha⟩ | ⟨e, s', hx, he⟩
  · exact ends_iff.mpr (Or.inl ⟨a, s', hx, ha, h'.of_ok hx⟩)
  · exact ends_iff.mpr (Or.inr ⟨e, s', hx, he, h'.of_error hx⟩)

/-! ### Ways to build code -/

@[simp] theorem ends_pure {a : α} : (pure a : Attempt ε σ α).Ends Q E s ↔ Q a s := Iff.rfl

@[simp] theorem ends_throw {e : ε} : (throw e : Attempt ε σ α).Ends Q E s ↔ E e s := Iff.rfl

@[simp] theorem ends_get {R : σ → σ → Prop} : (get : Attempt ε σ σ).Ends R E s ↔ R s s := Iff.rfl

@[simp] theorem ends_set {R : PUnit → σ → Prop} :
    (set s' : Attempt ε σ PUnit).Ends R E s ↔ R ⟨⟩ s' := Iff.rfl

/-- What comes after is asked for at the end of what comes before. -/
@[simp] theorem ends_bind {x : Attempt ε σ β} {f : β → Attempt ε σ α} :
    (x >>= f).Ends Q E s ↔ x.Ends (fun b s' => (f b).Ends Q E s') E s := by
  have hbind : (x >>= f).exec s = match x.exec s with
      | (.ok b, s') => (f b).exec s'
      | (.error e, s') => (.error e, s') := by
    change (ExceptT.run x >>= ExceptT.bindCont f).run s = _
    rw [StateT.run_bind, exec]
    obtain ⟨r, s'⟩ := StateT.run (ExceptT.run x) s
    cases r <;> rfl
  rw [Ends, hbind, Ends]
  obtain ⟨r, s'⟩ := x.exec s
  cases r <;> exact Iff.rfl

/-- What a handler does when an attempt throws. -/
@[simp] theorem ends_tryCatch {x : Attempt ε σ α} {f : ε → Attempt ε σ α} :
    (tryCatch x f).Ends Q E s ↔ x.Ends Q (fun e s' => (f e).Ends Q E s') s := by
  have htry : (tryCatch x f).exec s = match x.exec s with
      | (.ok a, s') => (.ok a, s')
      | (.error e, s') => (f e).exec s' := by
    change ((ExceptT.run x : StateM σ (Except ε α)) >>= fun r => match r with
      | .ok a => pure (.ok a)
      | .error e => ExceptT.run (f e)).run s = _
    rw [StateT.run_bind, exec]
    obtain ⟨r, s'⟩ := StateT.run (ExceptT.run x) s
    cases r <;> rfl
  rw [Ends, htry, Ends]
  obtain ⟨r, s'⟩ := x.exec s
  cases r <;> exact Iff.rfl

/-- **A loop keeps what each of its rounds adds to**: `I done` is what holds when the
elements `done` were passed. -/
theorem Ends.forM {I : List β → σ → Prop} {f : β → Attempt ε σ PUnit} {l : List β} (h : I [] s)
    (hstep : ∀ done b rest s, l = done ++ b :: rest → I done s →
      (f b).Ends (fun _ => I (done ++ [b])) E s) : (l.forM f).Ends (fun _ => I l) E s := by
  suffices hloop : ∀ (rest done : List β) (s : σ), l = done ++ rest → I done s →
      (rest.forM f).Ends (fun _ => I l) E s from hloop l [] s rfl h
  intro rest
  induction rest with
  | nil =>
    intro done s hl hI
    rw [List.append_nil] at hl
    subst hl
    exact hI
  | cons b rest ih =>
    intro done s hl hI
    change (f b >>= fun _ => rest.forM f).Ends _ _ _
    rw [ends_bind]
    refine (hstep done b rest s hl hI).mono (fun _ s' hI' => ?_) fun _ _ he => he
    exact ih (done ++ [b]) s' (by rw [hl, List.append_assoc, List.singleton_append]) hI'

/-! ### What code keeps -/

/-- Code keeps what holds before it, however it ends. -/
def Keeps (P : σ → Prop) (x : Attempt ε σ α) : Prop := ∀ s, P s → x.Ends (fun _ => P) (fun _ => P) s

variable {P : σ → Prop}

theorem keeps_pure {a : α} : Keeps P (pure a : Attempt ε σ α) := fun _ h => h

theorem keeps_throw {e : ε} : Keeps P (throw e : Attempt ε σ α) := fun _ h => h

theorem keeps_get : Keeps P (get : Attempt ε σ σ) := fun _ h => h

theorem Keeps.bind {x : Attempt ε σ β} {f : β → Attempt ε σ α} (hx : Keeps P x)
    (hf : ∀ b, Keeps P (f b)) : Keeps P (x >>= f) := by
  intro s hs
  rw [ends_bind]
  exact (hx s hs).mono (fun b s' => hf b s') fun _ _ he => he

theorem Keeps.forM {f : β → Attempt ε σ PUnit} (hf : ∀ b, Keeps P (f b)) (l : List β) :
    Keeps P (l.forM f) := fun _ hs =>
  Ends.forM (I := fun _ => P) hs fun _ b _ s _ => hf b s

theorem Keeps.tryCatch {x : Attempt ε σ α} {f : ε → Attempt ε σ α} (hx : Keeps P x)
    (hf : ∀ e, Keeps P (f e)) : Keeps P (tryCatch x f) := by
  intro s hs
  rw [ends_tryCatch]
  exact (hx s hs).mono (fun _ _ h => h) fun e s' => hf e s'

end Attempt

end EveIndustryPlanner
