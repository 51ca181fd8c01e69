import EveIndustryPlanner.Lib.Chase

/-!
# Worklists

What is still to be looked at waits on a stack.  What is taken from it is looked at, unless
it was before or is of a kind that is not, and what it leads to is put on the stack.  To
look at something may fail.

## Main definitions

* `Worklist`, `Worklist.step` — the stack with what was looked at, and one step.
* `Worklist.Reached` — what some way leads to.

## Main results

* `Worklist.mem_visited_iff` — **what was looked at in the end is what is reached.**
* `Worklist.exists_endsAfter` — **it ends, if no more than finitely many are reached.**
* `Worklist.ends_iff` — when it ends with an empty stack.
-/

namespace EveIndustryPlanner

/-! ### Chains that stand for others -/

section Image

variable {α β : Type*} {move : α → Option α} {move' : β → Option β} {f : α → β} {P : α → Prop}

/-- What every step keeps holds of every place. -/
theorem follow_keeps (hP : ∀ a b, P a → move a = some b → P b) {n : ℕ} {a b : α} (ha : P a)
    (h : follow move n a = some b) : P b := by
  induction n generalizing a with
  | zero => exact Option.some.inj h ▸ ha
  | succ n ih =>
    obtain ⟨a', ha', h⟩ := Option.bind_eq_some_iff.mp h
    exact ih (hP a a' ha ha') h

variable (hP : ∀ a b, P a → move a = some b → P b)
  (hf : ∀ a, P a → move' (f a) = (move a).map f)

include hP hf

theorem follow_map (n : ℕ) {a : α} (ha : P a) :
    follow move' n (f a) = (follow move n a).map f := by
  induction n generalizing a with
  | zero => rfl
  | succ n ih =>
    rw [follow, hf a ha, follow]
    cases hnext : move a with
    | none => rfl
    | some b => exact ih (hP a b ha hnext)

/-- A chain ends where the one it stands for does. -/
theorem EndsAfter.map {n : ℕ} {a b : α} (ha : P a) (h : EndsAfter move n a b) :
    EndsAfter move' n (f a) (f b) := by
  refine ⟨?_, ?_⟩
  · rw [follow_map hP hf n ha, h.1, Option.map_some]
  · rw [hf b (follow_keeps hP ha h.1), h.2, Option.map_none]

/-- The chain that one stands for ends with it. -/
theorem EndsAfter.of_map {n : ℕ} {a : α} {b' : β} (ha : P a)
    (h : EndsAfter move' n (f a) b') : ∃ b, f b = b' ∧ EndsAfter move n a b := by
  obtain ⟨hfollow, hlast⟩ := h
  rw [follow_map hP hf n ha] at hfollow
  obtain ⟨b, hb, rfl⟩ := Option.map_eq_some_iff.mp hfollow
  rw [hf b (follow_keeps hP ha hb), Option.map_eq_none_iff] at hlast
  exact ⟨b, rfl, hb, hlast⟩

end Image

/-! ### Worklists -/

/-- What is to be looked at, the next one first, and what was looked at. -/
structure Worklist (α : Type*) where
  queue : List α
  visited : List α

namespace Worklist

variable {α : Type*}

section Step

variable [DecidableEq α] (next : α → Option (List α)) (stop : α → Bool)

/-- Take one from the stack; there is no step without one, and none that fails. -/
def step (w : Worklist α) : Option (Worklist α) :=
  match w.queue with
  | [] => none
  | a :: queue =>
    if stop a ∨ a ∈ w.visited then some ⟨queue, w.visited⟩
    else (next a).map fun as => ⟨as.reverse ++ queue, w.visited ++ [a]⟩

end Step

/-- At first there is one. -/
def start (root : α) : Worklist α := ⟨[root], []⟩

/-- What some way leads to, past nothing that is not looked at. -/
inductive Reached (next : α → Option (List α)) (stop : α → Bool) (root : α) : α → Prop
  | root : stop root = false → Reached next stop root root
  | next {a b : α} {as : List α} : Reached next stop root a → next a = some as → b ∈ as →
      stop b = false → Reached next stop root b

variable {next : α → Option (List α)} {stop : α → Bool} {root : α}

theorem Reached.stop_eq_false {a : α} (h : Reached next stop root a) : stop a = false := by
  cases h with
  | root h => exact h
  | next _ _ _ h => exact h

/-- Ways go on from where others lead. -/
theorem Reached.trans {a b : α} (h : Reached next stop root a) (h' : Reached next stop a b) :
    Reached next stop root b := by
  induction h' with
  | root _ => exact h
  | next _ hnext hmem hstop ih => exact ih.next hnext hmem hstop

/-- What need not be put on the stack any more. -/
def Covered (stop : α → Bool) (w : Worklist α) (a : α) : Prop :=
  stop a = true ∨ a ∈ w.visited ∨ a ∈ w.queue

/-- What holds after any number of steps. -/
structure Explores (next : α → Option (List α)) (stop : α → Bool) (root : α)
    (w : Worklist α) : Prop where
  nodup : w.visited.Nodup
  reached : ∀ a ∈ w.visited, Reached next stop root a ∧ (next a).isSome
  queued : ∀ a ∈ w.queue, stop a = true ∨ Reached next stop root a
  covered_root : Covered stop w root
  covered_next : ∀ a ∈ w.visited, ∀ as, next a = some as → ∀ b ∈ as, Covered stop w b

theorem explores_start (next : α → Option (List α)) (stop : α → Bool) (root : α) :
    Explores next stop root (start root) where
  nodup := List.nodup_nil
  reached a ha := absurd ha List.not_mem_nil
  queued a ha := by
    obtain rfl := List.mem_singleton.mp ha
    cases hstop : stop a with
    | true => exact Or.inl rfl
    | false => exact Or.inr (.root hstop)
  covered_root := Or.inr (Or.inr List.mem_cons_self)
  covered_next a ha := absurd ha List.not_mem_nil

/-- What is reached has been looked at when the stack is empty. -/
theorem Explores.mem_visited {w : Worklist α} (h : Explores next stop root w)
    (hqueue : w.queue = []) {a : α} (ha : Reached next stop root a) : a ∈ w.visited := by
  have hof : ∀ b, stop b = false → Covered stop w b → b ∈ w.visited := by
    rintro b hstop (hb | hb | hb)
    · rw [hstop] at hb
      cases hb
    · exact hb
    · rw [hqueue] at hb
      exact absurd hb List.not_mem_nil
  induction ha with
  | root hstop => exact hof root hstop h.covered_root
  | next _ hnext hmem hstop ih => exact hof _ hstop (h.covered_next _ ih _ hnext _ hmem)

/-- What is looked at no more is covered in another way. -/
theorem Explores.drop {w : Worklist α} (h : Explores next stop root w) {a : α} {queue : List α}
    (hqueue : w.queue = a :: queue) (hskip : stop a = true ∨ a ∈ w.visited) :
    Explores next stop root ⟨queue, w.visited⟩ := by
  have hcovered : ∀ b, Covered stop w b → Covered stop ⟨queue, w.visited⟩ b := by
    rintro b (hb | hb | hb)
    · exact Or.inl hb
    · exact Or.inr (Or.inl hb)
    · rw [hqueue] at hb
      rcases List.mem_cons.mp hb with rfl | hb
      · exact hskip.imp_right Or.inl
      · exact Or.inr (Or.inr hb)
  refine ⟨h.nodup, h.reached, ?_, hcovered _ h.covered_root, ?_⟩
  · intro b hb
    exact h.queued b (hqueue ▸ List.mem_cons_of_mem _ hb)
  · intro b hb bs hbs c hc
    exact hcovered c (h.covered_next b hb bs hbs c hc)

/-- What is looked at covers what it leads to. -/
theorem Explores.look {w : Worklist α} (h : Explores next stop root w) {a : α} {queue as : List α}
    (hqueue : w.queue = a :: queue) (hstop : stop a = false) (hnew : a ∉ w.visited)
    (has : next a = some as) :
    Explores next stop root ⟨as.reverse ++ queue, w.visited ++ [a]⟩ := by
  have hreached : Reached next stop root a := by
    rcases h.queued a (hqueue ▸ List.mem_cons_self) with htrue | hreached
    · rw [hstop] at htrue
      cases htrue
    · exact hreached
  have hcovered : ∀ b, Covered stop w b →
      Covered stop ⟨as.reverse ++ queue, w.visited ++ [a]⟩ b := by
    rintro b (hb | hb | hb)
    · exact Or.inl hb
    · exact Or.inr (Or.inl (List.mem_append_left _ hb))
    · rw [hqueue] at hb
      rcases List.mem_cons.mp hb with rfl | hb
      · exact Or.inr (Or.inl (List.mem_append_right _ List.mem_cons_self))
      · exact Or.inr (Or.inr (List.mem_append_right _ hb))
  refine ⟨?_, ?_, ?_, hcovered _ h.covered_root, ?_⟩
  · exact List.nodup_append.mpr ⟨h.nodup, List.nodup_singleton a, by
      rintro b hb c hc rfl
      obtain rfl := List.mem_singleton.mp hc
      exact hnew hb⟩
  · intro b hb
    rcases List.mem_append.mp hb with hb | hb
    · exact h.reached b hb
    · obtain rfl := List.mem_singleton.mp hb
      exact ⟨hreached, by rw [has]; rfl⟩
  · intro b hb
    rcases List.mem_append.mp hb with hb | hb
    · cases hstop' : stop b with
      | true => exact Or.inl rfl
      | false => exact Or.inr (hreached.next has (List.mem_reverse.mp hb) hstop')
    · exact h.queued b (hqueue ▸ List.mem_cons_of_mem _ hb)
  · intro b hb bs hbs c hc
    rcases List.mem_append.mp hb with hb | hb
    · exact hcovered c (h.covered_next b hb bs hbs c hc)
    · obtain rfl := List.mem_singleton.mp hb
      obtain rfl := Option.some.inj (has.symm.trans hbs)
      exact Or.inr (Or.inr (List.mem_append_left _ (List.mem_reverse.mpr hc)))

variable [DecidableEq α]

/-- **What one step does**: it drops what is not looked at, or looks at it. -/
theorem step_cases {w w' : Worklist α} (h : step next stop w = some w') :
    ∃ a queue, w.queue = a :: queue ∧
      ((stop a = true ∨ a ∈ w.visited) ∧ w' = ⟨queue, w.visited⟩ ∨
        ∃ as, stop a = false ∧ a ∉ w.visited ∧ next a = some as ∧
          w' = ⟨as.reverse ++ queue, w.visited ++ [a]⟩) := by
  unfold step at h
  split at h
  · exact absurd h (by simp)
  · next a queue hqueue =>
    refine ⟨a, queue, hqueue, ?_⟩
    split at h
    · next hskip => exact Or.inl ⟨hskip, (Option.some.inj h).symm⟩
    · next hlook =>
      obtain ⟨as, has, rfl⟩ := Option.map_eq_some_iff.mp h
      obtain ⟨hstop, hnew⟩ := not_or.mp hlook
      exact Or.inr ⟨as, Bool.eq_false_of_not_eq_true hstop, hnew, has, rfl⟩

/-- There is no step from an empty stack, and none that fails. -/
theorem step_eq_none {w : Worklist α} (h : step next stop w = none) :
    w.queue = [] ∨ ∃ a queue, w.queue = a :: queue ∧ stop a = false ∧ next a = none := by
  unfold step at h
  split at h
  · next hqueue => exact Or.inl hqueue
  · next a queue hqueue =>
    split at h
    · exact absurd h (by simp)
    · next hlook =>
      rw [Option.map_eq_none_iff] at h
      exact Or.inr ⟨a, queue, hqueue, Bool.eq_false_of_not_eq_true (not_or.mp hlook).1, h⟩

theorem Explores.step {w w' : Worklist α} (h : Explores next stop root w)
    (hstep : step next stop w = some w') : Explores next stop root w' := by
  obtain ⟨a, queue, hqueue, ⟨hskip, rfl⟩ | ⟨as, hstop, hnew, has, rfl⟩⟩ := step_cases hstep
  · exact h.drop hqueue hskip
  · exact h.look hqueue hstop hnew has

theorem Explores.follow {w w' : Worklist α} (h : Explores next stop root w) {n : ℕ}
    (hn : follow (Worklist.step next stop) n w = some w') : Explores next stop root w' := by
  induction n generalizing w with
  | zero =>
    obtain rfl := Option.some.inj hn
    exact h
  | succ n ih =>
    obtain ⟨w₁, hw₁, hn⟩ := Option.bind_eq_some_iff.mp hn
    exact ih (h.step hw₁) hn

/-! ### Where it ends -/

/-- **What was looked at in the end is what is reached.** -/
theorem mem_visited_iff {n : ℕ} {w : Worklist α}
    (h : EndsAfter (step next stop) n (start root) w) (hqueue : w.queue = []) {a : α} :
    a ∈ w.visited ↔ Reached next stop root a := by
  have hexplores := (explores_start next stop root).follow h.1
  exact ⟨fun ha => (hexplores.reached a ha).1, hexplores.mem_visited hqueue⟩

/-- Where it ends with something on the stack, what is reached fails. -/
theorem exists_next_eq_none {n : ℕ} {w : Worklist α}
    (h : EndsAfter (step next stop) n (start root) w) (hqueue : w.queue ≠ []) :
    ∃ a, Reached next stop root a ∧ next a = none := by
  have hexplores := (explores_start next stop root).follow h.1
  rcases step_eq_none h.2 with hnil | ⟨a, queue, hcons, hstop, hnone⟩
  · exact absurd hnil hqueue
  · rcases hexplores.queued a (hcons ▸ List.mem_cons_self) with htrue | hreached
    · rw [hstop] at htrue
      cases htrue
    · exact ⟨a, hreached, hnone⟩

theorem Explores.exists_endsAfter (hfinite : {a | Reached next stop root a}.Finite)
    {w : Worklist α} (h : Explores next stop root w) :
    ∃ n w', EndsAfter (Worklist.step next stop) n w w' := by
  -- every step looks at something new, or leaves less on the stack
  obtain ⟨m, hm⟩ : ∃ m, m = hfinite.toFinset.card - w.visited.length := ⟨_, rfl⟩
  obtain ⟨k, hk⟩ : ∃ k, k = w.queue.length := ⟨_, rfl⟩
  induction m using Nat.strong_induction_on generalizing w k with
  | h m ihm =>
    induction k using Nat.strong_induction_on generalizing w with
    | h k ihk =>
      cases hstep : Worklist.step next stop w with
      | none => exact ⟨0, w, rfl, hstep⟩
      | some w₁ =>
        have h₁ := h.step hstep
        have hof : (∃ n w', EndsAfter (Worklist.step next stop) n w₁ w') →
            ∃ n w', EndsAfter (Worklist.step next stop) n w w' := by
          rintro ⟨n, w', hfollow, hlast⟩
          exact ⟨n + 1, w', by rw [follow_succ_of_some hstep, hfollow], hlast⟩
        apply hof
        obtain ⟨a, queue, hqueue, ⟨-, rfl⟩ | ⟨as, -, -, -, rfl⟩⟩ := step_cases hstep
        · refine ihk queue.length ?_ h₁ hm rfl
          rw [hk, hqueue, List.length_cons]
          exact Nat.lt_succ_self _
        · have hle : (w.visited ++ [a]).length ≤ hfinite.toFinset.card := by
            rw [← List.toFinset_card_of_nodup h₁.nodup]
            refine Finset.card_le_card fun b hb => ?_
            rw [Set.Finite.mem_toFinset]
            exact (h₁.reached b (List.mem_toFinset.mp hb)).1
          rw [List.length_append, List.length_singleton] at hle
          refine ihm _ ?_ h₁ rfl _ rfl
          rw [List.length_append, List.length_singleton]
          omega

/-- **It ends, if no more than finitely many are reached.** -/
theorem exists_endsAfter (hfinite : {a | Reached next stop root a}.Finite) :
    ∃ n w, EndsAfter (step next stop) n (start root) w :=
  (explores_start next stop root).exists_endsAfter hfinite

/-- **It ends with an empty stack just if finitely many are reached and none of them
fails.** -/
theorem ends_iff : (∃ n w, EndsAfter (step next stop) n (start root) w ∧ w.queue = []) ↔
    {a | Reached next stop root a}.Finite ∧ ∀ a, Reached next stop root a → (next a).isSome := by
  constructor
  · rintro ⟨n, w, h, hqueue⟩
    have hvisited : ∀ a, a ∈ w.visited ↔ Reached next stop root a :=
      fun a => mem_visited_iff h hqueue
    refine ⟨w.visited.finite_toSet.subset fun a ha => (hvisited a).mpr ha, fun a ha => ?_⟩
    exact (((explores_start next stop root).follow h.1).reached a ((hvisited a).mpr ha)).2
  · rintro ⟨hfinite, hsome⟩
    obtain ⟨n, w, h⟩ := exists_endsAfter hfinite
    refine ⟨n, w, h, ?_⟩
    by_contra hqueue
    obtain ⟨a, ha, hnone⟩ := exists_next_eq_none h hqueue
    have := hsome a ha
    rw [hnone] at this
    cases this

end Worklist

end EveIndustryPlanner
