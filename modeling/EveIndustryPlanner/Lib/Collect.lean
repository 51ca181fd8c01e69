import EveIndustryPlanner.Fault

/-!
# Lists collected by a loop

A loop that appends something to a list for each element it visits, and that
may fail on the way.

## Main definitions

* `collectM` — the list such a loop collects.

## Main results

* `collectM_map` — what is collected element by element.
* `collectM_eq_error` — **a loop fails with what fails first.**
* `mapM_eq_ok_iff` — a loop that makes one thing of each element.
* `flatMap_eq_iff` — two loops that collect the same.
* `nodup_flatMap_of_key` — **what is collected is distinct if it tells the elements apart.**
-/

namespace EveIndustryPlanner

section Collect

variable {ε α β γ : Type} {f : α → Except ε (List β)}

/-- What a loop over a list collects. -/
def collectM (f : α → Except ε (List β)) : List α → Except ε (List β)
  | [] => .ok []
  | a :: l => do
    let bs ← f a
    let rest ← collectM f l
    return bs ++ rest

@[simp] theorem collectM_nil : collectM f [] = .ok [] := rfl

theorem collectM_cons_ok {a : α} {l : List α} {bs : List β} (h : f a = .ok bs) :
    collectM f (a :: l) = (collectM f l).map (bs ++ ·) := by
  rw [collectM, h]
  cases collectM f l with
  | error e => rfl
  | ok rest => rfl

theorem collectM_cons_error {a : α} {l : List α} {e : ε} (h : f a = .error e) :
    collectM f (a :: l) = .error e := by
  rw [collectM, h]
  rfl

/-- A loop that came to its end passed every element. -/
theorem collectM_cons_eq_ok {a : α} {l : List α} {cs : List β}
    (h : collectM f (a :: l) = .ok cs) :
    ∃ bs rest, f a = .ok bs ∧ collectM f l = .ok rest ∧ cs = bs ++ rest := by
  obtain ⟨bs, hbs, h⟩ := bind_eq_ok h
  obtain ⟨rest, hrest, h⟩ := bind_eq_ok h
  exact ⟨bs, rest, hbs, hrest, (Except.ok.inj h).symm⟩

theorem collectM_ok_of_mem {l : List α} {cs : List β} (h : collectM f l = .ok cs) {a : α}
    (ha : a ∈ l) : ∃ bs, f a = .ok bs := by
  induction l generalizing cs with
  | nil => exact absurd ha List.not_mem_nil
  | cons a' l ih =>
    obtain ⟨bs, rest, hbs, hrest, -⟩ := collectM_cons_eq_ok h
    rcases List.mem_cons.mp ha with rfl | ha
    · exact ⟨bs, hbs⟩
    · exact ih hrest ha

theorem exists_collectM_ok {l : List α} (h : ∀ a ∈ l, ∃ bs, f a = .ok bs) :
    ∃ cs, collectM f l = .ok cs := by
  induction l with
  | nil => exact ⟨[], rfl⟩
  | cons a l ih =>
    obtain ⟨bs, hbs⟩ := h a List.mem_cons_self
    obtain ⟨cs, hcs⟩ := ih fun b hb => h b (List.mem_cons_of_mem _ hb)
    exact ⟨bs ++ cs, by rw [collectM_cons_ok hbs, hcs]; rfl⟩

/-- What is collected element by element. -/
theorem collectM_map {p : β → γ} {g : α → List γ} {l : List α} {cs : List β}
    (hf : ∀ a ∈ l, ∀ bs, f a = .ok bs → bs.map p = g a) (h : collectM f l = .ok cs) :
    cs.map p = l.flatMap g := by
  induction l generalizing cs with
  | nil =>
    obtain rfl := Except.ok.inj h
    rfl
  | cons a l ih =>
    obtain ⟨bs, rest, hbs, hrest, rfl⟩ := collectM_cons_eq_ok h
    rw [List.map_append, List.flatMap_cons, hf a List.mem_cons_self bs hbs,
      ih (fun b hb => hf b (List.mem_cons_of_mem _ hb)) hrest]

/-- Elements for which nothing is collected may be left out. -/
theorem collectM_filter {p : α → Bool} (hf : ∀ a, p a = false → f a = .ok []) (l : List α) :
    collectM f (l.filter p) = collectM f l := by
  induction l with
  | nil => rfl
  | cons a l ih =>
    cases hp : p a with
    | true =>
      rw [List.filter_cons_of_pos hp, collectM, collectM, ih]
    | false =>
      rw [List.filter_cons_of_neg (by rw [hp]; exact Bool.false_ne_true), ih,
        collectM_cons_ok (hf a hp)]
      cases collectM f l with
      | error e => rfl
      | ok rest => rfl

/-- What is collected is collected for some element. -/
theorem exists_of_mem_collectM {l : List α} {cs : List β} (h : collectM f l = .ok cs) {b : β}
    (hb : b ∈ cs) : ∃ a ∈ l, ∃ bs, f a = .ok bs ∧ b ∈ bs := by
  induction l generalizing cs with
  | nil =>
    obtain rfl := Except.ok.inj h
    exact absurd hb List.not_mem_nil
  | cons a l ih =>
    obtain ⟨bs, rest, hbs, hrest, rfl⟩ := collectM_cons_eq_ok h
    rcases List.mem_append.mp hb with hb | hb
    · exact ⟨a, List.mem_cons_self, bs, hbs, hb⟩
    · obtain ⟨a', ha', hmem⟩ := ih hrest hb
      exact ⟨a', List.mem_cons_of_mem a ha', hmem⟩

/-- **A loop fails with what fails first.** -/
theorem collectM_eq_error {l : List α} {e : ε} :
    collectM f l = .error e ↔ ∃ before a after, l = before ++ a :: after ∧
      (∀ b ∈ before, ∃ bs, f b = .ok bs) ∧ f a = .error e := by
  induction l with
  | nil => simp
  | cons a l ih =>
    -- the loop stops at `a`, or `a` joins what lies before the failure
    cases ha : f a with
    | error e' =>
      rw [collectM_cons_error ha]
      constructor
      · intro he
        obtain rfl := Except.error.inj he
        exact ⟨[], a, l, rfl, by simp, ha⟩
      · rintro ⟨before, b, after, hl, hbefore, hb⟩
        cases before with
        | nil =>
          obtain ⟨rfl, -⟩ := List.cons.inj hl
          rw [← ha, hb]
        | cons c before =>
          obtain ⟨rfl, -⟩ := List.cons.inj hl
          obtain ⟨bs, hbs⟩ := hbefore a List.mem_cons_self
          rw [ha] at hbs
          exact absurd hbs (by simp)
    | ok bs =>
      have hstep : collectM f (a :: l) = .error e ↔ collectM f l = .error e := by
        rw [collectM_cons_ok ha]
        cases collectM f l with
        | error e' => simp [Except.map]
        | ok rest => simp [Except.map]
      rw [hstep, ih]
      constructor
      · rintro ⟨before, b, after, rfl, hbefore, hb⟩
        refine ⟨a :: before, b, after, rfl, fun c hc => ?_, hb⟩
        rcases List.mem_cons.mp hc with rfl | hc
        · exact ⟨bs, ha⟩
        · exact hbefore c hc
      · rintro ⟨before, b, after, hl, hbefore, hb⟩
        cases before with
        | nil =>
          obtain ⟨rfl, -⟩ := List.cons.inj hl
          rw [ha] at hb
          exact absurd hb (by simp)
        | cons c before =>
          obtain ⟨-, hl⟩ := List.cons.inj hl
          exact ⟨before, b, after, hl, fun c hc => hbefore c (List.mem_cons_of_mem _ hc), hb⟩

end Collect

/-- What a loop makes of each element, one for one. -/
theorem mapM_eq_ok_iff {ε α β : Type} {f : α → Except ε β} {l : List α} {bs : List β} :
    l.mapM f = .ok bs ↔ List.Forall₂ (fun a b => f a = .ok b) l bs := by
  induction l generalizing bs with
  | nil => cases bs <;> simp [pure, Except.pure]
  | cons a l ih =>
    rw [List.mapM_cons]
    constructor
    · intro h
      obtain ⟨b, hb, h⟩ := bind_eq_ok h
      obtain ⟨bs', hbs, h⟩ := bind_eq_ok h
      obtain rfl := Except.ok.inj h
      exact .cons hb (ih.mp hbs)
    · intro h
      cases h with
      | cons hb hbs => rw [hb, ok_bind, ih.mpr hbs, ok_bind]; rfl

/-- Every element of one list is related to one of the other. -/
theorem exists_of_forall₂ {α β : Type*} {R : α → β → Prop} {l : List α} {l' : List β}
    (h : List.Forall₂ R l l') {a : α} (ha : a ∈ l) : ∃ b ∈ l', R a b := by
  induction h with
  | nil => exact absurd ha (by simp)
  | cons hab _ ih =>
    rcases List.mem_cons.mp ha with rfl | ha
    · exact ⟨_, List.mem_cons_self, hab⟩
    · obtain ⟨b, hb, hrel⟩ := ih ha
      exact ⟨b, List.mem_cons_of_mem _ hb, hrel⟩

/-- Where related elements have related keys and one list has different keys, so
has the other. -/
theorem nodup_map_of_forall₂ {α β κ κ' : Type*} {R : α → β → Prop} {l : List α} {l' : List β}
    {f : α → κ} {g : β → κ'} (h : List.Forall₂ R l l')
    (hkey : ∀ a b a' b', R a b → R a' b' → f a = f a' → g b = g b')
    (hnodup : (l'.map g).Nodup) : (l.map f).Nodup := by
  induction h with
  | nil => exact List.nodup_nil
  | @cons a b l l' hab hl ih =>
    rw [List.map_cons, List.nodup_cons] at hnodup ⊢
    refine ⟨fun hmem => ?_, ih hnodup.2⟩
    obtain ⟨a', ha', heq⟩ := List.mem_map.mp hmem
    obtain ⟨b', hb', hrel⟩ := exists_of_forall₂ hl ha'
    rw [hkey a b a' b' hab hrel heq.symm] at hnodup
    exact hnodup.1 (List.mem_map_of_mem hb')

/-- What such a loop makes of an element is in its result. -/
theorem exists_mem_of_mapM_ok {ε α β : Type} {f : α → Except ε β} {l : List α} {bs : List β}
    (h : l.mapM f = .ok bs) {a : α} (ha : a ∈ l) : ∃ b ∈ bs, f a = .ok b :=
  exists_of_forall₂ (mapM_eq_ok_iff.mp h) ha

/-- Two ways to take something out of each element of a list agree on the whole
exactly if they agree on each element, where one takes no more than the other. -/
theorem flatMap_eq_iff {α β : Type*} {f g : α → List β} (l : List α)
    (h : ∀ a ∈ l, (g a).Sublist (f a)) :
    l.flatMap f = l.flatMap g ↔ ∀ a ∈ l, f a = g a := by
  induction l with
  | nil => simp
  | cons a l ih =>
    have hl : ∀ b ∈ l, (g b).Sublist (f b) := fun b hb => h b (List.mem_cons_of_mem _ hb)
    have hrest : (l.flatMap g).Sublist (l.flatMap f) := List.Sublist.flatMap_right l hl
    have ha := h a List.mem_cons_self
    rw [List.flatMap_cons, List.flatMap_cons, List.forall_mem_cons, ← ih hl]
    constructor
    · intro heq
      -- neither half takes more on the right, so the lengths agree half by half
      have hlength := congrArg List.length heq
      rw [List.length_append, List.length_append] at hlength
      have := ha.length_le
      have := hrest.length_le
      exact ⟨(ha.eq_of_length (by omega)).symm, (hrest.eq_of_length (by omega)).symm⟩
    · rintro ⟨h₁, h₂⟩
      rw [h₁, h₂]

/-- What is collected is distinct if each element brings distinct things, and what
two elements bring in common shows that they have the same key. -/
theorem nodup_flatMap_of_key {α β κ : Type*} {f : α → List β} (key : α → κ) {l : List α}
    (hl : (l.map key).Nodup) (hf : ∀ a ∈ l, (f a).Nodup)
    (hkey : ∀ a ∈ l, ∀ a' ∈ l, ∀ b ∈ f a, b ∈ f a' → key a = key a') :
    (l.flatMap f).Nodup := by
  rw [List.nodup_flatMap]
  refine ⟨hf, ?_⟩
  have hpairwise : l.Pairwise fun a a' => key a ≠ key a' := List.pairwise_map.mp hl
  refine hpairwise.imp_of_mem fun {a a'} ha ha' hne b hb hb' => ?_
  exact hne (hkey a ha a' ha' b hb hb')

end EveIndustryPlanner
