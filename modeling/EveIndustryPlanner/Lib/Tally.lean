import Mathlib

/-!
# Counters

Amounts are added up under keys, in words that wrap around.  Some of the
counters are then added up again.

## Main definitions

* `total` — the sum of the amounts of some keys.
* `count`, `tally` — the counters, modulo a number.
* `readWhere` — the sum of the counters of some keys, modulo the same number.

## Main results

* `lookup_tally` — **what a counter holds.**
* `sum_lookup_tally_le` — **no more is read from different counters than was counted.**
* `readWhere_tally` — **all counters together hold what was counted, modulo the number.**
-/

namespace EveIndustryPlanner

variable {κ : Type*}

/-- The sum of the amounts of some keys. -/
def total (p : κ → Bool) (events : List (κ × ℕ)) : ℕ :=
  ((events.filter fun e => p e.1).map Prod.snd).sum

theorem total_cons (p : κ → Bool) (e : κ × ℕ) (events : List (κ × ℕ)) :
    total p (e :: events) = (if p e.1 then e.2 else 0) + total p events := by
  unfold total
  rw [List.filter_cons]
  split
  · rw [List.map_cons, List.sum_cons]
  · rw [zero_add]

theorem total_append (p : κ → Bool) (events events' : List (κ × ℕ)) :
    total p (events ++ events') = total p events + total p events' := by
  rw [total, List.filter_append, List.map_append, List.sum_append]
  rfl

theorem total_congr {p q : κ → Bool} {events : List (κ × ℕ)}
    (h : ∀ e ∈ events, p e.1 = q e.1) : total p events = total q events := by
  rw [total, total, List.filter_congr h]

theorem total_le {p q : κ → Bool} (h : ∀ k, p k = true → q k = true) (events : List (κ × ℕ)) :
    total p events ≤ total q events := by
  induction events with
  | nil => exact le_rfl
  | cons e events ih =>
    rw [total_cons, total_cons]
    refine Nat.add_le_add ?_ ih
    cases hp : p e.1 with
    | false => simp
    | true => simp [h e.1 hp]

variable [DecidableEq κ]

/-- Key by key, or all at once. -/
theorem sum_total (keys : Finset κ) (events : List (κ × ℕ)) :
    ∑ k ∈ keys, total (fun k' => k' = k) events = total (fun k' => k' ∈ keys) events := by
  induction events with
  | nil => exact Finset.sum_eq_zero fun k _ => rfl
  | cons e events ih =>
    simp only [total_cons, decide_eq_true_eq]
    rw [Finset.sum_add_distrib, ih, Finset.sum_ite_eq]

variable (m : ℕ)

/-- Add to the counter of a key. -/
def count (t : AList fun _ : κ => ℕ) (e : κ × ℕ) : AList fun _ : κ => ℕ :=
  t.insert e.1 (((t.lookup e.1).getD 0 + e.2) % m)

/-- Count some amounts. -/
def tally (events : List (κ × ℕ)) : AList fun _ : κ => ℕ := events.foldl (count m) ∅

/-- The sum of the counters of some keys. -/
def readWhere (p : κ → Bool) (t : AList fun _ : κ => ℕ) : ℕ :=
  t.entries.foldl (fun n e => if p e.1 then (n + e.2) % m else n) 0

variable {m}

theorem tally_snoc (events : List (κ × ℕ)) (e : κ × ℕ) :
    tally m (events ++ [e]) = count m (tally m events) e := by
  rw [tally, List.foldl_append, List.foldl_cons, List.foldl_nil, ← tally]

/-- **What a counter holds.** -/
theorem lookup_tally (events : List (κ × ℕ)) (k : κ) :
    ((tally m events).lookup k).getD 0 = total (fun k' => k' = k) events % m := by
  induction events using List.reverseRecOn with
  | nil => simp [tally, total]
  | append_singleton events e ih =>
    rw [tally_snoc, count, total_append, total_cons]
    by_cases hk : e.1 = k
    · subst hk
      simp [total, ih, Nat.mod_add_mod]
    · rw [AList.lookup_insert_ne (Ne.symm hk), ih]
      simp [total, hk]

/-- There is a counter for each key. -/
theorem mem_tally {events : List (κ × ℕ)} {k : κ} :
    k ∈ tally m events ↔ ∃ e ∈ events, e.1 = k := by
  induction events using List.reverseRecOn with
  | nil => simp [tally]
  | append_singleton events e ih =>
    rw [tally_snoc, count, AList.mem_insert, ih]
    constructor
    · rintro (rfl | ⟨e', he', hk⟩)
      · exact ⟨e, by simp, rfl⟩
      · exact ⟨e', List.mem_append_left _ he', hk⟩
    · rintro ⟨e', he', hk⟩
      rcases List.mem_append.mp he' with he' | he'
      · exact Or.inr ⟨e', he', hk⟩
      · obtain rfl := List.mem_singleton.mp he'
        exact Or.inl hk.symm

/-- **No more is read from different counters than was counted.** -/
theorem sum_lookup_tally_le {p : κ → Bool} {keys : List κ} (hnodup : keys.Nodup)
    (hp : ∀ k ∈ keys, p k = true) (events : List (κ × ℕ)) :
    (keys.map fun k => ((tally m events).lookup k).getD 0).sum ≤ total p events := by
  calc (keys.map fun k => ((tally m events).lookup k).getD 0).sum
      = ∑ k ∈ keys.toFinset, total (fun k' => k' = k) events % m := by
        simp only [lookup_tally]
        rw [List.sum_toFinset _ hnodup]
    _ ≤ ∑ k ∈ keys.toFinset, total (fun k' => k' = k) events :=
        Finset.sum_le_sum fun k _ => Nat.mod_le _ _
    _ = total (fun k' => k' ∈ keys.toFinset) events := sum_total _ events
    _ ≤ total p events := by
        refine total_le (fun k hk => hp k ?_) events
        simpa using hk

theorem readWhere_eq (p : κ → Bool) (t : AList fun _ : κ => ℕ) :
    readWhere m p t = ((t.keys.filter p).map fun k => (t.lookup k).getD 0).sum % m := by
  have hfold : ∀ (entries : List (Σ _ : κ, ℕ)) (n : ℕ), n % m = n →
      entries.foldl (fun n e => if p e.1 then (n + e.2) % m else n) n =
        (n + ((entries.filter fun e => p e.1).map Sigma.snd).sum) % m := by
    intro entries
    induction entries with
    | nil =>
      intro n hn
      simpa using hn.symm
    | cons e entries ih =>
      intro n hn
      rw [List.foldl_cons, List.filter_cons]
      cases hp : p e.1 with
      | false => simpa using ih n hn
      | true =>
        simp only [if_true, List.map_cons, List.sum_cons]
        rw [ih _ (Nat.mod_mod _ _), Nat.mod_add_mod, add_assoc]
  have hentries : (t.entries.filter fun e => p e.1).map Sigma.snd =
      (t.keys.filter p).map fun k => (t.lookup k).getD 0 := by
    rw [AList.keys, List.keys, List.filter_map, List.map_map]
    refine List.map_congr_left fun e he => ?_
    have hlookup : t.lookup e.1 = some e.2 := AList.mem_lookup_iff.mpr (List.mem_filter.mp he).1
    rw [Function.comp_apply, hlookup, Option.getD_some]
  rw [readWhere, hfold _ 0 (Nat.zero_mod m), zero_add, hentries]

/-- **All counters together hold what was counted**, modulo the number. -/
theorem readWhere_tally (p : κ → Bool) (events : List (κ × ℕ)) :
    readWhere m p (tally m events) = total p events % m := by
  have hnodup : ((tally m events).keys.filter p).Nodup := (tally m events).keys_nodup.filter _
  rw [readWhere_eq]
  simp only [lookup_tally]
  rw [← List.sum_toFinset _ hnodup, ← Finset.sum_nat_mod, sum_total]
  refine congrArg (· % m) (total_congr fun e he => ?_)
  have hkey : e.1 ∈ (tally m events).keys := AList.mem_keys.mp (mem_tally.mpr ⟨e, he, rfl⟩)
  simp [hkey]

end EveIndustryPlanner
