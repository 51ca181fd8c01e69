import Mathlib

/-!
# Multimaps

A multimap is kept in the order of its keys; an entry is put behind all entries
of its key.

## Main definitions

* `Multimap` — entries in the order of their keys.
* `Multimap.emplace`, `Multimap.equalRange` — put in an entry, and the values of a key.

## Main results

* `perm_flatMap_filter` — taking everything out key by key loses nothing.
* `Multimap.equalRange_eq_filter` — the range of a key is all there is of it.
* `Multimap.equalRange_emplace` — **the values of a key come out in the order they
  were put in.**
-/

namespace EveIndustryPlanner

/-- Entries in the order of their keys. -/
structure Multimap (K V : Type*) [LinearOrder K] where
  entries : List (K × V)
  sorted : entries.Pairwise fun e e' => e.1 ≤ e'.1

namespace Multimap

variable {K V : Type*} [LinearOrder K]

/-- No entries. -/
def empty : Multimap K V := ⟨[], .nil⟩

/-- An entry behind those whose keys are not above its own. -/
theorem pairwise_orderedInsert {entry : K × V} {entries : List (K × V)}
    (h : entries.Pairwise fun e e' => e.1 ≤ e'.1) :
    (entries.orderedInsert (fun e e' => e.1 < e'.1) entry).Pairwise fun e e' => e.1 ≤ e'.1 := by
  induction entries with
  | nil => exact List.pairwise_singleton _ _
  | cons e entries ih =>
    obtain ⟨he, hentries⟩ := List.pairwise_cons.mp h
    rw [List.orderedInsert_cons]
    split
    · next hlt =>
      refine List.pairwise_cons.mpr ⟨List.forall_mem_cons.mpr ⟨hlt.le, fun e' he' => ?_⟩, h⟩
      exact hlt.le.trans (he e' he')
    · next hge =>
      refine List.pairwise_cons.mpr ⟨fun e' he' => ?_, ih hentries⟩
      rcases (List.mem_orderedInsert _).mp he' with rfl | he'
      · exact not_lt.mp hge
      · exact he e' he'

/-- Put in an entry. -/
def emplace (m : Multimap K V) (k : K) (v : V) : Multimap K V where
  entries := m.entries.orderedInsert (fun e e' => e.1 < e'.1) (k, v)
  sorted := pairwise_orderedInsert m.sorted

/-- The values of a key: from the first entry that is not below it to the next one
above it. -/
def equalRange (m : Multimap K V) (k : K) : List V :=
  ((m.entries.dropWhile fun e => e.1 < k).takeWhile fun e => ¬ k < e.1).map Prod.snd

/-- In the order of the keys the range of a key is all there is of it. -/
theorem equalRange_eq_filter (m : Multimap K V) (k : K) :
    m.equalRange k = (m.entries.filter fun e => e.1 = k).map Prod.snd := by
  obtain ⟨entries, hsorted⟩ := m
  rw [equalRange]
  congr 1
  induction entries with
  | nil => rfl
  | cons e entries ih =>
    obtain ⟨he, hentries⟩ := List.pairwise_cons.mp hsorted
    rcases lt_trichotomy e.1 k with hlt | heq | hgt
    · rw [List.dropWhile_cons_of_pos (by simpa using hlt),
        List.filter_cons_of_neg (by simpa using hlt.ne)]
      exact ih hentries
    · -- behind an entry of the key none is below it
      have hnone : (entries.dropWhile fun e' => e'.1 < k) = entries := by
        cases entries with
        | nil => rfl
        | cons e' entries =>
          refine List.dropWhile_cons_of_neg ?_
          simpa using heq ▸ he e' List.mem_cons_self
      rw [List.dropWhile_cons_of_neg (by simp [heq]), List.takeWhile_cons_of_pos (by simp [heq]),
        List.filter_cons_of_pos (by simpa using heq), ← ih hentries, hnone]
    · have hnone : entries.filter (fun e' => e'.1 = k) = [] := by
        refine List.filter_eq_nil_iff.mpr fun e' he' => ?_
        simpa using (hgt.trans_le (he e' he')).ne'
      rw [List.dropWhile_cons_of_neg (by simpa using hgt.le),
        List.takeWhile_cons_of_neg (by simpa using hgt),
        List.filter_cons_of_neg (by simpa using hgt.ne'), hnone]

@[simp] theorem equalRange_empty (k : K) : (empty : Multimap K V).equalRange k = [] := rfl

theorem filter_orderedInsert (k k' : K) (v : V) {entries : List (K × V)}
    (h : entries.Pairwise fun e e' => e.1 ≤ e'.1) :
    (entries.orderedInsert (fun e e' => e.1 < e'.1) (k, v)).filter (fun e => e.1 = k') =
      entries.filter (fun e => e.1 = k') ++ if k = k' then [(k, v)] else [] := by
  induction entries with
  | nil =>
    by_cases hk : k = k'
    · simp [hk]
    · simp [hk]
  | cons e entries ih =>
    obtain ⟨he, hentries⟩ := List.pairwise_cons.mp h
    rw [List.orderedInsert_cons]
    split
    · next hlt =>
      by_cases hk : k = k'
      · -- all that is behind has a key above the new one
        have hnone : (e :: entries).filter (fun e' => e'.1 = k') = [] := by
          refine List.filter_eq_nil_iff.mpr (List.forall_mem_cons.mpr ⟨?_, fun e' he' => ?_⟩)
          · simpa [hk] using (hk ▸ hlt).ne'
          · simpa [hk] using (hk ▸ hlt.trans_le (he e' he')).ne'
        rw [List.filter_cons_of_pos (by simpa using hk), hnone, if_pos hk]
        rfl
      · rw [List.filter_cons_of_neg (by simpa using hk), if_neg hk, List.append_nil]
    · rw [List.filter_cons, List.filter_cons, ih hentries]
      split
      · rfl
      · rfl

/-- **What is there of a key after an entry was put in.** -/
theorem equalRange_emplace (m : Multimap K V) (k k' : K) (v : V) :
    (m.emplace k v).equalRange k' = m.equalRange k' ++ if k = k' then [v] else [] := by
  rw [equalRange_eq_filter, equalRange_eq_filter, emplace, filter_orderedInsert k k' v m.sorted,
    List.map_append]
  split
  · rfl
  · rfl

end Multimap

/-- What is taken out key by key is a rearrangement of what is there, if no key comes
twice and none is missing. -/
theorem perm_flatMap_filter {α κ : Type*} [DecidableEq κ] (key : α → κ) {keys : List κ}
    (hkeys : keys.Nodup) {l : List α} (h : ∀ a ∈ l, key a ∈ keys) :
    (keys.flatMap fun k => l.filter fun a => key a = k).Perm l := by
  induction keys generalizing l with
  | nil =>
    have hl : l = [] := List.eq_nil_iff_forall_not_mem.mpr fun a ha => absurd (h a ha) (by simp)
    rw [hl]
    exact .nil
  | cons k keys ih =>
    obtain ⟨hk, hkeys⟩ := List.nodup_cons.mp hkeys
    -- what is left over has one of the other keys
    have hrest := ih hkeys (l := l.filter fun a => !decide (key a = k)) fun a ha => by
      obtain ⟨ha, hne⟩ := List.mem_filter.mp ha
      exact (List.mem_cons.mp (h a ha)).resolve_left (by simpa using hne)
    have hsame : ∀ k' ∈ keys, ((l.filter fun a => !decide (key a = k)).filter fun a => key a = k') =
        l.filter fun a => key a = k' := by
      intro k' hk'
      rw [List.filter_filter]
      refine List.filter_congr fun a _ => ?_
      by_cases hka : key a = k'
      · have hne : k' ≠ k := fun e => hk (e ▸ hk')
        simp [hka, hne]
      · simp [hka]
    rw [List.flatMap_congr hsame] at hrest
    rw [List.flatMap_cons]
    exact (hrest.append_left _).trans (List.filter_append_perm _ l)

end EveIndustryPlanner
