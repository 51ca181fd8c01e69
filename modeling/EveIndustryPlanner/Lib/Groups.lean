import Mathlib

/-!
# Neighbours with one key

A list is cut where the keys of two neighbours differ.  In a list that is sorted by the
keys the pieces are the elements of one key each.

## Main definitions

* `groups` — the pieces of a list.

## Main results

* `flatten_groups` — the pieces make up the list.
* `exists_groups` — **the pieces of a sorted list are the elements of each of its keys.**
-/

namespace EveIndustryPlanner

section Groups

variable {α κ : Type*} [LinearOrder κ] (key : α → κ)

/-- The pieces of a list whose neighbours have one key. -/
def groups : List α → List (List α)
  | [] => []
  | a :: l =>
    match groups l with
    | (b :: g) :: gs => if key a = key b then (a :: b :: g) :: gs else [a] :: (b :: g) :: gs
    | gs => [a] :: gs

variable {key}

/-- No piece is empty. -/
theorem ne_nil_of_mem_groups {l g : List α} (h : g ∈ groups key l) : g ≠ [] := by
  induction l generalizing g with
  | nil => exact absurd h (by simp [groups])
  | cons a l ih =>
    unfold groups at h
    split at h
    · next b g' gs heq =>
      split at h
      · rcases List.mem_cons.mp h with rfl | h
        · exact List.cons_ne_nil _ _
        · exact ih (heq ▸ List.mem_cons_of_mem _ h)
      · rcases List.mem_cons.mp h with rfl | h
        · exact List.cons_ne_nil _ _
        · exact ih (heq ▸ h)
    · rcases List.mem_cons.mp h with rfl | h
      · exact List.cons_ne_nil _ _
      · exact ih h

/-- The pieces make up the list. -/
theorem flatten_groups (l : List α) : (groups key l).flatten = l := by
  induction l with
  | nil => rfl
  | cons a l ih =>
    unfold groups
    split
    · next b g gs heq =>
      rw [heq] at ih
      split
      · rw [← ih]
        rfl
      · rw [← ih]
        rfl
    · rw [List.flatten_cons, ih]
      rfl

/-- An element in front changes nothing for the other keys. -/
theorem map_filter_cons {a : α} {l : List α} {ks : List κ} (h : ∀ k ∈ ks, key a ≠ k) :
    (ks.map fun k => (a :: l).filter fun b => key b = k) =
      ks.map fun k => l.filter fun b => key b = k := by
  refine List.map_congr_left fun k hk => ?_
  rw [List.filter_cons_of_neg (by simpa using h k hk)]

/-- An element with a key of its own makes up the piece of that key. -/
theorem filter_cons_eq_singleton {a : α} {l : List α} (h : ∀ b ∈ l, key a < key b) :
    ((a :: l).filter fun b => key b = key a) = [a] := by
  rw [List.filter_cons_of_pos (by simp)]
  refine congrArg (a :: ·) (List.filter_eq_nil_iff.mpr fun b hb => ?_)
  simpa using (h b hb).ne'

/-- **The pieces of a sorted list are the elements of each of its keys.** -/
theorem exists_groups {l : List α} (h : l.Pairwise fun a b => key a ≤ key b) :
    ∃ ks : List κ, ks.Pairwise (· < ·) ∧ (∀ k, k ∈ ks ↔ ∃ a ∈ l, key a = k) ∧
      groups key l = ks.map fun k => l.filter fun a => key a = k := by
  induction l with
  | nil => exact ⟨[], .nil, by simp, rfl⟩
  | cons a l ih =>
    obtain ⟨ha, hl⟩ := List.pairwise_cons.mp h
    obtain ⟨ks, hks, hmem, hgroups⟩ := ih hl
    have hle : ∀ k ∈ ks, key a ≤ k := by
      intro k hk
      obtain ⟨b, hb, rfl⟩ := (hmem k).mp hk
      exact ha b hb
    cases ks with
    | nil =>
      have hnil : l = [] := by
        have hflatten : (groups key l).flatten = l := flatten_groups l
        rw [hgroups] at hflatten
        exact hflatten.symm
      subst hnil
      refine ⟨[key a], List.pairwise_singleton _ _, fun k => by simp [eq_comm], ?_⟩
      simp [groups]
    | cons k ks =>
      obtain ⟨hk, hks'⟩ := List.pairwise_cons.mp hks
      have hne : (l.filter fun b => key b = k) ≠ [] := by
        refine ne_nil_of_mem_groups (?_ : _ ∈ groups key l)
        rw [hgroups]
        exact List.mem_map_of_mem List.mem_cons_self
      obtain ⟨b, g, hbg⟩ := List.exists_cons_of_ne_nil hne
      have hb : key b = k := by
        have hmem : b ∈ l.filter fun b => key b = k := hbg ▸ List.mem_cons_self
        simpa using (List.mem_filter.mp hmem).2
      -- the other keys are those of elements behind the first one
      have hrest : ∀ k' ∈ ks, key a ≠ k' := by
        intro k' hk'
        exact ((hle k List.mem_cons_self).trans_lt (hk k' hk')).ne
      rw [groups, hgroups, List.map_cons, hbg]
      dsimp only
      by_cases hak : key a = k
      · refine ⟨k :: ks, hks, fun k' => ?_, ?_⟩
        · rw [hmem, List.exists_mem_cons_iff]
          constructor
          · exact Or.inr
          · rintro (rfl | hk')
            · exact (hmem _).mp (hak ▸ List.mem_cons_self)
            · exact hk'
        · rw [if_pos (hak.trans hb.symm), List.map_cons, map_filter_cons hrest,
            List.filter_cons_of_pos (by simpa using hak), hbg]
      · have hlt : key a < k := lt_of_le_of_ne (hle k List.mem_cons_self) hak
        refine ⟨key a :: k :: ks, ?_, fun k' => ?_, ?_⟩
        · refine List.pairwise_cons.mpr ⟨List.forall_mem_cons.mpr ⟨hlt, fun k' hk' => ?_⟩, hks⟩
          exact hlt.trans (hk k' hk')
        · rw [List.mem_cons, hmem, List.exists_mem_cons_iff]
          exact or_congr eq_comm Iff.rfl
        · have hltc : ∀ c ∈ l, key a < key c := by
            intro c hc
            have hkc : key c ∈ k :: ks := (hmem _).mpr ⟨c, hc, rfl⟩
            rcases List.mem_cons.mp hkc with hkc | hkc
            · exact hkc ▸ hlt
            · exact hlt.trans (hk _ hkc)
          rw [if_neg (hb ▸ hak), List.map_cons, List.map_cons, map_filter_cons hrest,
            filter_cons_eq_singleton hltc, List.filter_cons_of_neg (by simpa using hak), hbg]

end Groups

end EveIndustryPlanner
