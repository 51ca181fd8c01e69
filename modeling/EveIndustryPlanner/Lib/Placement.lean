import Mathlib

/-!
# Lists that are filled by position

Values are put at positions of a list that grows as far as needed; the positions
in between hold a blank.  Without the blanks the list has the values in the order
of their positions, whatever the order in which they were put there.

## Main definitions

* `extendTo`, `place`, `placeAll` — filling a list.
* `compact` — a list without its blanks.

## Main results

* `getElem?_placeAll_iff` — where the values are.
* `compact_placeAll` — **without blanks the values are in the order of their positions.**
-/

namespace EveIndustryPlanner

section Placement

variable {α : Type*} (blank : α)

/-- A list with blanks up to a length. -/
def extendTo (l : List α) (n : ℕ) : List α := l ++ List.replicate (n - l.length) blank

/-- A list with a value at a position. -/
def place (l : List α) (e : ℕ × α) : List α := (extendTo blank l (e.1 + 1)).set e.1 e.2

/-- A list with values at their positions. -/
def placeAll (es : List (ℕ × α)) : List α := es.foldl (place blank) []

theorem length_extendTo (l : List α) (n : ℕ) : (extendTo blank l n).length = max l.length n := by
  rw [extendTo, List.length_append, List.length_replicate]
  omega

theorem extendTo_eq_self {l : List α} {n : ℕ} (h : n ≤ l.length) : extendTo blank l n = l := by
  rw [extendTo, Nat.sub_eq_zero_of_le h, List.replicate_zero, List.append_nil]

theorem placeAll_snoc (es : List (ℕ × α)) (e : ℕ × α) :
    placeAll blank (es ++ [e]) = place blank (placeAll blank es) e := List.foldl_concat ..

variable {blank}

/-- Besides blanks a longer list holds nothing new. -/
theorem getElem?_extendTo_iff {l : List α} {n k : ℕ} {a : α} (ha : a ≠ blank) :
    (extendTo blank l n)[k]? = some a ↔ l[k]? = some a := by
  by_cases hk : k < l.length
  · rw [extendTo, List.getElem?_append_left hk]
  · rw [extendTo, List.getElem?_append_right (not_lt.mp hk), List.getElem?_eq_none (not_lt.mp hk)]
    constructor
    · intro h
      exact absurd (List.eq_of_mem_replicate (List.mem_of_getElem? h)) ha
    · exact fun h => absurd h (by simp)

/-- Where the values are. -/
theorem getElem?_placeAll_iff {es : List (ℕ × α)} (h : (es.map Prod.fst).Nodup) {k : ℕ} {a : α}
    (ha : a ≠ blank) : (placeAll blank es)[k]? = some a ↔ (k, a) ∈ es := by
  induction es using List.reverseRecOn with
  | nil => simp [placeAll]
  | append_singleton es e ih =>
    rw [List.map_append, List.map_singleton, List.nodup_append] at h
    obtain ⟨hnodup, -, hnew⟩ := h
    have hlt : e.1 < (extendTo blank (placeAll blank es) (e.1 + 1)).length := by
      rw [length_extendTo]
      omega
    rw [placeAll_snoc, place, List.mem_append, List.mem_singleton]
    by_cases hk : e.1 = k
    · subst hk
      rw [List.getElem?_set_self hlt]
      constructor
      · intro he
        exact Or.inr (Prod.ext rfl (Option.some.inj he).symm)
      · rintro (hmem | he)
        · have hold : e.1 ∈ es.map Prod.fst := List.mem_map.mpr ⟨_, hmem, rfl⟩
          exact absurd rfl (hnew e.1 hold e.1 (List.mem_singleton.mpr rfl))
        · rw [← he]
    · rw [List.getElem?_set_ne hk, getElem?_extendTo_iff ha, ih hnodup]
      constructor
      · exact Or.inl
      · rintro (hmem | he)
        · exact hmem
        · exact absurd (congrArg Prod.fst he).symm hk

variable [DecidableEq α]

variable (blank) in
/-- A list without its blanks. -/
def compact (l : List α) : List α := l.filter fun a => a ≠ blank

theorem compact_extendTo (l : List α) (n : ℕ) :
    compact blank (extendTo blank l n) = compact blank l := by
  simp [compact, extendTo]

/-- Lists whose values are at the same positions agree without their blanks. -/
theorem compact_map_eq {es es' : List (ℕ × α)} (h : es.Pairwise fun e e' => e.1 < e'.1)
    (h' : es'.Pairwise fun e e' => e.1 < e'.1)
    (hmem : ∀ k a, a ≠ blank → ((k, a) ∈ es ↔ (k, a) ∈ es')) :
    compact blank (es.map Prod.snd) = compact blank (es'.map Prod.snd) := by
  have hfilter : ∀ es : List (ℕ × α), compact blank (es.map Prod.snd) =
      (es.filter fun e => e.2 ≠ blank).map Prod.snd := fun es => List.filter_map ..
  have hnodup : ∀ {es : List (ℕ × α)}, (es.Pairwise fun e e' => e.1 < e'.1) →
      (es.filter fun e => e.2 ≠ blank).Nodup := by
    intro es hes
    exact (hes.imp fun hlt heq => absurd (congrArg Prod.fst heq) hlt.ne).filter _
  rw [hfilter, hfilter]
  congr 1
  refine List.Perm.eq_of_pairwise (fun e e' _ _ hlt hlt' => absurd hlt' (Nat.lt_asymm hlt))
    (h.filter _) (h'.filter _) ((List.perm_ext_iff_of_nodup (hnodup h) (hnodup h')).mpr ?_)
  rintro ⟨k, a⟩
  simp only [List.mem_filter, decide_eq_true_eq]
  exact and_congr_left fun ha => hmem k a ha

/-- Pairs of positions and values in the order of the positions. -/
def sortedByPosition (es : List (ℕ × α)) : List (ℕ × α) := es.mergeSort fun e e' => e.1 ≤ e'.1

omit [DecidableEq α] in
theorem perm_sortedByPosition (es : List (ℕ × α)) : (sortedByPosition es).Perm es :=
  List.mergeSort_perm ..

omit [DecidableEq α] in
theorem pairwise_sortedByPosition {es : List (ℕ × α)} (h : (es.map Prod.fst).Nodup) :
    (sortedByPosition es).Pairwise fun e e' => e.1 < e'.1 := by
  have hle : (sortedByPosition es).Pairwise fun e e' => e.1 ≤ e'.1 := by
    have htrans : ∀ a b c : ℕ × α, decide (a.1 ≤ b.1) = true → decide (b.1 ≤ c.1) = true →
        decide (a.1 ≤ c.1) = true := by
      intro a b c hab hbc
      exact decide_eq_true ((of_decide_eq_true hab).trans (of_decide_eq_true hbc))
    have htotal : ∀ a b : ℕ × α, (decide (a.1 ≤ b.1) || decide (b.1 ≤ a.1)) = true := by
      intro a b
      simpa using Nat.le_total a.1 b.1
    exact (List.pairwise_mergeSort htrans htotal es).imp of_decide_eq_true
  have hne : (sortedByPosition es).Pairwise fun e e' => e.1 ≠ e'.1 :=
    List.pairwise_map.mp (((perm_sortedByPosition es).map Prod.fst).nodup_iff.mpr h)
  exact (hle.and hne).imp fun hpair => lt_of_le_of_ne hpair.1 hpair.2

/-- **Without blanks the values are in the order of their positions.** -/
theorem compact_placeAll {es : List (ℕ × α)} (h : (es.map Prod.fst).Nodup) :
    compact blank (placeAll blank es) = compact blank ((sortedByPosition es).map Prod.snd) := by
  have hvalues : ((placeAll blank es).zipIdx.map Prod.swap).map Prod.snd = placeAll blank es := by
    rw [List.map_map]
    exact List.zipIdx_map_fst ..
  have hpositions : ((placeAll blank es).zipIdx.map Prod.swap).Pairwise fun e e' => e.1 < e'.1 := by
    rw [List.pairwise_map]
    refine List.pairwise_map.mp (?_ : ((placeAll blank es).zipIdx.map Prod.snd).Pairwise (· < ·))
    rw [List.zipIdx_map_snd]
    exact List.pairwise_lt_range'
  conv_lhs => rw [← hvalues]
  apply compact_map_eq hpositions (pairwise_sortedByPosition h)
  intro k a ha
  rw [(perm_sortedByPosition es).mem_iff, ← getElem?_placeAll_iff h ha]
  simp [List.mem_zipIdx_iff_getElem?]

end Placement

end EveIndustryPlanner
