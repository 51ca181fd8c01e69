import EveIndustryPlanner.Lib.SortedDiff
import EveIndustryPlanner.Pricing.Reader

/-!
# Pending changes

A reader may hold orders that are to be inserted and ids that are to be deleted.
`finalize` merges them: it walks over the active orders, puts in front of each
the inserted ones up to its id, and leaves out those without volume.  What is
inserted behind the last active order is never reached by that walk, and the
guards in front of it let nothing through at all.

## Main definitions

* `OrderReader.Mergeable` — sorted lists without a common id.
* `OrderReader.Merged` — what a merge should leave.

## Main results

* `finalizeMerge_merged_iff` — **behind the guards the walk merges exactly what
  lies in front of the last active order.**
* `finalize_not_merged` — no reader is merged by `finalize`.
-/

namespace EveIndustryPlanner
namespace Pricing
namespace OrderReader

/-- Sorted lists, and no id that is both active and inserted. -/
structure Mergeable (r : OrderReader) : Prop where
  active : StrictlySorted Order.id r.activeOrders
  inserted : StrictlySorted Order.id r.inserted
  deleted : r.deleted.Pairwise (· ≤ ·)
  disjoint : ∀ a ∈ r.activeOrders, ∀ b ∈ r.inserted, a.id ≠ b.id

/-- `r'` is `r` with its pending changes merged. -/
structure Merged (r r' : OrderReader) : Prop where
  deleted : r'.deleted = []
  inserted : r'.inserted = []
  sorted : StrictlySorted Order.id r'.activeOrders
  mem : ∀ o, o ∈ r'.activeOrders ↔ o ∈ r.activeOrders ∧ o.volume ≠ 0 ∨ o ∈ r.inserted

/-! ### The walk -/

/-- The list the walk makes. -/
def merged (snapshot inserted : List Order) : List Order := (finalizeLoop snapshot inserted []).2

theorem finalizeLoop_eq (snapshot inserted acc : List Order) :
    finalizeLoop snapshot inserted acc =
      ((finalizeLoop snapshot inserted []).1, acc ++ merged snapshot inserted) := by
  induction snapshot generalizing inserted acc with
  | nil => simp [merged, finalizeLoop]
  | cons o snapshot ih =>
    unfold merged
    simp only [finalizeLoop]
    split
    · rw [ih, ih _ ([] ++ _)]
      simp
    · rw [ih, ih _ ([] ++ _ ++ _)]
      simp

theorem merged_cons (o : Order) (snapshot inserted : List Order) :
    merged (o :: snapshot) inserted =
      (inserted.takeWhile fun ins => ins.id ≤ o.id) ++
        ([o].filter fun o => o.volume ≠ 0) ++
          merged snapshot (inserted.dropWhile fun ins => ins.id ≤ o.id) := by
  conv_lhs => unfold merged
  simp only [finalizeLoop]
  rw [finalizeLoop_eq]
  by_cases hvolume : o.volume = 0
  · simp [hvolume]
  · simp [hvolume]

section Walk

variable {snapshot inserted : List Order} (hi : StrictlySorted Order.id inserted)
include hi

theorem takeWhile_le_eq (k : UInt64) :
    (inserted.takeWhile fun ins => ins.id ≤ k) = inserted.filter fun ins => ins.id ≤ k :=
  takeWhile_eq_filter (hi.imp fun hab => by simpa using fun hb => hab.le.trans hb)

theorem dropWhile_le_eq (k : UInt64) :
    (inserted.dropWhile fun ins => ins.id ≤ k) = inserted.filter fun ins => !decide (ins.id ≤ k) :=
  dropWhile_eq_filter (hi.imp fun hab => by simpa using fun hb => hab.le.trans hb)

theorem strictlySorted_dropWhile (k : UInt64) :
    StrictlySorted Order.id (inserted.dropWhile fun ins => ins.id ≤ k) :=
  hi.sublist (List.dropWhile_sublist _)

/-- What is inserted behind all active orders is left over. -/
theorem mem_finalizeLoop_fst (acc : List Order) {x : Order} :
    x ∈ (finalizeLoop snapshot inserted acc).1 ↔ x ∈ inserted ∧ ∀ o ∈ snapshot, o.id < x.id := by
  induction snapshot generalizing inserted acc with
  | nil => simp [finalizeLoop]
  | cons o snapshot ih =>
    simp only [finalizeLoop]
    rw [ih (strictlySorted_dropWhile hi o.id), dropWhile_le_eq hi, List.mem_filter,
      List.forall_mem_cons, and_assoc]
    simp

/-- The new list has the active orders with volume, and what is inserted up to
one of the active ones. -/
theorem mem_merged {x : Order} :
    x ∈ merged snapshot inserted ↔
      x ∈ snapshot ∧ x.volume ≠ 0 ∨ x ∈ inserted ∧ ∃ o ∈ snapshot, x.id ≤ o.id := by
  induction snapshot generalizing inserted with
  | nil => simp [merged, finalizeLoop]
  | cons o snapshot ih =>
    rw [merged_cons, List.mem_append, List.mem_append, ih (strictlySorted_dropWhile hi o.id),
      takeWhile_le_eq hi, dropWhile_le_eq hi, List.mem_filter, List.mem_filter, List.mem_filter,
      List.mem_singleton, List.mem_cons]
    simp only [decide_eq_true_eq, Bool.not_eq_true', decide_eq_false_iff_not, ne_eq,
      List.exists_mem_cons_iff]
    constructor
    · rintro ((⟨hx, hle⟩ | ⟨rfl, hv⟩) | ⟨hx, hv⟩ | ⟨⟨hx, -⟩, hlater⟩)
      · exact Or.inr ⟨hx, Or.inl hle⟩
      · exact Or.inl ⟨Or.inl rfl, hv⟩
      · exact Or.inl ⟨Or.inr hx, hv⟩
      · exact Or.inr ⟨hx, Or.inr hlater⟩
    · rintro (⟨rfl | hx, hv⟩ | ⟨hx, hle | hlater⟩)
      · exact Or.inl (Or.inr ⟨rfl, hv⟩)
      · exact Or.inr (Or.inl ⟨hx, hv⟩)
      · exact Or.inl (Or.inl ⟨hx, hle⟩)
      · -- what goes in front of a later order may already go in front of this one
        by_cases hle : x.id ≤ o.id
        · exact Or.inl (Or.inl ⟨hx, hle⟩)
        · exact Or.inr (Or.inr ⟨⟨hx, hle⟩, hlater⟩)

theorem strictlySorted_merged (hs : StrictlySorted Order.id snapshot)
    (hdisjoint : ∀ a ∈ snapshot, ∀ b ∈ inserted, a.id ≠ b.id) :
    StrictlySorted Order.id (merged snapshot inserted) := by
  induction snapshot generalizing inserted with
  | nil => exact List.Pairwise.nil
  | cons o snapshot ih =>
    obtain ⟨hlt, hs⟩ := List.pairwise_cons.mp hs
    have hrest := strictlySorted_dropWhile hi o.id
    have hmem : ∀ b, b ∈ (inserted.dropWhile fun ins => ins.id ≤ o.id) →
        b ∈ inserted ∧ o.id < b.id := by
      intro b hb
      rw [dropWhile_le_eq hi] at hb
      simpa using hb
    have hlater : ∀ b ∈ merged snapshot (inserted.dropWhile fun ins => ins.id ≤ o.id),
        o.id < b.id := by
      intro b hb
      rcases (mem_merged hrest).mp hb with ⟨hb, -⟩ | ⟨hb, -⟩
      · exact hlt b hb
      · exact (hmem b hb).2
    rw [merged_cons]
    refine List.pairwise_append.mpr ⟨List.pairwise_append.mpr ⟨?_, ?_, ?_⟩, ?_, ?_⟩
    · exact hi.sublist (List.takeWhile_sublist _)
    · exact (List.pairwise_singleton _ o).filter _
    · intro a ha b hb
      obtain ⟨rfl, -⟩ : b = o ∧ _ := by simpa using hb
      rw [takeWhile_le_eq hi] at ha
      obtain ⟨ha, hle⟩ : a ∈ inserted ∧ a.id ≤ b.id := by simpa using ha
      exact lt_of_le_of_ne hle (hdisjoint b List.mem_cons_self a ha).symm
    · apply ih hrest hs
      intro a ha b hb
      exact hdisjoint a (List.mem_cons_of_mem o ha) b (hmem b hb).1
    · intro a ha b hb
      -- everything so far is up to `o`, everything after it is behind `o`
      refine lt_of_le_of_lt ?_ (hlater b hb)
      rcases List.mem_append.mp ha with ha | ha
      · rw [takeWhile_le_eq hi] at ha
        exact (by simpa using ha : a ∈ inserted ∧ a.id ≤ o.id).2
      · obtain ⟨rfl, -⟩ : a = o ∧ _ := by simpa using ha
        exact le_rfl

end Walk

/-! ### Behind the guards -/

/-- Some active order lies behind each inserted one. -/
def InFront (r : OrderReader) : Prop := ∀ ins ∈ r.inserted, ∃ o ∈ r.activeOrders, ins.id ≤ o.id

theorem finalizeLoop_fst_eq_nil_iff {r : OrderReader} (h : r.Mergeable) :
    (finalizeLoop r.activeOrders r.inserted []).1 = [] ↔ r.InFront := by
  rw [List.eq_nil_iff_forall_not_mem]
  simp only [mem_finalizeLoop_fst h.inserted, not_and, not_forall, not_lt, exists_prop, InFront]

/-- **Behind the guards the walk merges exactly what lies in front of the last
active order.** -/
theorem finalizeMerge_merged_iff {r : OrderReader} (h : r.Mergeable) :
    (∃ r', r.finalizeMerge = .ok r' ∧ r.Merged r') ↔ r.InFront := by
  have hsorted := strictlySorted_merged h.inserted h.active h.disjoint
  rw [← finalizeLoop_fst_eq_nil_iff h, finalizeMerge, finalizeLoop_eq]
  simp only [List.nil_append]
  constructor
  · rintro ⟨r', hok, -⟩
    by_contra hleft
    rw [if_pos hleft] at hok
    exact absurd hok (by simp [throw, throwThe, MonadExceptOf.throw, bind, Except.bind])
  · intro hnil
    have hchain : (merged r.activeOrders r.inserted).IsChain fun a b => a.id ≤ b.id :=
      List.Pairwise.isChain (hsorted.imp fun hab => hab.le)
    rw [if_neg (not_not.mpr hnil), if_neg (not_not.mpr hchain)]
    refine ⟨_, rfl, rfl, rfl, hsorted, ?_⟩
    intro o
    show o ∈ merged r.activeOrders r.inserted ↔ _
    rw [mem_merged h.inserted]
    refine or_congr_right (and_iff_left_of_imp ?_)
    exact (finalizeLoop_fst_eq_nil_iff h).mp hnil o

/-! ### With the guards -/

/-- No reader is merged by `finalize`. -/
theorem finalize_not_merged (r : OrderReader) : ¬ ∃ r', r.finalize = .ok r' ∧ r.Merged r' := by
  rintro ⟨r', hok, -⟩
  rw [finalize_eq_error] at hok
  exact absurd hok (by simp)

/-- One order is active and another one is to be inserted in front of it. -/
def insertOne : OrderReader := ⟨[], 0, [Order.single 5], [], [Order.single 3]⟩

/-- The one in front is not merged. -/
theorem finalize_insertOne :
    insertOne.Mergeable ∧ insertOne.finalize = .error (.runtimeError "active_orders is not sorted") ∧
      ¬ ∃ r', insertOne.finalize = .ok r' ∧ insertOne.Merged r' := by
  refine ⟨⟨by decide, by decide, List.Pairwise.nil, by decide⟩, rfl, ?_⟩
  rintro ⟨r', hok, -⟩
  exact absurd ((finalize_eq_error insertOne).symm.trans hok) (by simp)

end OrderReader
end Pricing
end EveIndustryPlanner
