import EveIndustryPlanner.Pricing.Writer

/-!
# What a step of the writer does

Every branch of the walk either writes nothing or writes one record and moves
one slot.  `Step` says so case by case, and everything that is said of the
writer below goes through it.

## Main definitions

* `JsonWriter.Step` — the effect of one edit.
* `JsonWriter.Wrote` — some records written, and nothing changed but slots.
* `JsonWriter.Keys` — the ids with a slot are those of a book.
* `JsonWriter.Slots` — no slot has two owners, and no free slot has one.

## Main results

* `applyEdit_eq_ok_iff` — `Step` is what the branches do.
* `Keys.run` — **as long as every edit finds the book as it expects it, no step throws.**
* `Keys.valid_of_run` — edits that went through have found it so.
* `Wrote.run` — a run writes the records it logs and leaves the book alone.
* `Slots.step` — slots keep one owner.
-/

namespace EveIndustryPlanner
namespace Pricing
namespace JsonWriter

/-- The effect of one edit. -/
inductive Step (w : JsonWriter) : Edit Order → JsonWriter → Prop
  /-- A new order in a new slot. -/
  | fresh {o : Order} (hindex : w.index o.id = none) (hfree : w.freeList = []) :
    Step w (.add o) ({ w with
      activeOrders2 := w.activeOrders2 ++ [o]
      index := Function.update w.index o.id
        (some (Int32.ofNat (w.activeOrders2.length + 1))) }.put
      (.full (Int32.ofNat (w.activeOrders2.length + 1)) o))
  /-- A new order in a slot that was free. -/
  | recycled {o : Order} {i : Int32} {free : List Int32} (hindex : w.index o.id = none)
      (hfree : w.freeList = i :: free) :
    Step w (.add o) ({ w with
      freeList := free
      activeOrders2 := w.activeOrders2.set (toSizeT i) o
      index := Function.update w.index o.id (some i) }.put (.full i o))
  /-- A changed order in the slot it has. -/
  | changed {a b : Order} {i : Int32} (hchanged : changed a b) (hindex : w.index a.id = some i) :
    Step w (.keep a b) ({ w with
      activeOrders2 := w.activeOrders2.set (toSizeT i) a }.put (.diff i ⟨2, a.price, a.volume⟩))
  /-- An order that did not change. -/
  | unchanged {a b : Order} (hchanged : ¬ JsonWriter.changed a b) : Step w (.keep a b) w
  /-- A slot given up. -/
  | deleted {b : Order} {i : Int32} (hindex : w.index b.id = some i) :
    Step w (.drop b) ({ w with
      freeList := w.freeList ++ [i]
      index := Function.update w.index b.id none
      activeOrders2 := w.activeOrders2.modify (toSizeT i) fun o => { o with volume := 0 } }.put
      (.diff i ⟨2, b.price, 0⟩))

theorem Step.of_newOrder {w w' : JsonWriter} {o : Order} (h : w.newOrder o = .ok w') :
    Step w (.add o) w' := by
  cases hindex : w.index o.id with
  | some i => exact absurd h (by simp [newOrder, hindex])
  | none =>
    cases hfree : w.freeList with
    | nil =>
      simp only [newOrder, hindex, newIndex, hfree, List.length_append, List.length_singleton] at h
      obtain rfl := Except.ok.inj h
      rw [← hfree]
      exact .fresh hindex hfree
    | cons i free =>
      simp only [newOrder, hindex, newIndex, hfree] at h
      obtain rfl := Except.ok.inj h
      exact .recycled hindex hfree

theorem Step.of_changedOrder {w w' : JsonWriter} {a b : Order} (h : w.changedOrder a b = .ok w') :
    Step w (.keep a b) w' := by
  unfold changedOrder at h
  split at h
  · next hchanged =>
    split at h
    · exact absurd h (by simp)
    · next i hindex =>
      obtain rfl := Except.ok.inj h
      exact .changed hchanged hindex
  · next hchanged =>
    obtain rfl := Except.ok.inj h
    exact .unchanged hchanged

theorem Step.of_deletedOrder {w w' : JsonWriter} {b : Order} (h : w.deletedOrder b = .ok w') :
    Step w (.drop b) w' := by
  unfold deletedOrder at h
  split at h
  · exact absurd h (by simp)
  · next i hindex =>
    obtain rfl := Except.ok.inj h
    exact .deleted hindex

/-- `Step` is what the branches do. -/
theorem applyEdit_eq_ok_iff {w w' : JsonWriter} {e : Edit Order} :
    w.applyEdit e = .ok w' ↔ Step w e w' := by
  constructor
  · intro h
    cases e with
    | add o => exact Step.of_newOrder h
    | keep a b => exact Step.of_changedOrder h
    | drop b => exact Step.of_deletedOrder h
  · intro h
    cases h with
    | fresh hindex hfree => simp [applyEdit, newOrder, newIndex, hindex, hfree]
    | recycled hindex hfree => simp [applyEdit, newOrder, newIndex, hindex, hfree]
    | changed hchanged hindex => simp [applyEdit, changedOrder, hchanged, hindex]
    | unchanged hchanged => simp [applyEdit, changedOrder, hchanged]
    | deleted hindex => simp [applyEdit, deletedOrder, hindex]

/-! ### Nothing changes but slots -/

/-- The bytes an edit writes: 54 for a new order, 17 for one that changed or vanished. -/
def editSize : Edit Order → ℕ
  | .add _ => 54
  | .keep a b => if changed a b then 17 else 0
  | .drop _ => 17

/-- An edit whose record is recognised: a new order is not marked as a diff. -/
def Marked : Edit Order → Prop
  | .add o => o.buy ≠ 2
  | _ => True

/-- `w'` is `w` with some records written and other slots. -/
structure Wrote (w w' : JsonWriter) (rs : List Record) : Prop where
  activeOrders : w'.activeOrders = w.activeOrders
  reader : w'.reader = w.reader
  readerPos : w'.readerPos = w.readerPos
  records : w'.records = w.records ++ rs
  written : w'.written = w.written ++ rs.flatMap writeRecord
  length : w.activeOrders2.length ≤ w'.activeOrders2.length

namespace Wrote

variable {w w' w'' : JsonWriter} {rs rs' : List Record}

theorem refl (w : JsonWriter) : Wrote w w [] := ⟨rfl, rfl, rfl, by simp, by simp, le_rfl⟩

theorem trans (h : Wrote w w' rs) (h' : Wrote w' w'' rs') : Wrote w w'' (rs ++ rs') where
  activeOrders := h'.activeOrders.trans h.activeOrders
  reader := h'.reader.trans h.reader
  readerPos := h'.readerPos.trans h.readerPos
  records := by rw [h'.records, h.records, List.append_assoc]
  written := by rw [h'.written, h.written, List.append_assoc, List.flatMap_append]
  length := h.length.trans h'.length

theorem of_step {e : Edit Order} (h : Step w e w') :
    ∃ rs, Wrote w w' rs ∧ (rs.flatMap writeRecord).length = editSize e ∧
      (Marked e → ∀ r ∈ rs, r.Recognisable) := by
  cases h with
  | fresh hindex hfree =>
    refine ⟨[_], ⟨rfl, rfl, rfl, rfl, by simp [put], by simp [put]⟩, by simp [editSize], ?_⟩
    intro hm r hr
    obtain rfl := List.mem_singleton.mp hr
    exact hm
  | recycled hindex hfree =>
    refine ⟨[_], ⟨rfl, rfl, rfl, rfl, by simp [put], by simp [put]⟩, by simp [editSize], ?_⟩
    intro hm r hr
    obtain rfl := List.mem_singleton.mp hr
    exact hm
  | changed hchanged hindex =>
    refine ⟨[_], ⟨rfl, rfl, rfl, rfl, by simp [put], by simp [put]⟩,
      by simp [editSize, hchanged], ?_⟩
    -- the writer marks its own diffs
    intro _ r hr
    obtain rfl := List.mem_singleton.mp hr
    rfl
  | unchanged hchanged => exact ⟨[], refl w, by simp [editSize, hchanged], by simp⟩
  | deleted hindex =>
    refine ⟨[_], ⟨rfl, rfl, rfl, rfl, by simp [put], by simp [put]⟩, by simp [editSize], ?_⟩
    intro _ r hr
    obtain rfl := List.mem_singleton.mp hr
    rfl

/-- A run writes the records it logs and leaves the book alone. -/
theorem of_run {es : List (Edit Order)} (h : es.foldlM applyEdit w = .ok w') :
    ∃ rs, Wrote w w' rs ∧ (rs.flatMap writeRecord).length = (es.map editSize).sum ∧
      ((∀ e ∈ es, Marked e) → ∀ r ∈ rs, r.Recognisable) := by
  induction es generalizing w with
  | nil =>
    obtain rfl : w = w' := Except.ok.inj h
    exact ⟨[], refl w, by simp, by simp⟩
  | cons e es ih =>
    rw [List.foldlM_cons] at h
    obtain ⟨w₁, h₁, h⟩ := bind_eq_ok h
    obtain ⟨rs₁, hw₁, hlen₁, hrec₁⟩ := of_step (applyEdit_eq_ok_iff.mp h₁)
    obtain ⟨rs₂, hw₂, hlen₂, hrec₂⟩ := ih h
    refine ⟨rs₁ ++ rs₂, hw₁.trans hw₂, ?_, ?_⟩
    · rw [List.flatMap_append, List.length_append, hlen₁, hlen₂, List.map_cons, List.sum_cons]
    · intro hm r hr
      rcases List.mem_append.mp hr with hr | hr
      · exact hrec₁ (hm e List.mem_cons_self) r hr
      · exact hrec₂ (fun e' he' => hm e' (List.mem_cons_of_mem e he')) r hr

end Wrote

/-! ### No step throws -/

/-- The ids with a slot are those of a book. -/
def Keys (w : JsonWriter) (m : UInt64 → Option Order) : Prop :=
  ∀ k, (w.index k).isSome = (m k).isSome

namespace Keys

variable {w w' : JsonWriter} {m : UInt64 → Option Order} {e : Edit Order}

/-- An edit that finds the book as it expects it does not throw. -/
theorem exists_step (h : Keys w m) (he : e.Enabled Order.id m) : ∃ w', Step w e w' := by
  cases e with
  | add o =>
    have hnone : m o.id = none := he
    have hindex : w.index o.id = none := by
      rw [← Option.not_isSome_iff_eq_none, h, hnone]
      simp
    cases hfree : w.freeList with
    | nil => exact ⟨_, .fresh hindex hfree⟩
    | cons i free => exact ⟨_, .recycled hindex hfree⟩
  | keep a b =>
    obtain ⟨-, hsome⟩ := he
    have hindex : (w.index a.id).isSome := by rw [h, hsome]; rfl
    obtain ⟨i, hindex⟩ := Option.isSome_iff_exists.mp hindex
    by_cases hchanged : changed a b
    · exact ⟨_, .changed hchanged hindex⟩
    · exact ⟨_, .unchanged hchanged⟩
  | drop b =>
    have hsome : m b.id = some b := he
    have hindex : (w.index b.id).isSome := by rw [h, hsome]; rfl
    obtain ⟨i, hindex⟩ := Option.isSome_iff_exists.mp hindex
    exact ⟨_, .deleted hindex⟩

theorem update {k : UInt64} {i : Option Int32} {o : Option Order} (h : Keys w m)
    (hio : i.isSome = o.isSome) (hindex : w'.index = Function.update w.index k i) :
    Keys w' (Function.update m k o) := by
  intro k'
  rw [hindex]
  by_cases hk : k' = k
  · subst hk
    simpa using hio
  · simpa [Function.update_of_ne hk] using h k'

theorem step (h : Keys w m) (he : e.Enabled Order.id m) (hstep : Step w e w') :
    Keys w' (e.apply Order.id m) := by
  cases hstep with
  | fresh hindex hfree => exact h.update rfl rfl
  | recycled hindex hfree => exact h.update rfl rfl
  | @changed a b i hchanged hindex =>
    refine h.update (i := w.index a.id) ?_ (Function.update_eq_self _ _).symm
    rw [hindex]
    rfl
  | @unchanged a b hchanged =>
    refine h.update (i := w.index a.id) ?_ (Function.update_eq_self _ _).symm
    rw [h, he.2]
    rfl
  | deleted hindex => exact h.update rfl rfl

/-- **As long as every edit finds the book as it expects it, no step throws.** -/
theorem run {es : List (Edit Order)} (h : Keys w m) (hvalid : Valid Order.id m es) :
    ∃ w', es.foldlM applyEdit w = .ok w' ∧ Keys w' (es.foldl (Edit.apply Order.id) m) := by
  -- Each edit moves the book and the table of slots alike.
  induction es generalizing w m with
  | nil => exact ⟨w, rfl, h⟩
  | cons e es ih =>
    obtain ⟨w₁, hstep⟩ := h.exists_step hvalid.1
    obtain ⟨w', hrun, hkeys⟩ := ih (h.step hvalid.1 hstep) hvalid.2
    refine ⟨w', ?_, hkeys⟩
    rw [List.foldlM_cons, applyEdit_eq_ok_iff.mpr hstep]
    exact hrun

/-- What did not throw has found the book as it expects it. -/
theorem enabled_of_step {new old : List Order} (h : Keys w m) (hfrom : e.From Order.id new old)
    (hold : ∀ b, e.old? = some b → m b.id = some b) (hstep : Step w e w') :
    e.Enabled Order.id m := by
  have hnone : ∀ {o : Order}, w.index o.id = none → m o.id = none := by
    intro o hindex
    rw [← Option.not_isSome_iff_eq_none, ← h, hindex]
    simp
  cases e with
  | add o =>
    cases hstep with
    | fresh hindex hfree => exact hnone hindex
    | recycled hindex hfree => exact hnone hindex
  | keep a b =>
    have hkey : a.id = b.id := hfrom.2.2
    exact ⟨hkey, hkey ▸ hold b rfl⟩
  | drop b => exact hold b rfl

/-- **A run that does not throw has found the book as it expects it**; no two of the orders
that its edits find, or leave alone, have one id. -/
theorem valid_of_run {new old : List Order} {es : List (Edit Order)} {l : List Order}
    (h : Keys w (lookup Order.id (es.filterMap Edit.old? ++ l)))
    (hnodup : ((es.filterMap Edit.old? ++ l).map Order.id).Nodup)
    (hfrom : ∀ e ∈ es, e.From Order.id new old) (hrun : es.foldlM applyEdit w = .ok w') :
    Valid Order.id (lookup Order.id (es.filterMap Edit.old? ++ l)) es := by
  induction es generalizing w l with
  | nil => trivial
  | cons e es ih =>
    rw [List.foldlM_cons] at hrun
    obtain ⟨w₁, hfirst, hrun⟩ := bind_eq_ok hrun
    have hstep := applyEdit_eq_ok_iff.mp hfirst
    obtain ⟨hhead, hfrom⟩ := List.forall_mem_cons.mp hfrom
    rw [filterMap_old_cons, List.append_assoc] at h hnodup ⊢
    have hold : ∀ b, e.old? = some b →
        lookup Order.id (e.old?.toList ++ (es.filterMap Edit.old? ++ l)) b.id = some b := by
      intro b hb
      rw [lookup_eq_some_iff_of_nodup hnodup, hb]
      exact ⟨List.mem_cons_self, rfl⟩
    have he := h.enabled_of_step hhead hold hstep
    obtain ⟨hlookup, hnodup⟩ := Edit.apply_lookup hnodup he
    have hkeys := h.step he hstep
    refine ⟨he, ?_⟩
    have hbeside := List.perm_append_comm_assoc e.new?.toList (es.filterMap Edit.old?) l
    rw [hlookup, lookup_perm hbeside hnodup] at hkeys ⊢
    exact ih hkeys ((hbeside.map Order.id).nodup_iff.mp hnodup) hfrom hrun

end Keys

/-! ### One owner for each slot -/

theorem toSizeT_injective {i j : Int32} (h : toSizeT i = toSizeT j) : i = j := by
  have hi := i.le_toInt
  have hi' := i.toInt_lt
  have hj := j.le_toInt
  have hj' := j.toInt_lt
  apply Int32.toInt_inj.mp
  -- the wrapped numbers of negative slots lie above all others
  unfold toSizeT at h
  omega

/-- No slot has two owners, and no free slot has one. -/
structure Slots (w : JsonWriter) : Prop where
  owned_le : ∀ k i, w.index k = some i → toSizeT i ≤ w.activeOrders2.length
  free_le : ∀ i ∈ w.freeList, toSizeT i ≤ w.activeOrders2.length
  injective : ∀ k k' i, w.index k = some i → w.index k' = some i → k = k'
  free_nodup : w.freeList.Nodup
  disjoint : ∀ k i, w.index k = some i → i ∉ w.freeList

namespace Slots

variable {w w' : JsonWriter} {e : Edit Order}

theorem empty : Slots empty := ⟨nofun, nofun, nofun, List.nodup_nil, nofun⟩

/-- A slot nobody has may be given to an order that has none. -/
theorem give {k : UInt64} {i : Int32} (h : Slots w) (hlen : w.activeOrders2.length ≤
    w'.activeOrders2.length) (hi : toSizeT i ≤ w'.activeOrders2.length)
    (hnew : ∀ k', w.index k' ≠ some i) (hindex : w'.index = Function.update w.index k (some i))
    (hsub : w'.freeList.Sublist w.freeList) (hfree : i ∉ w'.freeList) : Slots w' where
  owned_le k' j hj := by
    rw [hindex, Function.update_apply] at hj
    split at hj
    · obtain rfl := Option.some.inj hj
      exact hi
    · exact (h.owned_le k' j hj).trans hlen
  free_le j hj := (h.free_le j (hsub.subset hj)).trans hlen
  injective k₁ k₂ j h₁ h₂ := by
    rw [hindex, Function.update_apply] at h₁ h₂
    split at h₁ <;> split at h₂
    · next e₁ e₂ => rw [e₁, e₂]
    · obtain rfl := Option.some.inj h₁
      exact absurd h₂ (hnew k₂)
    · obtain rfl := Option.some.inj h₂
      exact absurd h₁ (hnew k₁)
    · exact h.injective k₁ k₂ j h₁ h₂
  free_nodup := h.free_nodup.sublist hsub
  disjoint k' j hj := by
    rw [hindex, Function.update_apply] at hj
    split at hj
    · obtain rfl := Option.some.inj hj
      exact hfree
    · intro hmem
      exact h.disjoint k' j hj (hsub.subset hmem)

/-- Slots keep one owner as long as their numbers do not overflow. -/
theorem step_of_lt (h : Slots w) (hstep : Step w e w') (hlen : w'.activeOrders2.length < 2 ^ 31) :
    Slots w' := by
  cases hstep with
  | @fresh o hindex hfree =>
    have hlen : w.activeOrders2.length + 1 < 2 ^ 31 := by simpa [put] using hlen
    have hi : toSizeT (Int32.ofNat (w.activeOrders2.length + 1)) = w.activeOrders2.length + 1 :=
      toSizeT_ofNat hlen
    refine h.give (by simp [put]) (by rw [hi]; simp [put]) ?_ rfl (by simp [put])
      (by simp [put, hfree])
    -- no slot handed out so far is past the size of the copy
    intro k hk
    have := h.owned_le k _ hk
    omega
  | @recycled o i free hindex hfree =>
    have hmem : i ∈ w.freeList := by simp [hfree]
    have hnodup := h.free_nodup
    rw [hfree, List.nodup_cons] at hnodup
    refine h.give (by simp [put]) ?_ (fun k hk => h.disjoint k i hk hmem) rfl ?_ hnodup.1
    · simpa [put] using h.free_le i hmem
    · simp [put, hfree]
  | changed hchanged hindex =>
    exact ⟨by simpa [put] using h.owned_le, by simpa [put] using h.free_le, h.injective,
      h.free_nodup, h.disjoint⟩
  | unchanged hchanged => exact h
  | @deleted b i hindex =>
    -- an order that keeps its slot is another one, in another slot
    have hkept : ∀ k j, Function.update w.index b.id none k = some j →
        w.index k = some j ∧ j ≠ i := by
      intro k j hj
      rw [Function.update_apply] at hj
      split at hj
      · exact absurd hj (by simp)
      · next hk =>
        refine ⟨hj, ?_⟩
        intro hji
        exact hk (h.injective k b.id j hj (hji ▸ hindex))
    constructor
    · intro k j hj
      simpa [put] using h.owned_le k j (hkept k j hj).1
    · intro j hj
      rcases List.mem_append.mp hj with hj | hj
      · simpa [put] using h.free_le j hj
      · obtain rfl := List.mem_singleton.mp hj
        simpa [put] using h.owned_le b.id j hindex
    · intro k k' j hj hj'
      exact h.injective k k' j (hkept k j hj).1 (hkept k' j hj').1
    · refine List.nodup_append.mpr ⟨h.free_nodup, List.nodup_singleton i, ?_⟩
      intro j hj j' hj' hjj'
      obtain rfl := List.mem_singleton.mp hj'
      exact h.disjoint b.id j' hindex (hjj' ▸ hj)
    · intro k j hj hmem
      rcases List.mem_append.mp hmem with hmem | hmem
      · exact h.disjoint k j (hkept k j hj).1 hmem
      · exact (hkept k j hj).2 (List.mem_singleton.mp hmem)

/-- Slots keep one owner as long as a reader has room for them. -/
theorem step (h : Slots w) (hstep : Step w e w') (hlen : w'.activeOrders2.length < slotCount) :
    Slots w' :=
  h.step_of_lt hstep (hlen.trans (by decide))

end Slots

end JsonWriter
end Pricing
end EveIndustryPlanner
