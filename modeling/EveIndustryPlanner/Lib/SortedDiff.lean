import Mathlib

/-!
# The difference of two sorted lists

Two lists sorted by a key are compared by walking both at once: a key only in
the new list is added, one only in the old list is dropped, one in both is
kept.  The abstract reading of a sorted list is the partial map from keys to
elements; the edits of the walk are moves on that map.

## Main definitions

* `StrictlySorted key l`, `lookup key l` — a sorted list and the map it stands for.
* `Edit`, `diff` — the edits of the walk; `Edit.From` says where they come from.
* `Edit.apply`, `Edit.Enabled`, `Valid` — an edit as a move on maps, and the
  moves that find the map as they expect it.
* `splice` — a sorted list with the elements of a key range replaced.

## Main results

* `StrictlySorted.ext` — a sorted list is determined by its elements.
* `valid_diff` — **every edit of the walk finds the map as it expects it.**
* `foldl_apply_of_valid` — **edits that find the map as they expect it lead from the
  old list to the new one**, in whatever order the two are.
* `sum_change_diff`, `walk_diff` — what the edits do to a sum, and whom they meet.
* `filterMap_diff`, `strictlySorted_diff` — the edits in the order of the two lists.
* `StrictlySorted.mem_splice` — what a replaced range leaves.
-/

namespace EveIndustryPlanner

section SortedLists

variable {α κ : Type*} [LinearOrder κ] (key : α → κ)

/-- Strictly increasing by key. -/
def StrictlySorted (l : List α) : Prop := l.Pairwise fun a b => key a < key b

instance (l : List α) : Decidable (StrictlySorted key l) :=
  inferInstanceAs (Decidable (l.Pairwise _))

/-- The element of a key. -/
def lookup (l : List α) (k : κ) : Option α := l.find? fun a => key a = k

variable {key}

theorem StrictlySorted.nodup_keys {l : List α} (h : StrictlySorted key l) :
    (l.map key).Nodup := by
  rw [List.Nodup, List.pairwise_map]
  exact h.imp fun hab => ne_of_lt hab

theorem StrictlySorted.eq_of_key_eq {l : List α} (h : StrictlySorted key l) {a b : α} (ha : a ∈ l)
    (hb : b ∈ l) (hab : key a = key b) : a = b :=
  List.inj_on_of_nodup_map h.nodup_keys ha hb hab

/-- A sorted list is determined by its elements. -/
theorem StrictlySorted.ext {l l' : List α} (h : StrictlySorted key l) (h' : StrictlySorted key l')
    (hmem : ∀ a, a ∈ l ↔ a ∈ l') : l = l' := by
  have hperm : l.Perm l' := by
    rw [List.perm_ext_iff_of_nodup h.nodup_keys.of_map h'.nodup_keys.of_map]
    exact hmem
  have hl : l.Pairwise fun a b => key a < key b := h
  refine hperm.eq_of_pairwise ?_ hl h'
  intro a b _ _ hab hba
  exact absurd hab (lt_asymm hba)

/-- Where no two elements have one key, each is found under its own. -/
theorem lookup_eq_some_iff_of_nodup {l : List α} (h : (l.map key).Nodup) {k : κ} {a : α} :
    lookup key l k = some a ↔ a ∈ l ∧ key a = k := by
  constructor
  · intro hl
    exact ⟨List.mem_of_find?_eq_some hl, by simpa using List.find?_some hl⟩
  · rintro ⟨ha, rfl⟩
    obtain ⟨b, hb⟩ := Option.isSome_iff_exists.mp
      (List.find?_isSome.mpr ⟨a, ha, by simp⟩ : (l.find? fun b => key b = key a).isSome = true)
    have hkey : key b = key a := by simpa using List.find?_some hb
    rw [lookup, hb, List.inj_on_of_nodup_map h (List.mem_of_find?_eq_some hb) ha hkey]

theorem lookup_eq_some_iff {l : List α} (h : StrictlySorted key l) {k : κ} {a : α} :
    lookup key l k = some a ↔ a ∈ l ∧ key a = k :=
  lookup_eq_some_iff_of_nodup h.nodup_keys

/-- The order of the elements does not matter then. -/
theorem lookup_perm {l l' : List α} (h : l.Perm l') (hnodup : (l.map key).Nodup) :
    lookup key l = lookup key l' := by
  have hnodup' : (l'.map key).Nodup := (h.map key).nodup_iff.mp hnodup
  funext k
  refine Option.ext fun a => ?_
  rw [lookup_eq_some_iff_of_nodup hnodup, lookup_eq_some_iff_of_nodup hnodup', h.mem_iff]

theorem lookup_eq_none_iff {l : List α} {k : κ} :
    lookup key l k = none ↔ ∀ a ∈ l, key a ≠ k := by
  simp [lookup]

theorem lookup_cons_self (a : α) (l : List α) : lookup key (a :: l) (key a) = some a := by
  simp [lookup]

theorem lookup_cons_of_ne {a : α} {k : κ} (l : List α) (h : key a ≠ k) :
    lookup key (a :: l) k = lookup key l k := by
  simp [lookup, h]

theorem lookup_cons (a : α) (l : List α) :
    lookup key (a :: l) = Function.update (lookup key l) (key a) (some a) := by
  funext k
  by_cases hk : key a = k
  · subst hk
    rw [lookup_cons_self, Function.update_self]
  · rw [lookup_cons_of_ne l hk, Function.update_of_ne (Ne.symm hk)]

/-- A sorted list lies between its first and its last element. -/
theorem StrictlySorted.mem_range {l : List α} (h : StrictlySorted key l) {d a : α} (ha : a ∈ l) :
    key (l.headD d) ≤ key a ∧ key a ≤ key (l.getLastD d) := by
  cases l with
  | nil => exact absurd ha List.not_mem_nil
  | cons b l =>
    constructor
    · rcases List.mem_cons.mp ha with rfl | ha
      · exact le_rfl
      · exact ((List.pairwise_cons.mp h).1 a ha).le
    · have hlast : (b :: l).getLastD d = (b :: l).getLast (List.cons_ne_nil b l) :=
        List.getLastD_eq_getLast?.trans (by rw [List.getLast?_eq_some_getLast]; rfl)
      rw [hlast]
      -- split off the last element: what is before it is below it
      have h' := h
      rw [StrictlySorted, ← List.dropLast_concat_getLast (List.cons_ne_nil b l)] at h'
      rw [← List.dropLast_concat_getLast (List.cons_ne_nil b l)] at ha
      rcases List.mem_append.mp ha with ha | ha
      · exact ((List.pairwise_append.mp h').2.2 a ha _ (List.mem_singleton_self _)).le
      · exact (congrArg key (List.mem_singleton.mp ha)).le

/-- Two sorted lists whose elements match one another, both ways and keeping
keys, match position by position. -/
theorem StrictlySorted.forall₂ {R : α → α → Prop} (hR : ∀ {a b}, R a b → key a = key b)
    {l l' : List α} (h : StrictlySorted key l) (h' : StrictlySorted key l')
    (hl : ∀ a ∈ l, ∃ b ∈ l', R a b) (hl' : ∀ b ∈ l', ∃ a ∈ l, R a b) : List.Forall₂ R l l' := by
  induction l generalizing l' with
  | nil =>
    cases l' with
    | nil => exact .nil
    | cons b l' =>
      obtain ⟨a, ha, -⟩ := hl' b List.mem_cons_self
      exact absurd ha List.not_mem_nil
  | cons a l ih =>
    cases l' with
    | nil =>
      obtain ⟨b, hb, -⟩ := hl a List.mem_cons_self
      exact absurd hb List.not_mem_nil
    | cons b l' =>
      have hlt := List.pairwise_cons.mp h
      have hlt' := List.pairwise_cons.mp h'
      obtain ⟨c, hc, hac⟩ := hl a List.mem_cons_self
      obtain ⟨d, hd, hdb⟩ := hl' b List.mem_cons_self
      -- the heads match: a head that matched later would be above the other head
      have hcb : c = b := by
        rcases List.mem_cons.mp hc with rfl | hc
        · rfl
        · rcases List.mem_cons.mp hd with rfl | hd
          · exact absurd ((hR hdb).symm.trans (hR hac)) (ne_of_lt (hlt'.1 c hc))
          · have hcd := (hlt'.1 c hc).trans_eq (hR hac).symm
            exact absurd ((hlt.1 d hd).trans_eq (hR hdb)) (lt_asymm hcd)
      subst hcb
      refine .cons hac (ih hlt.2 hlt'.2 (fun x hx => ?_) fun y hy => ?_)
      · obtain ⟨y, hy, hxy⟩ := hl x (List.mem_cons_of_mem a hx)
        rcases List.mem_cons.mp hy with rfl | hy
        · exact absurd ((hR hac).trans (hR hxy).symm) (ne_of_lt (hlt.1 x hx))
        · exact ⟨y, hy, hxy⟩
      · obtain ⟨x, hx, hxy⟩ := hl' y (List.mem_cons_of_mem c hy)
        rcases List.mem_cons.mp hx with rfl | hx
        · exact absurd ((hR hac).symm.trans (hR hxy)) (ne_of_lt (hlt'.1 y hy))
        · exact ⟨x, hx, hxy⟩

/-! ### Edits -/

variable (key)

/-- One edit of the walk. -/
inductive Edit (α : Type*) where
  /-- `a` is only in the new list. -/
  | add (a : α)
  /-- The key of `a` in the new list is that of `b` in the old one. -/
  | keep (a b : α)
  /-- `b` is only in the old list. -/
  | drop (b : α)

/-- The walk over a new and an old list. -/
def diff : List α → List α → List (Edit α)
  | [], old => old.map .drop
  | new, [] => new.map .add
  | a :: new, b :: old =>
    if key a < key b then .add a :: diff new (b :: old)
    else if key a = key b then .keep a b :: diff new old
    else .drop b :: diff (a :: new) old
termination_by new old => new.length + old.length

namespace Edit

/-- The elements of an edit are from the two lists. -/
def From (new old : List α) : Edit α → Prop
  | add a => a ∈ new
  | keep a b => a ∈ new ∧ b ∈ old ∧ key a = key b
  | drop b => b ∈ old

/-- The element of an edit in the new list. -/
def new? : Edit α → Option α
  | add a => some a
  | keep a _ => some a
  | drop _ => none

/-- The element of an edit in the old list. -/
def old? : Edit α → Option α
  | add _ => none
  | keep _ b => some b
  | drop b => some b

/-- An edit as a move on maps. -/
def apply (m : κ → Option α) : Edit α → κ → Option α
  | add a => Function.update m (key a) (some a)
  | keep a _ => Function.update m (key a) (some a)
  | drop b => Function.update m (key b) none

/-- The map is as the edit expects it. -/
def Enabled (m : κ → Option α) : Edit α → Prop
  | add a => m (key a) = none
  | keep a b => key a = key b ∧ m (key a) = some b
  | drop b => m (key b) = some b

end Edit

omit [LinearOrder κ] in
variable {key} in
theorem Edit.From.mono {new new' old old' : List α} {e : Edit α} (h : e.From key new old)
    (hnew : new ⊆ new') (hold : old ⊆ old') : e.From key new' old' := by
  cases e with
  | add a => exact hnew h
  | keep a b => exact ⟨hnew h.1, hold h.2.1, h.2.2⟩
  | drop b => exact hold h

theorem from_of_mem_diff {new old : List α} {e : Edit α} (h : e ∈ diff key new old) :
    e.From key new old := by
  induction new, old using diff.induct key with
  | case1 old =>
    rw [diff] at h
    obtain ⟨b, hb, rfl⟩ := List.mem_map.mp h
    exact hb
  | case2 new hne =>
    rw [diff] at h
    · obtain ⟨a, ha, rfl⟩ := List.mem_map.mp h
      exact ha
    · exact hne
  | case3 a new b old hlt ih =>
    rw [diff, if_pos hlt] at h
    rcases List.mem_cons.mp h with rfl | h
    · exact List.mem_cons_self
    · exact (ih h).mono (List.subset_cons_self a new) (List.Subset.refl _)
  | case4 a new b old hlt heq ih =>
    rw [diff, if_neg hlt, if_pos heq] at h
    rcases List.mem_cons.mp h with rfl | h
    · exact ⟨List.mem_cons_self, List.mem_cons_self, heq⟩
    · exact (ih h).mono (List.subset_cons_self a new) (List.subset_cons_self b old)
  | case5 a new b old hlt heq ih =>
    rw [diff, if_neg hlt, if_neg heq] at h
    rcases List.mem_cons.mp h with rfl | h
    · exact List.mem_cons_self
    · exact (ih h).mono (List.Subset.refl _) (List.subset_cons_self b old)

/-- Every edit finds the map as it expects it. -/
def Valid : (κ → Option α) → List (Edit α) → Prop
  | _, [] => True
  | m, e :: es => e.Enabled key m ∧ Valid (e.apply key m) es

variable {key}

/-- A map that agrees with the old list on the keys of both lists. -/
structure Fits (key : α → κ) (m : κ → Option α) (new old : List α) : Prop where
  new : ∀ a ∈ new, m (key a) = lookup key old (key a)
  old : ∀ b ∈ old, m (key b) = some b

theorem Fits.enabled_add {m : κ → Option α} {a b : α} {new old : List α}
    (h : Fits key m (a :: new) (b :: old)) (hold : StrictlySorted key (b :: old))
    (hab : key a < key b) : m (key a) = none := by
  rw [h.new a List.mem_cons_self, lookup_eq_none_iff]
  intro c hc hca
  rcases List.mem_cons.mp hc with rfl | hc
  · exact absurd hca (ne_of_gt hab)
  · exact absurd hca (ne_of_gt (hab.trans ((List.pairwise_cons.mp hold).1 c hc)))

/-- A key below every key that is left may be moved freely. -/
theorem Fits.update {m : κ → Option α} {k : κ} {v : Option α} {new old : List α}
    (h : Fits key m new old) (hnew : ∀ a ∈ new, key a ≠ k) (hold : ∀ b ∈ old, key b ≠ k) :
    Fits key (Function.update m k v) new old where
  new a ha := by rw [Function.update_of_ne (hnew a ha), h.new a ha]
  old b hb := by rw [Function.update_of_ne (hold b hb), h.old b hb]

theorem Fits.tail_new {m : κ → Option α} {a : α} {new old : List α}
    (h : Fits key m (a :: new) old) : Fits key m new old :=
  ⟨fun c hc => h.new c (List.mem_cons_of_mem a hc), h.old⟩

/-- The head of the old list may be forgotten once its key is. -/
theorem Fits.tail_old {m : κ → Option α} {b : α} {new old : List α}
    (h : Fits key m new (b :: old)) (hnew : ∀ a ∈ new, key a ≠ key b) : Fits key m new old where
  new a ha := by rw [h.new a ha, lookup_cons_of_ne old (hnew a ha).symm]
  old c hc := h.old c (List.mem_cons_of_mem b hc)

theorem StrictlySorted.ne_of_mem_tail {a b : α} {l : List α} (h : StrictlySorted key (a :: l))
    (hb : b ∈ l) : key b ≠ key a :=
  ne_of_gt ((List.pairwise_cons.mp h).1 b hb)

/-- A key below the head is below the whole list. -/
theorem StrictlySorted.ne_of_lt_head {b c : α} {k : κ} {l : List α}
    (h : StrictlySorted key (b :: l)) (hk : k < key b) (hc : c ∈ b :: l) : key c ≠ k := by
  rcases List.mem_cons.mp hc with rfl | hc
  · exact ne_of_gt hk
  · exact ne_of_gt (hk.trans ((List.pairwise_cons.mp h).1 c hc))

theorem valid_map_drop {m : κ → Option α} {old : List α} (hold : StrictlySorted key old)
    (h : ∀ b ∈ old, m (key b) = some b) : Valid key m (old.map .drop) := by
  induction old generalizing m with
  | nil => trivial
  | cons b old ih =>
    refine ⟨h b List.mem_cons_self, ih (List.pairwise_cons.mp hold).2 fun c hc => ?_⟩
    rw [Edit.apply, Function.update_of_ne (hold.ne_of_mem_tail hc)]
    exact h c (List.mem_cons_of_mem b hc)

theorem valid_map_add {m : κ → Option α} {new : List α} (hnew : StrictlySorted key new)
    (h : ∀ a ∈ new, m (key a) = none) : Valid key m (new.map .add) := by
  induction new generalizing m with
  | nil => trivial
  | cons a new ih =>
    refine ⟨h a List.mem_cons_self, ih (List.pairwise_cons.mp hnew).2 fun c hc => ?_⟩
    rw [Edit.apply, Function.update_of_ne (hnew.ne_of_mem_tail hc)]
    exact h c (List.mem_cons_of_mem a hc)

/-- **Every edit of the walk finds the map as it expects it.** -/
theorem valid_diff {m : κ → Option α} {new old : List α} (hnew : StrictlySorted key new)
    (hold : StrictlySorted key old) (h : Fits key m new old) : Valid key m (diff key new old) := by
  -- Along the walk, with the map free: what is left of it fits what is left of the lists.
  induction new, old using diff.induct key generalizing m with
  | case1 old =>
    rw [diff]
    exact valid_map_drop hold h.old
  | case2 new hne =>
    rw [diff]
    · exact valid_map_add hnew fun a ha => by rw [h.new a ha]; rfl
    · exact hne
  | case3 a new b old hlt ih =>
    rw [diff, if_pos hlt]
    have hnew' := List.pairwise_cons.mp hnew
    refine ⟨h.enabled_add hold hlt, ih hnew'.2 hold ?_⟩
    exact h.tail_new.update (fun c hc => hnew.ne_of_mem_tail hc)
      fun c hc => hold.ne_of_lt_head hlt hc
  | case4 a new b old hlt heq ih =>
    rw [diff, if_neg hlt, if_pos heq]
    have hnew' := List.pairwise_cons.mp hnew
    have hold' := List.pairwise_cons.mp hold
    refine ⟨⟨heq, ?_⟩, ih hnew'.2 hold'.2 ?_⟩
    · rw [heq]
      exact h.old b List.mem_cons_self
    · refine Fits.update (h.tail_new.tail_old fun c hc => ?_) (fun c hc => ?_) fun c hc => ?_
      · exact heq ▸ hnew.ne_of_mem_tail hc
      · exact hnew.ne_of_mem_tail hc
      · exact heq ▸ hold.ne_of_mem_tail hc
  | case5 a new b old hlt heq ih =>
    rw [diff, if_neg hlt, if_neg heq]
    have hgt : key b < key a := by
      apply lt_of_le_of_ne (not_lt.mp hlt)
      intro e
      exact heq e.symm
    have hold' := List.pairwise_cons.mp hold
    refine ⟨h.old b List.mem_cons_self, ih hnew hold'.2 ?_⟩
    refine Fits.update (h.tail_old fun c hc => ?_) (fun c hc => ?_) fun c hc => ?_
    · exact hnew.ne_of_lt_head hgt hc
    · exact hnew.ne_of_lt_head hgt hc
    · exact hold.ne_of_mem_tail hc

/-! ### What the edits lead to -/

/-- An edit moves the map of a list as it moves the list. -/
theorem Edit.apply_lookup {e : Edit α} {l : List α} (hnodup : ((e.old?.toList ++ l).map key).Nodup)
    (he : e.Enabled key (lookup key (e.old?.toList ++ l))) :
    e.apply key (lookup key (e.old?.toList ++ l)) = lookup key (e.new?.toList ++ l) ∧
      ((e.new?.toList ++ l).map key).Nodup := by
  cases e with
  | add a =>
    refine ⟨(lookup_cons a l).symm, List.nodup_cons.mpr ⟨?_, hnodup⟩⟩
    rw [List.mem_map]
    rintro ⟨b, hb, hkey⟩
    exact lookup_eq_none_iff.mp he b hb hkey
  | keep a b =>
    have hkey : key a = key b := he.1
    refine ⟨?_, ?_⟩
    · show Function.update (lookup key (b :: l)) (key a) (some a) = lookup key (a :: l)
      rw [lookup_cons, lookup_cons, ← hkey, Function.update_idem]
    · show (key a :: l.map key).Nodup
      rw [hkey]
      exact hnodup
  | drop b =>
    obtain ⟨hb, hnodup⟩ := List.nodup_cons.mp hnodup
    have hnone : lookup key l (key b) = none := by
      rw [lookup_eq_none_iff]
      exact fun c hc hkey => hb (hkey ▸ List.mem_map_of_mem hc)
    refine ⟨?_, hnodup⟩
    show Function.update (lookup key (b :: l)) (key b) none = lookup key l
    rw [lookup_cons, Function.update_idem, ← hnone, Function.update_eq_self]

theorem filterMap_old_cons (e : Edit α) (es : List (Edit α)) :
    (e :: es).filterMap Edit.old? = e.old?.toList ++ es.filterMap Edit.old? := by
  cases e <;> rfl

theorem filterMap_new_cons (e : Edit α) (es : List (Edit α)) :
    (e :: es).filterMap Edit.new? = e.new?.toList ++ es.filterMap Edit.new? := by
  cases e <;> rfl

/-- **Edits that find the map as they expect it lead from the old list to the new one**; what
neither of them touches may stand beside. -/
theorem foldl_apply_of_valid {es : List (Edit α)} {l : List α}
    (hnodup : ((es.filterMap Edit.old? ++ l).map key).Nodup)
    (hvalid : Valid key (lookup key (es.filterMap Edit.old? ++ l)) es) :
    es.foldl (Edit.apply key) (lookup key (es.filterMap Edit.old? ++ l)) =
        lookup key (es.filterMap Edit.new? ++ l) ∧
      ((es.filterMap Edit.new? ++ l).map key).Nodup := by
  induction es generalizing l with
  | nil => exact ⟨rfl, hnodup⟩
  | cons e es ih =>
    rw [filterMap_old_cons, List.append_assoc] at hnodup hvalid ⊢
    obtain ⟨he, hvalid⟩ := hvalid
    obtain ⟨hlookup, hnodup⟩ := Edit.apply_lookup hnodup he
    -- what the edit has put there stands beside what the others touch
    have hbeside : (e.new?.toList ++ (es.filterMap Edit.old? ++ l)).Perm
        (es.filterMap Edit.old? ++ (e.new?.toList ++ l)) := List.perm_append_comm_assoc ..
    rw [hlookup, lookup_perm hbeside hnodup] at hvalid
    obtain ⟨hfold, hnext⟩ := ih ((hbeside.map key).nodup_iff.mp hnodup) hvalid
    have hback : (es.filterMap Edit.new? ++ (e.new?.toList ++ l)).Perm
        ((e :: es).filterMap Edit.new? ++ l) := by
      rw [filterMap_new_cons, List.append_assoc]
      exact List.perm_append_comm_assoc ..
    rw [List.foldl_cons, hlookup, lookup_perm hbeside hnodup, hfold, lookup_perm hback hnext]
    exact ⟨rfl, (hback.map key).nodup_iff.mp hnext⟩

/-! ### What is added and what is kept -/

namespace Edit

/-- The element of an edit that is only in the new list. -/
def added : Edit α → Option α
  | add a => some a
  | keep _ _ => none
  | drop _ => none

/-- The elements of an edit for a key of both lists, the new one first. -/
def kept : Edit α → Option (α × α)
  | add _ => none
  | keep a b => some (a, b)
  | drop _ => none

/-- What an edit adds to the sum of a weight. -/
def change (weight : α → ℤ) : Edit α → ℤ
  | add a => weight a
  | keep a b => weight a - weight b
  | drop b => -weight b

end Edit

/-- The edits of the walk change the sum of a weight from that of the old list to that
of the new one. -/
theorem sum_change_diff (weight : α → ℤ) (new old : List α) :
    ((diff key new old).map (Edit.change weight)).sum =
      (new.map weight).sum - (old.map weight).sum := by
  induction new, old using diff.induct key with
  | case1 old =>
    rw [diff, List.map_map, List.map_nil, List.sum_nil, zero_sub, List.sum_neg, List.map_map]
    rfl
  | case2 new hne =>
    rw [diff]
    · rw [List.map_map, List.map_nil, List.sum_nil, sub_zero]
      rfl
    · exact hne
  | case3 a new b old hlt ih =>
    rw [diff, if_pos hlt, List.map_cons, List.sum_cons, ih]
    simp only [Edit.change, List.map_cons, List.sum_cons]
    ring
  | case4 a new b old hlt heq ih =>
    rw [diff, if_neg hlt, if_pos heq, List.map_cons, List.sum_cons, ih]
    simp only [Edit.change, List.map_cons, List.sum_cons]
    ring
  | case5 a new b old hlt heq ih =>
    rw [diff, if_neg hlt, if_neg heq, List.map_cons, List.sum_cons, ih]
    simp only [Edit.change, List.map_cons, List.sum_cons]
    ring

/-- A key below those of a sorted list is not found in it. -/
theorem lookup_of_lt_head {k : κ} {b : α} {old : List α} (hold : StrictlySorted key (b :: old))
    (h : k < key b) : lookup key (b :: old) k = none := by
  refine lookup_eq_none_iff.mpr fun c hc => ?_
  rcases List.mem_cons.mp hc with rfl | hc
  · exact h.ne'
  · exact (h.trans ((List.pairwise_cons.mp hold).1 c hc)).ne'

/-- The walk meets every element of the new list once, with that of its key in the old one. -/
theorem walk_diff {β : Type*} {f : Edit α → Option β} {g : α → Option α → Option β}
    (hadd : ∀ a, f (.add a) = g a none) (hkeep : ∀ a b, f (.keep a b) = g a (some b))
    (hdrop : ∀ b, f (.drop b) = none) {new old : List α} (hnew : StrictlySorted key new)
    (hold : StrictlySorted key old) :
    (diff key new old).filterMap f = new.filterMap fun a => g a (lookup key old (key a)) := by
  -- the keys of the new list are above those that the walk has left behind
  have htail : ∀ {b : α} {old : List α} {l : List α}, (∀ c ∈ l, key b < key c) →
      (l.filterMap fun a => g a (lookup key (b :: old) (key a))) =
        l.filterMap fun a => g a (lookup key old (key a)) := by
    intro b old l hl
    refine List.filterMap_congr fun c hc => ?_
    rw [lookup_cons_of_ne old (hl c hc).ne]
  induction new, old using diff.induct key with
  | case1 old =>
    rw [diff, List.filterMap_map, List.filterMap_nil]
    exact List.filterMap_eq_nil_iff.mpr fun b _ => hdrop b
  | case2 new hne =>
    rw [diff]
    · rw [List.filterMap_map]
      exact List.filterMap_congr fun a _ => hadd a
    · exact hne
  | case3 a new b old hlt ih =>
    rw [diff, if_pos hlt, List.filterMap_cons, List.filterMap_cons, hadd,
      ih (List.pairwise_cons.mp hnew).2 hold, lookup_of_lt_head hold hlt]
  | case4 a new b old hlt heq ih =>
    have hfound : lookup key (b :: old) (key a) = some b := heq ▸ lookup_cons_self b old
    have habove : ∀ c ∈ new, key b < key c := fun c hc => heq ▸ (List.pairwise_cons.mp hnew).1 c hc
    rw [diff, if_neg hlt, if_pos heq, List.filterMap_cons, List.filterMap_cons, hkeep, hfound,
      ih (List.pairwise_cons.mp hnew).2 (List.pairwise_cons.mp hold).2, htail habove]
  | case5 a new b old hlt heq ih =>
    have hgt : key b < key a := lt_of_le_of_ne (not_lt.mp hlt) fun e => heq e.symm
    have habove : ∀ c ∈ a :: new, key b < key c := by
      intro c hc
      rcases List.mem_cons.mp hc with rfl | hc
      · exact hgt
      · exact hgt.trans ((List.pairwise_cons.mp hnew).1 c hc)
    rw [diff, if_neg hlt, if_neg heq, List.filterMap_cons, hdrop,
      ih hnew (List.pairwise_cons.mp hold).2, htail habove]

/-- What is added is what the old list has no element for. -/
theorem filterMap_added_diff {new old : List α} (hnew : StrictlySorted key new)
    (hold : StrictlySorted key old) : (diff key new old).filterMap Edit.added =
      new.filter fun a => (lookup key old (key a)).isNone := by
  rw [walk_diff (g := fun a b => if b.isNone then some a else none) (fun _ => rfl) (fun _ _ => rfl)
    (fun _ => rfl) hnew hold]
  exact congrFun List.filterMap_eq_filter new

/-- What is kept is what the old list has an element for. -/
theorem filterMap_kept_diff {new old : List α} (hnew : StrictlySorted key new)
    (hold : StrictlySorted key old) : (diff key new old).filterMap Edit.kept =
      new.filterMap fun a => (lookup key old (key a)).map fun b => (a, b) :=
  walk_diff (fun _ => rfl) (fun _ _ => rfl) (fun _ => rfl) hnew hold

/-! ### The two lists and the order of the edits -/

namespace Edit

/-- The key of an edit. -/
def keyBy (key : α → κ) : Edit α → κ
  | add a => key a
  | keep a _ => key a
  | drop b => key b

end Edit

/-- The walk meets the two lists as they are. -/
theorem filterMap_diff (new old : List α) :
    (diff key new old).filterMap Edit.new? = new ∧
      (diff key new old).filterMap Edit.old? = old := by
  induction new, old using diff.induct key with
  | case1 old =>
    rw [diff, List.filterMap_map, List.filterMap_map]
    exact ⟨List.filterMap_eq_nil_iff.mpr fun _ _ => rfl, List.filterMap_some⟩
  | case2 new hne =>
    rw [diff]
    · rw [List.filterMap_map, List.filterMap_map]
      exact ⟨List.filterMap_some, List.filterMap_eq_nil_iff.mpr fun _ _ => rfl⟩
    · exact hne
  | case3 a new b old hlt ih =>
    rw [diff, if_pos hlt]
    exact ⟨congrArg (a :: ·) ih.1, ih.2⟩
  | case4 a new b old hlt heq ih =>
    rw [diff, if_neg hlt, if_pos heq]
    exact ⟨congrArg (a :: ·) ih.1, congrArg (b :: ·) ih.2⟩
  | case5 a new b old hlt heq ih =>
    rw [diff, if_neg hlt, if_neg heq]
    exact ⟨ih.1, congrArg (b :: ·) ih.2⟩

/-- The key of an edit is below those that the walk still has to meet. -/
theorem Edit.From.lt_key {k : κ} {new old : List α} {e : Edit α} (h : e.From key new old)
    (hnew : ∀ a ∈ new, k < key a) (hold : ∀ b ∈ old, k < key b) : k < e.keyBy key := by
  cases e with
  | add a => exact hnew a h
  | keep a b => exact hnew a h.1
  | drop b => exact hold b h

/-- **The edits are in the order of their keys.** -/
theorem strictlySorted_diff {new old : List α} (hnew : StrictlySorted key new)
    (hold : StrictlySorted key old) : StrictlySorted (Edit.keyBy key) (diff key new old) := by
  induction new, old using diff.induct key with
  | case1 old =>
    rw [diff]
    exact List.pairwise_map.mpr hold
  | case2 new hne =>
    rw [diff]
    · exact List.pairwise_map.mpr hnew
    · exact hne
  | case3 a new b old hlt ih =>
    obtain ⟨ha, hnew⟩ := List.pairwise_cons.mp hnew
    obtain ⟨hb, -⟩ := List.pairwise_cons.mp hold
    rw [diff, if_pos hlt]
    refine List.pairwise_cons.mpr ⟨fun e he => (from_of_mem_diff key he).lt_key ha ?_, ih hnew hold⟩
    exact List.forall_mem_cons.mpr ⟨hlt, fun c hc => hlt.trans (hb c hc)⟩
  | case4 a new b old hlt heq ih =>
    obtain ⟨ha, hnew⟩ := List.pairwise_cons.mp hnew
    obtain ⟨hb, hold⟩ := List.pairwise_cons.mp hold
    rw [diff, if_neg hlt, if_pos heq]
    refine List.pairwise_cons.mpr ⟨fun e he => (from_of_mem_diff key he).lt_key ha ?_, ih hnew hold⟩
    exact fun c hc => heq.trans_lt (hb c hc)
  | case5 a new b old hlt heq ih =>
    have hgt : key b < key a := lt_of_le_of_ne (not_lt.mp hlt) fun e => heq e.symm
    obtain ⟨ha, -⟩ := List.pairwise_cons.mp hnew
    obtain ⟨hb, hold⟩ := List.pairwise_cons.mp hold
    rw [diff, if_neg hlt, if_neg heq]
    refine List.pairwise_cons.mpr ⟨fun e he => (from_of_mem_diff key he).lt_key ?_ hb, ih hnew hold⟩
    exact List.forall_mem_cons.mpr ⟨hgt, fun c hc => hgt.trans (ha c hc)⟩

/-! ### Replacing a range of keys -/

section Cutting

variable {p : α → Bool} {l : List α}

/-- Where `p` holds of an initial part only, cutting there is filtering. -/
theorem takeWhile_eq_filter (h : l.Pairwise fun a b => p b → p a) :
    l.takeWhile p = l.filter p := by
  induction l with
  | nil => rfl
  | cons a l ih =>
    have h' := List.pairwise_cons.mp h
    by_cases ha : p a
    · rw [List.takeWhile_cons_of_pos ha, List.filter_cons_of_pos ha, ih h'.2]
    · have hnone : l.filter p = [] := by
        rw [List.filter_eq_nil_iff]
        intro b hb hp
        exact ha (h'.1 b hb hp)
      rw [List.takeWhile_cons_of_neg ha, List.filter_cons_of_neg ha, hnone]

theorem dropWhile_eq_filter (h : l.Pairwise fun a b => p b → p a) :
    l.dropWhile p = l.filter fun a => !p a := by
  induction l with
  | nil => rfl
  | cons a l ih =>
    have h' := List.pairwise_cons.mp h
    by_cases ha : p a
    · rw [List.dropWhile_cons_of_pos ha, List.filter_cons_of_neg (by simp [ha]), ih h'.2]
    · have hall : (l.filter fun a => !p a) = l :=
        List.filter_eq_self.mpr fun b hb => by
          simpa using fun hp => ha (h'.1 b hb hp)
      rw [List.dropWhile_cons_of_neg ha, List.filter_cons_of_pos (by simp [ha]), hall]

end Cutting

variable (key)

/-- The elements below a key. -/
def below (lo : κ) (l : List α) : List α := l.takeWhile fun a => key a < lo

/-- What follows the elements below `lo`, up to and with `hi`. -/
def within (lo hi : κ) (l : List α) : List α :=
  (l.dropWhile fun a => key a < lo).takeWhile fun a => key a ≤ hi

/-- What follows these. -/
def above (lo hi : κ) (l : List α) : List α :=
  (l.dropWhile fun a => key a < lo).dropWhile fun a => key a ≤ hi

/-- The elements from `lo` to `hi` replaced by others. -/
def splice (lo hi : κ) (new l : List α) : List α := below key lo l ++ new ++ above key lo hi l

variable {key}

namespace StrictlySorted

variable {l : List α} (h : StrictlySorted key l)
include h

theorem filter (p : α → Bool) : StrictlySorted key (l.filter p) := List.Pairwise.filter p h

theorem below_eq (lo : κ) : below key lo l = l.filter fun a => key a < lo :=
  takeWhile_eq_filter (h.imp fun hab => by simpa using fun hb => hab.trans hb)

theorem dropWhile_eq (lo : κ) :
    (l.dropWhile fun a => key a < lo) = l.filter fun a => !decide (key a < lo) :=
  dropWhile_eq_filter (h.imp fun hab => by simpa using fun hb => hab.trans hb)

theorem mem_below {lo : κ} {a : α} : a ∈ below key lo l ↔ a ∈ l ∧ key a < lo := by
  rw [h.below_eq]
  simp

theorem mem_within {lo hi : κ} {a : α} :
    a ∈ within key lo hi l ↔ a ∈ l ∧ lo ≤ key a ∧ key a ≤ hi := by
  rw [within, h.dropWhile_eq, takeWhile_eq_filter]
  · simp [and_comm]
  · exact (h.filter _).imp fun hab => by simpa using fun hb => hab.le.trans hb

theorem mem_above {lo hi : κ} {a : α} :
    a ∈ above key lo hi l ↔ a ∈ l ∧ lo ≤ key a ∧ hi < key a := by
  rw [above, h.dropWhile_eq, dropWhile_eq_filter]
  · simp [and_comm]
  · exact (h.filter _).imp fun hab => by simpa using fun hb => hab.le.trans hb

theorem sublist {l' : List α} (hl : l'.Sublist l) : StrictlySorted key l' :=
  List.Pairwise.sublist hl h

theorem within (lo hi : κ) : StrictlySorted key (within key lo hi l) :=
  h.sublist ((List.takeWhile_sublist _).trans (List.dropWhile_sublist _))

theorem above (lo hi : κ) : StrictlySorted key (above key lo hi l) :=
  h.sublist ((List.dropWhile_sublist _).trans (List.dropWhile_sublist _))

/-- What a replaced range leaves. -/
theorem mem_splice (lo hi : κ) {new : List α} {a : α} :
    a ∈ splice key lo hi new l ↔ a ∈ new ∨ a ∈ l ∧ ¬ (lo ≤ key a ∧ key a ≤ hi) := by
  rw [splice, List.mem_append, List.mem_append, h.mem_below, h.mem_above]
  constructor
  · rintro ((⟨ha, hlo⟩ | ha) | ⟨ha, -, hhi⟩)
    · exact Or.inr ⟨ha, fun hin => absurd hin.1 (not_le.mpr hlo)⟩
    · exact Or.inl ha
    · exact Or.inr ⟨ha, fun hin => absurd hin.2 (not_le.mpr hhi)⟩
  · rintro (ha | ⟨ha, hout⟩)
    · exact Or.inl (Or.inr ha)
    · by_cases hlo : key a < lo
      · exact Or.inl (Or.inl ⟨ha, hlo⟩)
      · have hlo := not_lt.mp hlo
        exact Or.inr ⟨ha, hlo, not_le.mp fun hhi => hout ⟨hlo, hhi⟩⟩

theorem splice {lo hi : κ} (hle : lo ≤ hi) {new : List α} (hnew : StrictlySorted key new)
    (hin : ∀ a ∈ new, lo ≤ key a ∧ key a ≤ hi) : StrictlySorted key (splice key lo hi new l) := by
  refine List.pairwise_append.mpr ⟨List.pairwise_append.mpr ⟨?_, hnew, ?_⟩, h.above lo hi, ?_⟩
  · exact h.sublist (List.takeWhile_sublist _)
  · intro a ha b hb
    exact lt_of_lt_of_le (h.mem_below.mp ha).2 (hin b hb).1
  · intro a ha b hb
    have hb := (h.mem_above.mp hb).2.2
    rcases List.mem_append.mp ha with ha | ha
    · exact ((h.mem_below.mp ha).2.trans_le hle).trans hb
    · exact lt_of_le_of_lt (hin a ha).2 hb

/-- The range to be replaced agrees with the map on the keys of the range. -/
theorem fits_within {lo hi : κ} {new : List α} (hin : ∀ a ∈ new, lo ≤ key a ∧ key a ≤ hi) :
    Fits key (lookup key l) new (EveIndustryPlanner.within key lo hi l) where
  new a ha := by
    refine Option.ext fun b => ?_
    rw [lookup_eq_some_iff h, lookup_eq_some_iff (h.within lo hi), h.mem_within]
    constructor
    · rintro ⟨hb, e⟩
      exact ⟨⟨hb, e ▸ hin a ha⟩, e⟩
    · rintro ⟨⟨hb, -⟩, e⟩
      exact ⟨hb, e⟩
  old b hb := (lookup_eq_some_iff h).mpr ⟨(h.mem_within.mp hb).1, rfl⟩

end StrictlySorted

end SortedLists

end EveIndustryPlanner
