import EveIndustryPlanner.Industry.JobNames

/-!
# What jobs are for

Each generator makes jobs for different things, as far as what it is given is
different.  Only products can clash: their jobs are for a product and a
technology, not for a blueprint.

## Main definitions

* `marketIDs`, `researchIDs`, `copyIDs`, `productIDs` — what the jobs are for.
* `Named` — jobs with the names of what they are for.

## Main results

* `nodup_marketIDs`, `nodup_researchIDs`, `nodup_copyIDs` — jobs for different
  orders, inventions and blueprints.
* `nodup_productIDs_iff` — **products clash exactly if two blueprints of the same
  technology make the same.**
-/

namespace EveIndustryPlanner
namespace Industry

open Planning

/-- The families of jobs. -/
def JobID.family : JobID → Fin 5
  | facility _ => 0
  | planetary _ _ _ => 0
  | buy _ _ => 1
  | sell _ _ => 1
  | produce _ _ _ => 2
  | research _ _ _ => 3
  | copy _ => 4

section IDs

variable {K : Type} (x : PlannerAndStuff K)

/-! ### Trades -/

/-- What a trade is for. -/
def tradeIDs (mk : TypeID → ℕ → JobID) (o : Order K) : List JobID :=
  match x.types.isBP o.type with
  | .ok false => [mk o.type o.id]
  | _ => []

/-- What the trades are for. -/
def marketIDs (orders : Orders K) : List JobID :=
  orders.sellorders.flatMap (tradeIDs x .buy) ++ orders.buyorders.flatMap (tradeIDs x .sell)

theorem mem_tradeIDs {mk : TypeID → ℕ → JobID} {o : Order K} {j : JobID}
    (h : j ∈ tradeIDs x mk o) : j = mk o.type o.id := by
  unfold tradeIDs at h
  split at h
  · exact List.mem_singleton.mp h
  · exact absurd h List.not_mem_nil

theorem nodup_tradeIDs (mk : TypeID → ℕ → JobID) (o : Order K) : (tradeIDs x mk o).Nodup := by
  unfold tradeIDs
  split
  · exact List.nodup_singleton _
  · exact List.nodup_nil

/-- Trades are for different orders. -/
theorem nodup_marketIDs {orders : Orders K}
    (hids : ((orders.sellorders ++ orders.buyorders).map Order.id).Nodup) :
    (marketIDs x orders).Nodup ∧ ∀ j ∈ marketIDs x orders, j.family = 1 := by
  rw [List.map_append] at hids
  have hmem : ∀ {mk : TypeID → ℕ → JobID} {l : List (Order K)} {j : JobID},
      j ∈ l.flatMap (tradeIDs x mk) → ∃ o ∈ l, j = mk o.type o.id := by
    intro mk l j hj
    obtain ⟨o, ho, hj⟩ := List.mem_flatMap.mp hj
    exact ⟨o, ho, mem_tradeIDs x hj⟩
  refine ⟨?_, ?_⟩
  · rw [marketIDs, List.nodup_append']
    refine ⟨?_, ?_, ?_⟩
    · apply nodup_flatMap_of_key _ hids.of_append_left (fun o _ => nodup_tradeIDs x _ o)
      intro o _ o' _ j hj hj'
      exact (JobID.buy.inj ((mem_tradeIDs x hj).symm.trans (mem_tradeIDs x hj'))).2
    · apply nodup_flatMap_of_key _ hids.of_append_right (fun o _ => nodup_tradeIDs x _ o)
      intro o _ o' _ j hj hj'
      exact (JobID.sell.inj ((mem_tradeIDs x hj).symm.trans (mem_tradeIDs x hj'))).2
    · -- nothing is both bought and sold
      intro j hj hj'
      obtain ⟨o, -, rfl⟩ := hmem hj
      obtain ⟨o', -, ho'⟩ := hmem hj'
      exact absurd ho' (by simp)
  · intro j hj
    rcases List.mem_append.mp hj with hj | hj
    · obtain ⟨o, -, rfl⟩ := hmem hj
      rfl
    · obtain ⟨o, -, rfl⟩ := hmem hj
      rfl

/-! ### Inventions -/

/-- What the inventions of a product are for. -/
def researchIDs (r : Research K) : List JobID :=
  match x.values r.product with
  | none => []
  | some _ => decryptors.map fun d => .research r.blueprint d.decryptor r.product

theorem mem_researchIDs {r : Research K} {j : JobID} (h : j ∈ researchIDs x r) :
    ∃ d ∈ decryptors, j = .research r.blueprint d.decryptor r.product := by
  unfold researchIDs at h
  split at h
  · exact absurd h List.not_mem_nil
  · obtain ⟨d, hd, rfl⟩ := List.mem_map.mp h
    exact ⟨d, hd, rfl⟩

/-- The decryptors are different. -/
theorem nodup_decryptors : (decryptors.map DecryptorProperty.decryptor).Nodup := by decide

/-- Inventions are for different blueprints or products. -/
theorem nodup_researchIDs {rs : List (Research K)}
    (hkeys : (rs.map fun r => (r.blueprint, r.product)).Nodup) :
    (rs.flatMap (researchIDs x)).Nodup ∧ ∀ j ∈ rs.flatMap (researchIDs x), j.family = 3 := by
  refine ⟨nodup_flatMap_of_key _ hkeys ?_ ?_, ?_⟩
  · intro r _
    unfold researchIDs
    split
    · exact List.nodup_nil
    · have hdistinct := nodup_decryptors
      rw [List.Nodup, List.pairwise_map] at hdistinct ⊢
      apply hdistinct.imp
      intro d d' hne heq
      exact hne (JobID.research.inj heq).2.1
  · intro r _ r' _ j hj hj'
    obtain ⟨d, -, rfl⟩ := mem_researchIDs x hj
    obtain ⟨d', -, heq⟩ := mem_researchIDs x hj'
    obtain ⟨hblueprint, -, hproduct⟩ := JobID.research.inj heq
    rw [hblueprint, hproduct]
  · intro j hj
    obtain ⟨r, -, hj⟩ := List.mem_flatMap.mp hj
    obtain ⟨d, -, rfl⟩ := mem_researchIDs x hj
    rfl

/-! ### Copies -/

/-- What the copies of a blueprint are for. -/
def copyIDs (c : Copying) : List JobID :=
  match x.values c.blueprint with
  | none => []
  | some _ => [.copy c.blueprint]

theorem mem_copyIDs {c : Copying} {j : JobID} (h : j ∈ copyIDs x c) : j = .copy c.blueprint := by
  unfold copyIDs at h
  split at h
  · exact absurd h List.not_mem_nil
  · exact List.mem_singleton.mp h

/-- Copies are for different blueprints. -/
theorem nodup_copyIDs {cs : List Copying} (hkeys : (cs.map Copying.blueprint).Nodup) :
    (cs.flatMap (copyIDs x)).Nodup ∧ ∀ j ∈ cs.flatMap (copyIDs x), j.family = 4 := by
  refine ⟨nodup_flatMap_of_key _ hkeys ?_ ?_, ?_⟩
  · intro c _
    unfold copyIDs
    split
    · exact List.nodup_nil
    · exact List.nodup_singleton _
  · intro c _ c' _ j hj hj'
    exact JobID.copy.inj ((mem_copyIDs x hj).symm.trans (mem_copyIDs x hj'))
  · intro j hj
    obtain ⟨c, -, hj⟩ := List.mem_flatMap.mp hj
    rw [mem_copyIDs x hj]
    rfl

/-! ### Products -/

variable [LinearOrder K]

/-- What the jobs for one efficiency of a blueprint are for. -/
def efficiencyIDs (p : Production K) (techLevel : TechLevel) (bpe : BlueprintEfficiency) :
    List JobID :=
  (if techLevel = .T1 ∧ affordable x p.blueprint then [.produce techLevel none p.product]
    else []) ++ [.produce techLevel (some bpe) p.product]

/-- What the jobs of a product are for. -/
def productIDs (p : Production K) : List JobID :=
  match x.types.getBPTechLevel p.blueprint with
  | .ok techLevel => (bpeList (techLevel = .T1)).flatMap (efficiencyIDs x p techLevel)
  | .error _ => []

theorem mem_efficiencyIDs {p : Production K} {techLevel : TechLevel} {bpe : BlueprintEfficiency}
    {j : JobID} (h : j ∈ efficiencyIDs x p techLevel bpe) :
    (techLevel = .T1 ∧ j = .produce techLevel none p.product) ∨
      j = .produce techLevel (some bpe) p.product := by
  rcases List.mem_append.mp h with h | h
  · split at h
    · next hbpo => exact Or.inl ⟨hbpo.1, List.mem_singleton.mp h⟩
    · exact absurd h List.not_mem_nil
  · exact Or.inr (List.mem_singleton.mp h)

/-- The jobs of a product are for the product and its technology. -/
theorem mem_productIDs {p : Production K} {j : JobID} (h : j ∈ productIDs x p) :
    ∃ techLevel bpe, x.types.getBPTechLevel p.blueprint = .ok techLevel ∧
      j = .produce techLevel bpe p.product := by
  unfold productIDs at h
  split at h
  · next techLevel hlevel =>
    obtain ⟨bpe, -, hj⟩ := List.mem_flatMap.mp h
    rcases mem_efficiencyIDs x hj with ⟨-, hj⟩ | hj
    · exact ⟨techLevel, none, hlevel, hj⟩
    · exact ⟨techLevel, some bpe, hlevel, hj⟩
  · exact absurd h List.not_mem_nil

/-- A product has a job for the first efficiency at least. -/
theorem exists_mem_productIDs {p : Production K} {techLevel : TechLevel}
    (h : x.types.getBPTechLevel p.blueprint = .ok techLevel) :
    JobID.produce techLevel ((bpeList (techLevel = .T1)).head?) p.product ∈ productIDs x p := by
  rw [productIDs, h]
  cases hlist : bpeList (decide (techLevel = .T1)) with
  | nil => exact absurd hlist (bpeList_ne_nil _)
  | cons bpe rest =>
    have hbpe : bpe ∈ bpeList (decide (techLevel = .T1)) := by
      rw [hlist]
      exact List.mem_cons_self
    exact List.mem_flatMap.mpr ⟨bpe, hbpe, List.mem_append_right _ (List.mem_singleton_self _)⟩

theorem nodup_bpes : bpes.Nodup := by decide

/-- The jobs of one product are for different efficiencies. -/
theorem nodup_productIDs (p : Production K) : (productIDs x p).Nodup := by
  unfold productIDs
  split
  · next techLevel _ =>
    refine nodup_flatMap_of_key id ?_ ?_ ?_
    · rw [List.map_id]
      unfold bpeList
      split
      · exact List.nodup_singleton _
      · exact nodup_bpes
    · intro bpe _
      unfold efficiencyIDs
      split
      · simp
      · simp
    · intro bpe hbpe bpe' hbpe' j hj hj'
      -- for the first technology there is one efficiency, so its original is made once
      have hone : techLevel = .T1 → bpe = bpe' := by
        rintro rfl
        rw [List.mem_singleton.mp hbpe, List.mem_singleton.mp hbpe']
      rcases mem_efficiencyIDs x hj with ⟨hT1, -⟩ | rfl
      · exact hone hT1
      · rcases mem_efficiencyIDs x hj' with ⟨hT1, -⟩ | heq
        · exact hone hT1
        · exact Option.some.inj (JobID.produce.inj heq).2.1
  · exact List.nodup_nil

/-- **Products clash exactly if two blueprints of the same technology make the
same.** -/
theorem nodup_productIDs_iff {ps : List (Production K)}
    (hblueprints : (ps.map Production.blueprint).Nodup)
    (hlevels : ∀ p ∈ ps, ∃ techLevel, x.types.getBPTechLevel p.blueprint = .ok techLevel) :
    (ps.flatMap (productIDs x)).Nodup ↔ ∀ p ∈ ps, ∀ p' ∈ ps, p.product = p'.product →
      x.types.getBPTechLevel p.blueprint = x.types.getBPTechLevel p'.blueprint →
        p.blueprint = p'.blueprint := by
  constructor
  · intro hnodup p hp p' hp' hproduct hlevel
    by_contra hne
    -- both have the job for the first efficiency
    have hdisjoint : (productIDs x p).Disjoint (productIDs x p') := by
      have hsymm : Std.Symm (Function.onFun List.Disjoint (productIDs x)) :=
        ⟨fun _ _ h => List.Disjoint.symm h⟩
      exact (List.nodup_flatMap.mp hnodup).2.forall hp hp' fun e => hne (e ▸ rfl)
    obtain ⟨techLevel, htech⟩ := hlevels p hp
    have hj := exists_mem_productIDs x htech
    have hj' := exists_mem_productIDs x (hlevel ▸ htech)
    rw [hproduct] at hj
    exact hdisjoint hj hj'
  · intro hdistinct
    apply nodup_flatMap_of_key _ hblueprints (fun p _ => nodup_productIDs x p)
    intro p hp p' hp' j hj hj'
    obtain ⟨techLevel, bpe, hlevel, rfl⟩ := mem_productIDs x hj
    obtain ⟨techLevel', bpe', hlevel', heq⟩ := mem_productIDs x hj'
    obtain ⟨rfl, -, hproduct⟩ := JobID.produce.inj heq
    exact hdistinct p hp p' hp' hproduct (hlevel.trans hlevel'.symm)

end IDs

/-! ### Jobs with these names -/

section Names

variable {K : Type}

/-- The jobs have the names of what they are for. -/
def Named (jobs : List (Job Resource K)) (ids : List JobID) : Prop :=
  jobs.map Job.name = ids.map JobID.render

theorem Named.append {jobs jobs' : List (Job Resource K)} {ids ids' : List JobID}
    (h : Named jobs ids) (h' : Named jobs' ids') : Named (jobs ++ jobs') (ids ++ ids') := by
  rw [Named, List.map_append, List.map_append, h, h']

/-- Jobs have different names exactly if they are for different things. -/
theorem Named.nodup_iff {jobs : List (Job Resource K)} {ids : List JobID} (h : Named jobs ids) :
    (jobs.map Job.name).Nodup ↔ ids.Nodup := by
  rw [h, List.nodup_map_iff JobID.render_injective]

/-- What the jobs of a loop are for. -/
theorem named_collectM {α : Type} {f : α → Except Failure (List (Job Resource K))}
    {g : α → List JobID} {l : List α} {jobs : List (Job Resource K)}
    (hf : ∀ a ∈ l, ∀ js, f a = .ok js → Named js (g a)) (h : collectM f l = .ok jobs) :
    Named jobs (l.flatMap g) := by
  rw [Named, List.map_flatMap]
  exact collectM_map hf h

variable {x : PlannerAndStuff K}

theorem named_tradeJobs {trade : Resource → Order K → Job Resource K} {mk : TypeID → ℕ → JobID}
    (htrade : ∀ o : Order K, (trade (.item o.type) o).name = (mk o.type o.id).render)
    {o : Order K} {jobs : List (Job Resource K)} (h : tradeJobs x trade o = .ok jobs) :
    Named jobs (tradeIDs x mk o) := by
  obtain ⟨isBP, hBP, h⟩ := bind_eq_ok h
  rw [tradeIDs, hBP]
  cases isBP with
  | true =>
    obtain rfl := Except.ok.inj h
    rfl
  | false =>
    obtain ⟨resource, hresource, h⟩ := bind_eq_ok h
    obtain rfl := Except.ok.inj h
    obtain ⟨name, -, hresource⟩ := bind_eq_ok hresource
    obtain rfl := Except.ok.inj hresource
    exact congrArg (fun n => [n]) (htrade o)

variable [Field K]

theorem named_getMarketJobs {orders : Orders K} {jobs : List (Job Resource K)}
    (h : getMarketJobs x orders = .ok jobs) : Named jobs (marketIDs x orders) := by
  obtain ⟨buys, hbuys, h⟩ := bind_eq_ok h
  obtain ⟨sells, hsells, h⟩ := bind_eq_ok h
  obtain rfl := Except.ok.inj h
  exact (named_collectM (fun o _ js => named_tradeJobs fun _ => rfl) hbuys).append
    (named_collectM (fun o _ js => named_tradeJobs fun _ => rfl) hsells)

/-- The inventions of a product, with all decryptors. -/
theorem named_inventionJobs {getBlueprint : TypeID → Except Failure Resource} {r : Research K}
    {jobs : List (Job Resource K)}
    (h : collectM (inventionJobs x getBlueprint r) decryptors = .ok jobs) :
    Named jobs (researchIDs x r) := by
  unfold researchIDs
  cases hvalue : x.values r.product with
  | none =>
    have hnone : ∀ d ∈ decryptors, ∀ js, inventionJobs x getBlueprint r d = .ok js →
        Named js [] := by
      intro d _ js hjs
      rw [inventionJobs, hvalue] at hjs
      obtain rfl := Except.ok.inj hjs
      rfl
    have hnamed := named_collectM hnone h
    rwa [List.flatMap_eq_nil_iff.mpr fun _ _ => rfl] at hnamed
  | some v =>
    have hone : ∀ d ∈ decryptors, ∀ js, inventionJobs x getBlueprint r d = .ok js →
        Named js [.research r.blueprint d.decryptor r.product] := by
      intro d _ js hjs
      rw [inventionJobs, hvalue] at hjs
      obtain ⟨materials, -, hjs⟩ := bind_eq_ok hjs
      obtain ⟨decryptor, -, hjs⟩ := bind_eq_ok hjs
      obtain ⟨bp, -, hjs⟩ := bind_eq_ok hjs
      obtain ⟨product, -, hjs⟩ := bind_eq_ok hjs
      obtain ⟨name, -, hjs⟩ := bind_eq_ok hjs
      obtain rfl := Except.ok.inj hjs
      rfl
    have hnamed := named_collectM hone h
    rwa [← List.map_eq_flatMap] at hnamed

theorem named_copyJobs {c : Copying} {jobs : List (Job Resource K)}
    (h : copyJobs x c = .ok jobs) : Named jobs (copyIDs x c) := by
  rw [copyJobs] at h
  rw [copyIDs]
  cases hvalue : x.values c.blueprint with
  | none =>
    rw [hvalue] at h
    obtain rfl := Except.ok.inj h
    rfl
  | some v =>
    rw [hvalue] at h
    obtain ⟨bpo, -, h⟩ := bind_eq_ok h
    obtain ⟨bpc, -, h⟩ := bind_eq_ok h
    obtain rfl := Except.ok.inj h
    rfl

variable [LinearOrder K] [FloorRing K]

/-- The jobs of a product that is not ignored. -/
theorem named_productJobs {p : Production K} (hignored : p.blueprint ∉ x.settings.ignoreList)
    (hbp : (x.names p.blueprint).isSome) {jobs : List (Job Resource K)}
    (h : productJobs x p = .ok jobs) :
    (∃ techLevel, x.types.getBPTechLevel p.blueprint = .ok techLevel) ∧
      Named jobs (productIDs x p) := by
  have hclear : Clear x.names x.types p := by
    by_contra hnot
    obtain ⟨e, he, -⟩ := productJobs_of_not_clear hnot hignored
    rw [h] at he
    exact absurd he (by simp)
  obtain ⟨techLevel, hlevel⟩ := hclear.techLevel
  refine ⟨⟨techLevel, hlevel⟩, ?_⟩
  rw [productJobs, if_neg hignored, Types.isT1BP_of_techLevel hlevel, ok_bind] at h
  rw [productIDs, hlevel]
  refine named_collectM ?_ h
  intro bpe _ js hjs
  have hjobs := manufacturingJobs_of_clear hclear hbp hlevel bpe
  cases hvalue : x.values p.product with
  | none =>
    rw [hjobs.1 hvalue] at hjs
    exact absurd hjs (by simp)
  | some v =>
    obtain ⟨js', hjs', hnames⟩ := hjobs.2 (by rw [hvalue]; rfl)
    obtain rfl := Except.ok.inj (hjs'.symm.trans hjs)
    rw [Named, hnames, manufacturingNames, efficiencyIDs, List.map_append]
    split
    · rfl
    · rfl

end Names

end Industry
end EveIndustryPlanner
