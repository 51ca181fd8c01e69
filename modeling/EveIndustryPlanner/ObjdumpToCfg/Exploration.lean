import EveIndustryPlanner.Lib.Worklist
import EveIndustryPlanner.ObjdumpToCfg.Blocks

/-!
# The control flow graph of a function

From the root of a function on, the blocks are gone through with a stack.  Each comes with
the addresses that the calls before it return to, and is left alone if it was come to in the
same way before.

## Main definitions

* `Search`, `iterateBb`, `iterate` — the variables of the loop, and one round of it.
* `Finishes` — how the program ends.
* `Reaches` — the blocks that the program may come to.

## Main results

* `cfg_spec` — **the graph has just the edges that some way takes.**
* `finishes_iff` — **when the program ends.**
* `callstack_of_reaches` — **a return always has an address to return to.**
* `not_finishes_of_recursion` — **the program never ends on a function that calls itself.**
-/

namespace EveIndustryPlanner
namespace ObjdumpToCfg

/-! ### The loop -/

/-- The variables of the loop, with the blocks that are to be looked at from the last one on. -/
structure Search where
  blockqueue : List Block
  cfg : ℤ → List ℤ
  pathsVisited : List Block
  indirects : List ℤ

/-- The root is come to from nowhere, and returns to nowhere. -/
def rootBlock (root : ℤ) : Block := ⟨0, some root, [0]⟩

/-- The variables before the loop. -/
def start (root : ℤ) : Search := ⟨[rootBlock root], fun _ => [], [], []⟩

/-- One more edge, if it is not there. -/
def addEdge (cfg : ℤ → List ℤ) (source target : ℤ) : ℤ → List ℤ :=
  Function.update cfg source
    (if target ∈ cfg source then cfg source else cfg source ++ [target])

/-- Look at one block; `none` stands for an exception. -/
def iterateBb (objdump : List Instruction) (b : Block) (s : Search) : Option Search :=
  match b.blockaddr with
  -- a text is no address, and not even printed
  | none => none
  | some blockaddr =>
    if blockaddr = 0 ∨ blockaddr = -1 then some s
    else
      let cfg := addEdge s.cfg b.source blockaddr
      if b ∈ s.pathsVisited then some { s with cfg := cfg }
      else (transfer objdump blockaddr b.callstack).map fun t =>
        ⟨t.pushed.reverse ++ s.blockqueue, cfg, s.pathsVisited ++ [b], s.indirects ++ t.indirects⟩

/-- One round of the loop, which ends with an empty stack or an exception. -/
def iterate (objdump : List Instruction) (s : Search) : Option Search :=
  match s.blockqueue with
  | [] => none
  | b :: blockqueue => iterateBb objdump b { s with blockqueue := blockqueue }

/-- How the program ends, with a name and a file. -/
def Finishes (rootName file : List Char) (s : Search) : Prop :=
  ∃ d n, readDump rootName file = some d ∧ EndsAfter (iterate d.objdump) n (start d.root) s ∧
    s.blockqueue = []

/-! ### Where a block leads to -/

/-- The blocks that are not looked at. -/
def isStop (b : Block) : Bool := b.blockaddr = some 0 ∨ b.blockaddr = some (-1)

/-- The blocks that a block leads to. -/
def leadsTo (objdump : List Instruction) (b : Block) : Option (List Block) :=
  b.blockaddr.bind fun blockaddr => (transfer objdump blockaddr b.callstack).map Transfer.pushed

/-- The indirect transfers of a block. -/
def indirectsOf (objdump : List Instruction) (b : Block) : List ℤ :=
  ((b.blockaddr.bind fun blockaddr => transfer objdump blockaddr b.callstack).map
    Transfer.indirects).getD []

/-- A block that is come to from the root. -/
abbrev Reached (objdump : List Instruction) (root : ℤ) (b : Block) : Prop :=
  Worklist.Reached (leadsTo objdump) isStop (rootBlock root) b

/-- A block that the program may come to. -/
def Reaches (rootName file : List Char) (b : Block) : Prop :=
  ∃ d, readDump rootName file = some d ∧ Reached d.objdump d.root b

/-- The variables are those of a worklist, with the edges and the indirect transfers of the
blocks that were looked at. -/
structure Search.Ok (objdump : List Instruction) (s : Search) : Prop where
  isSome : ∀ b ∈ s.pathsVisited, b.blockaddr.isSome
  cfg : ∀ source target, target ∈ s.cfg source ↔
    ∃ callstack, ⟨source, some target, callstack⟩ ∈ s.pathsVisited
  nodup : ∀ source, (s.cfg source).Nodup
  indirects : s.indirects = s.pathsVisited.flatMap (indirectsOf objdump)

def Search.toWorklist (s : Search) : Worklist Block := ⟨s.blockqueue, s.pathsVisited⟩

theorem ok_start (objdump : List Instruction) (root : ℤ) : (start root).Ok objdump where
  isSome b hb := absurd hb List.not_mem_nil
  cfg source target := by simp [start]
  nodup source := List.nodup_nil
  indirects := rfl

theorem mem_addEdge {cfg : ℤ → List ℤ} {source target source' target' : ℤ} :
    target' ∈ addEdge cfg source target source' ↔
      target' ∈ cfg source' ∨ source' = source ∧ target' = target := by
  by_cases hsource : source' = source
  · subst hsource
    rw [addEdge, Function.update_self]
    split
    · next hmem =>
      constructor
      · exact Or.inl
      · rintro (h | ⟨-, rfl⟩)
        · exact h
        · exact hmem
    · simp
  · rw [addEdge, Function.update_of_ne hsource]
    simp [hsource]

theorem nodup_addEdge {cfg : ℤ → List ℤ} (h : ∀ source, (cfg source).Nodup)
    (source target source' : ℤ) : (addEdge cfg source target source').Nodup := by
  by_cases hsource : source' = source
  · subst hsource
    rw [addEdge, Function.update_self]
    split
    · exact h source'
    · next hnew =>
      refine List.nodup_append.mpr ⟨h source', List.nodup_singleton _, ?_⟩
      rintro a ha b hb rfl
      obtain rfl := List.mem_singleton.mp hb
      exact hnew ha
  · rw [addEdge, Function.update_of_ne hsource]
    exact h source'

/-- **What one round does**: it drops a block, or looks at it. -/
theorem iterateBb_cases {objdump : List Instruction} {b : Block} {s s' : Search}
    (h : iterateBb objdump b s = some s') : ∃ blockaddr, b.blockaddr = some blockaddr ∧
      ((blockaddr = 0 ∨ blockaddr = -1) ∧ s' = s ∨
        ¬ (blockaddr = 0 ∨ blockaddr = -1) ∧
          (b ∈ s.pathsVisited ∧ s' = { s with cfg := addEdge s.cfg b.source blockaddr } ∨
            b ∉ s.pathsVisited ∧ ∃ t, transfer objdump blockaddr b.callstack = some t ∧
              s' = ⟨t.pushed.reverse ++ s.blockqueue, addEdge s.cfg b.source blockaddr,
                s.pathsVisited ++ [b], s.indirects ++ t.indirects⟩)) := by
  unfold iterateBb at h
  split at h
  · cases h
  · next blockaddr hblockaddr =>
    refine ⟨blockaddr, hblockaddr, ?_⟩
    split at h
    · next hstop => exact Or.inl ⟨hstop, (Option.some.inj h).symm⟩
    · next hstop =>
      refine Or.inr ⟨hstop, ?_⟩
      dsimp only at h
      split at h
      · next hold => exact Or.inl ⟨hold, (Option.some.inj h).symm⟩
      · next hnew =>
        obtain ⟨t, ht, rfl⟩ := Option.map_eq_some_iff.mp h
        exact Or.inr ⟨hnew, t, ht, rfl⟩

/-- A round keeps the edges and the indirect transfers in step with the blocks. -/
theorem Search.Ok.iterate {objdump : List Instruction} {s s' : Search} (h : s.Ok objdump)
    (hstep : iterate objdump s = some s') : s'.Ok objdump := by
  unfold ObjdumpToCfg.iterate at hstep
  split at hstep
  · cases hstep
  · next b blockqueue hqueue =>
    obtain ⟨blockaddr, hblockaddr, ⟨-, rfl⟩ | ⟨-, ⟨hold, rfl⟩ | ⟨hnew, t, ht, rfl⟩⟩⟩ :=
      iterateBb_cases hstep
    · exact ⟨h.isSome, h.cfg, h.nodup, h.indirects⟩
    · refine ⟨h.isSome, fun source target => ?_, nodup_addEdge h.nodup _ _, h.indirects⟩
      -- the edge is there since the block was looked at
      rw [mem_addEdge, h.cfg]
      constructor
      · rintro (hmem | ⟨rfl, rfl⟩)
        · exact hmem
        · refine ⟨b.callstack, ?_⟩
          rw [← hblockaddr]
          exact hold
      · exact Or.inl
    · refine ⟨?_, fun source target => ?_, nodup_addEdge h.nodup _ _, ?_⟩
      · intro b' hb'
        rcases List.mem_append.mp hb' with hb' | hb'
        · exact h.isSome b' hb'
        · obtain rfl := List.mem_singleton.mp hb'
          rw [hblockaddr]
          rfl
      · rw [mem_addEdge, h.cfg]
        constructor
        · rintro (⟨callstack, hmem⟩ | ⟨rfl, rfl⟩)
          · exact ⟨callstack, List.mem_append_left _ hmem⟩
          · refine ⟨b.callstack, List.mem_append_right _ (List.mem_singleton.mpr ?_)⟩
            rw [← hblockaddr]
        · rintro ⟨callstack, hmem⟩
          rcases List.mem_append.mp hmem with hmem | hmem
          · exact Or.inl ⟨callstack, hmem⟩
          · have heq := List.mem_singleton.mp hmem
            subst heq
            exact Or.inr ⟨rfl, Option.some.inj hblockaddr⟩
      · have hindirects : indirectsOf objdump b = t.indirects := by
          rw [indirectsOf, hblockaddr, Option.bind_some, ht, Option.map_some, Option.getD_some]
        rw [List.flatMap_append, List.flatMap_singleton, hindirects]
        exact congrArg (· ++ t.indirects) h.indirects

/-- A round is a step of the worklist. -/
theorem step_toWorklist {objdump : List Instruction} {s : Search} (h : s.Ok objdump) :
    Worklist.step (leadsTo objdump) isStop s.toWorklist =
      (iterate objdump s).map Search.toWorklist := by
  rw [Worklist.step, iterate, Search.toWorklist]
  dsimp only
  cases s.blockqueue with
  | nil => rfl
  | cons b blockqueue =>
    dsimp only
    rw [iterateBb]
    cases hblockaddr : b.blockaddr with
    | none =>
      have hnew : ¬ b ∈ s.pathsVisited := by
        intro hmem
        have := h.isSome b hmem
        rw [hblockaddr] at this
        cases this
      have hstop : ¬ isStop b = true := by
        rw [isStop, hblockaddr]
        decide
      rw [if_neg (not_or.mpr ⟨hstop, hnew⟩), leadsTo, hblockaddr]
      rfl
    | some blockaddr =>
      have hstop : isStop b = true ↔ blockaddr = 0 ∨ blockaddr = -1 := by
        rw [isStop, hblockaddr]
        simp
      dsimp only
      by_cases hzero : blockaddr = 0 ∨ blockaddr = -1
      · rw [if_pos (Or.inl (hstop.mpr hzero)), if_pos hzero]
        rfl
      · rw [if_neg hzero]
        by_cases hold : b ∈ s.pathsVisited
        · rw [if_pos (Or.inr hold), if_pos hold]
          rfl
        · rw [if_neg (not_or.mpr ⟨mt hstop.mp hzero, hold⟩), if_neg hold, leadsTo, hblockaddr,
            Option.bind_some, Option.map_map, Option.map_map]
          rfl

/-! ### How the program ends -/

section Ends

variable {objdump : List Instruction} {root : ℤ}

theorem keepsOk (s s' : Search) (h : s.Ok objdump) (hstep : iterate objdump s = some s') :
    s'.Ok objdump := h.iterate hstep

theorem ok_of_endsAfter {n : ℕ} {s : Search} (h : EndsAfter (iterate objdump) n (start root) s) :
    s.Ok objdump :=
  follow_keeps keepsOk (ok_start objdump root) h.1

theorem endsAfter_toWorklist {n : ℕ} {s : Search}
    (h : EndsAfter (iterate objdump) n (start root) s) :
    EndsAfter (Worklist.step (leadsTo objdump) isStop) n (Worklist.start (rootBlock root))
      s.toWorklist :=
  h.map keepsOk (fun _ => step_toWorklist) (ok_start objdump root)

/-- The blocks that were looked at in the end. -/
theorem mem_pathsVisited_iff {n : ℕ} {s : Search}
    (h : EndsAfter (iterate objdump) n (start root) s) (hqueue : s.blockqueue = []) {b : Block} :
    b ∈ s.pathsVisited ↔ Reached objdump root b :=
  Worklist.mem_visited_iff (endsAfter_toWorklist h) hqueue

end Ends

variable {rootName file : List Char}

/-- **The graph has just the edges that some way takes**, each of them once, and an indirect
transfer is counted once for each way to its block. -/
theorem cfg_spec {s : Search} (h : Finishes rootName file s) :
    (∀ source target, target ∈ s.cfg source ↔
      ∃ callstack, Reaches rootName file ⟨source, some target, callstack⟩) ∧
    (∀ source, (s.cfg source).Nodup) ∧
    ∃ (d : Dump) (paths : List Block), readDump rootName file = some d ∧ paths.Nodup ∧
      (∀ b, b ∈ paths ↔ Reaches rootName file b) ∧
      s.indirects = paths.flatMap (indirectsOf d.objdump) := by
  obtain ⟨d, n, hd, hends, hqueue⟩ := h
  have hok := ok_of_endsAfter hends
  have hreaches : ∀ b, b ∈ s.pathsVisited ↔ Reaches rootName file b := by
    intro b
    rw [mem_pathsVisited_iff hends hqueue]
    constructor
    · exact fun hb => ⟨d, hd, hb⟩
    · rintro ⟨d', hd', hb⟩
      obtain rfl := Option.some.inj (hd.symm.trans hd')
      exact hb
  refine ⟨fun source target => ?_, hok.nodup, d, s.pathsVisited, hd, ?_, hreaches, hok.indirects⟩
  · rw [hok.cfg]
    exact exists_congr fun callstack => hreaches _
  · exact ((Worklist.explores_start _ _ _).follow (endsAfter_toWorklist hends).1).nodup

theorem finishes_of_follow {d : Dump} (hd : readDump rootName file = some d) {n : ℕ} {s : Search}
    (hs : follow (iterate d.objdump) n (start d.root) = some s) (hqueue : s.blockqueue = []) :
    Finishes rootName file s :=
  ⟨d, n, hd, ⟨hs, by rw [iterate, hqueue]⟩, hqueue⟩

theorem cfg_spec_caller : ∃ s, Finishes "main".toList callerFile s ∧
    ∃ callstack, Reaches "main".toList callerFile ⟨0x1000, some 0x100a, callstack⟩ := by
  have hrun : (follow (iterate callerDump.objdump) 4 (start callerDump.root)).map
      (fun s => (s.blockqueue, s.cfg 0x1000)) = some ([], [0x100a]) := by
    decide +kernel
  obtain ⟨s, hs, heq⟩ := Option.map_eq_some_iff.mp hrun
  obtain ⟨hqueue, hcfg⟩ := Prod.mk.inj heq
  have hfinishes := finishes_of_follow readDump_caller hs hqueue
  refine ⟨s, hfinishes, ((cfg_spec hfinishes).1 0x1000 0x100a).mp ?_⟩
  rw [hcfg]
  exact List.mem_singleton_self _

/-- **When the program ends**: the file is read, no more than finitely many blocks are come
to, with the addresses they return to, and none of them raises an exception. -/
theorem finishes_iff : (∃ s, Finishes rootName file s) ↔
    ∃ d, readDump rootName file = some d ∧ {b | Reached d.objdump d.root b}.Finite ∧
      ∀ b, Reached d.objdump d.root b → (leadsTo d.objdump b).isSome := by
  constructor
  · rintro ⟨s, d, n, hd, hends, hqueue⟩
    exact ⟨d, hd, Worklist.ends_iff.mp ⟨n, s.toWorklist, endsAfter_toWorklist hends, hqueue⟩⟩
  · rintro ⟨d, hd, h⟩
    obtain ⟨n, w, hends, hqueue⟩ := Worklist.ends_iff.mpr h
    obtain ⟨s, rfl, hs⟩ := EndsAfter.of_map keepsOk (fun _ => step_toWorklist)
      (ok_start d.objdump d.root) (f := Search.toWorklist) (a := start d.root) hends
    exact ⟨s, d, n, hd, hs, hqueue⟩

/-! ### Addresses to return to -/

section Returns

variable {objdump : List Instruction} {root : ℤ}

theorem leadsTo_eq_some {b : Block} {bs : List Block} (h : leadsTo objdump b = some bs) :
    ∃ blockaddr i t, b.blockaddr = some blockaddr ∧ getObjdumpIndex blockaddr objdump = some i ∧
      scan blockaddr b.callstack false none (objdump.drop i) = some t ∧ bs = t.pushed := by
  obtain ⟨blockaddr, hblockaddr, h⟩ := Option.bind_eq_some_iff.mp h
  obtain ⟨t, ht, rfl⟩ := Option.map_eq_some_iff.mp h
  obtain ⟨i, hi, hscan⟩ := Option.bind_eq_some_iff.mp ht
  exact ⟨blockaddr, i, t, hblockaddr, hi, hscan, rfl⟩

theorem IsReturnAddress.of_drop {a : ℤ} {i : ℕ} (h : IsReturnAddress (objdump.drop i) a) :
    IsReturnAddress objdump a := by
  obtain ⟨before, address, text, behind, target, read, hdrop, h⟩ := h
  refine ⟨objdump.take i ++ before, address, text, behind, target, read, ?_, h⟩
  rw [List.append_assoc, ← hdrop, List.take_append_drop]

/-- What is looked at returns to addresses behind calls, and last of all to the root's. -/
theorem callstack_of_reached {b : Block} (h : Reached objdump root b) :
    ∃ returns, b.callstack = 0 :: returns ∧ ∀ a ∈ returns, IsReturnAddress objdump a := by
  induction h with
  | root _ => exact ⟨[], rfl, fun a ha => absurd ha List.not_mem_nil⟩
  | next hreached hnext hmem hstop ih =>
    obtain ⟨returns, hcallstack, hreturns⟩ := ih
    obtain ⟨blockaddr, i, t, -, -, hscan, rfl⟩ := leadsTo_eq_some hnext
    rcases callstack_of_scan hscan _ hmem with hsame | ⟨a, ha, hcall⟩ | ⟨a, ha, hblock, hret⟩
    · exact ⟨returns, hsame.trans hcallstack, hreturns⟩
    · refine ⟨returns ++ [a], by rw [hcall, hcallstack, List.cons_append], ?_⟩
      intro a' ha'
      rcases List.mem_append.mp ha' with ha' | ha'
      · exact hreturns a' ha'
      · obtain rfl := List.mem_singleton.mp ha'
        exact ha.of_drop
    · cases returns with
      | nil =>
        -- the root returns to an address that is not looked at
        rw [hcallstack] at ha
        obtain rfl := Option.some.inj ha
        rw [isStop, hblock] at hstop
        exact absurd hstop (by decide)
      | cons a' returns =>
        refine ⟨(a' :: returns).dropLast, by rw [hret, hcallstack, List.dropLast_cons_cons], ?_⟩
        intro a'' ha''
        exact hreturns a'' (List.dropLast_subset _ ha'')

end Returns

/-- **A return always has an address to return to**: the addresses are those behind calls, with
that of the root below them, and a block that raises an exception would do so with any other
addresses. -/
theorem callstack_of_reaches {b : Block} (h : Reaches rootName file b) :
    ∃ (d : Dump) (returns : List ℤ), readDump rootName file = some d ∧
      b.callstack = 0 :: returns ∧ (∀ a ∈ returns, IsReturnAddress d.objdump a) ∧
      (leadsTo d.objdump b = none → ∀ callstack,
        leadsTo d.objdump { b with callstack := callstack } = none) := by
  obtain ⟨d, hd, hreached⟩ := h
  obtain ⟨returns, hcallstack, hreturns⟩ := callstack_of_reached hreached
  refine ⟨d, returns, hd, hcallstack, hreturns, fun hnone callstack => ?_⟩
  unfold leadsTo at hnone ⊢
  dsimp only
  cases hblockaddr : b.blockaddr with
  | none => rfl
  | some blockaddr =>
    rw [hblockaddr, Option.bind_some, Option.map_eq_none_iff] at hnone
    rw [Option.bind_some, Option.map_eq_none_iff]
    unfold transfer at hnone ⊢
    cases hindex : getObjdumpIndex blockaddr d.objdump with
    | none => rfl
    | some i =>
      rw [hindex, Option.bind_some] at hnone
      exact scan_eq_none (by rw [hcallstack]; exact List.cons_ne_nil _ _) hnone callstack

theorem callstack_of_reaches_caller : ∃ (d : Dump) (returns : List ℤ),
    readDump "main".toList callerFile = some d ∧ [0, 0x1005] = 0 :: returns ∧
      ∀ a ∈ returns, IsReturnAddress d.objdump a := by
  have hleads : leadsTo callerDump.objdump (rootBlock 0x1000) =
      some [⟨0x1000, some 0x100a, [0, 0x1005]⟩] := by
    decide +kernel
  have hreaches : Reaches "main".toList callerFile ⟨0x1000, some 0x100a, [0, 0x1005]⟩ :=
    ⟨callerDump, readDump_caller,
      .next (.root (by decide)) hleads List.mem_cons_self (by decide)⟩
  obtain ⟨d, returns, hd, hcallstack, hreturns, -⟩ := callstack_of_reaches hreaches
  exact ⟨d, returns, hd, hcallstack, hreturns⟩

/-! ### Recursion -/

section Recursion

variable {objdump : List Instruction} {root : ℤ}

theorem leadsTo_below (below : List ℤ) {b : Block} {bs : List Block}
    (h : leadsTo objdump b = some bs) :
    leadsTo objdump (b.below below) = some (bs.map (Block.below below)) := by
  obtain ⟨blockaddr, i, t, hblockaddr, hi, hscan, rfl⟩ := leadsTo_eq_some h
  rw [leadsTo, Block.below, hblockaddr, Option.bind_some, transfer, hi, Option.bind_some,
    scan_append below hscan, Option.map_some]
  rfl

/-- A way does not look below the addresses of its first block. -/
theorem reached_below (below : List ℤ) {b b' : Block}
    (h : Worklist.Reached (leadsTo objdump) isStop b b') :
    Worklist.Reached (leadsTo objdump) isStop (b.below below) (b'.below below) := by
  induction h with
  | root hstop => exact .root hstop
  | next _ hnext hmem hstop ih =>
    exact ih.next (leadsTo_below below hnext) (List.mem_map_of_mem hmem) hstop

/-- It does not matter from where a block is come to. -/
theorem reached_of_source {b b' : Block} (source : ℤ)
    (h : Worklist.Reached (leadsTo objdump) isStop b b') (hne : b' ≠ b) :
    Worklist.Reached (leadsTo objdump) isStop { b with source := source } b' := by
  induction h with
  | root _ => exact absurd rfl hne
  | @next a c as hreached hnext hmem hstop ih =>
    by_cases heq : a = b
    · subst heq
      exact .next (.root hreached.stop_eq_false) hnext hmem hstop
    · exact (ih heq).next hnext hmem hstop

/-- A block that calls itself is come to with any number of addresses. -/
theorem reached_longer {source source' blockaddr : ℤ} {callstack more : List ℤ}
    (hmore : more ≠ [])
    (hreached : Reached objdump root ⟨source, some blockaddr, callstack⟩)
    (hway : Worklist.Reached (leadsTo objdump) isStop ⟨source, some blockaddr, []⟩
      ⟨source', some blockaddr, more⟩) (n : ℕ) :
    ∃ b, Reached objdump root b ∧ n ≤ b.callstack.length := by
  have hlonger : ∃ source'' longer, Reached objdump root ⟨source'', some blockaddr, longer⟩ ∧
      n ≤ longer.length := by
    induction n with
    | zero => exact ⟨source, callstack, hreached, Nat.zero_le _⟩
    | succ n ih =>
      obtain ⟨source'', longer, hb, hn⟩ := ih
      have hne : (⟨source', some blockaddr, more⟩ : Block) ≠ ⟨source, some blockaddr, []⟩ := by
        intro heq
        exact hmore (congrArg Block.callstack heq)
      have hround := reached_below longer (reached_of_source source'' hway hne)
      rw [Block.below, Block.below, List.append_nil] at hround
      refine ⟨source', longer ++ more, hb.trans hround, ?_⟩
      have hpos : 0 < more.length := List.length_pos_iff.mpr hmore
      rw [List.length_append]
      omega
  obtain ⟨source'', longer, hb, hn⟩ := hlonger
  exact ⟨_, hb, hn⟩

end Recursion

/-- **The program never ends on a function that calls itself**: it does not finish if it comes
to a block from which some way leads to it again before the calls on that way return. -/
theorem not_finishes_of_recursion {d : Dump} (hd : readDump rootName file = some d)
    {source source' blockaddr : ℤ} {callstack more : List ℤ} (hmore : more ≠ [])
    (hreached : Reached d.objdump d.root ⟨source, some blockaddr, callstack⟩)
    (hway : Worklist.Reached (leadsTo d.objdump) isStop ⟨source, some blockaddr, []⟩
      ⟨source', some blockaddr, more⟩) :
    ¬ ∃ s, Finishes rootName file s := by
  intro hfinishes
  obtain ⟨d', hd', hfinite, -⟩ := finishes_iff.mp hfinishes
  obtain rfl := Option.some.inj (hd.symm.trans hd')
  -- the number of addresses would be bounded
  obtain ⟨bound, hbound⟩ := (hfinite.image fun b => b.callstack.length).bddAbove
  obtain ⟨b, hb, hlength⟩ := reached_longer hmore hreached hway (bound + 1)
  have hle : b.callstack.length ≤ bound := hbound (Set.mem_image_of_mem _ hb)
  omega

theorem not_finishes_of_recursion_sample : ¬ ∃ s, Finishes "f".toList recursiveFile s := by
  have hleads : leadsTo recursiveDump.objdump ⟨0, some 0x1000, []⟩ =
      some [⟨0x1000, some 0x1000, [0x1005]⟩] := by
    decide +kernel
  have hway : Worklist.Reached (leadsTo recursiveDump.objdump) isStop ⟨0, some 0x1000, []⟩
      ⟨0x1000, some 0x1000, [0x1005]⟩ :=
    .next (.root (by decide)) hleads List.mem_cons_self (by decide)
  exact not_finishes_of_recursion readDump_recursive (List.cons_ne_nil _ _)
    (.root (by decide)) hway

end ObjdumpToCfg
end EveIndustryPlanner
