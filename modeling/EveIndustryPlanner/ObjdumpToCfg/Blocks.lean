import EveIndustryPlanner.Lib.BinarySearch
import EveIndustryPlanner.Lib.PythonText
import EveIndustryPlanner.Lib.Records

/-!
# Blocks of a disassembly

A disassembly is read into its instructions and the address of the function of interest.
From an address the instructions are gone through up to the first one that jumps, calls or
returns, with the addresses to which the calls before it are to return.

## Main definitions

* `readDump` — the instructions, and the address of a symbol.
* `getObjdumpIndex` — where an address is.
* `Block` — where to go on, from where, and with which addresses to return to.
* `scan`, `transfer` — where a block leads to.

## Main results

* `getObjdumpIndex_eq_some_iff` — an instruction is found by its address.
* `scan_cons` — **what one instruction does.**
* `scan_append` — **a block does not look below the addresses it returns to.**
* `callstack_of_scan` — what a block does to these addresses.
-/

namespace EveIndustryPlanner
namespace ObjdumpToCfg

open Python

/-! ### Reading -/

/-- The characters of a symbol's name. -/
def isNameChar (c : Char) : Bool := c.isAlphanum || c = '_' || c = '.'

/-- The address and the name in the line of a symbol. -/
def symbol? (line : List Char) : Option (List Char × List Char) :=
  let isHex := fun c => (digit? 16 c).isSome
  match line.dropWhile isHex with
  | ' ' :: '<' :: rest =>
    match rest.dropWhile isNameChar with
    | '>' :: ':' :: blanks =>
      if line.takeWhile isHex ≠ [] ∧ rest.takeWhile isNameChar ≠ [] ∧ blanks.all isSpace then
        some (line.takeWhile isHex, rest.takeWhile isNameChar)
      else none
    | _ => none
  | _ => none

/-- An instruction: its address and its text. -/
abbrev Instruction := ℤ × List Char

/-- What is read: the address of the root, and the instructions in the order of their lines. -/
structure Dump where
  root : ℤ
  objdump : List Instruction
  deriving DecidableEq

/-- Read one line; `none` stands for an exception. -/
def readLine (rootName : List Char) (d : Dump) (line : List Char) : Option Dump := do
  let root ← match symbol? line with
    | some (address, name) => if name = rootName then int 16 address else some d.root
    | none => some d.root
  let fields := (rstrip line).splitOn '\t'
  match fields[2]? with
  | none => some { d with root := root }
  | some instruction =>
    let address ← int 16 ((fields.headD []).filter (· ≠ ':'))
    return ⟨root, d.objdump ++ [(address, instruction)]⟩

/-- Read the lines of a file. -/
def readDump (rootName file : List Char) : Option Dump :=
  (fileLines file).foldlM (readLine rootName) ⟨0, []⟩

/-- A function that calls another one. -/
def callerFile : List Char :=
  ("00001000 <main>:\n" ++ "    1000:\te8 05\tcall   100a <f>\n" ++
    "    1005:\t89 c3\tmov    %eax,%ebx\n" ++ "    1007:\tc3\tret    \n" ++ "\n" ++
    "0000100a <f>:\n" ++ "    100a:\tb8 01\tmov    $0x1,%eax\n" ++
    "    100c:\tc3\tret    \n").toList

def callerDump : Dump :=
  ⟨0x1000, [(0x1000, "call   100a <f>".toList), (0x1005, "mov    %eax,%ebx".toList),
    (0x1007, "ret".toList), (0x100a, "mov    $0x1,%eax".toList), (0x100c, "ret".toList)]⟩

theorem readDump_caller : readDump "main".toList callerFile = some callerDump := by
  decide +kernel

/-- A function that calls itself. -/
def recursiveFile : List Char :=
  ("00001000 <f>:\n" ++ "    1000:\te8 fb\tcall   1000 <f>\n" ++
    "    1005:\t89 c3\tmov    %eax,%ebx\n" ++ "    1007:\tc3\tret    \n").toList

def recursiveDump : Dump :=
  ⟨0x1000, [(0x1000, "call   1000 <f>".toList), (0x1005, "mov    %eax,%ebx".toList),
    (0x1007, "ret".toList)]⟩

theorem readDump_recursive : readDump "f".toList recursiveFile = some recursiveDump := by
  decide +kernel

/-- The index of the instruction at an address. -/
def getObjdumpIndex (address : ℤ) (objdump : List Instruction) : Option ℕ :=
  binarySearch (objdump.map Prod.fst) address

/-- An instruction is found by its address. -/
theorem getObjdumpIndex_eq_some_iff {objdump : List Instruction}
    (h : (objdump.map Prod.fst).Pairwise (· < ·)) {address : ℤ} {i : ℕ} :
    getObjdumpIndex address objdump = some i ↔ (objdump[i]?).map Prod.fst = some address := by
  rw [getObjdumpIndex, binarySearch_eq_some_iff h, List.getElem?_map]

/-! ### Instructions -/

/-- The conditional jumps. -/
def jumps : List (List Char) :=
  ["ja", "jnbe", "jae", "jnb", "jnc", "jb", "jnae", "jc", "jbe", "jna", "jcxz", "jecxz", "je",
    "jz", "jg", "jnle", "jge", "jl", "jnge", "jle", "jnl", "jne", "jnz", "jng", "jno", "jnp",
    "jpo", "jns", "jo", "jp", "jpe", "js"].map String.toList

/-- The unconditional jumps. -/
def jumpsUncond : List (List Char) := ["jmp", "jmpq"].map String.toList

def calls : List (List Char) := ["call", "callq"].map String.toList

def rets : List (List Char) := ["ret", "retq", "repz ret"].map String.toList

/-- A block that is to be looked at: from where it is come to, its address, or none for a text
that is no address, and the addresses to return to. -/
structure Block where
  source : ℤ
  blockaddr : Option ℤ
  callstack : List ℤ
  deriving DecidableEq, Repr

/-- Where a block leads to, in the order of the pushes, and the indirect transfer in it. -/
structure Transfer where
  pushed : List Block
  indirects : List ℤ
  deriving DecidableEq, Repr

/-- Whether a call is followed by a return before the next function begins. -/
def returns : List Instruction → Option Bool
  | [] => some true
  | (_, text) :: rest =>
    match words text with
    | [] => none
    | instr :: operands =>
      let target := operands.headD []
      if "sub".toList <:+: instr ∧ "esp".toList <:+: target then some false
      else if "push".toList <:+: instr ∧ "ebp".toList <:+: target then some false
      else if instr ∈ rets ∨ instr ∈ jumpsUncond then some true
      else returns rest

/-- What an instruction makes of the variables `instr`, `target` and `target_hex`; the target
of an instruction without operands is that of one before. -/
def operands (target : Option (List Char)) (split : List (List Char)) :
    Option (List Char × Option (List Char) × Option ℤ) :=
  match split with
  | [] => none
  | instr :: rest =>
    if instr = "repz".toList then rest.head?.map fun instr => (instr, some [], some 0)
    else match rest with
      | [] => some (instr, target, some 0)
      | target :: _ => some (instr, some target, int 16 target)

section Scan

variable (blockaddr : ℤ) (callstack : List ℤ)

/-- Go on with the instruction behind. -/
def notTaken (rest : List Instruction) : Option Block :=
  rest.head?.map fun next => ⟨blockaddr, some next.1, callstack⟩

/-- A conditional jump: nothing is taken that fails the stack protector. -/
def conditional (skip : Bool) (address : ℤ) (target : List Char) (targetHex : Option ℤ)
    (rest : List Instruction) : Option Transfer :=
  if skip then (notTaken blockaddr callstack rest).map fun b => ⟨[b], []⟩
  else if '*' ∈ target then some ⟨[], [address]⟩
  else (notTaken blockaddr callstack rest).map fun b =>
    ⟨[b, ⟨blockaddr, targetHex, callstack⟩], []⟩

/-- An unconditional jump. -/
def unconditional (skip : Bool) (address : ℤ) (target : List Char) (targetHex : Option ℤ)
    (rest : List Instruction) : Option Transfer :=
  if skip then (notTaken blockaddr callstack rest).map fun b => ⟨[b], []⟩
  else if '*' ∈ target then some ⟨[], [address]⟩
  else some ⟨[⟨blockaddr, targetHex, callstack⟩], []⟩

/-- Whether a call is indirect, or of another library. -/
def isPast (split : List (List Char)) (target : List Char) : Option Bool :=
  if '*' ∈ target then some true
  else (split[2]?).map fun symbol => decide ("plt".toList <:+: symbol)

/-- A call: into the function, or past it if it is indirect or of another library. -/
def call (split : List (List Char)) (address : ℤ) (text : List Char) (target : List Char)
    (targetHex : Option ℤ) (rest : List Instruction) : Option Transfer := do
  if ← returns ((address, text) :: rest) then
    let past ← isPast split target
    let next ← rest.head?
    if past then some ⟨[⟨-1, some next.1, callstack⟩], [address]⟩
    else some ⟨[⟨blockaddr, targetHex, callstack ++ [next.1]⟩], []⟩
  else some ⟨[], []⟩

/-- A return to the last address. -/
def ret : Option Transfer :=
  callstack.getLast?.map fun address => ⟨[⟨blockaddr, some address, callstack.dropLast⟩], []⟩

/-- Go through the instructions; `none` stands for an exception. -/
def scan (skip : Bool) (target : Option (List Char)) : List Instruction → Option Transfer
  | [] => some ⟨[], []⟩
  | (address, text) :: rest =>
    match operands target (words text) with
    | none => none
    -- no instruction of the block had a target so far
    | some (_, none, _) => none
    | some (instr, some target, targetHex) =>
      if "xor".toList <:+: instr ∧ "gs:0x14".toList <:+: target then scan true (some target) rest
      else if instr ∈ jumps then
        conditional blockaddr callstack skip address target targetHex rest
      else if instr ∈ jumpsUncond then
        unconditional blockaddr callstack skip address target targetHex rest
      else if instr ∈ calls then
        call blockaddr callstack (words text) address text target targetHex rest
      else if instr ∈ rets then ret blockaddr callstack
      else scan skip (some target) rest

end Scan

/-- What the instruction in front makes of the addresses to return to. -/
inductive Performs (blockaddr : ℤ) (address : ℤ) (text : List Char) (rest : List Instruction) :
    (List ℤ → Option Transfer) → Prop
  | fails : Performs blockaddr address text rest fun _ => none
  | goOn (skip : Bool) (target : Option (List Char)) :
      Performs blockaddr address text rest fun callstack =>
        scan blockaddr callstack skip target rest
  | jump (skip : Bool) (target : List Char) (targetHex : Option ℤ) :
      Performs blockaddr address text rest fun callstack =>
        conditional blockaddr callstack skip address target targetHex rest
  | jumpUncond (skip : Bool) (target : List Char) (targetHex : Option ℤ) :
      Performs blockaddr address text rest fun callstack =>
        unconditional blockaddr callstack skip address target targetHex rest
  | call {instr target : List Char} {before : Option (List Char)} {targetHex : Option ℤ} :
      operands before (words text) = some (instr, some target, targetHex) → instr ∈ calls →
      Performs blockaddr address text rest fun callstack =>
        call blockaddr callstack (words text) address text target targetHex rest
  | ret : Performs blockaddr address text rest fun callstack => ret blockaddr callstack

/-- **What one instruction does**, whatever addresses there are to return to. -/
theorem scan_cons (blockaddr : ℤ) (skip : Bool) (target : Option (List Char)) (address : ℤ)
    (text : List Char) (rest : List Instruction) :
    ∃ f, Performs blockaddr address text rest f ∧
      ∀ callstack, scan blockaddr callstack skip target ((address, text) :: rest) = f callstack := by
  cases hread : operands target (words text) with
  | none => exact ⟨_, .fails, fun callstack => by rw [scan, hread]⟩
  | some read =>
    obtain ⟨instr, target', targetHex⟩ := read
    cases target' with
    | none => exact ⟨_, .fails, fun callstack => by rw [scan, hread]⟩
    | some target' =>
      have hscan : ∀ callstack, scan blockaddr callstack skip target ((address, text) :: rest) = _ :=
        fun callstack => by rw [scan, hread]
      dsimp only at hscan
      by_cases hxor : "xor".toList <:+: instr ∧ "gs:0x14".toList <:+: target'
      · exact ⟨_, .goOn true (some target'), fun callstack => by rw [hscan, if_pos hxor]⟩
      by_cases hjump : instr ∈ jumps
      · exact ⟨_, .jump skip target' targetHex, fun callstack => by
          rw [hscan, if_neg hxor, if_pos hjump]⟩
      by_cases huncond : instr ∈ jumpsUncond
      · exact ⟨_, .jumpUncond skip target' targetHex, fun callstack => by
          rw [hscan, if_neg hxor, if_neg hjump, if_pos huncond]⟩
      by_cases hcall : instr ∈ calls
      · exact ⟨_, .call hread hcall, fun callstack => by
          rw [hscan, if_neg hxor, if_neg hjump, if_neg huncond, if_pos hcall]⟩
      by_cases hret : instr ∈ rets
      · exact ⟨_, .ret, fun callstack => by
          rw [hscan, if_neg hxor, if_neg hjump, if_neg huncond, if_neg hcall, if_pos hret]⟩
      · exact ⟨_, .goOn skip (some target'), fun callstack => by
          rw [hscan, if_neg hxor, if_neg hjump, if_neg huncond, if_neg hcall, if_neg hret]⟩

/-- Where a block at some address leads to. -/
def transfer (objdump : List Instruction) (blockaddr : ℤ) (callstack : List ℤ) :
    Option Transfer :=
  (getObjdumpIndex blockaddr objdump).bind fun i =>
    scan blockaddr callstack false none (objdump.drop i)

/-! ### Addresses to return to -/

/-- A block with further addresses below its own. -/
def Block.below (below : List ℤ) (b : Block) : Block := { b with callstack := below ++ b.callstack }

def Transfer.below (below : List ℤ) (t : Transfer) : Transfer :=
  { t with pushed := t.pushed.map (Block.below below) }

section Below

variable {blockaddr : ℤ} {callstack : List ℤ} (below : List ℤ)

theorem notTaken_append (rest : List Instruction) :
    notTaken blockaddr (below ++ callstack) rest =
      (notTaken blockaddr callstack rest).map (Block.below below) := by
  cases rest with
  | nil => rfl
  | cons next rest => rfl

theorem conditional_append (skip : Bool) (address : ℤ) (target : List Char)
    (targetHex : Option ℤ) (rest : List Instruction) :
    conditional blockaddr (below ++ callstack) skip address target targetHex rest =
      (conditional blockaddr callstack skip address target targetHex rest).map
        (Transfer.below below) := by
  unfold conditional
  rw [notTaken_append]
  split
  · rw [Option.map_map, Option.map_map]
    rfl
  · split
    · rfl
    · rw [Option.map_map, Option.map_map]
      rfl

theorem unconditional_append (skip : Bool) (address : ℤ) (target : List Char)
    (targetHex : Option ℤ) (rest : List Instruction) :
    unconditional blockaddr (below ++ callstack) skip address target targetHex rest =
      (unconditional blockaddr callstack skip address target targetHex rest).map
        (Transfer.below below) := by
  unfold unconditional
  rw [notTaken_append]
  split
  · rw [Option.map_map, Option.map_map]
    rfl
  · split <;> rfl

theorem call_append (split : List (List Char)) (address : ℤ) (text target : List Char)
    (targetHex : Option ℤ) (rest : List Instruction) :
    call blockaddr (below ++ callstack) split address text target targetHex rest =
      (call blockaddr callstack split address text target targetHex rest).map
        (Transfer.below below) := by
  unfold call
  cases returns ((address, text) :: rest) with
  | none => rfl
  | some returned =>
    cases returned with
    | false => rfl
    | true =>
      simp only [Option.bind_eq_bind, Option.bind_some, if_true]
      cases isPast split target with
      | none => rfl
      | some past =>
        cases rest with
        | nil => rfl
        | cons next rest =>
          cases past with
          | true => rfl
          | false => simp [Transfer.below, Block.below]

/-- A return takes the last address. -/
theorem ret_append {t : Transfer} (h : ret blockaddr callstack = some t) :
    ret blockaddr (below ++ callstack) = some (t.below below) := by
  obtain ⟨address, hlast, rfl⟩ := Option.map_eq_some_iff.mp h
  have hne : callstack ≠ [] := by
    rintro rfl
    cases hlast
  rw [ret, List.getLast?_append_of_ne_nil _ hne, hlast, List.dropLast_append_of_ne_nil hne]
  rfl

/-- **A block does not look below the addresses it returns to.** -/
theorem scan_append {skip : Bool} {target : Option (List Char)} {rest : List Instruction}
    {t : Transfer} (h : scan blockaddr callstack skip target rest = some t) :
    scan blockaddr (below ++ callstack) skip target rest = some (t.below below) := by
  induction rest generalizing skip target with
  | nil =>
    obtain rfl := Option.some.inj h
    rfl
  | cons instruction rest ih =>
    obtain ⟨address, text⟩ := instruction
    obtain ⟨f, hf, hscan⟩ := scan_cons blockaddr skip target address text rest
    rw [hscan] at h ⊢
    cases hf with
    | fails => cases h
    | goOn skip' target' => exact ih h
    | jump skip' target' targetHex =>
      beta_reduce at h ⊢
      rw [conditional_append, h, Option.map_some]
    | jumpUncond skip' target' targetHex =>
      beta_reduce at h ⊢
      rw [unconditional_append, h, Option.map_some]
    | call hread hcall =>
      beta_reduce at h ⊢
      rw [call_append, h, Option.map_some]
    | ret => exact ret_append below h

end Below

/-- The address behind a call. -/
def IsReturnAddress (objdump : List Instruction) (a : ℤ) : Prop :=
  ∃ before address text behind target read, objdump = before ++ (address, text) :: behind ∧
    operands target (words text) = some read ∧ read.1 ∈ calls ∧
      behind.head?.map Prod.fst = some a

theorem IsReturnAddress.cons {objdump : List Instruction} {a : ℤ} (h : IsReturnAddress objdump a)
    (instruction : Instruction) : IsReturnAddress (instruction :: objdump) a := by
  obtain ⟨before, address, text, behind, target, read, rfl, h⟩ := h
  exact ⟨instruction :: before, address, text, behind, target, read, rfl, h⟩

/-- Where a block may lead to: with the same addresses, with the one behind a call, or to the
last one. -/
def LeadsTo (objdump : List Instruction) (callstack : List ℤ) (b : Block) : Prop :=
  b.callstack = callstack ∨
    (∃ a, IsReturnAddress objdump a ∧ b.callstack = callstack ++ [a]) ∨
    ∃ a, callstack.getLast? = some a ∧ b.blockaddr = some a ∧ b.callstack = callstack.dropLast

section Callstack

variable {blockaddr : ℤ} {callstack : List ℤ}

theorem callstack_of_notTaken {rest : List Instruction} {b : Block}
    (h : notTaken blockaddr callstack rest = some b) : b.callstack = callstack := by
  obtain ⟨next, -, rfl⟩ := Option.map_eq_some_iff.mp h
  rfl

theorem callstack_of_conditional {skip : Bool} {address : ℤ} {target : List Char}
    {targetHex : Option ℤ} {rest : List Instruction} {t : Transfer}
    (h : conditional blockaddr callstack skip address target targetHex rest = some t) :
    ∀ b ∈ t.pushed, b.callstack = callstack := by
  unfold conditional at h
  split at h
  · obtain ⟨b, hb, rfl⟩ := Option.map_eq_some_iff.mp h
    intro b' hb'
    obtain rfl := List.mem_singleton.mp hb'
    exact callstack_of_notTaken hb
  · split at h
    · obtain rfl := Option.some.inj h
      intro b' hb'
      exact absurd hb' List.not_mem_nil
    · obtain ⟨b, hb, rfl⟩ := Option.map_eq_some_iff.mp h
      intro b' hb'
      rcases List.mem_pair.mp hb' with rfl | rfl
      · exact callstack_of_notTaken hb
      · rfl

theorem callstack_of_unconditional {skip : Bool} {address : ℤ} {target : List Char}
    {targetHex : Option ℤ} {rest : List Instruction} {t : Transfer}
    (h : unconditional blockaddr callstack skip address target targetHex rest = some t) :
    ∀ b ∈ t.pushed, b.callstack = callstack := by
  unfold unconditional at h
  split at h
  · obtain ⟨b, hb, rfl⟩ := Option.map_eq_some_iff.mp h
    intro b' hb'
    obtain rfl := List.mem_singleton.mp hb'
    exact callstack_of_notTaken hb
  · split at h
    · obtain rfl := Option.some.inj h
      intro b' hb'
      exact absurd hb' List.not_mem_nil
    · obtain rfl := Option.some.inj h
      intro b' hb'
      obtain rfl := List.mem_singleton.mp hb'
      rfl

/-- A call adds the address behind it, if it is one into a function. -/
theorem callstack_of_call {split : List (List Char)} {address : ℤ} {text target : List Char}
    {targetHex : Option ℤ} {rest : List Instruction} {t : Transfer}
    (h : call blockaddr callstack split address text target targetHex rest = some t) :
    ∀ b ∈ t.pushed, b.callstack = callstack ∨
      ∃ a, rest.head?.map Prod.fst = some a ∧ b.callstack = callstack ++ [a] := by
  obtain ⟨returned, -, h⟩ := Option.bind_eq_some_iff.mp h
  intro b hb
  cases returned with
  | false =>
    obtain rfl := Option.some.inj h
    exact absurd hb List.not_mem_nil
  | true =>
    obtain ⟨past, -, h⟩ := Option.bind_eq_some_iff.mp h
    obtain ⟨next, hnext, h⟩ := Option.bind_eq_some_iff.mp h
    cases past with
    | true =>
      obtain rfl := Option.some.inj h
      obtain rfl := List.mem_singleton.mp hb
      exact Or.inl rfl
    | false =>
      obtain rfl := Option.some.inj h
      obtain rfl := List.mem_singleton.mp hb
      exact Or.inr ⟨next.1, by rw [hnext, Option.map_some], rfl⟩

theorem callstack_of_ret {t : Transfer} (h : ret blockaddr callstack = some t) :
    ∀ b ∈ t.pushed, ∃ a, callstack.getLast? = some a ∧ b.blockaddr = some a ∧
      b.callstack = callstack.dropLast := by
  obtain ⟨a, ha, rfl⟩ := Option.map_eq_some_iff.mp h
  intro b hb
  obtain rfl := List.mem_singleton.mp hb
  exact ⟨a, ha, rfl, rfl⟩

/-- What a block does to the addresses that it returns to. -/
theorem callstack_of_scan {skip : Bool} {target : Option (List Char)} {rest : List Instruction}
    {t : Transfer} (h : scan blockaddr callstack skip target rest = some t) :
    ∀ b ∈ t.pushed, LeadsTo rest callstack b := by
  induction rest generalizing skip target with
  | nil =>
    obtain rfl := Option.some.inj h
    intro b hb
    exact absurd hb List.not_mem_nil
  | cons instruction rest ih =>
    have hrest : ∀ b, LeadsTo rest callstack b → LeadsTo (instruction :: rest) callstack b := by
      rintro b (hb | ⟨a, ha, hb⟩ | hb)
      · exact Or.inl hb
      · exact Or.inr (Or.inl ⟨a, ha.cons instruction, hb⟩)
      · exact Or.inr (Or.inr hb)
    obtain ⟨address, text⟩ := instruction
    obtain ⟨f, hf, hscan⟩ := scan_cons blockaddr skip target address text rest
    rw [hscan] at h
    cases hf with
    | fails => cases h
    | goOn skip' target' => exact fun b hb => hrest b (ih h b hb)
    | jump skip' target' targetHex => exact fun b hb => Or.inl (callstack_of_conditional h b hb)
    | jumpUncond skip' target' targetHex =>
      exact fun b hb => Or.inl (callstack_of_unconditional h b hb)
    | call hread hcall =>
      intro b hb
      rcases callstack_of_call h b hb with hb | ⟨a, ha, hb⟩
      · exact Or.inl hb
      · exact Or.inr (Or.inl ⟨a, ⟨[], address, text, rest, _, _, rfl, hread, hcall, ha⟩, hb⟩)
    | ret => exact fun b hb => Or.inr (Or.inr (callstack_of_ret h b hb))

/-- What only puts the addresses below others fails for all of them or for none. -/
theorem eq_none_of_append {f : List ℤ → Option Transfer}
    (hf : ∀ below callstack, f (below ++ callstack) = (f callstack).map (Transfer.below below))
    (h : f callstack = none) (callstack' : List ℤ) : f callstack' = none := by
  have hnil : f callstack = (f []).map (Transfer.below callstack) := by
    rw [← hf, List.append_nil]
  rw [hnil, Option.map_eq_none_iff] at h
  rw [← List.append_nil callstack', hf, h, Option.map_none]

/-- No exception is for the want of an address to return to, if there is one. -/
theorem scan_eq_none (hne : callstack ≠ []) {skip : Bool} {target : Option (List Char)}
    {rest : List Instruction} (h : scan blockaddr callstack skip target rest = none)
    (callstack' : List ℤ) : scan blockaddr callstack' skip target rest = none := by
  induction rest generalizing skip target with
  | nil => cases h
  | cons instruction rest ih =>
    obtain ⟨address, text⟩ := instruction
    obtain ⟨f, hf, hscan⟩ := scan_cons blockaddr skip target address text rest
    rw [hscan] at h ⊢
    have hnone := fun happend => eq_none_of_append (f := f) happend h callstack'
    cases hf with
    | fails => rfl
    | goOn skip' target' => exact ih h
    | jump skip' target' targetHex =>
      exact hnone fun below _ => conditional_append below _ _ _ _ _
    | jumpUncond skip' target' targetHex =>
      exact hnone fun below _ => unconditional_append below _ _ _ _ _
    | call hread hcall => exact hnone fun below _ => call_append below _ _ _ _ _ _
    | ret =>
      -- a return fails only without an address
      beta_reduce at h
      rw [ret, Option.map_eq_none_iff, List.getLast?_eq_none_iff] at h
      exact absurd h hne

end Callstack

end ObjdumpToCfg
end EveIndustryPlanner
