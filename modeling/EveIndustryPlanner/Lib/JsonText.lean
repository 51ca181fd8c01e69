import EveIndustryPlanner.Lib.JsonNumber

/-!
# JSON texts

What a JSON text is a text of: the grammar, with everything it leaves open.  A
character of a string may stand for itself or be escaped in one or two ways,
there may be blanks around everything, and what numbers look like is a parameter.
The same value can have many texts; what is in all of them are the letters and
backslashes that cannot be written in another way.

## Main definitions

* `JsonTree`, `JsonTree.leaves` — values, and what is at their leaves.
* `CharText`, `StringText` — the texts of characters and strings.
* `Commas`, `separated` — texts with commas between them, and how to write them.
* `JsonTree.Text`, `JsonTree.IsText` — the texts of values, without and with
  blanks around them.

## Main results

* `JsonTree.weight_le` — **how many of the letters `n` and `u` and of the
  backslashes there are in any text of a value**, at least.
-/

namespace EveIndustryPlanner

/-! ### Values -/

/-- A JSON value over some numbers. -/
inductive JsonTree (N : Type) where
  | null
  | bool (b : Bool)
  | number (n : N)
  | string (s : String)
  | array (items : List (JsonTree N))
  | object (members : List (String × JsonTree N))

/-- What is at a leaf of a value; the names of members are leaves as well. -/
inductive JsonLeaf (N : Type) where
  | null
  | bool (b : Bool)
  | number (n : N)
  | text (s : String)

namespace JsonTree

variable {N : Type}

/-- One case for each kind of value. -/
@[elab_as_elim]
theorem induction {P : JsonTree N → Prop} (null : P null) (bool : ∀ b, P (bool b))
    (number : ∀ n, P (number n)) (string : ∀ s, P (string s))
    (array : ∀ items, (∀ v ∈ items, P v) → P (array items))
    (object : ∀ members, (∀ m ∈ members, P m.2) → P (object members)) (v : JsonTree N) : P v := by
  refine JsonTree.rec (motive_1 := P) (motive_2 := fun items => ∀ v ∈ items, P v)
    (motive_3 := fun members => ∀ m ∈ members, P m.2) (motive_4 := fun m => P m.2)
    null bool number string array object ?_ ?_ ?_ ?_ ?_ v
  · exact fun v hv => absurd hv List.not_mem_nil
  · exact fun v items hv hitems => List.forall_mem_cons.mpr ⟨hv, hitems⟩
  · exact fun m hm => absurd hm List.not_mem_nil
  · exact fun m members hm hmembers => List.forall_mem_cons.mpr ⟨hm, hmembers⟩
  · exact fun name v hv => hv

mutual

/-- What is at the leaves of a value. -/
def leaves : JsonTree N → List (JsonLeaf N)
  | null => [.null]
  | bool b => [.bool b]
  | number n => [.number n]
  | string s => [.text s]
  | array items => leavesOfItems items
  | object members => leavesOfMembers members

/-- What is at the leaves of the items of an array. -/
def leavesOfItems : List (JsonTree N) → List (JsonLeaf N)
  | [] => []
  | v :: items => leaves v ++ leavesOfItems items

/-- What is at the leaves of the members of an object. -/
def leavesOfMembers : List (String × JsonTree N) → List (JsonLeaf N)
  | [] => []
  | (name, v) :: members => (.text name :: leaves v) ++ leavesOfMembers members

end

/-- The leaves of a member. -/
def memberLeaves (m : String × JsonTree N) : List (JsonLeaf N) := .text m.1 :: leaves m.2

theorem leaves_array (items : List (JsonTree N)) : (array items).leaves = items.flatMap leaves := by
  rw [leaves]
  induction items with
  | nil => rw [leavesOfItems, List.flatMap_nil]
  | cons v items ih => rw [leavesOfItems, List.flatMap_cons, ih]

theorem leaves_object (members : List (String × JsonTree N)) :
    (object members).leaves = members.flatMap memberLeaves := by
  rw [leaves]
  induction members with
  | nil => rw [leavesOfMembers, List.flatMap_nil]
  | cons m members ih => rw [leavesOfMembers, List.flatMap_cons, ih, memberLeaves]

end JsonTree

/-! ### Characters -/

/-- A character that cannot stand for itself. -/
def IsSpecial (c : Char) : Prop := c = '"' ∨ c = '\\' ∨ c.toNat < 32

instance (c : Char) : Decidable (IsSpecial c) := inferInstanceAs (Decidable (_ ∨ _))

/-- The letters behind a backslash and what they stand for. -/
def shortEscapes : List (Char × Char) :=
  [('"', '"'), ('\\', '\\'), ('/', '/'), ('b', '\x08'), ('f', '\x0c'), ('n', '\n'), ('r', '\r'),
    ('t', '\t')]

/-- The value of a hexadecimal digit. -/
def hexDigit? (c : Char) : Option ℕ :=
  if c.isDigit then some (c.toNat - 48)
  else if 'a' ≤ c ∧ c ≤ 'f' then some (c.toNat - 87)
  else if 'A' ≤ c ∧ c ≤ 'F' then some (c.toNat - 55)
  else none

/-- The value of four hexadecimal digits. -/
def hex? : List Char → Option ℕ
  | [a, b, c, d] => do
    return (((← hexDigit? a) * 16 + (← hexDigit? b)) * 16 + (← hexDigit? c)) * 16 + (← hexDigit? d)
  | _ => none

/-- The texts of a character. -/
inductive CharText : Char → List Char → Prop where
  | plain {c : Char} (h : ¬ IsSpecial c) : CharText c [c]
  | short {x c : Char} (h : (x, c) ∈ shortEscapes) : CharText c ['\\', x]
  | unicode {c : Char} {xs : List Char} (h : hex? xs = some c.toNat) :
    CharText c ('\\' :: 'u' :: xs)
  /-- Two numbers for a character that does not fit into sixteen bits. -/
  | surrogates {c : Char} {xs ys : List Char} {high low : ℕ} (hhigh : high < 2 ^ 10)
    (hlow : low < 2 ^ 10) (hxs : hex? xs = some (0xD800 + high))
    (hys : hex? ys = some (0xDC00 + low)) (hc : c.toNat = 0x10000 + (high * 2 ^ 10 + low)) :
    CharText c ('\\' :: 'u' :: xs ++ '\\' :: 'u' :: ys)

/-- The texts of some characters. -/
inductive CharsText : List Char → List Char → Prop where
  | nil : CharsText [] []
  | cons {c : Char} {s e t : List Char} (hc : CharText c e) (hs : CharsText s t) :
    CharsText (c :: s) (e ++ t)

/-- The texts of a string. -/
def StringText (s : String) (t : List Char) : Prop :=
  ∃ body, t = '"' :: body ++ ['"'] ∧ CharsText s.toList body

/-! ### Layout -/

/-- A blank. -/
def IsBlank (c : Char) : Prop := c = ' ' ∨ c = '\t' ∨ c = '\n' ∨ c = '\r'

instance (c : Char) : Decidable (IsBlank c) := inferInstanceAs (Decidable (_ ∨ _))

/-- Nothing but blanks. -/
def Blank (t : List Char) : Prop := ∀ c ∈ t, IsBlank c

/-- A text with blanks around it. -/
def Padded (P : List Char → Prop) (t : List Char) : Prop :=
  ∃ before u after, t = before ++ (u ++ after) ∧ Blank before ∧ Blank after ∧ P u

/-- Texts each of which follows a comma. -/
def Following : List (List Char → Prop) → List Char → Prop
  | [], t => t = []
  | P :: Ps, t => ∃ u rest, t = ',' :: (u ++ rest) ∧ Padded P u ∧ Following Ps rest

/-- Texts with commas between them. -/
def Commas : List (List Char → Prop) → List Char → Prop
  | [], t => Blank t
  | P :: Ps, t => ∃ u rest, t = u ++ rest ∧ Padded P u ∧ Following Ps rest

/-- A name and a text with a colon between them. -/
def MemberText (name : String) (P : List Char → Prop) (t : List Char) : Prop :=
  ∃ u after before w, t = u ++ (after ++ ':' :: (before ++ w)) ∧ StringText name u ∧
    Blank after ∧ Blank before ∧ P w

section Layout

variable {P : List Char → Prop} {Ps : List (List Char → Prop)} {t b : List Char}

theorem Padded.of_text (h : P t) : Padded P t :=
  ⟨[], t, [], by rw [List.append_nil, List.nil_append], fun _ hc => absurd hc List.not_mem_nil,
    fun _ hc => absurd hc List.not_mem_nil, h⟩

theorem Blank.append {b' : List Char} (hb : Blank b) (hb' : Blank b') : Blank (b ++ b') :=
  fun c hc => (List.mem_append.mp hc).elim (hb c) (hb' c)

theorem Padded.blank_append (h : Padded P t) (hb : Blank b) : Padded P (b ++ t) := by
  obtain ⟨before, u, after, rfl, hbefore, hafter, hu⟩ := h
  exact ⟨b ++ before, u, after, (List.append_assoc _ _ _).symm, hb.append hbefore, hafter, hu⟩

theorem Padded.append_blank (h : Padded P t) (hb : Blank b) : Padded P (t ++ b) := by
  obtain ⟨before, u, after, rfl, hbefore, hafter, hu⟩ := h
  refine ⟨before, u, after ++ b, ?_, hbefore, hafter.append hb, hu⟩
  rw [List.append_assoc, List.append_assoc]

/-- Blanks at the end belong to the last text. -/
theorem following_append_blank {u : List Char} (hu : Padded P u) (h : Following Ps t)
    (hb : Blank b) : ∃ v rest, u ++ t ++ b = v ++ rest ∧ Padded P v ∧ Following Ps rest := by
  induction Ps generalizing P u t with
  | nil =>
    obtain rfl : t = [] := h
    refine ⟨u ++ b, [], ?_, hu.append_blank hb, rfl⟩
    rw [List.append_nil, List.append_nil]
  | cons P' Ps ih =>
    obtain ⟨w, rest, rfl, hw, hrest⟩ := h
    obtain ⟨v, rest', heq, hv, hrest'⟩ := ih hw hrest
    refine ⟨u, ',' :: (v ++ rest'), ?_, hu, v, rest', rfl, hv, hrest'⟩
    rw [List.append_assoc, List.cons_append, heq]

theorem Commas.append_blank (h : Commas Ps t) (hb : Blank b) : Commas Ps (t ++ b) := by
  cases Ps with
  | nil =>
    have ht : Blank t := h
    exact ht.append hb
  | cons P Ps =>
    obtain ⟨u, rest, rfl, hu, hrest⟩ := h
    exact following_append_blank hu hrest hb

theorem Commas.blank_append (h : Commas Ps t) (hb : Blank b) : Commas Ps (b ++ t) := by
  cases Ps with
  | nil =>
    have ht : Blank t := h
    exact hb.append ht
  | cons P Ps =>
    obtain ⟨u, rest, rfl, hu, hrest⟩ := h
    exact ⟨b ++ u, rest, (List.append_assoc _ _ _).symm, hu.blank_append hb, hrest⟩

/-- Texts with a comma and a blank between them. -/
def separated {A : Type*} (blank : Char) (p : A → List Char) : List A → List Char
  | [] => []
  | a :: l => p a ++ l.flatMap fun b => ',' :: blank :: p b

section Separated

variable {A : Type*} {f : A → List Char → Prop} {p : A → List Char} {blank : Char} {l : List A}

theorem following_flatMap (hblank : IsBlank blank) (h : ∀ a ∈ l, Padded (f a) (p a)) :
    Following (l.map f) (l.flatMap fun a => ',' :: blank :: p a) := by
  induction l with
  | nil => rfl
  | cons a l ih =>
    have ha : Padded (f a) (blank :: p a) :=
      (h a List.mem_cons_self).blank_append (b := [blank]) (List.forall_mem_singleton.mpr hblank)
    exact ⟨blank :: p a, l.flatMap fun a => ',' :: blank :: p a, rfl, ha,
      ih fun b hb => h b (List.mem_cons_of_mem _ hb)⟩

/-- Texts that are written with commas between them are texts with commas between them. -/
theorem commas_separated (hblank : IsBlank blank) (h : ∀ a ∈ l, Padded (f a) (p a)) :
    Commas (l.map f) (separated blank p l) := by
  cases l with
  | nil => exact fun c hc => absurd hc List.not_mem_nil
  | cons a l =>
    exact ⟨p a, _, rfl, h a List.mem_cons_self,
      following_flatMap hblank fun b hb => h b (List.mem_cons_of_mem _ hb)⟩

end Separated

end Layout

namespace JsonTree

variable {N : Type}

mutual

/-- The texts of a value. -/
def Text (D : N → List Char → Prop) : JsonTree N → List Char → Prop
  | null => fun t => t = ['n', 'u', 'l', 'l']
  | bool true => fun t => t = ['t', 'r', 'u', 'e']
  | bool false => fun t => t = ['f', 'a', 'l', 's', 'e']
  | number n => D n
  | string s => StringText s
  | array items => fun t => ∃ body, t = '[' :: (body ++ [']']) ∧ Commas (itemTexts D items) body
  | object members => fun t =>
    ∃ body, t = '{' :: (body ++ ['}']) ∧ Commas (memberTexts D members) body

/-- The texts of the items of an array. -/
def itemTexts (D : N → List Char → Prop) : List (JsonTree N) → List (List Char → Prop)
  | [] => []
  | v :: items => Text D v :: itemTexts D items

/-- The texts of the members of an object. -/
def memberTexts (D : N → List Char → Prop) :
    List (String × JsonTree N) → List (List Char → Prop)
  | [] => []
  | (name, v) :: members => MemberText name (Text D v) :: memberTexts D members

end

/-- The texts of a value, with blanks around them. -/
def IsText (D : N → List Char → Prop) (v : JsonTree N) (t : List Char) : Prop := Padded (Text D v) t

theorem itemTexts_eq (D : N → List Char → Prop) (items : List (JsonTree N)) :
    itemTexts D items = items.map (Text D) := by
  induction items with
  | nil => rw [itemTexts, List.map_nil]
  | cons v items ih => rw [itemTexts, List.map_cons, ih]

theorem memberTexts_eq (D : N → List Char → Prop) (members : List (String × JsonTree N)) :
    memberTexts D members = members.map fun m => MemberText m.1 (Text D m.2) := by
  induction members with
  | nil => rw [memberTexts, List.map_nil]
  | cons m members ih => rw [memberTexts, List.map_cons, ih]

theorem text_array {D : N → List Char → Prop} {items : List (JsonTree N)} {t : List Char} :
    Text D (array items) t ↔
      ∃ body, t = '[' :: (body ++ [']']) ∧ Commas (items.map (Text D)) body := by
  rw [Text, itemTexts_eq]

theorem text_object {D : N → List Char → Prop} {members : List (String × JsonTree N)}
    {t : List Char} :
    Text D (object members) t ↔ ∃ body, t = '{' :: (body ++ ['}']) ∧
      Commas (members.map fun m => MemberText m.1 (Text D m.2)) body := by
  rw [Text, memberTexts_eq]

end JsonTree

/-! ### Letters that cannot be spared -/

/-- How many of the letters `n` and `u` and of the backslashes there are. -/
def weight (t : List Char) : ℕ := t.countP fun c => c = '\\' ∨ c = 'u' ∨ c = 'n'

theorem weight_append (t t' : List Char) : weight (t ++ t') = weight t + weight t' :=
  List.countP_append

theorem weight_cons (c : Char) (t : List Char) : weight (c :: t) = weight [c] + weight t :=
  weight_append [c] t

theorem weight_cons_of_light {c : Char} (hc : weight [c] = 0) (t : List Char) :
    weight (c :: t) = weight t := by
  rw [weight_cons, hc, Nat.zero_add]

theorem weight_singleton_le (c : Char) : weight [c] ≤ 1 := List.countP_le_length

/-- No number has one of them. -/
theorem weight_eq_zero {t : List Char} (h : ∀ c ∈ t, IsNumberChar c) : weight t = 0 := by
  refine List.countP_eq_zero.mpr fun c hc hweight => ?_
  rcases of_decide_eq_true hweight with rfl | rfl | rfl
  · exact absurd (h _ hc) (by decide)
  · exact absurd (h _ hc) (by decide)
  · exact absurd (h _ hc) (by decide)

theorem weight_eq_sum (t : List Char) : weight t = (t.map fun c => weight [c]).sum := by
  induction t with
  | nil => rfl
  | cons c t ih => rw [weight_cons, ih, List.map_cons, List.sum_cons]

theorem weight_flatMap {A : Type*} (l : List A) (p : A → List Char) :
    weight (l.flatMap p) = (l.map fun a => weight (p a)).sum :=
  List.countP_flatMap

/-- The commas and the blanks weigh nothing. -/
theorem weight_separated {A : Type*} {blank : Char} (hblank : weight [blank] = 0)
    (p : A → List Char) (l : List A) :
    weight (separated blank p l) = (l.map fun a => weight (p a)).sum := by
  cases l with
  | nil => rfl
  | cons a l =>
    have hrest : ∀ b ∈ l, weight (',' :: blank :: p b) = weight (p b) := by
      intro b _
      rw [weight_cons_of_light rfl, weight_cons_of_light hblank]
    rw [separated, weight_append, weight_flatMap, List.map_congr_left hrest, List.map_cons,
      List.sum_cons]

/-- What a character weighs in a text, at least: one that cannot stand for itself
has a backslash in front. -/
def charWeight (c : Char) : ℕ := if IsSpecial c then weight [c] + 1 else weight [c]

theorem charWeight_le (c : Char) : charWeight c ≤ 2 := by
  have h := weight_singleton_le c
  unfold charWeight
  split
  · omega
  · omega

/-- The text of a character weighs no less than the character. -/
theorem CharText.charWeight_le {c : Char} {e : List Char} (h : CharText c e) :
    charWeight c ≤ weight e := by
  cases h with
  | plain hplain => rw [charWeight, if_neg hplain]
  | @short x _ hshort =>
    have hall : ∀ p ∈ shortEscapes, charWeight p.2 ≤ weight ['\\', p.1] := by decide
    exact hall _ hshort
  | @unicode _ xs hxs =>
    have htwo : weight ('\\' :: 'u' :: xs) = 2 + weight xs := weight_append ['\\', 'u'] xs
    exact (EveIndustryPlanner.charWeight_le c).trans (htwo ▸ Nat.le_add_right _ _)
  | @surrogates _ xs ys high low hhigh hlow hxs hys hc =>
    have htwo : weight ('\\' :: 'u' :: xs ++ '\\' :: 'u' :: ys) =
        2 + weight (xs ++ '\\' :: 'u' :: ys) := weight_append ['\\', 'u'] _
    exact (EveIndustryPlanner.charWeight_le c).trans (htwo ▸ Nat.le_add_right _ _)

theorem CharsText.weight_le {s t : List Char} (h : CharsText s t) :
    (s.map charWeight).sum ≤ weight t := by
  induction h with
  | nil => exact Nat.zero_le _
  | cons hc _ ih =>
    rw [List.map_cons, List.sum_cons, weight_append]
    exact Nat.add_le_add hc.charWeight_le ih

/-- What a string weighs. -/
def stringWeight (s : String) : ℕ := (s.toList.map charWeight).sum

theorem weight_singleton_le_charWeight (c : Char) : weight [c] ≤ charWeight c := by
  unfold charWeight
  split
  · exact Nat.le_succ _
  · exact le_rfl

/-- Some of the characters of a string weigh no more than the string. -/
theorem weight_le_stringWeight {s : String} {t : List Char} (ht : t.Sublist s.toList) :
    weight t ≤ stringWeight s :=
  calc weight t ≤ weight s.toList := ht.countP_le
    _ = (s.toList.map fun c => weight [c]).sum := weight_eq_sum _
    _ ≤ stringWeight s := List.sum_le_sum fun c _ => weight_singleton_le_charWeight c

/-- **A string with a character that cannot stand for itself weighs more than its
characters**, however many of them are there. -/
theorem weight_lt_stringWeight {s : String} {t : List Char} (ht : t.Sublist s.toList)
    (h : ∃ c ∈ s.toList, IsSpecial c) : weight t < stringWeight s := by
  obtain ⟨c, hc, hspecial⟩ := h
  have hlt : weight [c] < charWeight c := by
    rw [charWeight, if_pos hspecial]
    exact Nat.lt_succ_self _
  calc weight t ≤ weight s.toList := ht.countP_le
    _ = (s.toList.map fun c => weight [c]).sum := weight_eq_sum _
    _ < stringWeight s :=
      List.sum_lt_sum _ _ (fun c _ => weight_singleton_le_charWeight c) ⟨c, hc, hlt⟩

theorem StringText.weight_le {s : String} {t : List Char} (h : StringText s t) :
    stringWeight s ≤ weight t := by
  obtain ⟨body, rfl, hbody⟩ := h
  rw [List.cons_append, weight_cons, weight_append]
  have := hbody.weight_le
  unfold stringWeight
  omega

section Lists

variable {A : Type*} {f : A → List Char → Prop} {g : A → ℕ}

theorem Padded.weight_le {P : List Char → Prop} {t : List Char} {k : ℕ} (h : Padded P t)
    (hP : ∀ u, P u → k ≤ weight u) : k ≤ weight t := by
  obtain ⟨before, u, after, rfl, -, -, hu⟩ := h
  rw [weight_append, weight_append]
  have := hP u hu
  omega

theorem following_weight_le {l : List A} (hf : ∀ a ∈ l, ∀ u, f a u → g a ≤ weight u)
    {t : List Char} (h : Following (l.map f) t) : (l.map g).sum ≤ weight t := by
  induction l generalizing t with
  | nil => exact Nat.zero_le _
  | cons a l ih =>
    obtain ⟨u, rest, rfl, hu, hrest⟩ := h
    have ha := hu.weight_le (hf a List.mem_cons_self)
    have hl := ih (fun b hb => hf b (List.mem_cons_of_mem _ hb)) hrest
    rw [List.map_cons, List.sum_cons, weight_cons, weight_append]
    omega

theorem commas_weight_le {l : List A} (hf : ∀ a ∈ l, ∀ u, f a u → g a ≤ weight u)
    {t : List Char} (h : Commas (l.map f) t) : (l.map g).sum ≤ weight t := by
  cases l with
  | nil => exact Nat.zero_le _
  | cons a l =>
    obtain ⟨u, rest, rfl, hu, hrest⟩ := h
    have ha := hu.weight_le (hf a List.mem_cons_self)
    have hl := following_weight_le (fun b hb => hf b (List.mem_cons_of_mem _ hb)) hrest
    rw [List.map_cons, List.sum_cons, weight_append]
    exact Nat.add_le_add ha hl

end Lists

theorem MemberText.weight_le {name : String} {P : List Char → Prop} {t : List Char} {k : ℕ}
    (h : MemberText name P t) (hP : ∀ u, P u → k ≤ weight u) :
    stringWeight name + k ≤ weight t := by
  obtain ⟨u, after, before, w, rfl, hu, -, -, hw⟩ := h
  have hname := hu.weight_le
  have hvalue := hP w hw
  rw [weight_append, weight_append, weight_cons, weight_append]
  omega

namespace JsonTree

variable {N : Type}

/-- What a leaf weighs in a text, at least. -/
def leafWeight : JsonLeaf N → ℕ
  | .null => 2
  | .bool true => 1
  | .bool false => 0
  | .number _ => 0
  | .text s => stringWeight s

/-- What a value weighs in a text, at least. -/
def treeWeight (v : JsonTree N) : ℕ := (v.leaves.map leafWeight).sum

theorem sum_flatMap {A B : Type*} (l : List A) (f : A → List B) (g : B → ℕ) :
    ((l.flatMap f).map g).sum = (l.map fun a => ((f a).map g).sum).sum := by
  rw [List.map_flatMap, List.flatMap, List.sum_flatten, List.map_map]
  rfl

theorem treeWeight_array (items : List (JsonTree N)) :
    (array items).treeWeight = (items.map treeWeight).sum := by
  rw [treeWeight, leaves_array, sum_flatMap]
  rfl

theorem treeWeight_object (members : List (String × JsonTree N)) :
    (object members).treeWeight =
      (members.map fun m => stringWeight m.1 + m.2.treeWeight).sum := by
  rw [treeWeight, leaves_object, sum_flatMap]
  rfl

/-- **How many of the letters `n` and `u` and of the backslashes there are in any
text of a value**, at least. -/
theorem weight_le {D : N → List Char → Prop} (v : JsonTree N) {t : List Char} (h : Text D v t) :
    v.treeWeight ≤ weight t := by
  induction v using JsonTree.induction generalizing t with
  | null =>
    rw [Text] at h
    subst h
    exact Nat.le_refl 2
  | bool b =>
    cases b with
    | true =>
      rw [Text] at h
      subst h
      exact Nat.le_refl 1
    | false => exact Nat.zero_le _
  | number n => exact Nat.zero_le _
  | string s =>
    rw [Text] at h
    exact h.weight_le
  | array items ih =>
    obtain ⟨body, rfl, hbody⟩ := text_array.mp h
    have hitems := commas_weight_le (g := treeWeight) (fun v hv u hu => ih v hv hu) hbody
    rw [treeWeight_array, weight_cons, weight_append]
    omega
  | object members ih =>
    obtain ⟨body, rfl, hbody⟩ := text_object.mp h
    have hmembers := commas_weight_le (g := fun m => stringWeight m.1 + m.2.treeWeight)
      (fun m hm u hu => hu.weight_le fun w hw => ih m hm hw) hbody
    rw [treeWeight_object, weight_cons, weight_append]
    omega

end JsonTree

end EveIndustryPlanner
