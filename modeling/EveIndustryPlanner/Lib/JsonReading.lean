import EveIndustryPlanner.Lib.JsonText

/-!
# Reading JSON texts

The grammar leaves open how a value is written, but whoever reads the text has no
choice.  No text of a value goes on where another text of it ends, so two texts of a
value that start some longer text are one text, and each number has one text in it
that is read as both sides say.

## Main definitions

* `charTextLength` — how long the text of a character is.
* `EndsValue`, `EndsItem` — what may follow a value, and the blanks behind it.
* `AgreeOn` — two kinds of texts that are read the same way.

## Main results

* `CharText.inj`, `StringText.inj` — characters and strings.
* `JsonTree.agreeOn_text` — values, with what is known of the numbers in them.
* `JsonTree.isText_inj` — **two readings of a text agree on every number.**
-/

namespace EveIndustryPlanner

/-! ### Characters and strings -/

theorem hexDigit?_lt {c : Char} {n : ℕ} (h : hexDigit? c = some n) : n < 16 := by
  unfold hexDigit? at h
  split at h
  · next hdigit =>
    obtain rfl := Option.some.inj h
    have hnine : c.toNat ≤ 57 := (Char.isDigit_iff_toNat.mp hdigit).2
    omega
  · split at h
    · next hlower =>
      obtain rfl := Option.some.inj h
      have hf : c.toNat ≤ 102 := hlower.2
      omega
    · split at h
      · next hupper =>
        obtain rfl := Option.some.inj h
        have hf : c.toNat ≤ 70 := hupper.2
        omega
      · exact absurd h (by simp)

/-- Four hexadecimal digits have sixteen bits. -/
theorem hex?_lt {xs : List Char} {n : ℕ} (h : hex? xs = some n) :
    xs.length = 4 ∧ n < 2 ^ 16 := by
  unfold hex? at h
  split at h
  · next a b c d =>
    obtain ⟨na, ha, h⟩ := Option.bind_eq_some_iff.mp h
    obtain ⟨nb, hb, h⟩ := Option.bind_eq_some_iff.mp h
    obtain ⟨nc, hc, h⟩ := Option.bind_eq_some_iff.mp h
    obtain ⟨nd, hd, h⟩ := Option.bind_eq_some_iff.mp h
    have := hexDigit?_lt ha
    have := hexDigit?_lt hb
    have := hexDigit?_lt hc
    have := hexDigit?_lt hd
    have hvalue := Option.some.inj h
    exact ⟨rfl, by omega⟩
  · exact absurd h (by simp)

/-- How long the text of a character is, from where it starts. -/
def charTextLength (c : Char) : List Char → ℕ
  | '\\' :: x :: _ => if x = 'u' then (if c.toNat < 2 ^ 16 then 6 else 12) else 2
  | _ => 1

/-- **The length of the text of a character shows where it starts.** -/
theorem CharText.length_eq {c : Char} {e : List Char} (h : CharText c e) (r : List Char) :
    e.length = charTextLength c (e ++ r) := by
  cases h with
  | plain hplain =>
    have hc : c ≠ '\\' := fun hc => hplain (Or.inr (Or.inl hc))
    unfold charTextLength
    split
    · next heq => exact absurd (List.cons.inj heq).1 hc
    · rfl
  | @short x _ hshort =>
    have hu : ∀ p ∈ shortEscapes, p.1 ≠ 'u' := by decide
    show 2 = if x = 'u' then _ else 2
    rw [if_neg (hu _ hshort)]
  | @unicode _ xs hxs =>
    obtain ⟨hlength, hlt⟩ := hex?_lt hxs
    show xs.length + 2 = if 'u' = 'u' then (if c.toNat < 2 ^ 16 then 6 else 12) else 2
    rw [if_pos rfl, if_pos hlt, hlength]
  | @surrogates _ xs ys high low hhigh hlow hxs hys hc =>
    have hxs := (hex?_lt hxs).1
    have hys := (hex?_lt hys).1
    have hlarge : ¬ c.toNat < 2 ^ 16 := by omega
    show (xs ++ '\\' :: 'u' :: ys).length + 2 =
      if 'u' = 'u' then (if c.toNat < 2 ^ 16 then 6 else 12) else 2
    rw [if_pos rfl, if_neg hlarge, List.length_append, List.length_cons, List.length_cons, hxs, hys]

theorem CharText.inj {c : Char} {e e' r r' : List Char} (h : CharText c e) (h' : CharText c e')
    (heq : e ++ r = e' ++ r') : e = e' ∧ r = r' :=
  List.append_inj heq (by rw [h.length_eq r, h'.length_eq r', heq])

theorem CharsText.inj {s t t' r r' : List Char} (h : CharsText s t) (h' : CharsText s t')
    (heq : t ++ r = t' ++ r') : t = t' ∧ r = r' := by
  induction h generalizing t' with
  | nil =>
    cases h'
    exact ⟨rfl, heq⟩
  | cons hc _ ih =>
    cases h' with
    | cons hc' hs' =>
      rw [List.append_assoc, List.append_assoc] at heq
      obtain ⟨rfl, hrest⟩ := hc.inj hc' heq
      obtain ⟨rfl, hr⟩ := ih hs' hrest
      exact ⟨rfl, hr⟩

/-- No text of a string goes on where another one ends. -/
theorem StringText.inj {s : String} {t t' r r' : List Char} (h : StringText s t)
    (h' : StringText s t') (heq : t ++ r = t' ++ r') : t = t' ∧ r = r' := by
  obtain ⟨body, rfl, hbody⟩ := h
  obtain ⟨body', rfl, hbody'⟩ := h'
  rw [List.cons_append, List.cons_append, List.append_assoc, List.append_assoc] at heq
  obtain ⟨rfl, hquote⟩ := hbody.inj hbody' (List.cons.inj heq).2
  exact ⟨rfl, (List.cons.inj hquote).2⟩

/-! ### What follows a value -/

/-- What ends an item: a comma or a bracket. -/
def IsDelimiter (c : Char) : Prop := c = ',' ∨ c = ']' ∨ c = '}'

/-- What may follow a value and the blanks behind it. -/
def EndsItem (r : List Char) : Prop := ∀ c ∈ r.head?, IsDelimiter c

/-- What may follow a value. -/
def EndsValue (r : List Char) : Prop := ∀ c ∈ r.head?, IsBlank c ∨ IsDelimiter c

/-- Texts that do not start with a blank. -/
def Starts (P : List Char → Prop) : Prop := ∀ u, P u → ∃ c s, u = c :: s ∧ ¬ IsBlank c

/-- Two kinds of texts that are read the same way, and what is known then. -/
structure AgreeOn (P P' : List Char → Prop) (Q : Prop) : Prop where
  starts : Starts P
  starts' : Starts P'
  inj {t t' r r'} (h : P t) (h' : P' t') (hr : EndsValue r) (hr' : EndsValue r')
    (heq : t ++ r = t' ++ r') : (t = t' ∧ r = r') ∧ Q

theorem AgreeOn.imp {P P' : List Char → Prop} {Q Q' : Prop} (h : AgreeOn P P' Q) (hQ : Q → Q') :
    AgreeOn P P' Q' :=
  ⟨h.starts, h.starts', fun ht ht' hr hr' heq => (h.inj ht ht' hr hr' heq).imp_right hQ⟩

theorem not_isBlank_of_isDelimiter {c : Char} (h : IsDelimiter c) : ¬ IsBlank c := by
  rcases h with rfl | rfl | rfl
  · decide
  · decide
  · decide

theorem EndsItem.blank_append {after r : List Char} (hr : EndsItem r) (h : Blank after) :
    EndsValue (after ++ r) := by
  cases after with
  | nil => exact fun c hc => Or.inr (hr c hc)
  | cons b after =>
    intro c hc
    obtain rfl := Option.some.inj hc
    exact Or.inl (h b List.mem_cons_self)

theorem endsItem_cons {c : Char} (h : IsDelimiter c) (r : List Char) : EndsItem (c :: r) := by
  intro d hd
  obtain rfl := Option.some.inj hd
  exact h

/-- Blanks end where there is no blank. -/
theorem Blank.inj {t t' r r' : List Char} (h : Blank t) (h' : Blank t')
    (hr : ∀ c ∈ r.head?, ¬ IsBlank c) (hr' : ∀ c ∈ r'.head?, ¬ IsBlank c)
    (heq : t ++ r = t' ++ r') : t = t' ∧ r = r' :=
  append_inj_of_head? (p := fun c => decide (IsBlank c)) (fun c hc => decide_eq_true (h c hc))
    (fun c hc => decide_eq_true (h' c hc)) (fun c hc => decide_eq_false (hr c hc))
    (fun c hc => decide_eq_false (hr' c hc)) heq

theorem EndsItem.not_isBlank {r : List Char} (hr : EndsItem r) : ∀ c ∈ r.head?, ¬ IsBlank c :=
  fun c hc => not_isBlank_of_isDelimiter (hr c hc)

theorem Starts.not_isBlank {P : List Char → Prop} (hP : Starts P) {u : List Char} (h : P u)
    (r : List Char) : ∀ c ∈ (u ++ r).head?, ¬ IsBlank c := by
  obtain ⟨b, s, rfl, hb⟩ := hP u h
  intro c hc
  obtain rfl := Option.some.inj hc
  exact hb

/-! ### Layout -/

section Layout

variable {P P' : List Char → Prop} {Q : Prop}

theorem AgreeOn.padded_inj (h : AgreeOn P P' Q) {t t' r r' : List Char} (ht : Padded P t)
    (ht' : Padded P' t') (hr : EndsItem r) (hr' : EndsItem r') (heq : t ++ r = t' ++ r') :
    (t = t' ∧ r = r') ∧ Q := by
  obtain ⟨before, u, after, rfl, hbefore, hafter, hu⟩ := ht
  obtain ⟨before', u', after', rfl, hbefore', hafter', hu'⟩ := ht'
  rw [List.append_assoc, List.append_assoc, List.append_assoc, List.append_assoc] at heq
  obtain ⟨rfl, hvalue⟩ := hbefore.inj hbefore' (h.starts.not_isBlank hu _)
    (h.starts'.not_isBlank hu' _) heq
  obtain ⟨⟨rfl, hrest⟩, hQ⟩ := h.inj hu hu' (hr.blank_append hafter) (hr'.blank_append hafter')
    hvalue
  obtain ⟨rfl, hr⟩ := hafter.inj hafter' hr.not_isBlank hr'.not_isBlank hrest
  exact ⟨⟨rfl, hr⟩, hQ⟩

/-- The name of a member is no part of its value. -/
theorem AgreeOn.memberText (h : AgreeOn P P' Q) (name : String) :
    AgreeOn (MemberText name P) (MemberText name P') Q := by
  have hstarts : ∀ P'', Starts (MemberText name P'') := by
    rintro P'' t ⟨u, after, before, w, rfl, ⟨body, rfl, -⟩, -⟩
    exact ⟨'"', _, rfl, by decide⟩
  refine ⟨hstarts P, hstarts P', fun ht ht' hr hr' heq => ?_⟩
  obtain ⟨u, after, before, w, rfl, hu, hafter, hbefore, hw⟩ := ht
  obtain ⟨u', after', before', w', rfl, hu', hafter', hbefore', hw'⟩ := ht'
  simp only [List.append_assoc, List.cons_append] at heq
  have hcolon : ∀ t : List Char, ∀ c ∈ (':' :: t).head?, ¬ IsBlank c := by
    intro t c hc
    obtain rfl := Option.some.inj hc
    decide
  obtain ⟨rfl, hname⟩ := hu.inj hu' heq
  obtain ⟨rfl, hsep⟩ := hafter.inj hafter' (hcolon _) (hcolon _) hname
  obtain ⟨rfl, hvalue⟩ := hbefore.inj hbefore' (h.starts.not_isBlank hw _)
    (h.starts'.not_isBlank hw' _) (List.cons.inj hsep).2
  obtain ⟨⟨rfl, hrest⟩, hQ⟩ := h.inj hw hw' hr hr' hvalue
  exact ⟨⟨rfl, hrest⟩, hQ⟩

end Layout

section Lists

variable {A : Type*} {f f' : A → List Char → Prop} {Q : A → Prop}

theorem Following.endsItem_append {Ps : List (List Char → Prop)} {t r : List Char}
    (h : Following Ps t) (hr : EndsItem r) : EndsItem (t ++ r) := by
  cases Ps with
  | nil =>
    rw [Following] at h
    rwa [h]
  | cons P Ps =>
    obtain ⟨u, rest, rfl, -⟩ := h
    exact endsItem_cons (Or.inl rfl) _

theorem following_inj {l : List A} (hf : ∀ a ∈ l, AgreeOn (f a) (f' a) (Q a))
    {t t' r r' : List Char} (h : Following (l.map f) t) (h' : Following (l.map f') t')
    (hr : EndsItem r) (hr' : EndsItem r') (heq : t ++ r = t' ++ r') :
    (t = t' ∧ r = r') ∧ ∀ a ∈ l, Q a := by
  induction l generalizing t t' with
  | nil =>
    obtain rfl : t = [] := h
    obtain rfl : t' = [] := h'
    exact ⟨⟨rfl, heq⟩, fun a ha => absurd ha List.not_mem_nil⟩
  | cons a l ih =>
    obtain ⟨u, rest, rfl, hu, hrest⟩ := h
    obtain ⟨u', rest', rfl, hu', hrest'⟩ := h'
    rw [List.cons_append, List.cons_append, List.append_assoc, List.append_assoc] at heq
    obtain ⟨⟨rfl, hitems⟩, ha⟩ := (hf a List.mem_cons_self).padded_inj hu hu'
      (hrest.endsItem_append hr) (hrest'.endsItem_append hr') (List.cons.inj heq).2
    obtain ⟨⟨rfl, hr⟩, hl⟩ := ih (fun b hb => hf b (List.mem_cons_of_mem _ hb)) hrest hrest' hitems
    exact ⟨⟨rfl, hr⟩, List.forall_mem_cons.mpr ⟨ha, hl⟩⟩

theorem commas_inj {l : List A} (hf : ∀ a ∈ l, AgreeOn (f a) (f' a) (Q a))
    {t t' r r' : List Char} (h : Commas (l.map f) t) (h' : Commas (l.map f') t')
    (hr : EndsItem r) (hr' : EndsItem r') (heq : t ++ r = t' ++ r') :
    (t = t' ∧ r = r') ∧ ∀ a ∈ l, Q a := by
  cases l with
  | nil =>
    have hblank : Blank t := h
    exact ⟨hblank.inj h' hr.not_isBlank hr'.not_isBlank heq,
      fun a ha => absurd ha List.not_mem_nil⟩
  | cons a l =>
    obtain ⟨u, rest, rfl, hu, hrest⟩ := h
    obtain ⟨u', rest', rfl, hu', hrest'⟩ := h'
    rw [List.append_assoc, List.append_assoc] at heq
    obtain ⟨⟨rfl, hitems⟩, ha⟩ := (hf a List.mem_cons_self).padded_inj hu hu'
      (hrest.endsItem_append hr) (hrest'.endsItem_append hr') heq
    obtain ⟨⟨rfl, hr⟩, hl⟩ := following_inj (fun b hb => hf b (List.mem_cons_of_mem _ hb)) hrest
      hrest' hr hr' hitems
    exact ⟨⟨rfl, hr⟩, List.forall_mem_cons.mpr ⟨ha, hl⟩⟩

/-- Items between two brackets. -/
theorem agreeOn_brackets {l : List A} (hf : ∀ a ∈ l, AgreeOn (f a) (f' a) (Q a)) {op cl : Char}
    (hop : ¬ IsBlank op) (hcl : IsDelimiter cl) :
    AgreeOn (fun t => ∃ body, t = op :: (body ++ [cl]) ∧ Commas (l.map f) body)
      (fun t => ∃ body, t = op :: (body ++ [cl]) ∧ Commas (l.map f') body) (∀ a ∈ l, Q a) := by
  refine ⟨?_, ?_, ?_⟩
  · rintro t ⟨body, rfl, -⟩
    exact ⟨op, _, rfl, hop⟩
  · rintro t ⟨body, rfl, -⟩
    exact ⟨op, _, rfl, hop⟩
  · rintro t t' r r' ⟨body, rfl, hbody⟩ ⟨body', rfl, hbody'⟩ - - heq
    rw [List.cons_append, List.cons_append, List.append_assoc, List.append_assoc] at heq
    obtain ⟨⟨rfl, hclose⟩, hQ⟩ := commas_inj hf hbody hbody' (endsItem_cons hcl _)
      (endsItem_cons hcl _) (List.cons.inj heq).2
    exact ⟨⟨rfl, (List.cons.inj hclose).2⟩, hQ⟩

end Lists

/-! ### Values -/

/-- Texts that can be told from what follows a value. -/
def NumberTexts (P : List Char → Prop) : Prop := ∀ u, P u → u ≠ [] ∧ ∀ c ∈ u, IsNumberChar c

theorem not_isNumberChar_of_isBlank {c : Char} (h : IsBlank c) : ¬ IsNumberChar c := by
  rcases h with rfl | rfl | rfl | rfl
  · decide
  · decide
  · decide
  · decide

theorem not_isNumberChar_of_isDelimiter {c : Char} (h : IsDelimiter c) : ¬ IsNumberChar c := by
  rcases h with rfl | rfl | rfl
  · decide
  · decide
  · decide

theorem EndsValue.not_isNumberChar {r : List Char} (hr : EndsValue r) :
    ∀ c ∈ r.head?, ¬ IsNumberChar c := fun c hc =>
  (hr c hc).elim not_isNumberChar_of_isBlank not_isNumberChar_of_isDelimiter

theorem NumberTexts.starts {P : List Char → Prop} (hP : NumberTexts P) : Starts P := by
  intro u hu
  obtain ⟨hne, hall⟩ := hP u hu
  cases u with
  | nil => exact absurd rfl hne
  | cons c s =>
    exact ⟨c, s, rfl, fun hc => not_isNumberChar_of_isBlank hc (hall c List.mem_cons_self)⟩

/-- A number ends where its characters do. -/
theorem agreeOn_numberTexts {P P' : List Char → Prop} (hP : NumberTexts P) (hP' : NumberTexts P') :
    AgreeOn P P' (∃ u, P u ∧ P' u) := by
  refine ⟨hP.starts, hP'.starts, fun {t t' r r'} h h' hr hr' heq => ?_⟩
  have hspan := append_inj_of_head? (p := fun c => decide (IsNumberChar c))
    (fun c hc => decide_eq_true ((hP t h).2 c hc)) (fun c hc => decide_eq_true ((hP' t' h').2 c hc))
    (fun c hc => decide_eq_false (hr.not_isNumberChar c hc))
    (fun c hc => decide_eq_false (hr'.not_isNumberChar c hc)) heq
  exact ⟨hspan, t, h, hspan.1 ▸ h'⟩

theorem agreeOn_word {w : List Char} {Q : Prop} (hw : ∃ c s, w = c :: s ∧ ¬ IsBlank c) (hQ : Q) :
    AgreeOn (fun t => t = w) (fun t => t = w) Q := by
  refine ⟨fun u hu => hu ▸ hw, fun u hu => hu ▸ hw, ?_⟩
  rintro t t' r r' rfl rfl - - heq
  exact ⟨⟨rfl, List.append_cancel_left heq⟩, hQ⟩

theorem agreeOn_stringText (s : String) {Q : Prop} (hQ : Q) :
    AgreeOn (StringText s) (StringText s) Q := by
  have hstarts : Starts (StringText s) := by
    rintro t ⟨body, rfl, -⟩
    exact ⟨'"', _, rfl, by decide⟩
  exact ⟨hstarts, hstarts, fun h h' _ _ heq => ⟨h.inj h' heq, hQ⟩⟩

namespace JsonTree

variable {N : Type} {D D' : N → List Char → Prop}

/-- **Two texts of a value are one if they start the same text**, and then every number
in it has a text on which they agree. -/
theorem agreeOn_text (hD : ∀ n, NumberTexts (D n)) (hD' : ∀ n, NumberTexts (D' n))
    (v : JsonTree N) :
    AgreeOn (Text D v) (Text D' v) (∀ n, .number n ∈ v.leaves → ∃ u, D n u ∧ D' n u) := by
  induction v using JsonTree.induction with
  | null =>
    rw [Text, Text]
    exact agreeOn_word ⟨'n', _, rfl, by decide⟩ (by simp [leaves])
  | bool b =>
    cases b with
    | true =>
      rw [Text, Text]
      exact agreeOn_word ⟨'t', _, rfl, by decide⟩ (by simp [leaves])
    | false =>
      rw [Text, Text]
      exact agreeOn_word ⟨'f', _, rfl, by decide⟩ (by simp [leaves])
  | number n =>
    rw [Text, Text]
    refine (agreeOn_numberTexts (hD n) (hD' n)).imp fun hn m hm => ?_
    obtain rfl : m = n := by simpa [leaves] using hm
    exact hn
  | string s =>
    rw [Text, Text]
    exact agreeOn_stringText s (by simp [leaves])
  | array items ih =>
    have hopen : ¬ IsBlank '[' := by decide
    have hclose : IsDelimiter ']' := Or.inr (Or.inl rfl)
    have hitems := agreeOn_brackets ih hopen hclose
    rw [Text, Text, itemTexts_eq, itemTexts_eq]
    refine hitems.imp fun hall n hn => ?_
    rw [leaves_array] at hn
    obtain ⟨v, hv, hn⟩ := List.mem_flatMap.mp hn
    exact hall v hv n hn
  | object members ih =>
    have hopen : ¬ IsBlank '{' := by decide
    have hclose : IsDelimiter '}' := Or.inr (Or.inr rfl)
    have hmembers := agreeOn_brackets (fun m hm => (ih m hm).memberText m.1) hopen hclose
    rw [Text, Text, memberTexts_eq, memberTexts_eq]
    refine hmembers.imp fun hall n hn => ?_
    rw [leaves_object] at hn
    obtain ⟨m, hm, hn⟩ := List.mem_flatMap.mp hn
    rcases List.mem_cons.mp hn with hname | hn
    · exact absurd hname (by simp)
    · exact hall m hm n hn

/-- **Two readings of a text agree on every number.** -/
theorem isText_inj (hD : ∀ n, NumberTexts (D n)) (hD' : ∀ n, NumberTexts (D' n))
    {v : JsonTree N} {t : List Char} (h : IsText D v t) (h' : IsText D' v t) {n : N}
    (hn : .number n ∈ v.leaves) : ∃ u, D n u ∧ D' n u := by
  have hend : EndsItem [] := fun c hc => absurd hc (by simp)
  exact ((agreeOn_text hD hD' v).padded_inj h h' hend hend rfl).2 n hn

end JsonTree

end EveIndustryPlanner
