import EveIndustryPlanner.Lib.Decimal
import EveIndustryPlanner.Pricing.Archive

/-!
# The names of files

The pages of an archive are named by numbers.  A path is taken apart at its last
`/` and its last part at the first `.`; lengths are numbers of 64 bits and wrap.

## Main definitions

* `Text`, `View` — strings in memory, and parts of them.
* `splitDirectoryAndBasename`, `splitExtension` — the parts of a path.
* `SplitsPaths` — nothing is lost when a path is taken apart.
* `PageName` — the paths of pages.
* `ParsedExactly` — these paths are told apart from all others.

## Main results

* `splitsPaths_iff` — **when nothing is lost.**
* `parsedExactly_iff` — **when exactly the paths of pages are taken for pages.**
-/

namespace EveIndustryPlanner
namespace Pricing
namespace FileNames

/-! ### Strings in memory -/

/-- A string in memory; distances in it are numbers of 64 bits with a sign. -/
structure Text where
  chars : List Char
  length_lt : chars.length < 2 ^ 63

/-- `std::string_view`: where it starts in a string, and its length. -/
structure View where
  start : ℕ
  length : UInt64
  deriving DecidableEq, Repr

/-- The view of nothing. -/
def View.empty : View := ⟨0, 0⟩

/-- The view lies inside the string. -/
def View.Inside (v : View) (s : Text) : Prop := v.start + v.length.toNat ≤ s.chars.length

instance (v : View) (s : Text) : Decidable (v.Inside s) := inferInstanceAs (Decidable (_ ≤ _))

/-- The characters of a view, as far as there are any. -/
def View.chars (v : View) (s : Text) : List Char := (s.chars.drop v.start).take v.length.toNat

namespace Text

variable (s : Text)

/-- `s.size()`. -/
def size : UInt64 := UInt64.ofNat s.chars.length

/-- `s.substr(pos, n)`. -/
def substr (pos n : UInt64) : Except Fault View :=
  if s.size < pos then .error (.runtimeError "basic_string_view::substr")
  else .ok ⟨pos.toNat, min n (s.size - pos)⟩

/-- The directory of a path and the rest. -/
def splitDirectoryAndBasename : View × View :=
  -- from the end, up to the first `/` or to the beginning
  let dist := s.chars.reverse.findIdx fun c => c = '/'
  let len := UInt64.ofNat dist
  (⟨0, s.size - len - 1⟩, ⟨s.chars.length - dist, len⟩)

/-- What is before and what is behind the first `.`. -/
def splitExtension : Except Fault (View × View) :=
  let dist := s.chars.findIdx fun c => c = '.'
  if dist = s.chars.length then .ok (⟨0, s.size⟩, View.empty)
  else do
    let len := UInt64.ofNat dist
    let f ← s.substr 0 len
    let extension ← s.substr (len + 1) (s.size - len - 1)
    return (f, extension)

end Text

/-! ### Paths are taken apart -/

/-- Nothing is lost when a string is taken apart. -/
structure SplitsPaths (s : Text) : Prop where
  inside : s.splitDirectoryAndBasename.1.Inside s ∧ s.splitDirectoryAndBasename.2.Inside s
  slash : '/' ∈ s.chars →
    s.splitDirectoryAndBasename.1.chars s ++ '/' :: s.splitDirectoryAndBasename.2.chars s =
        s.chars ∧
      '/' ∉ s.splitDirectoryAndBasename.2.chars s
  noSlash : '/' ∉ s.chars →
    s.splitDirectoryAndBasename.1.length = 0 ∧ s.splitDirectoryAndBasename.2.chars s = s.chars
  dot : '.' ∈ s.chars → ∃ f extension, s.splitExtension = .ok (f, extension) ∧
    f.Inside s ∧ extension.Inside s ∧ f.chars s ++ '.' :: extension.chars s = s.chars ∧
      '.' ∉ f.chars s
  noDot : '.' ∉ s.chars → ∃ f extension, s.splitExtension = .ok (f, extension) ∧
    f.Inside s ∧ f.chars s = s.chars ∧ extension.length = 0

section Splitting

variable {s : Text}

theorem toNat_ofNat {n : ℕ} (h : n < 2 ^ 63) : (UInt64.ofNat n).toNat = n :=
  UInt64.toNat_ofNat_of_lt (h.trans (by decide))

@[simp] theorem Text.toNat_size : s.size.toNat = s.chars.length := toNat_ofNat s.length_lt

/-- The length of what is left in front of a separator. -/
theorem toNat_size_sub {n : ℕ} (h : n < s.chars.length) :
    (s.size - UInt64.ofNat n - 1).toNat = s.chars.length - n - 1 := by
  have hlength := s.length_lt
  have hn := toNat_ofNat (h.trans hlength)
  have hsize := s.toNat_size
  simp only [UInt64.toNat_sub, hn, hsize, UInt64.toNat_one]
  omega

theorem findIdx_of_mem {c : Char} {before after : List Char} (h : c ∉ before) :
    (before ++ c :: after).findIdx (fun c' => c' = c) = before.length := by
  have hnone : ∀ c' ∈ before, decide (c' = c) = false := by
    intro c' hc'
    exact decide_eq_false fun e => h (e ▸ hc')
  rw [List.findIdx_append, List.findIdx_eq_length_of_false hnone, if_neg (lt_irrefl _),
    List.findIdx_cons]
  simp

theorem findIdx_of_not_mem {c : Char} {l : List Char} (h : c ∉ l) :
    l.findIdx (fun c' => c' = c) = l.length :=
  List.findIdx_eq_length_of_false fun _ hc' => decide_eq_false fun e => h (e ▸ hc')

/-- A string is taken apart at its last separator. -/
theorem splitDirectoryAndBasename_eq {d b : List Char} (h : s.chars = d ++ '/' :: b)
    (hb : '/' ∉ b) :
    s.splitDirectoryAndBasename = (⟨0, UInt64.ofNat d.length⟩,
      ⟨d.length + 1, UInt64.ofNat b.length⟩) := by
  have hlength : s.chars.length = d.length + b.length + 1 := by
    rw [h, List.length_append, List.length_cons]
    omega
  have hdist : s.chars.reverse.findIdx (fun c => c = '/') = b.length := by
    rw [h, List.reverse_append, List.reverse_cons, List.append_assoc, List.singleton_append,
      findIdx_of_mem (by simpa using hb), List.length_reverse]
  have hd : s.size - UInt64.ofNat b.length - 1 = UInt64.ofNat d.length := by
    apply UInt64.toNat_inj.mp
    rw [toNat_size_sub (by omega), toNat_ofNat (by have := s.length_lt; omega)]
    omega
  simp only [Text.splitDirectoryAndBasename, hdist, hd]
  rw [show s.chars.length - b.length = d.length + 1 by omega]

/-- Without a separator the length of the directory wraps. -/
theorem splitDirectoryAndBasename_of_not_mem (h : '/' ∉ s.chars) :
    s.splitDirectoryAndBasename = (⟨0, -1⟩, ⟨0, s.size⟩) := by
  have hdist : s.chars.reverse.findIdx (fun c => c = '/') = s.chars.length := by
    rw [findIdx_of_not_mem (by simpa using h), List.length_reverse]
  have hwrap : s.size - s.size - 1 = -1 := by rw [sub_self, zero_sub]
  simp only [Text.splitDirectoryAndBasename, hdist, Nat.sub_self]
  exact congrArg (fun n => ((⟨0, n⟩ : View), (⟨0, s.size⟩ : View))) hwrap

/-- A string is taken apart at its first dot. -/
theorem splitExtension_eq {f e : List Char} (h : s.chars = f ++ '.' :: e) (hf : '.' ∉ f) :
    s.splitExtension = .ok (⟨0, UInt64.ofNat f.length⟩,
      ⟨f.length + 1, UInt64.ofNat e.length⟩) := by
  have hlength : s.chars.length = f.length + e.length + 1 := by
    rw [h, List.length_append, List.length_cons]
    omega
  have hbound := s.length_lt
  have hdist : s.chars.findIdx (fun c => c = '.') = f.length := by rw [h, findIdx_of_mem hf]
  have hlen : (UInt64.ofNat f.length).toNat = f.length := toNat_ofNat (by omega)
  have hsucc : (UInt64.ofNat f.length + 1).toNat = f.length + 1 := by
    rw [UInt64.toNat_add, hlen, UInt64.toNat_one]
    omega
  have hrest : s.size - UInt64.ofNat f.length - 1 = UInt64.ofNat e.length := by
    apply UInt64.toNat_inj.mp
    rw [toNat_size_sub (by omega), toNat_ofNat (by omega)]
    omega
  have hfirst : s.substr 0 (UInt64.ofNat f.length) = .ok ⟨0, UInt64.ofNat f.length⟩ := by
    have hle : UInt64.ofNat f.length ≤ s.size - 0 := by
      rw [sub_zero, UInt64.le_iff_toNat_le, hlen, s.toNat_size]
      omega
    rw [Text.substr, if_neg (by simp [UInt64.lt_iff_toNat_lt]), min_eq_left hle]
    rfl
  have hsecond : s.substr (UInt64.ofNat f.length + 1) (UInt64.ofNat e.length) =
      .ok ⟨f.length + 1, UInt64.ofNat e.length⟩ := by
    have hpos : ¬ s.size < UInt64.ofNat f.length + 1 := by
      rw [UInt64.lt_iff_toNat_lt, hsucc, s.toNat_size]
      omega
    have hle : UInt64.ofNat e.length ≤ s.size - (UInt64.ofNat f.length + 1) := by
      rw [← hrest, sub_sub]
    rw [Text.substr, if_neg hpos, min_eq_left hle, hsucc]
  simp only [Text.splitExtension, hdist, hrest]
  rw [if_neg (by omega), hfirst, ok_bind, hsecond]
  rfl

theorem splitExtension_of_not_mem (h : '.' ∉ s.chars) :
    s.splitExtension = .ok (⟨0, s.size⟩, View.empty) := by
  rw [Text.splitExtension, findIdx_of_not_mem h]
  exact if_pos rfl

/-- The two parts around a separator. -/
theorem parts {c : Char} {l r : List Char} (h : s.chars = l ++ c :: r) :
    (⟨0, UInt64.ofNat l.length⟩ : View).Inside s ∧
      (⟨l.length + 1, UInt64.ofNat r.length⟩ : View).Inside s ∧
        (⟨0, UInt64.ofNat l.length⟩ : View).chars s = l ∧
          (⟨l.length + 1, UInt64.ofNat r.length⟩ : View).chars s = r := by
  have hlength : s.chars.length = l.length + r.length + 1 := by
    rw [h, List.length_append, List.length_cons]
    omega
  have hbound := s.length_lt
  have hl : (UInt64.ofNat l.length).toNat = l.length := toNat_ofNat (by omega)
  have hr : (UInt64.ofNat r.length).toNat = r.length := toNat_ofNat (by omega)
  have hdrop : s.chars.drop (l.length + 1) = r := by
    rw [h, List.append_cons, List.drop_left' (by simp)]
  refine ⟨?_, ?_, ?_, ?_⟩
  · show 0 + (UInt64.ofNat l.length).toNat ≤ _
    omega
  · show l.length + 1 + (UInt64.ofNat r.length).toNat ≤ _
    omega
  · rw [View.chars, hl, List.drop_zero, h, List.take_left]
  · rw [View.chars, hr, hdrop, List.take_length]

/-- The view of a whole string. -/
theorem whole : (⟨0, s.size⟩ : View).Inside s ∧ (⟨0, s.size⟩ : View).chars s = s.chars := by
  constructor
  · rw [View.Inside, s.toNat_size, Nat.zero_add]
  · rw [View.chars, s.toNat_size, List.drop_zero, List.take_length]

/-- What is behind the last separator has none. -/
theorem exists_last {c : Char} {l : List Char} (h : c ∈ l) :
    ∃ d b, l = d ++ c :: b ∧ c ∉ b := by
  obtain ⟨b, d, hreverse, hb⟩ := List.eq_append_cons_of_mem (List.mem_reverse.mpr h)
  refine ⟨d.reverse, b.reverse, ?_, by simpa using hb⟩
  have hl := congrArg List.reverse hreverse
  simpa using hl

end Splitting

/-- **Nothing is lost exactly if there is a separator.** -/
theorem splitsPaths_iff (s : Text) : SplitsPaths s ↔ '/' ∈ s.chars := by
  constructor
  · intro h
    by_contra hslash
    have hlength := (h.noSlash hslash).1
    rw [splitDirectoryAndBasename_of_not_mem hslash] at hlength
    have hne : (-1 : UInt64) ≠ 0 := by decide
    exact hne hlength
  · intro hslash
    obtain ⟨d, b, hsplit, hb⟩ := exists_last hslash
    have heq := splitDirectoryAndBasename_eq hsplit hb
    obtain ⟨hd, hb', hdchars, hbchars⟩ := parts hsplit
    constructor
    case inside =>
      rw [heq]
      exact ⟨hd, hb'⟩
    case slash =>
      intro _
      rw [heq, hdchars, hbchars]
      exact ⟨hsplit.symm, hb⟩
    case noSlash => exact fun hno => absurd hslash hno
    case dot =>
      intro hdot
      obtain ⟨f, e, hsplit', hf⟩ := List.eq_append_cons_of_mem hdot
      obtain ⟨hf', he, hfchars, hechars⟩ := parts hsplit'
      refine ⟨_, _, splitExtension_eq hsplit' hf, hf', he, ?_, ?_⟩
      · rw [hfchars, hechars, hsplit']
      · rwa [hfchars]
    case noDot =>
      intro hdot
      exact ⟨_, _, splitExtension_of_not_mem hdot, whole.1, whole.2, rfl⟩

/-- The name of a page without a directory. -/
def bareName : Text := ⟨['8', '.', 'j', 's', 'o', 'n'], by decide⟩

/-- The directory of a bare name is no part of it. -/
theorem not_splitsPaths_bareName : ¬ SplitsPaths bareName := by
  intro h
  exact absurd h.inside.1 (by decide)

/-! ### The parts of the names of members -/

section Parts

variable {c : Char} {l r : List Char}

theorem takeWhile_ne (h : c ∉ l) (r : List Char) :
    (l ++ c :: r).takeWhile (fun c' => c' ≠ c) = l :=
  takeWhile_append_of_head? (fun _ hc' => decide_eq_true fun e => h (e ▸ hc')) (by simp)

theorem dropWhile_ne (h : c ∉ l) (r : List Char) :
    (l ++ c :: r).dropWhile (fun c' => c' ≠ c) = c :: r :=
  dropWhile_append_of_head? (fun _ hc' => decide_eq_true fun e => h (e ▸ hc')) (by simp)

theorem takeWhile_ne_self (h : c ∉ l) : l.takeWhile (fun c' => c' ≠ c) = l :=
  List.takeWhile_eq_self_iff.mpr fun _ hc' => decide_eq_true fun e => h (e ▸ hc')

theorem dropWhile_ne_nil (h : c ∉ l) : l.dropWhile (fun c' => c' ≠ c) = [] :=
  List.dropWhile_eq_nil_iff.mpr fun _ hc' => decide_eq_true fun e => h (e ▸ hc')

end Parts

/-- What is behind the last `/` is what the views say. -/
theorem basename_eq (s : Text) : Archive.basename (String.ofList s.chars) =
    String.ofList (s.splitDirectoryAndBasename.2.chars s) := by
  rw [Archive.basename, String.toList_ofList]
  by_cases hslash : '/' ∈ s.chars
  · obtain ⟨d, b, hsplit, hb⟩ := exists_last hslash
    rw [splitDirectoryAndBasename_eq hsplit hb, (parts hsplit).2.2.2, hsplit, List.reverse_append,
      List.reverse_cons, List.append_assoc, List.singleton_append,
      takeWhile_ne (by simpa using hb), List.reverse_reverse]
  · rw [splitDirectoryAndBasename_of_not_mem hslash, whole.2,
      takeWhile_ne_self (by simpa using hslash), List.reverse_reverse]

/-- What is around the first `.` is what the views say. -/
theorem exists_splitExtension (s : Text) : ∃ f extension,
    s.splitExtension = .ok (f, extension) ∧ Archive.splitExtension (String.ofList s.chars) =
      (String.ofList (f.chars s), String.ofList (extension.chars s)) := by
  rw [Archive.splitExtension, String.toList_ofList]
  by_cases hdot : '.' ∈ s.chars
  · obtain ⟨f, e, hsplit, hf⟩ := List.eq_append_cons_of_mem hdot
    refine ⟨_, _, splitExtension_eq hsplit hf, ?_⟩
    rw [(parts hsplit).2.2.1, (parts hsplit).2.2.2, hsplit, takeWhile_ne hf, dropWhile_ne hf,
      List.tail_cons]
  · refine ⟨_, _, splitExtension_of_not_mem hdot, ?_⟩
    rw [whole.2, takeWhile_ne_self hdot, dropWhile_ne_nil hdot]
    simp [View.empty, View.chars]

/-! ### The numbers of pages -/

/-- What is behind the last `/` of a path. -/
def LastPart (path name : String) : Prop :=
  '/' ∉ name.toList ∧ (path = name ∨ ∃ directory, path = directory ++ "/" ++ name)

/-- The last part of the path has the extension `json` behind a stem without a dot. -/
def HasStem (path : String) (stem : List Char) : Prop :=
  '.' ∉ stem ∧ LastPart path (String.ofList stem ++ ".json")

/-- The value of some digits. -/
def pageValue (digits : List Char) : ℕ := digits.foldl (fun n c => n * 10 + Market.digit c) 0

/-- The path is that of a page: some digits in front of `.json`. -/
def PageName (path : String) (n : ℕ) : Prop :=
  ∃ digits : List Char, digits ≠ [] ∧ (∀ c ∈ digits, c.isDigit = true) ∧ pageValue digits = n ∧
    n < 2 ^ 64 ∧ LastPart path (String.ofList digits ++ ".json")

/-- The paths of pages are told apart from all others. -/
structure ParsedExactly (path : String) : Prop where
  page : ∀ n, Archive.parseFileName path = .ok (some n) ↔ PageName path n
  nothing : (¬ ∃ stem, HasStem path stem) → Archive.parseFileName path = .ok none
  throws : (∃ stem, HasStem path stem) → (¬ ∃ n, PageName path n) →
    ∃ what, Archive.parseFileName path = .error (.runtimeError what)

/-- Only paths of pages of one number claim the same page. -/
def NeverShare (path path' : String) : Prop :=
  ∀ n, Archive.parseFileName path = .ok (some n) → Archive.parseFileName path' = .ok (some n) →
    PageName path n ∧ PageName path' n

/-- The digits a stem starts with. -/
def leadingDigits (stem : List Char) : List Char := stem.takeWhile Char.isDigit

/-- Nothing follows a number of 64 bits at the beginning of the stem. -/
def Clean (path : String) : Prop :=
  ∀ stem, HasStem path stem → (∀ c ∈ stem, c.isDigit = true) ∨ leadingDigits stem = [] ∨
    2 ^ 64 ≤ pageValue (leadingDigits stem)

section PageNumbers

variable {path : String}

theorem lastPart_iff {name : String} : LastPart path name ↔ Archive.basename path = name := by
  unfold Archive.basename
  constructor
  · rintro ⟨hname, rfl | ⟨directory, rfl⟩⟩
    · rw [takeWhile_ne_self (by simpa using hname), List.reverse_reverse, String.ofList_toList]
    · rw [String.toList_append, String.toList_append, List.append_assoc, List.reverse_append,
        List.reverse_append]
      have hslash : ("/".toList).reverse = ['/'] := rfl
      rw [hslash, List.append_assoc, List.singleton_append, takeWhile_ne (by simpa using hname),
        List.reverse_reverse, String.ofList_toList]
  · rintro rfl
    rw [LastPart, String.toList_ofList]
    by_cases hslash : '/' ∈ path.toList
    · obtain ⟨d, b, hsplit, hb⟩ := exists_last hslash
      have htake : (path.toList.reverse.takeWhile fun c => c ≠ '/').reverse = b := by
        rw [hsplit, List.reverse_append, List.reverse_cons, List.append_assoc,
          List.singleton_append, takeWhile_ne (by simpa using hb), List.reverse_reverse]
      rw [htake]
      refine ⟨hb, Or.inr ⟨String.ofList d, ?_⟩⟩
      apply String.toList_inj.mp
      rw [hsplit]
      simp
    · rw [takeWhile_ne_self (by simpa using hslash), List.reverse_reverse, String.ofList_toList]
      exact ⟨hslash, Or.inl rfl⟩

theorem isDigit_ne_dot {c : Char} (h : c.isDigit = true) : c ≠ '.' := by
  rintro rfl
  exact absurd h (by decide)

theorem HasStem.unique {stem stem' : List Char} (h : HasStem path stem)
    (h' : HasStem path stem') : stem = stem' := by
  have heq := (lastPart_iff.mp h.2).symm.trans (lastPart_iff.mp h'.2)
  have hlist := congrArg String.toList heq
  simpa using hlist

theorem PageName.hasStem {n : ℕ} (h : PageName path n) : ∃ digits, HasStem path digits ∧
    digits ≠ [] ∧ (∀ c ∈ digits, c.isDigit = true) ∧ pageValue digits = n ∧ n < 2 ^ 64 := by
  obtain ⟨digits, hne, hdigits, hvalue, hlt, hpart⟩ := h
  exact ⟨digits, ⟨fun hdot => isDigit_ne_dot (hdigits _ hdot) rfl, hpart⟩, hne, hdigits, hvalue,
    hlt⟩

/-- A path with a stem is parsed by its stem. -/
theorem parseFileName_of_hasStem {stem : List Char} (h : HasStem path stem) :
    Archive.parseFileName path = (Archive.parsePageNumber (String.ofList stem)).map some := by
  obtain ⟨hdot, hpart⟩ := h
  have hchars : (String.ofList stem ++ ".json").toList = stem ++ '.' :: "json".toList := by simp
  have hsplit : Archive.splitExtension (String.ofList stem ++ ".json") =
      (String.ofList stem, "json") := by
    rw [Archive.splitExtension, hchars, takeWhile_ne hdot, dropWhile_ne hdot, List.tail_cons,
      String.ofList_toList]
  rw [Archive.parseFileName, lastPart_iff.mp hpart, hsplit]
  exact if_pos rfl

/-- All other paths are no pages. -/
theorem parseFileName_of_no_stem (h : ¬ ∃ stem, HasStem path stem) :
    Archive.parseFileName path = .ok none := by
  unfold Archive.parseFileName
  cases hsplit : Archive.splitExtension (Archive.basename path) with
  | mk f extension =>
    apply if_neg
    rintro rfl
    -- the extension is not empty, so there is a dot
    obtain ⟨hf, hextension⟩ := Prod.mk.inj hsplit
    have htail : ((Archive.basename path).toList.dropWhile fun c => c ≠ '.').tail =
        "json".toList := by
      rw [← hextension, String.toList_ofList]
    have hdot : '.' ∈ (Archive.basename path).toList := by
      by_contra hdot
      rw [dropWhile_ne_nil hdot] at htail
      exact absurd htail (by simp)
    obtain ⟨stem, e, hname, hstem⟩ := List.eq_append_cons_of_mem hdot
    rw [hname, dropWhile_ne hstem, List.tail_cons] at htail
    refine h ⟨stem, hstem, lastPart_iff.mpr (String.toList_inj.mp ?_)⟩
    rw [hname, htail]
    simp

/-- A number is read as far as there are digits. -/
theorem parsePageNumber_eq (stem : List Char) :
    Archive.parsePageNumber (String.ofList stem) =
      if leadingDigits stem = [] ∨ 2 ^ 64 ≤ pageValue (leadingDigits stem) then
        .error (.runtimeError ("invalid page number: '" ++ String.ofList stem ++ "'"))
      else .ok (pageValue (leadingDigits stem)) := by
  rw [Archive.parsePageNumber, String.toList_ofList]
  rfl

theorem leadingDigits_eq_self {stem : List Char} :
    leadingDigits stem = stem ↔ ∀ c ∈ stem, c.isDigit = true := List.takeWhile_eq_self_iff

/-- A page is read exactly for a number at the beginning of the stem. -/
theorem parseFileName_eq_some {stem : List Char} (h : HasStem path stem) {n : ℕ} :
    Archive.parseFileName path = .ok (some n) ↔
      leadingDigits stem ≠ [] ∧ pageValue (leadingDigits stem) = n ∧ n < 2 ^ 64 := by
  rw [parseFileName_of_hasStem h, parsePageNumber_eq]
  split
  · next hbad =>
    apply iff_of_false (by simp [Except.map])
    rintro ⟨hne, rfl, hlt⟩
    rcases hbad with hnil | hle
    · exact hne hnil
    · exact absurd hlt (not_lt.mpr hle)
  · next hgood =>
    obtain ⟨hne, hlt⟩ := not_or.mp hgood
    rw [Except.map]
    constructor
    · intro heq
      obtain rfl := Option.some.inj (Except.ok.inj heq)
      exact ⟨hne, rfl, not_le.mp hlt⟩
    · rintro ⟨-, rfl, -⟩
      rfl

/-- The paths of pages are told apart exactly where stems are clean. -/
theorem parsedExactly_iff_clean : ParsedExactly path ↔ Clean path := by
  constructor
  · intro h stem hstem
    by_contra hdirty
    rw [not_or, not_or, not_le] at hdirty
    obtain ⟨hdigits, hne, hlt⟩ := hdirty
    -- a page is read, and no other stem has its digits
    obtain ⟨digits, hstem', -, hall, -⟩ := PageName.hasStem
      ((h.page _).mp ((parseFileName_eq_some hstem).mpr ⟨hne, rfl, hlt⟩))
    exact hdigits (hstem.unique hstem' ▸ hall)
  · intro h
    have hpage : ∀ n, Archive.parseFileName path = .ok (some n) ↔ PageName path n := by
      intro n
      constructor
      · intro hparse
        by_cases hstem : ∃ stem, HasStem path stem
        · obtain ⟨stem, hstem⟩ := hstem
          obtain ⟨hne, hvalue, hlt⟩ := (parseFileName_eq_some hstem).mp hparse
          rcases h stem hstem with hall | hnil | hle
          · rw [leadingDigits_eq_self.mpr hall] at hne hvalue
            exact ⟨stem, hne, hall, hvalue, hlt, hstem.2⟩
          · exact absurd hnil hne
          · exact absurd (hvalue ▸ hlt) (not_lt.mpr hle)
        · rw [parseFileName_of_no_stem hstem] at hparse
          exact absurd hparse (by simp)
      · intro hname
        obtain ⟨digits, hstem, hne, hall, hvalue, hlt⟩ := hname.hasStem
        apply (parseFileName_eq_some hstem).mpr
        rw [leadingDigits_eq_self.mpr hall]
        exact ⟨hne, hvalue, hlt⟩
    refine ⟨hpage, parseFileName_of_no_stem, ?_⟩
    rintro ⟨stem, hstem⟩ hnone
    rw [parseFileName_of_hasStem hstem, parsePageNumber_eq]
    split
    · exact ⟨_, rfl⟩
    · next hgood =>
      obtain ⟨hne, hlt⟩ := not_or.mp hgood
      have hparse := (parseFileName_eq_some hstem).mpr ⟨hne, rfl, not_le.mp hlt⟩
      exact absurd ⟨_, (hpage _).mp hparse⟩ hnone

end PageNumbers

/-- **When exactly the paths of pages are taken for pages**, and no two paths for one
page but for the same number. -/
theorem parsedExactly_iff (path path' : String) :
    (ParsedExactly path ∧ ParsedExactly path' ∧ NeverShare path path') ↔
      Clean path ∧ Clean path' := by
  constructor
  · rintro ⟨h, h', -⟩
    exact ⟨parsedExactly_iff_clean.mp h, parsedExactly_iff_clean.mp h'⟩
  · rintro ⟨h, h'⟩
    have hexact := parsedExactly_iff_clean.mpr h
    have hexact' := parsedExactly_iff_clean.mpr h'
    exact ⟨hexact, hexact', fun n hn hn' => ⟨(hexact.page n).mp hn, (hexact'.page n).mp hn'⟩⟩

/-- A copy of a page overwrites the page. -/
theorem not_parsedExactly_copy :
    ¬ (ParsedExactly "archive/8 (copy).json" ∧ ParsedExactly "archive/8.json" ∧
      NeverShare "archive/8 (copy).json" "archive/8.json") := by
  rintro ⟨hexact, -, hshare⟩
  have hcopy : Archive.parseFileName "archive/8 (copy).json" = .ok (some 8) := by decide +kernel
  have hpage : Archive.parseFileName "archive/8.json" = .ok (some 8) := by decide +kernel
  obtain ⟨digits, -, hdigits, -, -, hpart⟩ := (hshare 8 hcopy hpage).1
  have hname : Archive.basename "archive/8 (copy).json" = "8 (copy).json" := by decide +kernel
  have hchars := congrArg String.toList ((lastPart_iff.mp hpart).symm.trans hname)
  have hspace : ' ' ∈ (String.ofList digits ++ ".json").toList := by
    rw [hchars]
    decide
  rw [String.toList_append, String.toList_ofList, List.mem_append] at hspace
  rcases hspace with hspace | hspace
  · exact absurd (hdigits _ hspace) (by decide)
  · exact absurd hspace (by decide)

end FileNames
end Pricing
end EveIndustryPlanner
