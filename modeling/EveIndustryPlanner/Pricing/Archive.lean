import EveIndustryPlanner.Lib.Placement
import EveIndustryPlanner.Pricing.JsonOrder

/-!
# The pages of an archive

A downloaded view of the market is an archive whose members are numbered pages
of orders.  The pages come in any order and are put at their numbers.  A page
that is no JSON is left empty, but an order that cannot be read ends the loop
over the pages.

## Main definitions

* `parseFileName` — the number of a page.
* `parseOrders`, `convertOrders`, `filterOrders`, `Member.readOrders` — the orders of a page.
* `readMembers`, `readOrders` — all pages.
* `outcome` — what a member comes to, whatever was read before.
* `expected` — the orders of the pages that can be read.

## Main results

* `readMembers_cons` — one round of the loop.
* `readOrders_iff` — **when the order of the members does not matter.**
-/

namespace EveIndustryPlanner
namespace Pricing
namespace Archive

/-! ### The names of the members -/

/-- A member of an archive. -/
structure Member where
  path : String
  text : String

/-- What is behind the last `/` of a path. -/
def basename (s : String) : String :=
  String.ofList (s.toList.reverse.takeWhile fun c => c ≠ '/').reverse

/-- What is before and what is behind the first `.`. -/
def splitExtension (s : String) : String × String :=
  (String.ofList (s.toList.takeWhile fun c => c ≠ '.'),
    String.ofList (s.toList.dropWhile fun c => c ≠ '.').tail)

/-- The number at the beginning of a name. -/
def parsePageNumber (f : String) : Except Fault ℕ :=
  let digits := f.toList.takeWhile Char.isDigit
  let page := digits.foldl (fun page c => page * 10 + Market.digit c) 0
  if digits = [] ∨ 2 ^ 64 ≤ page then
    .error (.runtimeError ("invalid page number: '" ++ f ++ "'"))
  else .ok page

/-- The number of a page; other members have none. -/
def parseFileName (path : String) : Except Fault (Option ℕ) :=
  let (f, extension) := splitExtension (basename path)
  if extension = "json" then (parsePageNumber f).map some else .ok none

/-! ### The orders of a page -/

section Pages

-- parsing is left open
variable (parse : String → Option JsonValue)

/-- The document of a page, `null` if there is none. -/
def parseOrders (text : String) : JsonValue := (parse text).getD .null

/-- `order.GetObject()`, converted. -/
def convertItem : JsonValue → Except Fault Order
  | .object members => convert members
  | _ => .error (.runtimeError "not an object")

/-- The orders of a document.  Only an object can be asked for its items, and these
have to be an array. -/
def convertOrders : JsonValue → Except Fault (List Order)
  | .null => .ok []
  | .object members =>
    match members.lookup "items" with
    | some (.array l) => l.mapM convertItem
    | _ => .error .undefined
  | _ => .error .undefined

/-- The orders that want something. -/
def filterOrders (docs : List Order) : List Order := docs.filter fun o => o.volume ≠ 0

/-- The orders of a page. -/
def Member.readOrders (ar : Member) : Except Fault (List Order) :=
  (convertOrders (parseOrders parse ar.text)).map filterOrders

/-! ### The loop -/

/-- The largest number of pages a vector may have. -/
def maxSize : ℕ := (2 ^ 63 - 1) / 24

-- the most pages memory has room for
variable (limit : ℕ)

/-- The number of pages that can be had. -/
def room : ℕ := min maxSize limit

/-- Room for a page; the number is compared as a 64-bit number with a sign. -/
def resize (docs : List (List Order)) (page : ℕ) : Except Fault (List (List Order)) :=
  if page = 2 ^ 63 - 1 then .error .undefined
  else if page < 2 ^ 63 ∧ docs.length < page + 1 then
    if page + 1 ≤ room limit then .ok (extendTo [] docs (page + 1))
    else .error (.runtimeError "vector::_M_default_append")
  else .ok docs

/-- An exception leaves the pages that were read. -/
def stopped (docs : List (List Order)) : Fault → Except Fault (List (List Order))
  | .runtimeError _ => .ok docs
  | .undefined => .error .undefined

/-- The loop over the members. -/
def readMembers (docs : List (List Order)) : List Member → Except Fault (List (List Order))
  | [] => .ok docs
  | ar :: members =>
    match parseFileName ar.path with
    | .error e => stopped docs e
    | .ok none => readMembers docs members
    | .ok (some page) =>
      match resize limit docs page with
      | .error e => stopped docs e
      | .ok docs =>
        match ar.readOrders parse with
        | .error e => stopped docs e
        | .ok orders =>
          if page < docs.length then readMembers (docs.set page orders) members
          else .error .undefined

/-- The pages of an archive. -/
def readOrders (members : List Member) : Except Fault (List (List Order)) :=
  (readMembers parse limit [] members).map (compact [])

/-! ### What a member comes to -/

/-- What a member comes to, whatever was read before it. -/
def outcome (ar : Member) : Except Fault (Option (ℕ × List Order)) :=
  match parseFileName ar.path with
  | .error e => .error e
  | .ok none => .ok none
  | .ok (some page) =>
    if page = 2 ^ 63 - 1 then .error .undefined
    else if page < 2 ^ 63 ∧ room limit < page + 1 then
      .error (.runtimeError "vector::_M_default_append")
    else
      match ar.readOrders parse with
      | .error e => .error e
      | .ok orders => if page < 2 ^ 63 then .ok (some (page, orders)) else .error .undefined

/-- The member ends the loop. -/
def EndsLoop (ar : Member) : Prop := ∃ what, outcome parse limit ar = .error (.runtimeError what)

/-- The page of a member that can be read. -/
def goodPage (ar : Member) : Option (ℕ × List Order) :=
  match parseFileName ar.path, ar.readOrders parse with
  | .ok (some page), .ok orders => some (page, orders)
  | _, _ => none

/-- The orders of the pages that can be read, in the order of the pages. -/
def expected (members : List Member) : List (List Order) :=
  compact [] ((sortedByPosition (members.filterMap (goodPage parse))).map Prod.snd)

/-- The number of a member. -/
def pageOf (ar : Member) : Option ℕ :=
  match parseFileName ar.path with
  | .ok page => page
  | .error _ => none

/-- Members with different numbers, or without one. -/
structure Paged (members : List Member) : Prop where
  named : ∀ ar ∈ members, ∃ page, parseFileName ar.path = .ok page
  distinct : (members.filterMap pageOf).Nodup

variable {parse limit}

theorem room_lt : room limit < 2 ^ 63 - 1 :=
  lt_of_le_of_lt (min_le_left _ _) (by decide)

/-- A page that is too far away has no room. -/
theorem resize_of_room_lt {docs : List (List Order)} {page : ℕ} (h : docs.length ≤ room limit)
    (hmax : page ≠ 2 ^ 63 - 1) (hbig : page < 2 ^ 63 ∧ room limit < page + 1) :
    resize limit docs page = .error (.runtimeError "vector::_M_default_append") := by
  rw [resize, if_neg hmax, if_pos ⟨hbig.1, by omega⟩, if_neg (by omega)]

/-- Any other page has room, or a negative number. -/
theorem resize_eq_ok {docs : List (List Order)} {page : ℕ} (hmax : page ≠ 2 ^ 63 - 1)
    (hfits : ¬(page < 2 ^ 63 ∧ room limit < page + 1)) :
    resize limit docs page =
      .ok (if page < 2 ^ 63 then extendTo [] docs (page + 1) else docs) := by
  rw [resize, if_neg hmax]
  by_cases hsign : page < 2 ^ 63
  · by_cases hlt : docs.length < page + 1
    · rw [if_pos ⟨hsign, hlt⟩, if_pos (by omega), if_pos hsign]
    · rw [if_neg (fun hboth => hlt hboth.2), if_pos hsign, extendTo_eq_self _ (by omega)]
  · rw [if_neg (fun hboth => hsign hboth.1), if_neg hsign]

/-- One round of the loop. -/
theorem readMembers_cons (parse : String → Option JsonValue) {docs : List (List Order)}
    (h : docs.length ≤ room limit) (ar : Member) (members : List Member) :
    (outcome parse limit ar = .ok none ∧
      readMembers parse limit docs (ar :: members) = readMembers parse limit docs members) ∨
    (∃ e, outcome parse limit ar = .ok (some e) ∧ e.1 + 1 ≤ room limit ∧
      readMembers parse limit docs (ar :: members) =
        readMembers parse limit (place [] docs e) members) ∨
    (outcome parse limit ar = .error .undefined ∧
      readMembers parse limit docs (ar :: members) = .error .undefined) ∨
    ∃ what docs', outcome parse limit ar = .error (.runtimeError what) ∧
      readMembers parse limit docs (ar :: members) = .ok docs' ∧
        compact [] docs' = compact [] docs := by
  have hroom := @room_lt limit
  rw [outcome, readMembers]
  cases hname : parseFileName ar.path with
  | error e =>
    cases e with
    | undefined => exact Or.inr (Or.inr (Or.inl ⟨rfl, rfl⟩))
    | runtimeError what => exact Or.inr (Or.inr (Or.inr ⟨what, docs, rfl, rfl, rfl⟩))
  | ok maybePage =>
    cases maybePage with
    | none => exact Or.inl ⟨rfl, rfl⟩
    | some page =>
      dsimp only
      right
      by_cases hmax : page = 2 ^ 63 - 1
      · rw [if_pos hmax, resize, if_pos hmax]
        exact Or.inr (Or.inl ⟨rfl, rfl⟩)
      rw [if_neg hmax]
      by_cases hbig : page < 2 ^ 63 ∧ room limit < page + 1
      · rw [if_pos hbig, resize_of_room_lt h hmax hbig]
        exact Or.inr (Or.inr ⟨_, docs, rfl, rfl, rfl⟩)
      rw [if_neg hbig, resize_eq_ok hmax hbig]
      dsimp only
      cases hread : ar.readOrders parse with
      | error e =>
        cases e with
        | undefined => exact Or.inr (Or.inl ⟨rfl, rfl⟩)
        | runtimeError what =>
          refine Or.inr (Or.inr ⟨what, _, rfl, rfl, ?_⟩)
          split
          · exact compact_extendTo docs (page + 1)
          · rfl
      | ok orders =>
        dsimp only
        by_cases hsign : page < 2 ^ 63
        · have hlt : page < (extendTo [] docs (page + 1)).length := by
            rw [length_extendTo]
            omega
          rw [if_pos hsign, if_pos hsign, if_pos hlt]
          exact Or.inl ⟨(page, orders), rfl, by omega, rfl⟩
        · rw [if_neg hsign, if_neg hsign, if_neg (by omega)]
          exact Or.inr (Or.inl ⟨rfl, rfl⟩)

/-- A member that does not fail is a page that can be read, or none. -/
theorem goodPage_of_outcome {ar : Member} {e : Option (ℕ × List Order)}
    (h : outcome parse limit ar = .ok e) : goodPage parse ar = e := by
  rw [outcome] at h
  rw [goodPage]
  cases hname : parseFileName ar.path with
  | error e => simp [hname] at h
  | ok maybePage =>
    cases maybePage with
    | none => simpa [hname] using h
    | some page =>
      simp only [hname] at h
      cases hread : ar.readOrders parse with
      | error e =>
        simp only [hread] at h
        split_ifs at h
      | ok orders =>
        simp only [hread] at h
        split_ifs at h
        exact Except.ok.inj h

/-! ### Whole archives -/

theorem length_place (docs : List (List Order)) (e : ℕ × List Order) :
    (place [] docs e).length = max docs.length (e.1 + 1) := by
  rw [place, List.length_set, length_extendTo]

/-- Without a failure all pages that can be read are put at their numbers. -/
theorem readMembers_of_outcome {members : List Member}
    (h : ∀ ar ∈ members, ∃ e, outcome parse limit ar = .ok e) (es : List (ℕ × List Order))
    (hlength : (placeAll [] es).length ≤ room limit) :
    readMembers parse limit (placeAll [] es) members =
      .ok (placeAll [] (es ++ members.filterMap (goodPage parse))) := by
  induction members generalizing es with
  | nil => rw [List.filterMap_nil, List.append_nil, readMembers]
  | cons ar members ih =>
    obtain ⟨⟨e, he⟩, hrest⟩ := List.forall_mem_cons.mp h
    rcases readMembers_cons parse hlength ar members with
      ⟨hnone, hrun⟩ | ⟨e, hsome, hroom, hrun⟩ | ⟨hundefined, -⟩ | ⟨what, docs', herror, -⟩
    · rw [List.filterMap_cons, goodPage_of_outcome hnone, hrun]
      exact ih hrest es hlength
    · have hsnoc := placeAll_snoc [] es e
      have hlength' : (placeAll [] (es ++ [e])).length ≤ room limit := by
        rw [hsnoc, length_place]
        exact max_le hlength hroom
      rw [List.filterMap_cons, goodPage_of_outcome hsome, hrun, ← hsnoc, ih hrest _ hlength',
        List.append_assoc, List.singleton_append]
    · exact absurd (he.symm.trans hundefined) (by simp)
    · exact absurd (he.symm.trans herror) (by simp)

theorem compact_eq_nil_iff {docs : List (List Order)} :
    compact [] docs = [] ↔ ∀ doc ∈ docs, doc = [] := by simp [compact]

/-- Pages without orders leave nothing behind, however the loop ends. -/
theorem readMembers_of_empty {members : List Member}
    (h : ∀ ar ∈ members, outcome parse limit ar ≠ .error .undefined)
    (hempty : ∀ ar ∈ members, ∀ e, goodPage parse ar = some e → e.2 = [])
    {docs : List (List Order)} (hlength : docs.length ≤ room limit)
    (hdocs : compact [] docs = []) :
    ∃ docs', readMembers parse limit docs members = .ok docs' ∧ compact [] docs' = [] := by
  induction members generalizing docs with
  | nil => exact ⟨docs, rfl, hdocs⟩
  | cons ar members ih =>
    obtain ⟨har, hrest⟩ := List.forall_mem_cons.mp h
    obtain ⟨hpage, hempty⟩ := List.forall_mem_cons.mp hempty
    rcases readMembers_cons parse hlength ar members with
      ⟨-, hrun⟩ | ⟨e, hsome, hroom, hrun⟩ | ⟨hundefined, -⟩ | ⟨what, docs', -, hrun, hcompact⟩
    · rw [hrun]
      exact ih hrest hempty hlength hdocs
    · rw [hrun]
      apply ih hrest hempty (by rw [length_place]; exact max_le hlength hroom)
      have horders := hpage e (goodPage_of_outcome hsome)
      rw [compact_eq_nil_iff] at hdocs ⊢
      intro doc hdoc
      rcases List.mem_or_eq_of_mem_set hdoc with hdoc | rfl
      · rcases List.mem_append.mp hdoc with hdoc | hdoc
        · exact hdocs doc hdoc
        · exact List.eq_of_mem_replicate hdoc
      · exact horders
    · exact absurd hundefined har
    · exact ⟨docs', hrun, hcompact.trans hdocs⟩

theorem pageOf_of_goodPage {ar : Member} {e : ℕ × List Order} (h : goodPage parse ar = some e) :
    pageOf ar = some e.1 := by
  rw [goodPage] at h
  rw [pageOf]
  split at h
  · next hname _ =>
    rw [hname]
    exact congrArg (fun o => o.map Prod.fst) h
  · exact absurd h (by simp)

/-- Pages that can be read have different numbers. -/
theorem Paged.nodup {members : List Member} (h : Paged members) :
    ((members.filterMap (goodPage parse)).map Prod.fst).Nodup := by
  refine List.Nodup.sublist ?_ h.distinct
  clear h
  induction members with
  | nil => exact List.Sublist.refl []
  | cons ar members ih =>
    rw [List.filterMap_cons, List.filterMap_cons]
    cases hgood : goodPage parse ar with
    | none =>
      cases pageOf ar with
      | none => exact ih
      | some page => exact ih.cons page
    | some e =>
      rw [pageOf_of_goodPage hgood]
      exact ih.cons_cons e.1

theorem Paged.perm {members members' : List Member} (h : Paged members)
    (hperm : members'.Perm members) : Paged members' :=
  ⟨fun ar har => h.named ar (hperm.mem_iff.mp har),
    (hperm.filterMap pageOf).nodup_iff.mpr h.distinct⟩

/-- What is expected does not depend on the order of the members. -/
theorem expected_perm {members members' : List Member} (h : Paged members)
    (hperm : members'.Perm members) : expected parse members' = expected parse members := by
  refine compact_map_eq (pairwise_sortedByPosition (h.perm hperm).nodup)
    (pairwise_sortedByPosition h.nodup) fun k a _ => ?_
  rw [(perm_sortedByPosition _).mem_iff, (perm_sortedByPosition _).mem_iff,
    (hperm.filterMap (goodPage parse)).mem_iff]

theorem expected_eq_nil_iff {members : List Member} :
    expected parse members = [] ↔
      ∀ ar ∈ members, ∀ e, goodPage parse ar = some e → e.2 = [] := by
  have hmem : ∀ e, e ∈ sortedByPosition (members.filterMap (goodPage parse)) ↔
      ∃ ar ∈ members, goodPage parse ar = some e := by
    intro e
    rw [(perm_sortedByPosition _).mem_iff, List.mem_filterMap]
  rw [expected, compact_eq_nil_iff]
  constructor
  · intro h ar har e he
    exact h e.2 (List.mem_map_of_mem ((hmem e).mpr ⟨ar, har, he⟩))
  · intro h doc hdoc
    obtain ⟨e, he, rfl⟩ := List.mem_map.mp hdoc
    obtain ⟨ar, har, hgood⟩ := (hmem e).mp he
    exact h ar har e hgood

/-- The members in an order that starts with one of them. -/
theorem exists_perm_cons {members : List Member} {ar : Member} (har : ar ∈ members) :
    ∃ members', (ar :: members').Perm members := by
  obtain ⟨before, after, rfl⟩ := List.append_of_mem har
  exact ⟨before ++ after, List.perm_middle.symm⟩

theorem length_nil_le_room : ([] : List (List Order)).length ≤ room limit := Nat.zero_le _

/-- Nothing is read when the first member is undefined. -/
theorem readOrders_of_undefined {ar : Member} (members : List Member)
    (h : outcome parse limit ar = .error .undefined) :
    readOrders parse limit (ar :: members) = .error .undefined := by
  rcases readMembers_cons parse length_nil_le_room ar members with
    ⟨hnone, -⟩ | ⟨e, hsome, -⟩ | ⟨-, hrun⟩ | ⟨what, docs', herror, -⟩
  · exact absurd (h.symm.trans hnone) (by simp)
  · exact absurd (h.symm.trans hsome) (by simp)
  · rw [readOrders, hrun]
    rfl
  · exact absurd (h.symm.trans herror) (by simp)

/-- No orders are read when the first member ends the loop. -/
theorem readOrders_of_endsLoop {ar : Member} (members : List Member)
    (h : EndsLoop parse limit ar) : readOrders parse limit (ar :: members) = .ok [] := by
  obtain ⟨what, hwhat⟩ := h
  rcases readMembers_cons parse length_nil_le_room ar members with
    ⟨hnone, -⟩ | ⟨e, hsome, -⟩ | ⟨hundefined, -⟩ | ⟨what, docs', -, hrun, hcompact⟩
  · exact absurd (hwhat.symm.trans hnone) (by simp)
  · exact absurd (hwhat.symm.trans hsome) (by simp)
  · exact absurd (hwhat.symm.trans hundefined) (by simp)
  · rw [readOrders, hrun]
    exact congrArg Except.ok hcompact

/-- A member that is defined and does not end the loop does not fail. -/
theorem exists_outcome {ar : Member} (hundefined : outcome parse limit ar ≠ .error .undefined)
    (hends : ¬EndsLoop parse limit ar) : ∃ e, outcome parse limit ar = .ok e := by
  cases houtcome : outcome parse limit ar with
  | ok e => exact ⟨e, rfl⟩
  | error e =>
    cases e with
    | undefined => exact absurd houtcome hundefined
    | runtimeError what => exact absurd ⟨what, houtcome⟩ hends

/-- **When the order of the members does not matter**: no member is undefined, and
either none ends the loop or there is nothing to read. -/
theorem readOrders_iff (parse : String → Option JsonValue) (limit : ℕ) {members : List Member}
    (h : Paged members) :
    (∀ members', members'.Perm members →
        readOrders parse limit members' = .ok (expected parse members)) ↔
      (∀ ar ∈ members, outcome parse limit ar ≠ .error .undefined) ∧
        ((∀ ar ∈ members, ¬ EndsLoop parse limit ar) ∨ expected parse members = []) := by
  constructor
  · intro hall
    constructor
    · intro ar har hundefined
      obtain ⟨members', hperm⟩ := exists_perm_cons har
      have hread := (readOrders_of_undefined members' hundefined).symm.trans (hall _ hperm)
      exact absurd hread (by simp)
    · by_cases hends : ∃ ar ∈ members, EndsLoop parse limit ar
      · right
        obtain ⟨ar, har, hend⟩ := hends
        obtain ⟨members', hperm⟩ := exists_perm_cons har
        have hread := (readOrders_of_endsLoop members' hend).symm.trans (hall _ hperm)
        exact (Except.ok.inj hread).symm
      · exact Or.inl fun ar har hend => hends ⟨ar, har, hend⟩
  · rintro ⟨hundefined, hends⟩ members' hperm
    have hundefined' : ∀ ar ∈ members', outcome parse limit ar ≠ .error .undefined :=
      fun ar har => hundefined ar (hperm.mem_iff.mp har)
    rcases hends with hends | hempty
    · have houtcome : ∀ ar ∈ members', ∃ e, outcome parse limit ar = .ok e :=
        fun ar har => exists_outcome (hundefined' ar har) (hends ar (hperm.mem_iff.mp har))
      have hrun := readMembers_of_outcome houtcome [] length_nil_le_room
      rw [List.nil_append] at hrun
      rw [readOrders, show ([] : List (List Order)) = placeAll [] [] from rfl, hrun, Except.map,
        ← expected_perm h hperm, expected, ← compact_placeAll (h.perm hperm).nodup]
    · have hnone := expected_eq_nil_iff.mp hempty
      obtain ⟨docs', hrun, hcompact⟩ := readMembers_of_empty hundefined'
        (fun ar har => hnone ar (hperm.mem_iff.mp har)) length_nil_le_room rfl
      rw [readOrders, hrun, Except.map, hcompact, hempty]

end Pages

/-! ### An archive of two pages -/

/-- A page with an order that has no members. -/
def brokenText : String := "\x7b\"items\": [\x7b\x7d]\x7d"

/-- A page with one order. -/
def goodText : String :=
  "\x7b\"items\": [\x7b\"id\": 7, \"buy\": false, \"type\": 34, \"price\": 5.5, " ++
    "\"range\": \"region\", \"issued\": \"2016-04-02T01:40:43\", \"volume\": 833, " ++
    "\"duration\": 365, \"stationID\": 60006484, \"minVolume\": 1, \"volumeEntered\": 833\x7d]\x7d"

/-- The order of the good page, as the reader stores it. -/
def goodItem : JsonValue :=
  .object [("id", .unsigned 7), ("buy", .bool false), ("type", .unsigned 34),
    ("price", .double ⟨0x4016000000000000⟩), ("range", .string "region"),
    ("issued", .string "2016-04-02T01:40:43"), ("volume", .unsigned 833),
    ("duration", .unsigned 365), ("stationID", .unsigned 60006484), ("minVolume", .unsigned 1),
    ("volumeEntered", .unsigned 833)]

/-- A reader that knows the two pages. -/
def parseTexts (text : String) : Option JsonValue :=
  [(brokenText, JsonValue.object [("items", .array [.object []])]),
    (goodText, .object [("items", .array [goodItem])])].lookup text

/-- The broken page comes first. -/
def twoPages : List Member :=
  [⟨"2016_12_04_14_55_06/1.json", brokenText⟩, ⟨"2016_12_04_14_55_06/2.json", goodText⟩]

theorem paged_twoPages : Paged twoPages where
  named ar har := by
    rcases List.mem_cons.mp har with rfl | har
    · exact ⟨some 1, by decide +kernel⟩
    · rw [List.mem_singleton.mp har]
      exact ⟨some 2, by decide +kernel⟩
  distinct := by decide +kernel

/-- Whether the order of the two pages matters depends on the broken one. -/
theorem readOrders_iff_twoPages :
    (∀ members', members'.Perm twoPages →
        readOrders parseTexts 100 members' = .ok (expected parseTexts twoPages)) ↔
      (∀ ar ∈ twoPages, outcome parseTexts 100 ar ≠ .error .undefined) ∧
        ((∀ ar ∈ twoPages, ¬ EndsLoop parseTexts 100 ar) ∨ expected parseTexts twoPages = []) :=
  readOrders_iff parseTexts 100 paged_twoPages

/-- The good page is lost behind the broken one. -/
theorem not_readOrders_twoPages :
    ¬ ∀ members', members'.Perm twoPages →
      readOrders parseTexts 100 members' = .ok (expected parseTexts twoPages) := by
  intro h
  have hread : readOrders parseTexts 100 twoPages = .ok [] := by decide +kernel
  have hempty := Except.ok.inj (hread.symm.trans (h twoPages (List.Perm.refl _)))
  have hgood : goodPage parseTexts ⟨"2016_12_04_14_55_06/2.json", goodText⟩ =
      some (2, [⟨0, 1459561243, ⟨0x4016000000000000⟩, 833, 60006484, 833, -1, 1, 365, 34, 7⟩]) := by
    decide +kernel
  have hnil := expected_eq_nil_iff.mp hempty.symm _
    (List.mem_cons_of_mem _ (List.mem_singleton.mpr rfl)) _ hgood
  exact absurd hnil (List.cons_ne_nil _ _)

end Archive
end Pricing
end EveIndustryPlanner
