import EveIndustryPlanner.Fault
import EveIndustryPlanner.Lib.Chase

/-!
# Redirects

A request is answered with a status and headers.  A response that redirects is
followed by a request for the new location, whose response is handled by the same
function again; nothing counts the requests.

## Main definitions

* `Request`, `Response`, `Reply` — what is sent and what comes back.
* `Exchange`, `Outcome` — what has happened so far, and how it ended.
* `handleRequestNoRedirect`, `handleRedirect`, `handleRequest` — the functions.
* `redirect?` — where a location leads to.

## Main results

* `handleRequest_of_endsAfter`, `handleRequest_of_endless` — what is done along a chain.
* `handleRequest_ends` — **following redirects ends exactly if their chain does.**
-/

namespace EveIndustryPlanner
namespace Market
namespace Redirects

/-! ### Requests and responses -/

inductive Method where
  | GET
  | POST
  deriving DecidableEq, Repr

inductive OnRedirect where
  | FOLLOW
  | DONT_FOLLOW
  deriving DecidableEq, Repr

structure Request where
  method : Method
  location : String
  followRedirects : OnRedirect
  deriving DecidableEq, Repr

/-- `NameValueCollection`. -/
abbrev NameValueCollection := String → Option String

structure Response where
  status : ℤ
  reason : String
  header : NameValueCollection

/-- What the server answers. -/
structure Reply where
  status : ℤ
  reason : String
  headers : List (String × String)
  cookies : List (String × String)
  body : String

/-- The response that is handed on; the first of headers with one name is kept. -/
def Reply.response (reply : Reply) : Response :=
  ⟨reply.status, reply.reason, fun name => reply.headers.lookup name⟩

@[simp] theorem response_status (reply : Reply) : reply.response.status = reply.status := rfl

/-- The server: an answer for each location. -/
abbrev Server := String → Reply

/-- A request as it was sent. -/
structure Sent where
  method : Method
  location : String
  data : String
  cookies : NameValueCollection

/-- What has happened so far. -/
structure Exchange where
  sent : List Sent
  cookies : NameValueCollection
  /-- The calls of the callback. -/
  handled : List (Response × String)

/-- How it ended, if it did. -/
inductive Outcome where
  | returned (w : Exchange)
  | threw (e : Fault) (w : Exchange)
  /-- As many redirects were followed as were looked at. -/
  | goesOn (w : Exchange)

/-- What is called with a response and its body. -/
abbrev Handler := Response → String → Exchange → Outcome

/-! ### The functions -/

section Functions

variable (server : Server)

/-- The request is sent, and its response comes back with cookies. -/
def send (method : Method) (location data : String) (w : Exchange) : Exchange where
  sent := w.sent ++ [⟨method, location, data, w.cookies⟩]
  cookies := (server location).cookies.foldl
    (fun cookies cookie => Function.update cookies cookie.1 (some cookie.2)) w.cookies
  handled := w.handled

def handleRequestNoRedirect (request : Request) (data : String) (f : Handler) (w : Exchange) :
    Outcome :=
  f (server request.location).response (server request.location).body
    (send server request.method request.location data w)

/-- The statuses that are followed: 301 and 302. -/
def Followed (status : ℤ) : Prop := status = 302 ∨ status = 301

instance (status : ℤ) : Decidable (Followed status) := inferInstanceAs (Decidable (_ ∨ _))

/-- Handle a response; at most so many redirects are followed. -/
def handleRedirect (f : Handler) : ℕ → Handler
  | fuel, response, body, w =>
    if Followed response.status then
      match response.header "Location" with
      | none => .threw (.runtimeError "Redirect without location") w
      | some location =>
        match fuel with
        | 0 => .goesOn w
        | fuel + 1 =>
          handleRequestNoRedirect server ⟨.GET, location, .FOLLOW⟩ "" (handleRedirect f fuel) w
    else f response body w

/-- Handle a request; at most so many redirects are followed. -/
def handleRequest (fuel : ℕ) (request : Request) (data : String) (f : Handler) (w : Exchange) :
    Outcome :=
  if request.followRedirects = .FOLLOW then
    handleRequestNoRedirect server request data (handleRedirect server f fuel) w
  else handleRequestNoRedirect server request data f w

/-- A callback that is called with a response; it may throw. -/
def callback (f : Response → String → Option Fault) : Handler := fun response body w =>
  let w := { w with handled := w.handled ++ [(response, body)] }
  match f response body with
  | none => .returned w
  | some e => .threw e w

/-! ### Chains -/

/-- Where a location leads to. -/
def redirect? (location : String) : Option String :=
  if Followed (server location).status then (server location).response.header "Location" else none

/-- What has happened after some redirects. -/
def afterRedirects : ℕ → String → Exchange → Exchange
  | 0, _, w => w
  | n + 1, location, w =>
    match redirect? server location with
    | none => w
    | some location' => afterRedirects n location' (send server .GET location' "" w)

/-- What is done with the last response. -/
def conclude (f : Handler) (location : String) (w : Exchange) : Outcome :=
  if Followed (server location).status then .threw (.runtimeError "Redirect without location") w
  else f (server location).response (server location).body w

end Functions

section Chains

variable {server : Server} {location last : String}

theorem redirect?_eq_some {location' : String} (h : redirect? server location = some location') :
    Followed (server location).status ∧
      (server location).response.header "Location" = some location' := by
  unfold redirect? at h
  split at h
  · next hfollowed => exact ⟨hfollowed, h⟩
  · exact absurd h (by simp)

theorem redirect?_eq_none (h : redirect? server location = none)
    (hfollowed : Followed (server location).status) :
    (server location).response.header "Location" = none := by
  rwa [redirect?, if_pos hfollowed] at h

/-- One redirect is followed. -/
theorem handleRedirect_succ {location' : String} (f : Handler) (fuel : ℕ) (w : Exchange)
    (h : redirect? server location = some location') :
    handleRedirect server f (fuel + 1) (server location).response (server location).body w =
      handleRedirect server f fuel (server location').response (server location').body
        (send server .GET location' "" w) := by
  obtain ⟨hfollowed, hheader⟩ := redirect?_eq_some h
  rw [handleRedirect, response_status, if_pos hfollowed, hheader]
  rfl

theorem afterRedirects_succ {location' : String} (n : ℕ) (w : Exchange)
    (h : redirect? server location = some location') :
    afterRedirects server (n + 1) location w =
      afterRedirects server n location' (send server .GET location' "" w) := by
  rw [afterRedirects, h]

/-- A chain that ends is followed to its end. -/
theorem handleRedirect_of_endsAfter {n : ℕ} (f : Handler)
    (h : EndsAfter (redirect? server) n location last) {fuel : ℕ} (hfuel : n ≤ fuel)
    (w : Exchange) :
    handleRedirect server f fuel (server location).response (server location).body w =
      conclude server f last (afterRedirects server n location w) := by
  induction n generalizing location fuel w with
  | zero =>
    obtain ⟨rfl, hnone⟩ := h.zero
    rw [handleRedirect, conclude, afterRedirects, response_status]
    by_cases hfollowed : Followed (server location).status
    · rw [if_pos hfollowed, if_pos hfollowed, redirect?_eq_none hnone hfollowed]
    · rw [if_neg hfollowed, if_neg hfollowed]
  | succ n ih =>
    obtain ⟨location', hnext, hends⟩ := h.succ
    obtain ⟨fuel, rfl⟩ := Nat.exists_eq_succ_of_ne_zero (show fuel ≠ 0 by omega)
    rw [handleRedirect_succ f fuel w hnext, afterRedirects_succ n w hnext]
    exact ih hends (by omega) _

/-- A chain that does not end is followed as far as it is looked at. -/
theorem handleRedirect_of_endless (f : Handler) (h : Endless (redirect? server) location)
    (fuel : ℕ) (w : Exchange) :
    handleRedirect server f fuel (server location).response (server location).body w =
      .goesOn (afterRedirects server fuel location w) := by
  induction fuel generalizing location w with
  | zero =>
    obtain ⟨location', hnext, -⟩ := h.step
    obtain ⟨hfollowed, hheader⟩ := redirect?_eq_some hnext
    rw [handleRedirect, response_status, if_pos hfollowed, hheader]
    rfl
  | succ fuel ih =>
    obtain ⟨location', hnext, hendless⟩ := h.step
    rw [handleRedirect_succ f fuel w hnext, afterRedirects_succ fuel w hnext]
    exact ih hendless _

/-- Each redirect is one more request, and no call of the callback. -/
theorem sent_afterRedirects (server : Server) (n : ℕ) (location : String) (w : Exchange) :
    location :: ((afterRedirects server n location w).sent.drop w.sent.length).map Sent.location =
        visited (redirect? server) n location ∧
      w.sent <+: (afterRedirects server n location w).sent ∧
        (afterRedirects server n location w).handled = w.handled := by
  induction n generalizing location w with
  | zero =>
    rw [afterRedirects, visited, List.drop_length]
    exact ⟨rfl, List.prefix_refl _, rfl⟩
  | succ n ih =>
    cases hnext : redirect? server location with
    | none =>
      rw [afterRedirects, visited, hnext]
      simp
    | some location' =>
      rw [afterRedirects_succ n w hnext, visited_succ_of_some hnext]
      obtain ⟨hvisited, hprefix, hhandled⟩ := ih location' (send server .GET location' "" w)
      have hsent : (send server .GET location' "" w).sent =
          w.sent ++ [⟨.GET, location', "", w.cookies⟩] := rfl
      refine ⟨?_, (List.prefix_append _ _).trans hprefix, hhandled⟩
      rw [← hvisited]
      obtain ⟨more, hmore⟩ := hprefix
      rw [← hmore, hsent, List.drop_left, List.append_assoc, List.drop_left]
      rfl

end Chains

/-! ### Following redirects -/

/-- Nothing has happened, but there are cookies from before. -/
def Exchange.fresh (cookies : NameValueCollection) : Exchange := ⟨[], cookies, []⟩

/-- What is done along a chain that ends: its locations were requested, and either the
callback was called with the last response or there was no location to go on with. -/
def Concluded (server : Server) (f : Response → String → Option Fault) (n : ℕ)
    (location last : String) (outcome : Outcome) : Prop :=
  ∃ w : Exchange, w.sent.map Sent.location = visited (redirect? server) n location ∧
    if Followed (server last).status then
      w.handled = [] ∧ outcome = .threw (.runtimeError "Redirect without location") w
    else
      w.handled = [((server last).response, (server last).body)] ∧
        outcome = match f (server last).response (server last).body with
          | none => .returned w
          | some e => .threw e w

section Following

variable {server : Server} {location last : String} (f : Response → String → Option Fault)
  (method : Method) (data : String) (cookies : NameValueCollection)

/-- A chain that ends is followed to its end. -/
theorem handleRequest_of_endsAfter {n : ℕ}
    (h : EndsAfter (redirect? server) n location last) {fuel : ℕ} (hfuel : n ≤ fuel) :
    Concluded server f n location last
      (handleRequest server fuel ⟨method, location, .FOLLOW⟩ data (callback f)
        (Exchange.fresh cookies)) := by
  have hrun : handleRequest server fuel ⟨method, location, .FOLLOW⟩ data (callback f)
      (Exchange.fresh cookies) = conclude server (callback f) last (afterRedirects server n
        location (send server method location data (Exchange.fresh cookies))) :=
    handleRedirect_of_endsAfter (callback f) h hfuel _
  obtain ⟨hvisited, ⟨more, hmore⟩, hhandled⟩ := sent_afterRedirects server n location
    (send server method location data (Exchange.fresh cookies))
  have hsent : (afterRedirects server n location
      (send server method location data (Exchange.fresh cookies))).sent.map Sent.location =
        visited (redirect? server) n location := by
    rw [← hvisited, ← hmore, List.drop_left]
    rfl
  rw [hrun, conclude]
  by_cases hfollowed : Followed (server last).status
  · refine ⟨_, hsent, ?_⟩
    rw [if_pos hfollowed, if_pos hfollowed]
    exact ⟨hhandled, rfl⟩
  · -- the last exchange is that of the callback
    refine ⟨{ afterRedirects server n location
        (send server method location data (Exchange.fresh cookies)) with
      handled := [((server last).response, (server last).body)] }, hsent, ?_⟩
    rw [if_neg hfollowed, if_neg hfollowed, callback]
    refine ⟨rfl, ?_⟩
    rw [hhandled]
    rfl

/-- Along a chain that goes on forever there is always one more request. -/
theorem handleRequest_of_endless (h : Endless (redirect? server) location) (fuel : ℕ) :
    ∃ w : Exchange, handleRequest server fuel ⟨method, location, .FOLLOW⟩ data (callback f)
        (Exchange.fresh cookies) = .goesOn w ∧
      w.sent.map Sent.location = visited (redirect? server) fuel location ∧
        w.sent.length = fuel + 1 ∧ w.handled = [] := by
  obtain ⟨hvisited, ⟨more, hmore⟩, hhandled⟩ := sent_afterRedirects server fuel location
    (send server method location data (Exchange.fresh cookies))
  have hsent : (afterRedirects server fuel location
      (send server method location data (Exchange.fresh cookies))).sent.map Sent.location =
        visited (redirect? server) fuel location := by
    rw [← hvisited, ← hmore, List.drop_left]
    rfl
  refine ⟨_, handleRedirect_of_endless (callback f) h fuel _, hsent, ?_, hhandled⟩
  rw [← List.length_map (f := Sent.location), hsent, h.length_visited]

end Following

/-- **Following redirects ends exactly if the chain does**; a chain that comes back to a
location does not. -/
theorem handleRequest_ends (server : Server) (method : Method) (location data : String)
    (f : Response → String → Option Fault) (cookies : NameValueCollection) :
    (∀ n last, EndsAfter (redirect? server) n location last → ∀ fuel, n ≤ fuel →
      Concluded server f n location last
        (handleRequest server fuel ⟨method, location, .FOLLOW⟩ data (callback f)
          (Exchange.fresh cookies))) ∧
    ((¬ ∃ n last, EndsAfter (redirect? server) n location last) → ∀ fuel,
      ∃ w : Exchange, handleRequest server fuel ⟨method, location, .FOLLOW⟩ data (callback f)
          (Exchange.fresh cookies) = .goesOn w ∧ w.sent.length = fuel + 1 ∧ w.handled = []) ∧
    (∀ i j visitedTwice, i < j → follow (redirect? server) i location = some visitedTwice →
      follow (redirect? server) j location = some visitedTwice →
        ¬ ∃ n last, EndsAfter (redirect? server) n location last) := by
  refine ⟨fun n last h fuel hfuel => ?_, fun h fuel => ?_, fun i j visitedTwice hij hi hj => ?_⟩
  · exact handleRequest_of_endsAfter f method data cookies h hfuel
  · obtain ⟨w, hrun, -, hlength, hhandled⟩ :=
      handleRequest_of_endless f method data cookies (endless_iff.mpr h) fuel
    exact ⟨w, hrun, hlength, hhandled⟩
  · exact endless_iff.mp (endless_of_loop hij hi hj)

/-- A server that redirects every location to itself. -/
def selfRedirecting : Server := fun location => ⟨302, "Found", [("Location", location)], [], ""⟩

/-- The server is asked again and again. -/
theorem not_handleRequest_ends :
    ¬ ∀ (server : Server) (location : String), ∃ fuel, ∀ w,
      handleRequest server fuel ⟨.GET, location, .FOLLOW⟩ "" (callback fun _ _ => none)
        (Exchange.fresh fun _ => none) ≠ .goesOn w := by
  intro h
  obtain ⟨fuel, hfuel⟩ := h selfRedirecting "/"
  have hloop : redirect? selfRedirecting "/" = some "/" := by decide +kernel
  have hone : follow (redirect? selfRedirecting) 1 "/" = some "/" := by
    rw [follow_succ_of_some hloop, follow]
  obtain ⟨w, hrun, -⟩ := handleRequest_of_endless (fun _ _ => none) .GET ""
    (fun _ => none) (endless_of_loop Nat.zero_lt_one rfl hone) fuel
  exact hfuel w hrun

end Redirects
end Market
end EveIndustryPlanner
