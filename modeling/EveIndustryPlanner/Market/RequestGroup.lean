import EveIndustryPlanner.Lib.Pool
import EveIndustryPlanner.Lib.Steps
import EveIndustryPlanner.Market.Redirects

/-!
# Groups of request handlers

A request handler has a thread, a session and its cookies.  Requests are posted to it
and performed one at a time; a response is handed to the request, and an exception to
its error handler.  A group hands the requests to its handlers in turn.  In which order
the threads go on, what the server answers and where a connection fails is open.

## Main definitions

* `RequestWithResponseHandler`, `Posted` — a request with its handlers, and with data.
* `Connection` — what is answered while a request is performed, and where it fails.
* `perform`, `Performs` — a request is performed.
* `Chained` — requests are performed one after the other, with the cookies that the ones
  before have left.
* `Group.State`, `Group.step` — the group, and a step of one of its parties.

## Main results

* `told_handleRequest` — how the callback was called, when it was.
* `Performs.unique` — what a request does is decided by its connection and the cookies.
* `Performs.answered` — each request is answered or fails, and its handler gets at most
  one response.
* `Group.requests_run` — **in every interleaving the requests are performed in turn, in
  order and each on its own.**
* `Group.requests_end` — **nothing stops a handler but the end of its group and redirects
  without an end.**
-/

namespace EveIndustryPlanner
namespace Market
namespace Redirects

/-! ### Performing a request -/

/-- A request, and what is done with its response, which may throw. -/
structure RequestWithResponseHandler where
  request : Request
  handleResponse : Response → String → Option String

/-- A request that is posted with data. -/
structure Posted where
  request : RequestWithResponseHandler
  data : String

/-- How the server is reached while a request is performed: what it answers, and after how
many answers the connection fails, if it does, with what exception. -/
structure Connection where
  server : Server
  failure : Option (ℕ × String)

/-- The statuses of responses that are handed to the request. -/
def IsOk (status : ℤ) : Prop := 200 ≤ status ∧ status < 300

instance (status : ℤ) : Decidable (IsOk status) := inferInstanceAs (Decidable (_ ∧ _))

/-- What is done with the last response. -/
def RequestWithResponseHandler.policy (r : RequestWithResponseHandler) (response : Response)
    (body : String) : Option Fault :=
  if IsOk response.status then (r.handleResponse response body).map .runtimeError
  else some (.runtimeError response.reason)

/-- What came of a request. -/
structure Report where
  /-- The requests that were answered. -/
  answered : List Sent
  /-- The calls of `handleResponse`. -/
  handled : List (Response × String)
  /-- The call of `onHttpError`. -/
  error : Option Fault
  cookies : NameValueCollection

/-- What came of an exchange. -/
def Exchange.report (w : Exchange) (error : Option Fault) : Report :=
  ⟨w.sent, w.handled.filter fun h => IsOk h.1.status, error, w.cookies⟩

/-- What came of a request that has ended, or is broken off by an exception. -/
def Outcome.report? (failure : Option String) : Outcome → Option Report
  | .returned w => some (w.report none)
  | .threw e w => some (w.report (some e))
  | .goesOn w => failure.map fun e => w.report (some (.runtimeError e))

section Perform

variable (connection : Connection) (p : Posted) (cookies : NameValueCollection)

/-- The request and its redirects, at most so many of them. -/
def Posted.handle (fuel : ℕ) : Outcome :=
  handleRequest connection.server fuel p.request.request p.data (callback p.request.policy)
    (Exchange.fresh cookies)

/-- Perform a request; without a failure at most so many redirects are followed. -/
def perform (fuel : ℕ) : Option Report :=
  match connection.failure with
  | none => (p.handle connection cookies fuel).report? none
  | some (0, e) => some ((Exchange.fresh cookies).report (some (.runtimeError e)))
  | some (n + 1, e) => (p.handle connection cookies n).report? (some e)

/-- What comes of a request. -/
def Performs (r : Report) : Prop := ∃ fuel, perform connection p cookies fuel = some r

end Perform

/-! ### How it ended -/

section Told

variable {server : Server} {f : Handler}

/-- With more redirects in reach nothing changes once a request has ended. -/
theorem handleRedirect_succ_of_ended {fuel : ℕ} {response : Response} {body : String}
    {w : Exchange} (h : ∀ w', handleRedirect server f fuel response body w ≠ .goesOn w') :
    handleRedirect server f (fuel + 1) response body w =
      handleRedirect server f fuel response body w := by
  induction fuel generalizing response body w with
  | zero =>
    unfold handleRedirect at h ⊢
    split
    · next hfollowed =>
      rw [if_pos hfollowed] at h
      cases hheader : response.header "Location" with
      | none => rfl
      | some location =>
        rw [hheader] at h
        exact absurd rfl (h w)
    · rfl
  | succ fuel ih =>
    unfold handleRedirect at h
    rw [handleRedirect, handleRedirect]
    split
    · next hfollowed =>
      rw [if_pos hfollowed] at h
      cases hheader : response.header "Location" with
      | none => rfl
      | some location =>
        rw [hheader] at h
        exact ih h
    · rfl

theorem handleRequest_succ_of_ended {fuel : ℕ} {request : Request} {data : String}
    {w : Exchange} (h : ∀ w', handleRequest server fuel request data f w ≠ .goesOn w') :
    handleRequest server (fuel + 1) request data f w =
      handleRequest server fuel request data f w := by
  unfold handleRequest at h ⊢
  split
  · next hfollow =>
    rw [if_pos hfollow] at h
    exact handleRedirect_succ_of_ended h
  · rfl

/-- A request that has ended does so with any further redirects in reach. -/
theorem handleRequest_of_ended {fuel fuel' : ℕ} {request : Request} {data : String}
    {w : Exchange} (hle : fuel ≤ fuel')
    (h : ∀ w', handleRequest server fuel request data f w ≠ .goesOn w') :
    handleRequest server fuel' request data f w = handleRequest server fuel request data f w := by
  induction fuel', hle using Nat.le_induction with
  | base => rfl
  | succ fuel' hle ih =>
    rw [handleRequest_succ_of_ended, ih]
    rw [ih]
    exact h

end Told

/-- How the callback was called with the answer to the last request, if it was. -/
def Told (server : Server) (f : Response → String → Option Fault)
    (handled : List (Response × String)) : Outcome → Prop
  | .returned w => ∃ location, w.sent.getLast?.map Sent.location = some location ∧
      w.handled = handled ++ [((server location).response, (server location).body)] ∧
        f (server location).response (server location).body = none
  | .threw e w => (w.handled = handled ∧ e = .runtimeError "Redirect without location") ∨
      ∃ location, w.sent.getLast?.map Sent.location = some location ∧
        w.handled = handled ++ [((server location).response, (server location).body)] ∧
          f (server location).response (server location).body = some e
  | .goesOn w => w.handled = handled

section Told

variable {server : Server} (f : Response → String → Option Fault)

/-- The callback with the answer to the last request. -/
theorem told_callback {location : String} {w : Exchange}
    (hlast : w.sent.getLast?.map Sent.location = some location) :
    Told server f w.handled
      (callback f (server location).response (server location).body w) := by
  rw [callback]
  cases hf : f (server location).response (server location).body with
  | none => exact ⟨location, hlast, rfl, hf⟩
  | some e => exact Or.inr ⟨location, hlast, rfl, hf⟩

theorem last_send (method : Method) (location data : String) (w : Exchange) :
    (send server method location data w).sent.getLast?.map Sent.location = some location := by
  rw [send, List.getLast?_concat, Option.map_some]

theorem told_handleRedirect (fuel : ℕ) {location : String} {w : Exchange}
    (hlast : w.sent.getLast?.map Sent.location = some location) :
    Told server f w.handled (handleRedirect server (callback f) fuel (server location).response
      (server location).body w) := by
  induction fuel generalizing location w with
  | zero =>
    unfold handleRedirect
    split
    · cases (server location).response.header "Location" with
      | none => exact Or.inl ⟨rfl, rfl⟩
      | some location' => rfl
    · exact told_callback f hlast
  | succ fuel ih =>
    unfold handleRedirect
    split
    · cases (server location).response.header "Location" with
      | none => exact Or.inl ⟨rfl, rfl⟩
      | some location' => exact ih (last_send .GET location' "" w)
    · exact told_callback f hlast

/-- **How the callback was called**, whatever the redirects. -/
theorem told_handleRequest (fuel : ℕ) (request : Request) (data : String) (w : Exchange) :
    Told server f w.handled (handleRequest server fuel request data (callback f) w) := by
  have hlast : (send server request.method request.location data w).sent.getLast?.map
      Sent.location = some request.location := last_send _ _ _ _
  unfold handleRequest
  split
  · exact told_handleRedirect f fuel hlast
  · exact told_callback f hlast

end Told

/-! ### What comes of a request -/

section Performs

variable {connection : Connection} {p : Posted} {cookies : NameValueCollection} {r r' : Report}

/-- A request that has ended in reach of some redirects. -/
theorem report?_handle_of_le {fuel fuel' : ℕ} (hle : fuel ≤ fuel')
    (h : (p.handle connection cookies fuel).report? none = some r) :
    (p.handle connection cookies fuel').report? none = some r := by
  have hended : ∀ w, p.handle connection cookies fuel ≠ .goesOn w := by
    intro w hw
    rw [hw] at h
    exact absurd h (by simp [Outcome.report?])
  rwa [Posted.handle, handleRequest_of_ended hle hended]

/-- **What a request does is decided by its connection and the cookies**, however long it
is looked at. -/
theorem Performs.unique (h : Performs connection p cookies r)
    (h' : Performs connection p cookies r') : r = r' := by
  obtain ⟨fuel, h⟩ := h
  obtain ⟨fuel', h'⟩ := h'
  unfold perform at h h'
  cases hfailure : connection.failure with
  | none =>
    rw [hfailure] at h h'
    have hmax := report?_handle_of_le (le_max_left fuel fuel') h
    have hmax' := report?_handle_of_le (le_max_right fuel fuel') h'
    exact Option.some.inj (hmax.symm.trans hmax')
  | some failure =>
    rw [hfailure] at h h'
    obtain ⟨n, e⟩ := failure
    cases n with
    | zero => exact Option.some.inj (h.symm.trans h')
    | succ n => exact Option.some.inj (h.symm.trans h')

/-- A request is answered or fails: its error handler is called exactly if no response was
handed to it without an exception, and at most one response is handed to it, the
answer to the last request that was answered. -/
structure Answered (server : Server) (p : Posted) (r : Report) : Prop where
  error_iff : r.error = none ↔ ∃ response body,
    r.handled = [(response, body)] ∧ p.request.handleResponse response body = none
  handled : r.handled = [] ∨ ∃ location,
    r.answered.getLast?.map Sent.location = some location ∧ IsOk (server location).status ∧
      r.handled = [((server location).response, (server location).body)]

theorem Answered.of_not_handled {server : Server} {w : Exchange} {e : Fault}
    (h : w.handled = []) : Answered server p (w.report (some e)) where
  error_iff := by simp [Exchange.report, h]
  handled := Or.inl (by simp [Exchange.report, h])

/-- The last response was told to the callback of the request. -/
theorem Answered.of_told {server : Server} {location : String} {w : Exchange}
    (hlast : w.sent.getLast?.map Sent.location = some location)
    (hhandled : w.handled = [((server location).response, (server location).body)]) :
    Answered server p
      (w.report (p.request.policy (server location).response (server location).body)) := by
  by_cases hok : IsOk (server location).status
  · have hcalls : (w.report (p.request.policy (server location).response
        (server location).body)).handled =
          [((server location).response, (server location).body)] := by
      simp [Exchange.report, hhandled, hok]
    refine ⟨?_, Or.inr ⟨location, hlast, hok, hcalls⟩⟩
    rw [hcalls]
    change p.request.policy _ _ = none ↔ _
    rw [RequestWithResponseHandler.policy, response_status, if_pos hok, Option.map_eq_none_iff]
    constructor
    · intro hnone
      exact ⟨_, _, rfl, hnone⟩
    · rintro ⟨response, body, heq, hnone⟩
      obtain ⟨rfl, rfl⟩ := Prod.mk.injEq .. ▸ List.singleton_inj.mp heq
      exact hnone
  · have hcalls : (w.report (p.request.policy (server location).response
        (server location).body)).handled = [] := by
      simp [Exchange.report, hhandled, hok]
    refine ⟨?_, Or.inl hcalls⟩
    rw [hcalls]
    change p.request.policy _ _ = none ↔ _
    simp [RequestWithResponseHandler.policy, hok]

theorem Answered.of_report? {server : Server} {failure : Option String} {outcome : Outcome}
    (htold : Told server p.request.policy [] outcome)
    (h : outcome.report? failure = some r) : Answered server p r := by
  cases outcome with
  | returned w =>
    obtain rfl := Option.some.inj h
    obtain ⟨location, hlast, hhandled, hpolicy⟩ := htold
    rw [← hpolicy]
    exact .of_told hlast hhandled
  | threw e w =>
    obtain rfl := Option.some.inj h
    obtain ⟨hhandled, -⟩ | ⟨location, hlast, hhandled, hpolicy⟩ := htold
    · exact .of_not_handled hhandled
    · rw [← hpolicy]
      exact .of_told hlast hhandled
  | goesOn w =>
    obtain ⟨e, -, rfl⟩ := Option.map_eq_some_iff.mp h
    exact .of_not_handled htold

/-- **Each request is answered or fails.** -/
theorem Performs.answered (h : Performs connection p cookies r) :
    Answered connection.server p r := by
  obtain ⟨fuel, h⟩ := h
  have htold : ∀ fuel, Told connection.server p.request.policy []
      (p.handle connection cookies fuel) :=
    fun fuel => told_handleRequest p.request.policy fuel p.request.request p.data _
  unfold perform at h
  cases hfailure : connection.failure with
  | none =>
    rw [hfailure] at h
    exact .of_report? (htold fuel) h
  | some failure =>
    rw [hfailure] at h
    obtain ⟨n, e⟩ := failure
    cases n with
    | zero =>
      obtain rfl := Option.some.inj h
      exact .of_not_handled rfl
    | succ n => exact .of_report? (htold n) h

end Performs

/-- The requests that end: the connection fails, redirects are not followed, or their chain
has an end. -/
def Ends (connection : Connection) (p : Posted) : Prop :=
  connection.failure.isSome ∨ p.request.request.followRedirects = .DONT_FOLLOW ∨
    ∃ n last, EndsAfter (redirect? connection.server) n p.request.request.location last

/-- Only redirects that are not followed to their end leave nothing. -/
theorem report?_none_isSome {outcome : Outcome} :
    (outcome.report? none).isSome ↔ ∀ w, outcome ≠ .goesOn w := by
  cases outcome with
  | returned w => simp [Outcome.report?]
  | threw e w => simp [Outcome.report?]
  | goesOn w => simp [Outcome.report?]

theorem report?_some_isSome (outcome : Outcome) (e : String) :
    (outcome.report? (some e)).isSome := by
  cases outcome with
  | returned w => rfl
  | threw e' w => rfl
  | goesOn w => rfl

theorem callback_ne_goesOn (f : Response → String → Option Fault) (response : Response)
    (body : String) (w w' : Exchange) : callback f response body w ≠ .goesOn w' := by
  rw [callback]
  cases f response body with
  | none => simp
  | some e => simp

theorem Concluded.ne_goesOn {server : Server} {f : Response → String → Option Fault} {n : ℕ}
    {location last : String} {outcome : Outcome} (h : Concluded server f n location last outcome)
    (w' : Exchange) : outcome ≠ .goesOn w' := by
  obtain ⟨w, -, h⟩ := h
  split at h
  · rw [h.2]
    simp
  · rw [h.2]
    cases f (server last).response (server last).body with
    | none => simp
    | some e => simp

/-- **Something comes of a request exactly if it ends.** -/
theorem perform_isSome_iff {connection : Connection} {p : Posted}
    (cookies : NameValueCollection) :
    (∃ fuel, (perform connection p cookies fuel).isSome) ↔ Ends connection p := by
  obtain ⟨server, failure⟩ := connection
  cases failure with
  | some failure =>
    refine iff_of_true ⟨0, ?_⟩ (Or.inl rfl)
    obtain ⟨n, e⟩ := failure
    cases n with
    | zero => rfl
    | succ n => exact report?_some_isSome _ e
  | none =>
    obtain ⟨⟨⟨method, location, followRedirects⟩, handleResponse⟩, data⟩ := p
    cases followRedirects with
    | DONT_FOLLOW =>
      refine iff_of_true ⟨0, report?_none_isSome.mpr fun w => ?_⟩ (Or.inr (Or.inl rfl))
      exact callback_ne_goesOn _ _ _ _ w
    | FOLLOW =>
      constructor
      · rintro ⟨fuel, hsome⟩
        refine Or.inr (Or.inr ?_)
        by_contra hendless
        -- along an endless chain there is always one more request
        obtain ⟨w, hw, -⟩ := handleRequest_of_endless
          (RequestWithResponseHandler.policy ⟨⟨method, location, .FOLLOW⟩, handleResponse⟩)
          method data cookies (endless_iff.mpr hendless) fuel
        exact report?_none_isSome.mp hsome w hw
      · rintro (hnone | hdont | ⟨n, last, hends⟩)
        · exact absurd hnone (by simp)
        · exact absurd hdont (by simp)
        · refine ⟨n, report?_none_isSome.mpr fun w => ?_⟩
          exact (handleRequest_of_endsAfter _ method data cookies hends le_rfl).ne_goesOn w

/-! ### Sessions -/

/-- A request that was performed. -/
structure Performed where
  posted : Posted
  connection : Connection
  report : Report

/-- Requests performed one after the other, with the cookies that are left by the ones
before: from no cookies to the last ones. -/
inductive Chained : List Performed → NameValueCollection → Prop
  | nil : Chained [] fun _ => none
  | snoc {done : List Performed} {cookies : NameValueCollection} {p : Posted}
    {connection : Connection} {r : Report} (h : Chained done cookies)
    (hr : Performs connection p cookies r) : Chained (done ++ [⟨p, connection, r⟩]) r.cookies

/-- Sessions in which the same requests met the same connections are the same. -/
theorem Chained.unique {done done' : List Performed} {cookies cookies' : NameValueCollection}
    (h : Chained done cookies) (h' : Chained done' cookies')
    (heq : done.map (fun d => (d.posted, d.connection)) =
      done'.map fun d => (d.posted, d.connection)) : done = done' ∧ cookies = cookies' := by
  induction h generalizing done' cookies' with
  | nil =>
    cases h' with
    | nil => exact ⟨rfl, rfl⟩
    | snoc h' hr' => exact absurd heq (by simp)
  | snoc h hr ih =>
    cases h' with
    | nil => exact absurd heq (by simp)
    | snoc h' hr' =>
      rw [List.map_append, List.map_append, List.map_singleton, List.map_singleton] at heq
      obtain ⟨hinit, hlast⟩ := List.append_inj' heq rfl
      obtain ⟨rfl, rfl⟩ := ih h' hinit
      obtain ⟨rfl, rfl⟩ := Prod.mk.injEq .. ▸ List.singleton_inj.mp hlast
      rw [hr.unique hr']
      exact ⟨rfl, rfl⟩

theorem Chained.performs {done : List Performed} {cookies : NameValueCollection}
    (h : Chained done cookies) {d : Performed} (hd : d ∈ done) :
    ∃ before, Performs d.connection d.posted before d.report := by
  induction h with
  | nil => exact absurd hd (by simp)
  | snoc h hr ih =>
    rcases List.mem_append.mp hd with hd | hd
    · exact ih hd
    · obtain rfl := List.mem_singleton.mp hd
      exact ⟨_, hr⟩

/-! ### The group -/

namespace Group

/-- The cookies of a handler, and the requests it has performed. -/
@[ext]
structure Session where
  cookies : NameValueCollection
  done : List Performed

/-- A group of request handlers. -/
structure State (n : ℕ) where
  pool : Pool n Posted
  sessions : Fin n → Session
  /-- The handlers that are being destroyed: they do not begin another request. -/
  stopped : Fin n → Bool
  /-- The requests that were posted, in order. -/
  posts : List Posted

/-- Nothing was posted. -/
def fresh (n : ℕ) : State n := ⟨.idle, fun _ => ⟨fun _ => none, []⟩, fun _ => false, []⟩

inductive Action (n : ℕ) where
  /-- `postRequest`. -/
  | post (p : Posted)
  /-- A handler begins with its next request. -/
  | start (i : Fin n)
  /-- A handler has performed its request, with at most so many redirects. -/
  | finish (i : Fin n) (connection : Connection) (fuel : ℕ)
  /-- A handler is destroyed, once it has ended its request. -/
  | stop (i : Fin n)

variable {n : ℕ}

/-- A request is posted; a group without handlers throws. -/
def State.postRequest (s : State n) (p : Posted) : Option (State n) :=
  (s.pool.post p).map fun pool => { s with pool := pool, posts := s.posts ++ [p] }

/-- What a handler has done after a request. -/
def Session.add (session : Session) (p : Posted) (connection : Connection) (r : Report) :
    Session :=
  ⟨r.cookies, session.done ++ [⟨p, connection, r⟩]⟩

def step (s : State n) : Action n → Option (State n)
  | .post p => s.postRequest p
  | .start i =>
    if s.stopped i then none
    else (s.pool.start i).map fun started => { s with pool := started.2 }
  | .finish i connection fuel => do
    let (p, pool) ← s.pool.finish i
    let r ← perform connection p (s.sessions i).cookies fuel
    return { s with
      pool := pool
      sessions := Function.update s.sessions i ((s.sessions i).add p connection r) }
  | .stop i => some { s with stopped := Function.update s.stopped i true }

/-- The states of a group of so many handlers. -/
abbrev Reachable (s : State n) : Prop := Steps step (fresh n) s

/-- What a step can do. -/
theorem step_cases {s s' : State n} {a : Action n} (h : step s a = some s') :
    (∃ p pool, s.pool.post p = some pool ∧
      s' = { s with pool := pool, posts := s.posts ++ [p] }) ∨
    (∃ i p pool, s.stopped i = false ∧ s.pool.start i = some (p, pool) ∧
      s' = { s with pool := pool }) ∨
    (∃ i p pool connection r, s.pool.finish i = some (p, pool) ∧
      Performs connection p (s.sessions i).cookies r ∧
        s' = { s with
          pool := pool
          sessions := Function.update s.sessions i ((s.sessions i).add p connection r) }) ∨
    ∃ i, s' = { s with stopped := Function.update s.stopped i true } := by
  cases a with
  | post p =>
    obtain ⟨pool, hpool, rfl⟩ := Option.map_eq_some_iff.mp h
    exact Or.inl ⟨p, pool, hpool, rfl⟩
  | start i =>
    simp only [step] at h
    split at h
    · exact absurd h (by simp)
    · next hstopped =>
      obtain ⟨⟨p, pool⟩, hpool, rfl⟩ := Option.map_eq_some_iff.mp h
      exact Or.inr (Or.inl ⟨i, p, pool, by simpa using hstopped, hpool, rfl⟩)
  | finish i connection fuel =>
    obtain ⟨⟨p, pool⟩, hpool, h⟩ := Option.bind_eq_some_iff.mp h
    obtain ⟨r, hr, h⟩ := Option.bind_eq_some_iff.mp h
    obtain rfl := Option.some.inj h
    exact Or.inr (Or.inr (Or.inl ⟨i, p, pool, connection, r, hpool, ⟨fuel, hr⟩, rfl⟩))
  | stop i =>
    obtain rfl := Option.some.inj h
    exact Or.inr (Or.inr (Or.inr ⟨i, rfl⟩))

/-- The handlers have the requests in turn, and each has performed those that are done one
after the other. -/
structure Inv (s : State n) : Prop where
  inTurn : s.pool.Dealt s.posts
  done : ∀ i, (s.sessions i).done.map Performed.posted = (s.pool.workers i).finished
  chained : ∀ i, Chained (s.sessions i).done (s.sessions i).cookies

theorem Inv.fresh : Inv (fresh n) := ⟨.idle, fun _ => rfl, fun _ => .nil⟩

/-- **Each step keeps the invariant.** -/
theorem Inv.step {s s' : State n} {a : Action n} (h : Inv s) (hstep : step s a = some s') :
    Inv s' := by
  obtain ⟨p, pool, hpool, rfl⟩ | ⟨i, p, pool, -, hpool, rfl⟩ |
    ⟨i, p, pool, connection, r, hpool, hr, rfl⟩ | ⟨i, rfl⟩ := step_cases hstep
  · refine ⟨h.inTurn.post hpool, fun k => ?_, h.chained⟩
    dsimp only
    rw [(Pool.post_eq_some hpool k).1]
    exact h.done k
  · refine ⟨h.inTurn.start hpool, fun k => ?_, h.chained⟩
    obtain ⟨w, hw, rfl⟩ := Pool.start_eq_some hpool
    rw [Pool.workers_withWorker]
    split
    · next hk =>
      rw [hk, (Worker.start_eq_some hw).1]
      exact h.done i
    · exact h.done k
  · obtain ⟨w, hw, rfl⟩ := Pool.finish_eq_some hpool
    refine ⟨h.inTurn.finish hpool, fun k => ?_, fun k => ?_⟩
    · dsimp only
      rw [Pool.workers_withWorker]
      by_cases hk : k = i
      · rw [if_pos hk, hk, Function.update_self, (Worker.finish_eq_some hw).1, ← h.done i,
          Session.add, List.map_append, List.map_singleton]
      · rw [if_neg hk, Function.update_of_ne hk]
        exact h.done k
    · dsimp only
      by_cases hk : k = i
      · rw [hk, Function.update_self]
        exact (h.chained i).snoc hr
      · rw [Function.update_of_ne hk]
        exact h.chained k
  · exact ⟨h.inTurn, h.done, h.chained⟩

theorem Reachable.inv {s : State n} (h : Reachable s) : Inv s :=
  h.keeps .fresh fun _ _ _ _ hinv hstep => hinv.step hstep

/-! ### In every interleaving -/

/-- What is performed comes from what was posted, at most once. -/
theorem Inv.subperm {s : State n} (h : Inv s) :
    ((List.finRange n).flatMap fun i => (s.sessions i).done.map Performed.posted).Subperm
      s.posts := by
  have hsub : ((List.finRange n).flatMap fun i =>
      (s.sessions i).done.map Performed.posted).Sublist
        ((List.finRange n).flatMap fun i : Fin n => dealt n s.posts i) := by
    refine List.Sublist.flatMap_right _ fun i _ => ?_
    rw [h.done, ← h.inTurn.posted]
    exact Worker.finished_prefix_posted.sublist
  rcases Nat.eq_zero_or_pos n with rfl | hn
  · exact List.nil_subperm
  · have hperm := perm_dealt hn s.posts
    rw [← List.map_coe_finRange_eq_range, List.flatMap_map] at hperm
    exact hsub.subperm.trans hperm.subperm

/-- **The requests are performed in turn, in order and each on its own**: the first of the
`n` handlers has the requests at the positions `0`, `n`, `2 * n` and so on; each has
performed the first ones of its requests, one after the other, with what the cookies
and the server make of them and independently of all that the others do; each request
is performed at most once, and is answered or fails. -/
theorem requests_run {s : State n} (h : Reachable s) :
    (∀ (i : Fin n) (m : ℕ), (s.pool.workers i).posted[m]? = s.posts[n * m + i]?) ∧
    (∀ i k : Fin n, (s.pool.workers i).posted.length ≤ (s.pool.workers k).posted.length + 1) ∧
    (∀ i, (s.sessions i).done.map Performed.posted = (s.pool.workers i).finished ∧
      (s.pool.workers i).finished <+: (s.pool.workers i).posted) ∧
    ((List.finRange n).flatMap fun i => (s.sessions i).done.map Performed.posted).Subperm
      s.posts ∧
    (∀ i, Chained (s.sessions i).done (s.sessions i).cookies) ∧
    (∀ i, ∀ d ∈ (s.sessions i).done, Answered d.connection.server d.posted d.report) ∧
    ∀ (m : ℕ) (t : State m), Reachable t → ∀ (i : Fin n) (k : Fin m),
      (s.sessions i).done.map (fun d => (d.posted, d.connection)) =
        (t.sessions k).done.map (fun d => (d.posted, d.connection)) →
      s.sessions i = t.sessions k := by
  have hinv := h.inv
  refine ⟨fun i m => ?_, fun i k => ?_, fun i => ⟨hinv.done i, ?_⟩, hinv.subperm, hinv.chained,
    fun i d hd => ?_, fun m t ht i k heq => ?_⟩
  · rw [hinv.inTurn.posted, getElem?_dealt i.isLt]
  · rw [hinv.inTurn.posted, hinv.inTurn.posted]
    exact length_dealt_le i.isLt k.isLt s.posts
  · exact Worker.finished_prefix_posted
  · obtain ⟨before, hperforms⟩ := (hinv.chained i).performs hd
    exact hperforms.answered
  · obtain ⟨hdone, hcookies⟩ := (hinv.chained i).unique (ht.inv.chained k) heq
    exact Session.ext hcookies hdone

/-- A handler that is being destroyed does not begin another request. -/
theorem started_of_stopped {s s' : State n} {a : Action n} {i : Fin n}
    (hstopped : s.stopped i = true) (hstep : step s a = some s') :
    (s'.pool.workers i).started = (s.pool.workers i).started ∧ s'.stopped i = true := by
  obtain ⟨p, pool, hpool, rfl⟩ | ⟨k, p, pool, hrunning, hpool, rfl⟩ |
    ⟨k, p, pool, connection, r, hpool, hr, rfl⟩ | ⟨k, rfl⟩ := step_cases hstep
  · exact ⟨(Pool.post_eq_some hpool i).2, hstopped⟩
  · obtain ⟨w, hw, rfl⟩ := Pool.start_eq_some hpool
    have hne : i ≠ k := by
      rintro rfl
      exact absurd hstopped (by simp [hrunning])
    refine ⟨?_, hstopped⟩
    dsimp only
    rw [Pool.workers_withWorker, if_neg hne]
  · obtain ⟨w, hw, rfl⟩ := Pool.finish_eq_some hpool
    refine ⟨?_, hstopped⟩
    dsimp only
    rw [Pool.workers_withWorker]
    split
    · next hi => rw [hi, (Worker.finish_eq_some hw).2.1]
    · rfl
  · refine ⟨rfl, ?_⟩
    dsimp only
    rw [Function.update_apply]
    split
    · rfl
    · exact hstopped

/-- A request can be ended exactly if something comes of it. -/
theorem finish_isSome_iff {s : State n} {i : Fin n} {p : Posted}
    (hcurrent : (s.pool.workers i).current = some p) (connection : Connection) :
    (∃ fuel, (step s (.finish i connection fuel)).isSome) ↔ Ends connection p := by
  rw [← perform_isSome_iff (s.sessions i).cookies]
  have hpool : ∃ pool, s.pool.finish i = some (p, pool) := by
    rw [Pool.finish, Worker.finish, hcurrent]
    exact ⟨_, rfl⟩
  obtain ⟨pool, hpool⟩ := hpool
  refine exists_congr fun fuel => ?_
  simp only [step, hpool, Option.bind_eq_bind, Option.bind_some]
  cases perform connection p (s.sessions i).cookies fuel with
  | none => rfl
  | some r => rfl

/-- **Nothing stops a handler but the end of its group and redirects without an end**: it has
performed all requests it was given, or it can begin the next one, or it is busy with one
that ends whenever the connection fails, redirects are not followed or their chain has an
end.  Once it is being destroyed it begins no further request. -/
theorem requests_end {s : State n} (h : Reachable s) (i : Fin n) :
    ((s.sessions i).done.map Performed.posted = (s.pool.workers i).posted ∨
      ((s.pool.workers i).current = none ∧ s.stopped i = true) ∨
      (step s (.start i)).isSome ∨
      ∃ p, (s.pool.workers i).current = some p ∧ ∀ connection,
        (∃ fuel, (step s (.finish i connection fuel)).isSome) ↔ Ends connection p) ∧
    (s.stopped i = true → ∀ s', Steps step s s' →
      (s'.pool.workers i).started = (s.pool.workers i).started) := by
  constructor
  · cases hcurrent : (s.pool.workers i).current with
    | some p =>
      exact Or.inr (Or.inr (Or.inr ⟨p, rfl, finish_isSome_iff hcurrent⟩))
    | none =>
      rcases (s.pool.workers i).goes_on with hall | ⟨started, hstart⟩ | ⟨finished, hfinish⟩
      · rw [h.inv.done]
        exact Or.inl hall
      · cases hstopped : s.stopped i with
        | true => exact Or.inr (Or.inl ⟨rfl, rfl⟩)
        | false =>
          refine Or.inr (Or.inr (Or.inl ?_))
          simp [step, hstopped, Pool.start, hstart]
      · rw [Worker.finish, hcurrent] at hfinish
        exact absurd hfinish (by simp)
  · intro hstopped s' hsteps
    exact (hsteps.keeps (p := fun s' =>
      (s'.pool.workers i).started = (s.pool.workers i).started ∧ s'.stopped i = true)
      ⟨rfl, hstopped⟩ fun _ _ _ _ hkept hstep =>
        have hnext := started_of_stopped hkept.2 hstep
        ⟨hnext.1.trans hkept.1, hnext.2⟩).1

/-! ### A run of three requests -/

/-- One location redirects to another one, which sets a cookie. -/
def sampleServer : Server := fun location =>
  if location = "/old" then ⟨301, "Moved Permanently", [("Location", "/new")], [], ""⟩
  else ⟨200, "OK", [], [("session", "1")], "body"⟩

/-- A request whose response is taken as it is. -/
def samplePosted : Posted := ⟨⟨⟨.GET, "/old", .FOLLOW⟩, fun _ _ => none⟩, ""⟩

/-- The first of two handlers. -/
def firstHandler : Fin 2 := ⟨0, Nat.zero_lt_two⟩

/-- The second of two handlers. -/
def secondHandler : Fin 2 := ⟨1, Nat.one_lt_two⟩

/-- Two handlers perform three requests; the last connection fails at the redirect. -/
def sampleSteps : List (Action 2) :=
  [.post samplePosted, .post samplePosted, .start secondHandler, .post samplePosted,
    .start firstHandler, .finish firstHandler ⟨sampleServer, none⟩ 5, .start firstHandler,
    .finish secondHandler ⟨sampleServer, none⟩ 1,
    .finish firstHandler ⟨sampleServer, some (1, "Connection reset by peer")⟩ 0]

/-- The run gets to its end, where the third request was answered once. -/
theorem exists_sampleRun : ∃ s : State 2, Reachable s ∧
    ((s.sessions firstHandler).done.map fun d =>
      (d.report.answered.map Sent.location, d.report.handled.length, d.report.error)) =
      [(["/old", "/new"], 1, none),
        (["/old"], 0, some (.runtimeError "Connection reset by peer"))] ∧
    s.posts.length = 3 := by
  have hrun : ((sampleSteps.foldlM step (fresh 2)).map fun s =>
      decide (((s.sessions firstHandler).done.map fun d =>
        (d.report.answered.map Sent.location, d.report.handled.length, d.report.error)) =
        [(["/old", "/new"], 1, none),
          (["/old"], 0, some (.runtimeError "Connection reset by peer"))] ∧
      s.posts.length = 3)) = some true := by decide +kernel
  obtain ⟨s, hs, hfinal⟩ := Option.map_eq_some_iff.mp hrun
  exact ⟨s, Steps.init.run hs, of_decide_eq_true hfinal⟩

/-- The second handler has the second one of the three requests. -/
theorem requests_run_sample : ∃ s : State 2, Reachable s ∧ s.posts.length = 3 ∧
    ∀ m, (s.pool.workers secondHandler).posted[m]? = s.posts[2 * m + 1]? := by
  obtain ⟨s, hs, -, hposts⟩ := exists_sampleRun
  exact ⟨s, hs, hposts, (requests_run hs).1 secondHandler⟩

/-- The first handler goes on or is done. -/
theorem requests_end_sample : ∃ s : State 2, Reachable s ∧ s.posts.length = 3 ∧
    ((s.sessions firstHandler).done.map Performed.posted = (s.pool.workers firstHandler).posted ∨
      ((s.pool.workers firstHandler).current = none ∧ s.stopped firstHandler = true) ∨
      (step s (.start firstHandler)).isSome ∨
      ∃ p, (s.pool.workers firstHandler).current = some p ∧ ∀ connection,
        (∃ fuel, (step s (.finish firstHandler connection fuel)).isSome) ↔ Ends connection p) := by
  obtain ⟨s, hs, -, hposts⟩ := exists_sampleRun
  exact ⟨s, hs, hposts, (requests_end hs firstHandler).1⟩

end Group

end Redirects
end Market
end EveIndustryPlanner
