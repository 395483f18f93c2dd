-- SUMMARY: The HTTP client and its connection pool: which responses it can be served without failing an assertion.
import Bpt.Base.Transaction
import Bpt.Util.Http.Response

/-!
# The HTTP connection pool

A connection goes from `ready` over a request to a response and back. Whether a
part of the last response is still to be read is kept in `unread`, and all
connections that ever went back to the pool in `returned`; the program has
neither.
-/

namespace Bpt.Http

open Transaction

variable {O U : Type}

/-! ## Connections -/

inductive ClientState where
  | ready
  | sentReqHead
  | sentReqBody
  | recvdRespHead
  deriving DecidableEq

/-- `http_client_impl`. -/
structure ClientImpl (O : Type) where
  origin : O
  state : ClientState := .ready
  peerDisconnected : Bool := false
  unread : Bool := false
  deriving DecidableEq

/-- `http_client`. -/
structure Client (O : Type) where
  impl : ClientImpl O
  nExceptions : Int

structure Pool (O : Type) where
  clients : List (ClientImpl O) := []
  returned : List (ClientImpl O) := []
  deriving DecidableEq

inductive HttpError where
  | statusError (status : Int)
  | serverError (status : Int) (message : String)
  /-- The network or the destination of a download failed. -/
  | io
  | invalidUrl
  deriving DecidableEq

inductive HttpAssertion where
  | sendHead
  | recvHead
  /-- "Invalid state to ready HTTP response body". -/
  | bodyReader
  | unimplemented
  /-- "An http_client object was dropped while in a partial-request state". -/
  | dropped
  | unreachable
  deriving DecidableEq

inductive HttpFailure where
  | assertion (which : HttpAssertion)
  | exception (err : HttpError)
  deriving DecidableEq

abbrev ClientAction (O α : Type) := Action HttpFailure (Client O) α

abbrev PoolAction (O α : Type) := Action HttpFailure (Pool O) α

/-- How the reading of a body comes to an end. -/
inductive BodyEnd where
  /-- At the end of the body. -/
  | ends
  /-- At the end of the connection, which comes before the end of the body. -/
  | cutOff
  /-- With an error of the network. -/
  | fails
  deriving DecidableEq

/-- What a server and the network do for one request. -/
structure Exchange where
  connects : Bool := true
  sends : Bool := true
  /-- The head of the response, if it can be read. -/
  head : Option ResponseInfo
  body : BodyEnd := .ends
  /-- What `_n_exceptions` of the client holds, which only a move initializes. -/
  nExceptions : Int := 0

namespace Client

def modifyImpl (f : ClientImpl O → ClientImpl O) : ClientAction O Unit :=
  modify fun c => { c with impl := f c.impl }

def setReady : ClientAction O Unit := modifyImpl fun impl => { impl with state := .ready }

def abortClient : ClientAction O Unit :=
  modifyImpl fun impl => { impl with peerDisconnected := true, state := .ready }

def sendHead (ex : Exchange) : ClientAction O Unit := do
  let c ← get
  if c.impl.state ≠ .ready then throw (.assertion .sendHead)
  else if !ex.sends then throw (.exception .io)
  else modifyImpl fun impl => { impl with state := .sentReqBody }

def recvHead (ex : Exchange) : ClientAction O ResponseInfo := do
  let c ← get
  if c.impl.state ≠ .sentReqBody then throw (.assertion .recvHead)
  else match ex.head with
    | none => throw (.exception .io)
    | some r => do
      modifyImpl fun impl =>
        { impl with
          state := if r.contentLengthHeader = some "0" then .ready else .recvdRespHead
          peerDisconnected := r.disconnects
          unread := r.hasBody }
      return r

/-- The readers of `_make_body_reader`: the one that reads nothing, and those that
read up to the end of the body. -/
inductive BodyReader where
  | none
  | stream
  deriving DecidableEq

def makeBodyReader (r : ResponseInfo) : ClientAction O BodyReader := do
  let c ← get
  if c.impl.state ≠ .recvdRespHead then throw (.assertion .bodyReader)
  else if r.bodyless then return .none
  else if r.contentLength = some 0 then do
    setReady
    return .none
  else if r.transferEncoding = some "chunked" then return .stream
  else if r.transferEncoding = some "gzip" then return .stream
  else if r.transferEncoding = none ∧ 0 < r.contentLength.getD 0 then return .stream
  else if r.version = .v1_0 then return .stream
  else throw (.assertion .unimplemented)

/-- `discard_body` and `recv_body_into`, which read until a part is empty. That
says nothing about the end of the body. -/
def readBody (r : ResponseInfo) (ex : Exchange) : ClientAction O Unit := do
  let reader ← makeBodyReader r
  if reader = .stream then
    match ex.body with
    | .ends => modifyImpl fun impl => { impl with unread := false }
    | .cutOff => pure ()
    | .fails => throw (.exception .io)
  setReady

end Client

/-! ## The pool -/

/-- `~http_client`, with the number of exceptions in flight. -/
def destroy (c : Client O) (uncaught : Int) : PoolAction O Unit :=
  if c.impl.state ≠ .ready ∧ c.nExceptions ≠ uncaught then pure ()
  else if c.impl.state ≠ .ready then throw (.assertion .dropped)
  else if c.impl.peerDisconnected then pure ()
  else modify fun pool =>
    { clients := pool.clients ++ [c.impl], returned := pool.returned ++ [c.impl] }

/-- Run `x` on a client that is destroyed when `x` throws. -/
def withClient {α β : Type} (c : Client O) (x : ClientAction O α)
    (andThen : α → Client O → PoolAction O β) : PoolAction O β :=
  match exec x c with
  | (.ok a, c') => andThen a c'
  | (.error (.assertion which), _) => throw (.assertion which)
  | (.error (.exception err), c') => do
    destroy c' 1
    throw (.exception err)

/-- What is used of URLs. -/
structure Urls (U O : Type) where
  origin : U → O
  setPath : U → String → U
  parse : String → Option U

section

variable [DecidableEq O]

def clientForOrigin (ex : Exchange) (origin : O) : PoolAction O (Client O) := do
  let pool ← get
  match pool.clients.find? fun impl => impl.origin = origin with
  | some impl => do
    modify fun pool => { pool with clients := pool.clients.eraseP fun impl => impl.origin = origin }
    return ⟨impl, ex.nExceptions⟩
  | none =>
    if !ex.connects then throw (.exception .io)
    else return ⟨{ origin := origin }, ex.nExceptions⟩

/-- What the loop does after a response. -/
inductive Hop (U : Type) where
  | done (r : ResponseInfo)
  | follow (url : U)

/-- What the client does in one turn of the loop. -/
def requestHop (urls : Urls U O) (url : U) (ex : Exchange) (isLast : Bool) :
    ClientAction O (Hop U) := do
  Client.sendHead ex
  let resp ← Client.recvHead ex
  if resp.notModified then return .done resp
  else if resp.isError then do
    Client.readBody resp ex
    throw (.exception (.statusError resp.status))
  else if resp.isRedirect then do
    Client.readBody resp ex
    if isLast then
      throw (.exception (.serverError resp.status
        "Encountered over 100 HTTP redirects. Request aborted."))
    match resp.location with
    | none =>
      throw (.exception (.serverError resp.status
        "Server sent an invalid response of a 30x redirect without a 'Location' header"))
    | some loc =>
      if '/' ∈ loc.toList.head? then return .follow (urls.setPath url loc)
      else match urls.parse loc with
        | none => throw (.exception .invalidUrl)
        | some url' => return .follow url'
  else return .done resp

/-- One turn of the loop, with a client of its own, and what comes after it. -/
def requestTurn (urls : Urls U O) (ex : Exchange) (isLast : Bool) (url : U)
    (next : U → PoolAction O (Client O × ResponseInfo × Exchange)) :
    PoolAction O (Client O × ResponseInfo × Exchange) := do
  let c ← clientForOrigin ex (urls.origin url)
  withClient c (requestHop urls url ex isLast) fun hop c' =>
    match hop with
    -- the client is moved into the result
    | .done r => return (⟨c'.impl, 0⟩, r, ex)
    | .follow url' => do
      destroy c' 0
      next url'

/-- The loop of `http_pool::request` with the redirects that are left. The
exchanges are numbered downwards. -/
def requestFrom (urls : Urls U O) (exchanges : Nat → Exchange) :
    Nat → U → PoolAction O (Client O × ResponseInfo × Exchange)
  | 0, url => requestTurn urls (exchanges 0) true url fun _ => throw (.assertion .unreachable)
  | left + 1, url =>
    requestTurn urls (exchanges (left + 1)) false url (requestFrom urls exchanges left)

def request (urls : Urls U O) (exchanges : Nat → Exchange) (url : U) :
    PoolAction O (Client O × ResponseInfo × Exchange) :=
  requestFrom urls exchanges 100 url

/-! ## Runs -/

/-- What a caller of `request` does with the response. -/
inductive Use where
  | discardBody
  /-- `opens`: the file can be opened. -/
  | saveFile (opens : Bool)
  | abortClient

def Use.run (r : ResponseInfo) (ex : Exchange) : Use → ClientAction O Unit
  | .discardBody => Client.readBody r ex
  | .saveFile opens =>
    if !opens then throw (.exception .io)
    else Client.readBody r ex
  | .abortClient => Client.abortClient

structure Call (U : Type) where
  url : U
  exchanges : Nat → Exchange
  use : Use

def Call.run (urls : Urls U O) (call : Call U) : PoolAction O Unit := do
  let (c, r, ex) ← request urls call.exchanges call.url
  withClient c (call.use.run r ex) fun _ c' => destroy c' 0

/-- One call after the other. An exception ends a call, an assertion the program. -/
def runCalls (urls : Urls U O) : List (Call U) → Pool O → Except HttpAssertion (Pool O)
  | [], pool => .ok pool
  | call :: rest, pool =>
    match exec (call.run urls) pool with
    | (.error (.assertion which), _) => .error which
    | (_, pool') => runCalls urls rest pool'

end

/-! ## Exchanges that are handled -/

/-- A body that ends with the connection is not cut off on one that is used again. -/
def Exchange.Uncut (ex : Exchange) (r : ResponseInfo) : Prop :=
  r.streams = true → ex.body = .cutOff → r.disconnects = true

/-- The response can be used in this way. -/
def Use.Suits (ex : Exchange) (r : ResponseInfo) : Use → Prop
  | .discardBody => r.Readable ∧ ex.Uncut r
  | .saveFile true => r.Readable ∧ ex.Uncut r
  | .saveFile false =>
    r.contentLengthHeader = some "0" → r.hasBody = true → r.disconnects = true
  | .abortClient => True

/-- The exchange fails no assertion and leaves no body on a connection that is used again. -/
def Exchange.Handled (use : Use) (ex : Exchange) : Prop :=
  ex.sends = true →
    (ex.head = none → ex.nExceptions ≠ 1) ∧
    ∀ r, ex.head = some r →
      if r.isReturned then use.Suits ex r
      else r.Readable ∧ ex.Uncut r ∧ (r.streams = true → ex.body = .fails → ex.nExceptions ≠ 1)

def Exchange.Redirects (ex : Exchange) : Prop :=
  ∃ r, ex.head = some r ∧ r.isReturned = false ∧ r.isRedirect = true

/-- The exchanges that can be reached are handled. -/
def Call.Handled (call : Call U) : Prop :=
  ∀ i ≤ 100, (∀ j, i < j → j ≤ 100 → (call.exchanges j).Redirects) →
    (call.exchanges i).Handled call.use

/-! ## The connection -/

/-- The response before is read to its end. -/
def ClientImpl.Clean (impl : ClientImpl O) : Prop := impl.state = .ready ∧ impl.unread = false

/-- The connection is between two requests: it is clean or is not used again. -/
def ClientImpl.Settled (impl : ClientImpl O) : Prop :=
  impl.state = .ready ∧ (impl.peerDisconnected = true ∨ impl.unread = false)

/-- The connection as `recv_head` leaves it. -/
structure ClientImpl.Received (r : ResponseInfo) (impl : ClientImpl O) : Prop where
  state : impl.state = if r.contentLengthHeader = some "0" then .ready else .recvdRespHead
  peerDisconnected : impl.peerDisconnected = r.disconnects
  unread : impl.unread = r.hasBody

/-- `~http_client` fails no assertion. -/
def Client.Droppable (uncaught : Int) (c : Client O) : Prop :=
  (c.impl.state ≠ .ready ∧ c.nExceptions ≠ uncaught) ∨ c.impl.Settled

/-- No assertion fails, and an exception leaves `P`. -/
def Raises {σ : Type} (P : σ → Prop) : HttpFailure → σ → Prop
  | .assertion _, _ => False
  | .exception _, s => P s

/-- The connections in the pool, and all that were returned to it, are clean. -/
structure Pool.Clean (pool : Pool O) : Prop where
  clients : ∀ impl ∈ pool.clients, impl.Clean
  returned : ∀ impl ∈ pool.returned, impl.Clean

theorem ClientImpl.Clean.settled {impl : ClientImpl O} (h : impl.Clean) : impl.Settled :=
  ⟨h.1, .inr h.2⟩

namespace Client

variable {c : Client O} {r : ResponseInfo} {ex : Exchange}

theorem sendHead_ends (h : c.impl.Clean) :
    Ends (sendHead ex) c
      (fun _ c' => ex.sends = true ∧ c'.impl.state = .sentReqBody ∧
        c'.nExceptions = c.nExceptions)
      (Raises (Client.Droppable 1)) := by
  unfold sendHead
  rw [ends_get_bind, if_neg (not_not_intro h.1)]
  cases hsends : ex.sends with
  | false => exact .inr h.settled
  | true => exact ⟨rfl, rfl, rfl⟩

theorem recvHead_ends (h : c.impl.state = .sentReqBody)
    (hnone : ex.head = none → c.nExceptions ≠ 1) :
    Ends (recvHead ex) c
      (fun r c' => ex.head = some r ∧ c'.impl.Received r ∧ c'.nExceptions = c.nExceptions)
      (Raises (Client.Droppable 1)) := by
  unfold recvHead
  rw [ends_get_bind, if_neg (not_not_intro h)]
  cases hhead : ex.head with
  | none =>
      refine .inl ⟨?_, hnone hhead⟩
      rw [h]
      exact ClientState.noConfusion
  | some r => exact ⟨rfl, ⟨rfl, rfl, rfl⟩, rfl⟩

theorem makeBodyReader_ends_iff {Q : BodyReader → Client O → Prop}
    {E : HttpFailure → Client O → Prop} (h : c.impl.state = .recvdRespHead)
    (hstreams : r.streams = true) (hE : ∀ which, ¬ E (.assertion which) c) :
    Ends (makeBodyReader r) c Q E ↔ r.Framed ∧ Q .stream c := by
  obtain ⟨hbody, hlength⟩ : r.bodyless = false ∧ r.contentLength ≠ some 0 := by
    simpa [ResponseInfo.streams] using hstreams
  unfold makeBodyReader ResponseInfo.Framed
  rw [ends_get_bind, if_neg (not_not_intro h), if_neg (by simp [hbody]), if_neg hlength]
  -- the branches of the source, each of them a way to delimit the body
  by_cases hchunked : r.transferEncoding = some "chunked"
  · simp [hchunked]
  by_cases hgzip : r.transferEncoding = some "gzip"
  · simp [hgzip]
  have hplain : (∃ n, r.contentLength = some n ∧ 0 < n) ↔ 0 < r.contentLength.getD 0 := by
    cases r.contentLength <;> simp
  by_cases hlen : r.transferEncoding = none ∧ 0 < r.contentLength.getD 0
  · simp [hplain, hlen]
  by_cases hold : r.version = .v1_0
  · simp [hchunked, hgzip, hlen, hold]
  simp [hchunked, hgzip, hplain, hlen, hold, hE]

/-- The reading of a body ends, or fails, and leaves the connection settled just
when the response is readable and its body is not cut off. -/
theorem readBody_ends_iff (h : c.impl.Received r) :
    Ends (readBody r ex) c (fun _ c' => c'.impl.Settled)
        (fun err c' => err = .exception .io ∧ ex.body = .fails ∧ r.streams = true ∧
          c'.impl.state ≠ .ready ∧ c'.nExceptions = c.nExceptions) ↔
      r.Readable ∧ ex.Uncut r := by
  unfold readBody ResponseInfo.Readable Exchange.Uncut
  rw [ends_bind]
  by_cases hzero : r.contentLengthHeader = some "0"
  · have hstate : c.impl.state = .ready := by rw [h.state, if_pos hzero]
    simp [makeBodyReader, ends_get_bind, hstate, hzero]
  have hstate : c.impl.state = .recvdRespHead := by rw [h.state, if_neg hzero]
  cases hstreams : r.streams with
  | true =>
      rw [makeBodyReader_ends_iff hstate hstreams (by simp)]
      obtain ⟨hbody, hlength⟩ : r.bodyless = false ∧ r.contentLength ≠ some 0 := by
        simpa [ResponseInfo.streams] using hstreams
      have hunread : c.impl.unread = true := by simp [h.unread, ResponseInfo.hasBody, hbody, hlength]
      cases hend : ex.body with
      | fails => simp [hzero, hbody, hlength, hstate]
      | cutOff =>
          simp [hzero, hbody, hlength, modifyImpl, setReady, ClientImpl.Settled, hunread,
            h.peerDisconnected]
      | ends =>
          simp [hzero, hbody, hlength, ends_bind, modifyImpl, setReady, ClientImpl.Settled]
  | false =>
      cases hbody : r.bodyless with
      | true =>
          have hunread : c.impl.unread = false := by simp [h.unread, ResponseInfo.hasBody, hbody]
          simp [makeBodyReader, ends_get_bind, hstate, hzero, hbody, modifyImpl, setReady,
            ClientImpl.Settled, hunread]
      | false =>
          have hlength : r.contentLength = some 0 := by
            simpa [ResponseInfo.streams, hbody] using hstreams
          have hunread : c.impl.unread = decide (r.transferEncoding ≠ none) := by
            simp [h.unread, ResponseInfo.hasBody, hbody, hlength]
          unfold makeBodyReader
          rw [ends_get_bind, if_neg (not_not_intro hstate), if_neg (by simp [hbody]),
            if_pos hlength]
          simp [hzero, hlength, modifyImpl, setReady, ClientImpl.Settled, hunread,
            h.peerDisconnected, or_comm]

/-- A readable response is read without a failed assertion. -/
theorem readBody_ends (h : c.impl.Received r) (hr : r.Readable) (hcut : ex.Uncut r)
    (hfails : r.streams = true → ex.body = .fails → c.nExceptions ≠ 1) :
    Ends (readBody r ex) c (fun _ c' => c'.impl.Settled) (Raises (Droppable 1)) := by
  refine ((readBody_ends_iff h).mpr ⟨hr, hcut⟩).mono (fun _ _ hsettled => hsettled) ?_
  rintro _ t ⟨rfl, hend, hstreams, hstate, hn⟩
  refine .inl ⟨hstate, ?_⟩
  rw [hn]
  exact hfails hstreams hend

end Client

/-- What is done with a response that suits leaves a client that can be destroyed. -/
theorem Use.run_ends {c : Client O} {r : ResponseInfo} {ex : Exchange} {use : Use}
    (h : c.impl.Received r) (hn : c.nExceptions ≠ 1) (huse : use.Suits ex r) :
    Ends (use.run r ex) c (fun _ c' => c'.impl.Settled) (Raises (Client.Droppable 1)) := by
  match use with
  | .discardBody => exact Client.readBody_ends h huse.1 huse.2 fun _ _ => hn
  | .saveFile true => exact Client.readBody_ends h huse.1 huse.2 fun _ _ => hn
  | .saveFile false =>
      by_cases hstate : c.impl.state = .ready
      · refine .inr ⟨hstate, ?_⟩
        have hzero : r.contentLengthHeader = some "0" := by
          have := h.state
          grind
        rw [h.peerDisconnected, h.unread]
        cases hbody : r.hasBody with
        | false => exact .inr rfl
        | true => exact .inl (huse hzero hbody)
      · exact .inl ⟨hstate, hn⟩
  | .abortClient => exact ⟨rfl, .inl rfl⟩

/-! ## The pool -/

section

variable {c : Client O} {pool : Pool O}

/-- A client that can be destroyed leaves a clean pool. -/
theorem destroy_ends {uncaught : Int} (h : c.Droppable uncaught) (hpool : pool.Clean) :
    Ends (destroy c uncaught) pool (fun _ pool' => pool'.Clean) (Raises Pool.Clean) := by
  unfold destroy
  obtain ⟨hstate, hn⟩ | ⟨hstate, hsettled⟩ := h
  · rw [if_pos ⟨hstate, hn⟩]
    exact hpool
  rw [if_neg (fun h => h.1 hstate), if_neg (not_not_intro hstate)]
  cases hpeer : c.impl.peerDisconnected with
  | true => exact hpool
  | false =>
      have hclean : c.impl.Clean := ⟨hstate, hsettled.resolve_left (by simp [hpeer])⟩
      refine ⟨?_, ?_⟩
      · intro impl himpl
        obtain himpl | himpl := List.mem_append.mp himpl
        · exact hpool.clients impl himpl
        · rwa [List.mem_singleton.mp himpl]
      · intro impl himpl
        obtain himpl | himpl := List.mem_append.mp himpl
        · exact hpool.returned impl himpl
        · rwa [List.mem_singleton.mp himpl]

theorem withClient_ends {α β : Type} {x : ClientAction O α} {andThen : α → Client O → PoolAction O β}
    {Q : α → Client O → Prop} {R : β → Pool O → Prop} (hpool : pool.Clean)
    (hx : Ends x c Q (Raises (Client.Droppable 1)))
    (hthen : ∀ a c', Q a c' → Ends (andThen a c') pool R (Raises Pool.Clean)) :
    Ends (withClient c x andThen) pool R (Raises Pool.Clean) := by
  unfold Ends at hx
  unfold withClient
  cases hexec : exec x c with
  | mk result c' =>
      rw [hexec] at hx
      cases result with
      | ok a => exact hthen a c' hx
      | error err =>
          cases err with
          | assertion which => exact hx.elim
          | exception err =>
              exact (destroy_ends hx hpool).bind fun _ _ hpool' => hpool'

theorem clientForOrigin_ends [DecidableEq O] {ex : Exchange} {origin : O} (hpool : pool.Clean) :
    Ends (clientForOrigin ex origin) pool
      (fun c pool' => pool'.Clean ∧ c.impl.Clean ∧ c.nExceptions = ex.nExceptions)
      (Raises Pool.Clean) := by
  unfold clientForOrigin
  rw [ends_get_bind]
  cases hfind : pool.clients.find? fun impl => impl.origin = origin with
  | some impl =>
      have himpl : impl.Clean := hpool.clients impl (List.mem_of_find?_eq_some hfind)
      refine ⟨⟨?_, hpool.returned⟩, himpl, rfl⟩
      intro impl' himpl'
      exact hpool.clients impl' (List.mem_of_mem_eraseP himpl')
  | none =>
      cases hconnects : ex.connects with
      | false => exact hpool
      | true => exact ⟨hpool, ⟨rfl, rfl⟩, rfl⟩

/-! ## Requests -/

/-- What a turn of the loop leaves. -/
def HopEnds (ex : Exchange) (use : Use) (isLast : Bool) : Hop U → Client O → Prop
  | .done r, c => use.Suits ex r ∧ c.impl.Received r
  | .follow _, c => isLast = false ∧ ex.Redirects ∧ c.impl.Settled

theorem requestHop_ends {urls : Urls U O} {url : U} {ex : Exchange} {use : Use} {isLast : Bool}
    (hc : c.impl.Clean) (hn : c.nExceptions = ex.nExceptions) (hex : ex.Handled use) :
    Ends (requestHop urls url ex isLast) c (HopEnds ex use isLast)
      (Raises (Client.Droppable 1)) := by
  unfold requestHop
  refine (Client.sendHead_ends hc).bind ?_
  rintro _ c ⟨hsends, hstate, hn'⟩
  obtain ⟨hnone, hsome⟩ := hex hsends
  refine (Client.recvHead_ends hstate fun hhead => ?_).bind ?_
  · rw [hn', hn]
    exact hnone hhead
  rintro r c ⟨hhead, hreceived, hn''⟩
  have hr := hsome r hhead
  cases hmodified : r.notModified with
  | true =>
      rw [if_pos (by simp [ResponseInfo.isReturned, hmodified])] at hr
      exact ⟨hr, hreceived⟩
  | false =>
  -- the body of an error or a redirect is read before anything else
  have hread (h : r.isReturned = false) :
      Ends (Client.readBody r ex) c (fun _ c' => c'.impl.Settled)
        (Raises (Client.Droppable 1)) := by
    rw [h] at hr
    obtain ⟨hreadable, hcut, hfails⟩ := hr
    refine Client.readBody_ends hreceived hreadable hcut fun hstreams hend => ?_
    rw [hn'', hn', hn]
    exact hfails hstreams hend
  cases herror : r.isError with
  | true =>
      refine (hread (by simp [ResponseInfo.isReturned, hmodified, herror])).bind ?_
      intro _ c' hsettled
      exact .inr hsettled
  | false =>
  cases hredirect : r.isRedirect with
  | false =>
      rw [if_pos (by simp [ResponseInfo.isReturned, herror, hredirect])] at hr
      exact ⟨hr, hreceived⟩
  | true =>
      have hreturned : r.isReturned = false := by
        simp [ResponseInfo.isReturned, hmodified, hredirect]
      refine (hread hreturned).bind ?_
      intro _ c' hsettled
      cases isLast with
      | true => exact .inr hsettled
      | false =>
          have hfollow (url' : U) : HopEnds ex use false (.follow url') c' :=
            ⟨rfl, ⟨r, hhead, hreturned, hredirect⟩, hsettled⟩
          cases hloc : r.location with
          | none => exact .inr hsettled
          | some loc =>
              by_cases hslash : '/' ∈ loc.toList.head?
              · simpa [hslash] using hfollow _
              · cases hparse : urls.parse loc with
                | none =>
                    have hraises : Raises (Client.Droppable 1) (.exception .invalidUrl) c' :=
                      .inr hsettled
                    simpa [hslash, hparse] using hraises
                | some url' => simpa [hslash, hparse] using hfollow _

/-- What a request returns can be used, and the pool is clean. -/
def RequestEnds (use : Use) : Client O × ResponseInfo × Exchange → Pool O → Prop
  | (c, r, ex), pool => pool.Clean ∧ use.Suits ex r ∧ c.impl.Received r ∧ c.nExceptions = 0

variable [DecidableEq O]

theorem requestTurn_ends {urls : Urls U O} {ex : Exchange} {use : Use} {isLast : Bool} {url : U}
    {next : U → PoolAction O (Client O × ResponseInfo × Exchange)} (hpool : pool.Clean)
    (hex : ex.Handled use)
    (hnext : ∀ url' pool', isLast = false → ex.Redirects → pool'.Clean →
      Ends (next url') pool' (RequestEnds use) (Raises Pool.Clean)) :
    Ends (requestTurn urls ex isLast url next) pool (RequestEnds use) (Raises Pool.Clean) := by
  unfold requestTurn
  refine (clientForOrigin_ends hpool).bind ?_
  rintro c pool' ⟨hpool', hc, hn⟩
  refine withClient_ends hpool' (requestHop_ends hc hn hex) ?_
  rintro (r | url') c' hhop
  · exact ⟨hpool', hhop.1, hhop.2, rfl⟩
  · obtain ⟨hlast, hredirects, hsettled⟩ := hhop
    refine (destroy_ends (.inr hsettled) hpool').bind fun _ pool'' hpool'' => ?_
    exact hnext url' pool'' hlast hredirects hpool''

/-- A request is served when the exchanges that it can reach are handled. -/
theorem requestFrom_ends {urls : Urls U O} {exchanges : Nat → Exchange} {use : Use} {left : Nat}
    {url : U} (hpool : pool.Clean)
    (hex : ∀ i ≤ left, (∀ j, i < j → j ≤ left → (exchanges j).Redirects) →
      (exchanges i).Handled use) :
    Ends (requestFrom urls exchanges left url) pool (RequestEnds use) (Raises Pool.Clean) := by
  have hfirst : (exchanges left).Handled use :=
    hex left le_rfl fun j hj hj' => absurd hj (Nat.not_lt.mpr hj')
  induction left generalizing pool url with
  | zero => exact requestTurn_ends hpool hfirst fun _ _ hlast => nomatch hlast
  | succ left ih =>
      refine requestTurn_ends hpool hfirst fun url' pool' _ hredirects hpool' => ?_
      have hrest : ∀ i ≤ left, (∀ j, i < j → j ≤ left → (exchanges j).Redirects) →
          (exchanges i).Handled use := by
        intro i hi hj
        refine hex i (Nat.le_succ_of_le hi) fun j hij hjleft => ?_
        obtain rfl | hjleft := Nat.eq_or_lt_of_le hjleft
        · exact hredirects
        · exact hj j hij (Nat.le_of_lt_succ hjleft)
      refine ih hpool' hrest (hrest left le_rfl fun j hj hj' => ?_)
      exact absurd hj (Nat.not_lt.mpr hj')

/-- A handled call keeps the pool clean. -/
theorem Call.run_ends (urls : Urls U O) {call : Call U} (hpool : pool.Clean)
    (hcall : call.Handled) :
    Ends (call.run urls) pool (fun _ pool' => pool'.Clean) (Raises Pool.Clean) := by
  unfold Call.run request
  refine (requestFrom_ends hpool hcall).bind ?_
  rintro ⟨c, r, ex⟩ pool' ⟨hpool', huse, hreceived, hn⟩
  refine withClient_ends hpool' (Use.run_ends hreceived (by simp [hn]) huse) ?_
  intro _ c' hsettled
  exact destroy_ends (.inr hsettled) hpool'

theorem runCalls_clean (urls : Urls U O) {calls : List (Call U)} (hpool : pool.Clean)
    (hcalls : ∀ call ∈ calls, call.Handled) :
    ∃ pool', runCalls urls calls pool = .ok pool' ∧ pool'.Clean := by
  induction calls generalizing pool with
  | nil => exact ⟨pool, rfl, hpool⟩
  | cons call rest ih =>
      have hcall := Call.run_ends urls hpool (hcalls call List.mem_cons_self)
      have hrest := fun call' h => hcalls call' (List.mem_cons_of_mem _ h)
      unfold Ends at hcall
      unfold runCalls
      cases hexec : exec (call.run urls) pool with
      | mk result pool' =>
          rw [hexec] at hcall
          cases result with
          | ok u => exact ih hcall hrest
          | error err =>
              cases err with
              | assertion which => exact hcall.elim
              | exception err => exact ih hcall hrest

/-- Calls whose reachable exchanges are handled fail no assertion, and all
connections that go back to the pool are ready and read to their end. -/
theorem runCalls_ready (urls : Urls U O) (calls : List (Call U))
    (hcalls : ∀ call ∈ calls, call.Handled) :
    ∃ pool, runCalls urls calls {} = .ok pool ∧
      ∀ impl ∈ pool.returned, impl.state = .ready ∧ impl.unread = false := by
  have hempty : Pool.Clean ({} : Pool O) := ⟨by simp, by simp⟩
  obtain ⟨pool, hrun, hclean⟩ := runCalls_clean urls hempty hcalls
  exact ⟨pool, hrun, hclean.returned⟩

end

/-- URLs that are paths of one server. -/
def oneServer : Urls String String where
  origin _ := "http://localhost:8080"
  setPath _ path := path
  parse := some

/-- A call that the server answers with one response. -/
def Call.answered (r : ResponseInfo) (use : Use) (body : BodyEnd := .ends) : Call String where
  url := "/repo.db.gz"
  exchanges _ := { head := some r, body }
  use

theorem runCalls_ready_saved :
    ∃ pool, runCalls oneServer
        [.answered { status := 200, contentLengthHeader := some "5" } (.saveFile true),
          .answered { status := 304 } .discardBody] {} = .ok pool ∧
      ∀ impl ∈ pool.returned, impl.state = .ready ∧ impl.unread = false :=
  runCalls_ready oneServer _ (by
    intro call hcall i _ _ _
    simp only [List.mem_cons, List.not_mem_nil, or_false] at hcall
    obtain rfl | rfl := hcall
    · refine ⟨nofun, ?_⟩
      rintro _ ⟨⟩
      have hframed : ResponseInfo.Framed { status := 200, contentLengthHeader := some "5" } :=
        .inr (.inr (.inl ⟨rfl, 5, by decide, by decide⟩))
      exact ⟨⟨by decide, .inr (.inr ⟨by decide, hframed⟩)⟩, nofun⟩
    · refine ⟨nofun, ?_⟩
      rintro _ ⟨⟩
      exact ⟨⟨by decide, .inl rfl⟩, nofun⟩)

/-- A server makes an assertion fail with an error or an unmodified file whose
length is `0` and with a file whose end is that of the connection. A body can be
left on a connection that is used again, and one that is cut off is taken for
read. -/
theorem runCalls_assertion :
    runCalls oneServer
        [.answered { status := 404, contentLengthHeader := some "0" } .abortClient] {} =
      .error .bodyReader ∧
    runCalls oneServer
        [.answered { status := 304, contentLengthHeader := some "0" } .discardBody] {} =
      .error .bodyReader ∧
    runCalls oneServer [.answered { status := 200 } (.saveFile true)] {} =
      .error .unimplemented ∧
    (∃ pool, runCalls oneServer
        [.answered
          { status := 404
            contentLengthHeader := some "00"
            transferEncoding := some "chunked" } .abortClient] {} = .ok pool ∧
      ∃ impl ∈ pool.returned, impl.unread = true) ∧
    ∃ pool, runCalls oneServer
        [.answered { status := 404, contentLengthHeader := some "5" } .abortClient .cutOff] {} =
          .ok pool ∧
      ∃ impl ∈ pool.returned, impl.unread = true :=
  ⟨rfl, rfl, rfl, ⟨_, rfl, _, List.mem_singleton.mpr rfl, rfl⟩,
    _, rfl, _, List.mem_singleton.mpr rfl, rfl⟩

end Bpt.Http
