-- SUMMARY: Which URL is requested after a redirect, and when it is the one that the redirect refers to.
import Bpt.Base.Uri
import Bpt.Util.Http.Pool

/-!
# Redirects

A request goes to an origin and asks for a path and a query, which the server finds
in the target that it is sent. What is used of a URL are its origin and its target.
-/

namespace Bpt.Http

open Transaction Uri

/-! ## URLs -/

/-- `network_origin`. -/
structure NetworkOrigin where
  protocol : String
  hostname : String
  port : Nat
  deriving DecidableEq

/-- `neo::url`. -/
structure Url where
  scheme : String
  host : Option String := none
  port : Option Nat := none
  path : String := ""
  query : Option String := none
  deriving DecidableEq

def NetworkOrigin.forUrl (url : Url) : NetworkOrigin :=
  { protocol := url.scheme
    hostname := url.host.getD ""
    port := url.port.getD (if url.scheme = "https" then 443 else 80) }

/-- The target that is sent. -/
def Url.requestTarget (url : Url) : List Char :=
  let query := url.query.getD ""
  url.path.toList ++ partText '?' (if query = "" then none else some query.toList)

/-- URLs, given how one is parsed. -/
def neoUrls (parseUrl : String → Option Url) : Urls Url NetworkOrigin where
  origin := NetworkOrigin.forUrl
  setPath url path := { url with path }
  parse := parseUrl

/-! ## Requests -/

structure Request where
  origin : NetworkOrigin
  path : List Char
  query : List Char
  deriving DecidableEq

/-- The path and the query that a server finds in a target. -/
def splitTarget (target : List Char) : List Char × List Char :=
  (target.takeWhile (· ≠ '?'), (target.dropWhile (· ≠ '?')).drop 1)

/-- The request for a URL. -/
def Url.request (url : Url) : Request where
  origin := .forUrl url
  path := (splitTarget url.requestTarget).1
  query := (splitTarget url.requestTarget).2

namespace Request

/-- The URI that was requested. -/
def uri (req : Request) : Target where
  scheme := req.origin.protocol.toList
  authority := some { host := req.origin.hostname.toList, port := some req.origin.port }
  path := req.path
  query := if req.query = [] then none else some req.query

def defaultPort (scheme : List Char) : Nat := if scheme = "https".toList then 443 else 80

/-- The request for a URI. An empty path is requested as a slash. -/
def ofUri (uri : Target) : Request where
  origin :=
    { protocol := String.ofList uri.scheme
      hostname := String.ofList ((uri.authority.map (·.host)).getD [])
      port := (uri.authority.bind (·.port)).getD (defaultPort uri.scheme) }
  path := if uri.path = [] then ['/'] else uri.path
  query := uri.query.getD []

end Request

/-! ## Redirects -/

/-- The URL of the request after a redirect. -/
def nextUrl {U O : Type} (urls : Urls U O) (url : U) (location : String) : Option U :=
  if '/' ∈ location.toList.head? then some (urls.setPath url location) else urls.parse location

section

variable {U O : Type} {urls : Urls U O}

/-- The failure is no refused URL. -/
def NotRefused {σ : Type} (failure : HttpFailure) (_ : σ) : Prop := failure ≠ .exception .invalidUrl

theorem Client.sendHead_notRefused {c : Client O} {ex : Exchange} :
    Ends (sendHead ex) c (fun _ _ => True) NotRefused := by
  unfold sendHead
  rw [ends_get_bind]
  split_ifs <;> simp [NotRefused, modifyImpl]

theorem Client.recvHead_notRefused {c : Client O} {ex : Exchange} :
    Ends (recvHead ex) c (fun r _ => ex.head = some r) NotRefused := by
  unfold recvHead
  rw [ends_get_bind]
  split_ifs
  · simp [NotRefused]
  · cases hhead : ex.head with
    | none => simp [NotRefused]
    | some r => simp [modifyImpl]

theorem Client.readBody_notRefused {c : Client O} {r : ResponseInfo} {ex : Exchange} :
    Ends (readBody r ex) c (fun _ _ => True) NotRefused := by
  have hreader : Ends (makeBodyReader r) c (fun _ _ => True) NotRefused := by
    unfold makeBodyReader
    rw [ends_get_bind]
    split_ifs <;> simp [NotRefused, setReady, modifyImpl]
  unfold readBody
  refine hreader.bind ?_
  intro reader c' _
  split_ifs
  · cases ex.body <;> simp [NotRefused, setReady, modifyImpl, ends_bind]
  · simp [setReady, modifyImpl]

/-- After a redirect the next URL is requested, or refused when there is none. -/
theorem requestHop_next {url : U} {ex : Exchange} {c : Client O} {r : ResponseInfo}
    {location : String} (head : ex.head = some r) (refers : r.location = some location) :
    Ends (requestHop urls url ex false) c
      (fun hop _ => ∀ next, hop = .follow next → nextUrl urls url location = some next)
      (fun failure _ => failure = .exception .invalidUrl → nextUrl urls url location = none) := by
  have hother {failure : HttpFailure} {c' : Client O} (h : NotRefused failure c') :
      failure = .exception .invalidUrl → nextUrl urls url location = none := (absurd · h)
  unfold requestHop
  refine (Client.sendHead_notRefused.mono (fun _ _ h => h) fun _ _ => hother).bind ?_
  intro _ c₁ _
  refine (Client.recvHead_notRefused.mono (fun _ _ h => h) fun _ _ => hother).bind ?_
  intro r' c₂ hhead
  obtain rfl := Option.some.inj (head.symm.trans hhead)
  cases hmodified : r.notModified with
  | true => simp
  | false =>
  cases herror : r.isError with
  | true =>
      refine (Client.readBody_notRefused.mono (fun _ _ h => h) fun _ _ => hother).bind ?_
      simp
  | false =>
  cases hredirect : r.isRedirect with
  | false => simp
  | true =>
      refine (Client.readBody_notRefused.mono (fun _ _ h => h) fun _ _ => hother).bind ?_
      intro _ c₃ _
      rw [refers]
      by_cases hslash : '/' ∈ location.toList.head?
      · simp [hslash, nextUrl]
      · cases hparse : urls.parse location with
        | none => simp [hslash, hparse, nextUrl]
        | some next => simp [hslash, hparse, nextUrl]

/-- A redirect that was received, with the URL that was requested and the one that
is next, if there is one. -/
structure Redirect (U : Type) where
  url : U
  location : String
  next : Option U

/-- What is left of the loop after redirects. -/
inductive Rest (U O : Type) where
  | loop (left : Nat) (url : U) (pool : Pool O)
  | refused (pool : Pool O)

variable [DecidableEq O]

/-- The loop receives redirects, each with an exchange of its own. -/
inductive Redirects (urls : Urls U O) (exchanges : Nat → Exchange) :
    Nat → U → Pool O → List (Redirect U) → Rest U O → Prop where
  | none {left : Nat} {url : U} {pool : Pool O} :
      Redirects urls exchanges left url pool [] (.loop left url pool)
  | follow {left : Nat} {url next : U} {pool pool₁ pool₂ : Pool O} {c c' : Client O}
      {r : ResponseInfo} {location : String} {redirects : List (Redirect U)} {rest : Rest U O}
      (connects : exec (clientForOrigin (exchanges (left + 1)) (urls.origin url)) pool =
        (.ok c, pool₁))
      (head : (exchanges (left + 1)).head = some r) (refers : r.location = some location)
      (hop : exec (requestHop urls url (exchanges (left + 1)) false) c = (.ok (.follow next), c'))
      (destroys : exec (destroy c' 0) pool₁ = (.ok (), pool₂))
      (more : Redirects urls exchanges left next pool₂ redirects rest) :
      Redirects urls exchanges (left + 1) url pool (⟨url, location, some next⟩ :: redirects) rest
  | refuse {left : Nat} {url : U} {pool pool₁ pool₂ : Pool O} {c c' : Client O}
      {r : ResponseInfo} {location : String}
      (connects : exec (clientForOrigin (exchanges (left + 1)) (urls.origin url)) pool =
        (.ok c, pool₁))
      (head : (exchanges (left + 1)).head = some r) (refers : r.location = some location)
      (hop : exec (requestHop urls url (exchanges (left + 1)) false) c =
        (.error (.exception .invalidUrl), c'))
      (destroys : exec (destroy c' 1) pool₁ = (.ok (), pool₂)) :
      Redirects urls exchanges (left + 1) url pool [⟨url, location, .none⟩] (.refused pool₂)

variable {exchanges : Nat → Exchange}

/-- What the rest of the loop ends with. -/
def Rest.outcome (urls : Urls U O) (exchanges : Nat → Exchange) :
    Rest U O → Except HttpFailure (Client O × ResponseInfo × Exchange) × Pool O
  | .loop left url pool => exec (requestFrom urls exchanges left url) pool
  | .refused pool => (.error (.exception .invalidUrl), pool)

/-- The loop comes to the same end from where the redirects have led it. -/
theorem Redirects.exec_requestFrom {left : Nat} {url : U} {pool : Pool O}
    {redirects : List (Redirect U)} {rest : Rest U O}
    (h : Redirects urls exchanges left url pool redirects rest) :
    exec (requestFrom urls exchanges left url) pool = rest.outcome urls exchanges := by
  induction h with
  | none => rfl
  | follow connects _ _ hop destroys _ ih =>
    rw [← ih, requestFrom, requestTurn, exec_bind, connects]
    dsimp only
    rw [withClient, hop]
    dsimp only
    rw [exec_bind, destroys]
  | refuse connects _ _ hop destroys =>
    rw [requestFrom, requestTurn, exec_bind, connects]
    dsimp only
    rw [withClient, hop]
    dsimp only
    rw [exec_bind, destroys]
    rfl

end

/-! ## What a redirect refers to -/

/-- The request after a redirect is the one for what its location refers to. -/
def Redirect.Followed (redirect : Redirect Url) : Prop :=
  ∀ ref, Reference.ofList redirect.location.toList = some ref →
    ∃ next, redirect.next = some next ∧
      next.request = .ofUri (resolve redirect.url.request.uri ref)

theorem splitTarget_partText {path : List Char} (hpath : '?' ∉ path) (query : Option (List Char)) :
    splitTarget (path ++ partText '?' query) = (path, query.getD []) := by
  have hkeep : ∀ c ∈ path, decide (c ≠ '?') = true := by
    intro c hc
    exact decide_eq_true fun h => hpath (h ▸ hc)
  unfold splitTarget
  rw [List.takeWhile_append_of_pos hkeep, List.dropWhile_append_of_pos hkeep]
  cases query with
  | none => simp [partText]
  | some query => simp [partText]

/-- What the resolution of a path asks for. -/
theorem ofUri_resolve_path {url : Url} {ref : Reference} {path : List Char}
    (hscheme : ref.scheme = none) (hauthority : ref.authority = none)
    (hpath : ref.path = '/' :: path) :
    Request.ofUri (resolve url.request.uri ref) =
      ⟨.forUrl url, removeDotSegments ref.path, ref.query.getD []⟩ := by
  have hne : removeDotSegments ref.path ≠ [] := by
    rw [hpath, removeDotSegments]
    exact List.cons_ne_nil _ _
  unfold resolve
  rw [hscheme, hauthority]
  dsimp only
  rw [if_neg (hpath ▸ List.cons_ne_nil _ _), if_pos (hpath ▸ rfl), Request.ofUri, if_neg hne]
  simp [Request.uri, Url.request]

/-- An absolute path without dot segments, perhaps with a query. -/
structure PathOnly (ref : Reference) : Prop where
  no_authority : ref.authority = none
  no_fragment : ref.fragment = none
  plain : Plain ref.path

theorem path_of_slash {s rest : List Char} {ref : Reference} (hs : s = '/' :: rest)
    (htext : s = ref.path ++ (partText '?' ref.query ++ partText '#' ref.fragment)) :
    ∃ path, ref.path = '/' :: path := by
  cases hpath : ref.path with
  | cons c path =>
    rw [hs, hpath, List.cons_append] at htext
    obtain ⟨rfl, -⟩ := List.cons.inj htext
    exact ⟨path, rfl⟩
  | nil =>
    rw [hs, hpath] at htext
    cases hquery : ref.query <;> cases hfragment : ref.fragment <;>
      simp [partText, hquery, hfragment] at htext

theorem setPath_request {url : Url} {location : String} (hquery : url.query.getD "" = "") :
    Url.request { url with path := location } =
      ⟨.forUrl url, (splitTarget location.toList).1, (splitTarget location.toList).2⟩ := by
  have htarget : Url.requestTarget { url with path := location } = location.toList := by
    simp [Url.requestTarget, hquery, partText]
  rw [Url.request, htarget]
  rfl

/-- A request asks for no more than the reference says. -/
theorem length_ofUri_resolve_le {base : Target} {ref : Reference} (hscheme : ref.scheme = none)
    (h : ref.authority ≠ none ∨ ∃ path, ref.path = '/' :: path) :
    (Request.ofUri (resolve base ref)).query = ref.query.getD [] ∧
      (Request.ofUri (resolve base ref)).path.length ≤ max 1 ref.path.length := by
  have hpath : (if removeDotSegments ref.path = [] then ['/'] else removeDotSegments ref.path).length
      ≤ max 1 ref.path.length := by
    have hle := length_removeDotSegments_le ref.path
    split
    · simp
    · omega
  unfold resolve
  rw [hscheme]
  cases hauthority : ref.authority with
  | some authority => exact ⟨rfl, hpath⟩
  | none =>
    obtain ⟨path, hslash⟩ := h.resolve_left fun hsome => hsome hauthority
    dsimp only
    rw [if_neg (hslash ▸ List.cons_ne_nil _ _), if_pos (hslash ▸ rfl)]
    exact ⟨rfl, hpath⟩

theorem length_splitTarget_le (target : List Char) :
    target.length ≤ (splitTarget target).1.length + (splitTarget target).2.length + 1 := by
  have hlength := congrArg List.length
    (List.takeWhile_append_dropWhile (p := (· ≠ '?')) (l := target))
  rw [List.length_append] at hlength
  simp only [splitTarget, List.length_drop]
  omega

theorem length_splitTarget {target : List Char} (h : '?' ∈ target) :
    (splitTarget target).1.length + (splitTarget target).2.length + 1 = target.length := by
  have hlength := congrArg List.length
    (List.takeWhile_append_dropWhile (p := (· ≠ '?')) (l := target))
  have hne : target.dropWhile (· ≠ '?') ≠ [] := by
    rw [Ne, List.dropWhile_eq_nil_iff]
    intro hall
    simpa using hall _ h
  have hpos := List.length_pos_iff.mpr hne
  rw [List.length_append] at hlength
  simp only [splitTarget, List.length_drop]
  omega

theorem length_getD_le (query : Option (List Char)) :
    (query.getD []).length ≤ (partText '?' query).length := by
  cases query with
  | none => exact le_rfl
  | some query => exact Nat.le_succ _

/-- A query that is carried over is asked for as well. -/
theorem length_lt_of_carried {url : Url} (hquery : url.query.getD "" ≠ "") (location : String) :
    location.toList.length < (Url.request { url with path := location }).path.length +
      (Url.request { url with path := location }).query.length := by
  have htarget : Url.requestTarget { url with path := location } =
      location.toList ++ '?' :: (url.query.getD "").toList := by
    simp [Url.requestTarget, hquery, partText]
  have hpos : 0 < (url.query.getD "").toList.length := by
    rw [List.length_pos_iff, Ne, String.toList_eq_nil_iff]
    exact hquery
  have hmem : '?' ∈ location.toList ++ '?' :: (url.query.getD "").toList :=
    List.mem_append_right _ List.mem_cons_self
  have htotal := length_splitTarget hmem
  rw [Url.request, htarget]
  simp only [List.length_append, List.length_cons] at htotal
  dsimp only
  omega

/-- A server finds both slashes in the path. -/
theorem two_le_length_splitTarget {target : List Char} (h : ['/', '/'] <+: target) :
    2 ≤ (splitTarget target).1.length := by
  obtain ⟨rest, rfl⟩ := h
  simp [splitTarget]

/-- A server finds the fragment in the path or in the query. -/
theorem splitTarget_fragment {path : List Char} (hpath : '?' ∉ path) (query : Option (List Char))
    (fragment : List Char) :
    path.length < (splitTarget (path ++ (partText '?' query ++ '#' :: fragment))).1.length ∨
      (query.getD []).length <
        (splitTarget (path ++ (partText '?' query ++ '#' :: fragment))).2.length := by
  cases query with
  | some query =>
    have hsplit := splitTarget_partText hpath (some (query ++ '#' :: fragment))
    refine .inr ?_
    rw [partText] at hsplit
    rw [partText, List.cons_append, hsplit]
    simp
  | none =>
    have hkeep : ∀ c ∈ path ++ ['#'], decide (c ≠ '?') = true := by
      intro c hc
      refine decide_eq_true fun h => ?_
      rcases List.mem_append.mp hc with hc | hc
      · exact hpath (h ▸ hc)
      · cases h.symm.trans (List.mem_singleton.mp hc)
    refine .inl ?_
    rw [partText, List.nil_append, List.append_cons, splitTarget,
      List.takeWhile_append_of_pos hkeep]
    simp only [List.length_append, List.length_singleton]
    omega

/-- What begins with a slash is followed when it is just a path and there is no
query to carry over. -/
theorem setPath_followed_iff {url : Url} {location : String} {ref : Reference}
    (reads : Reference.ofList location.toList = some ref) (slash : '/' ∈ location.toList.head?) :
    Url.request { url with path := location } = .ofUri (resolve url.request.uri ref) ↔
      PathOnly ref ∧ url.query.getD "" = "" := by
  obtain ⟨rest, hrest⟩ := List.head?_eq_some_iff.mp slash
  have hscheme := Reference.scheme_of_slash (hrest ▸ reads)
  have hmark := Reference.not_mem_path reads
  obtain ⟨authority, htext, hauthority⟩ := Reference.text_eq reads hscheme
  constructor
  · intro h
    have hslash : ref.authority ≠ none ∨ ∃ path, ref.path = '/' :: path := by
      refine hauthority.symm.imp And.left ?_
      rintro ⟨-, rfl⟩
      exact path_of_slash hrest (List.nil_append _ ▸ htext)
    obtain ⟨hspecQuery, hspecPath⟩ :=
      @length_ofUri_resolve_le url.request.uri ref hscheme hslash
    rw [← h] at hspecQuery hspecPath
    have hlength := congrArg List.length htext
    simp only [List.length_append] at hlength
    have hpart := length_getD_le ref.query
    rw [← hspecQuery] at hpart
    have hquery : url.query.getD "" = "" := by
      by_contra hquery
      have hcarried := length_lt_of_carried hquery location
      rcases hslash with hsome | ⟨path, hpath⟩
      · have hauth := (hauthority.resolve_left fun hnone => hsome hnone.1).2.length_le
        simp only [List.length_cons, List.length_nil] at hauth
        omega
      · have hpos := congrArg List.length hpath
        rw [List.length_cons] at hpos
        omega
    rw [setPath_request hquery] at hspecPath hpart
    dsimp only at hspecPath hpart
    have hnone : ref.authority = none := by
      by_contra hsome
      obtain ⟨-, hslashes⟩ := hauthority.resolve_left fun hnone => hsome hnone.1
      have htwo := two_le_length_splitTarget (hslashes.trans ⟨_, htext.symm⟩)
      have hle := length_splitTarget_le location.toList
      have hauth := hslashes.length_le
      simp only [List.length_cons, List.length_nil] at hauth
      omega
    obtain ⟨-, rfl⟩ := hauthority.resolve_right fun hsome => hsome.1 hnone
    rw [List.nil_append] at htext
    obtain ⟨path, hpath⟩ := path_of_slash hrest htext
    rw [setPath_request hquery, ofUri_resolve_path hscheme hnone hpath] at h
    obtain ⟨-, hfound, hfoundQuery⟩ := Request.mk.inj h
    have hfragment : ref.fragment = none := by
      cases hfragment : ref.fragment with
      | none => rfl
      | some fragment =>
        have hle := length_removeDotSegments_le ref.path
        have hlt := splitTarget_fragment hmark ref.query fragment
        rw [hfragment, partText] at htext
        rw [← htext, hfound, hfoundQuery] at hlt
        omega
    rw [hfragment, partText, List.append_nil] at htext
    rw [htext, splitTarget_partText hmark, hpath] at hfound
    exact ⟨⟨hnone, hfragment, hpath ▸ removeDotSegments_eq_iff.mp hfound.symm⟩, hquery⟩
  · rintro ⟨⟨hnone, hfragment, hplain⟩, hquery⟩
    obtain ⟨-, rfl⟩ := hauthority.resolve_right fun hsome => hsome.1 hnone
    rw [List.nil_append] at htext
    obtain ⟨path, hpath⟩ := path_of_slash hrest htext
    rw [hfragment, partText, List.append_nil] at htext
    rw [setPath_request hquery, ofUri_resolve_path hscheme hnone hpath, htext,
      splitTarget_partText hmark, hpath, removeDotSegments_eq_iff.mpr (hpath ▸ hplain)]

/-! ## Absolute URLs -/

/-- What the URL library leaves as the reference has it: a name as the host, and a
path that is not ended by a dot segment. In a query it escapes quotes. -/
structure Kept (ref : Reference) (authority : Authority) : Prop where
  host : authority.host.head? ≠ some '['
  path : ¬ ['/', '.'] <:+ ref.path ∧ ¬ ['/', '.', '.'] <:+ ref.path
  query : ∀ query ∈ ref.query, '\'' ∉ query

/-- The parts of a parsed URL, which has a path of its own. -/
structure PartsOf (url : Url) (scheme : List Char) (authority : Authority) (ref : Reference) :
    Prop where
  scheme_eq : url.scheme.toList = scheme
  host_eq : url.host.map String.toList = some authority.host
  port_eq : url.port.getD (Request.defaultPort scheme) =
    authority.port.getD (Request.defaultPort scheme)
  path_eq : url.path.toList =
    if removeDotSegments ref.path = [] then ['/'] else removeDotSegments ref.path
  query_eq : url.query.map String.toList = ref.query

/-- What `parse_url` is relied on for: it finds the parts of an absolute URL. -/
def ParsesUrls (parseUrl : String → Option Url) : Prop :=
  ∀ s url ref scheme authority, parseUrl s = some url → Reference.ofList s.toList = some ref →
    ref.scheme = some scheme → scheme = "http".toList ∨ scheme = "https".toList →
    ref.authority = some authority → Kept ref authority → PartsOf url scheme authority ref

theorem PartsOf.request_eq {url : Url} {scheme : List Char} {authority : Authority}
    {ref : Reference} (h : PartsOf url scheme authority ref) (base : Target)
    (hscheme : ref.scheme = some scheme) (hauthority : ref.authority = some authority)
    (hmark : '?' ∉ ref.path) : url.request = .ofUri (resolve base ref) := by
  have horigin : NetworkOrigin.forUrl url = (Request.ofUri (resolve base ref)).origin := by
    have hport : (if url.scheme = "https" then 443 else 80) = Request.defaultPort scheme := by
      simp only [Request.defaultPort, ← h.scheme_eq, String.toList_inj]
    have hhost : url.host.getD "" = String.ofList authority.host := by
      obtain ⟨host, hhost, hchars⟩ := Option.map_eq_some_iff.mp h.host_eq
      rw [hhost, ← hchars, String.ofList_toList]
      rfl
    rw [NetworkOrigin.forUrl, hport, h.port_eq, hhost, Request.ofUri, resolve, hscheme,
      hauthority, ← h.scheme_eq, String.ofList_toList]
    rfl
  have htarget : url.requestTarget = url.path.toList ++
      partText '?' (if url.query.getD "" = "" then none else some (url.query.getD "").toList) := rfl
  have hpath : '?' ∉ url.path.toList := by
    rw [h.path_eq]
    split
    · decide
    · exact fun hmem => hmark (mem_of_mem_removeDotSegments hmem (by decide))
  have hquery : (if url.query.getD "" = "" then none else some (url.query.getD "").toList).getD [] =
      ref.query.getD [] := by
    rw [← h.query_eq]
    cases url.query with
    | none => rfl
    | some query => by_cases hempty : query = "" <;> simp [hempty]
  unfold resolve at horigin ⊢
  rw [hscheme] at horigin ⊢
  rw [Url.request, horigin, htarget, splitTarget_partText hpath, hquery, h.path_eq]
  rfl

/-! ## Redirects that are followed -/

/-- The redirects that are followed to where they refer to. -/
inductive Redirect.Supported (parseUrl : String → Option Url) (redirect : Redirect Url) : Prop where
  | absolute {ref : Reference} {scheme : List Char} {authority : Authority}
      (reads : Reference.ofList redirect.location.toList = some ref)
      (absolute : ref.scheme = some scheme)
      (web : scheme = "http".toList ∨ scheme = "https".toList)
      (host : ref.authority = some authority) (kept : Kept ref authority)
      (accepted : (parseUrl redirect.location).isSome = true)
  | path {ref : Reference} (reads : Reference.ofList redirect.location.toList = some ref)
      (slash : '/' ∈ redirect.location.toList.head?) (path : PathOnly ref)
      (no_query : redirect.url.query.getD "" = "")

theorem Redirect.Supported.followed {parseUrl : String → Option Url} (hparse : ParsesUrls parseUrl)
    {redirect : Redirect Url}
    (hnext : redirect.next = nextUrl (neoUrls parseUrl) redirect.url redirect.location)
    (h : redirect.Supported parseUrl) : redirect.Followed := by
  intro ref href
  cases h with
  | absolute reads absolute web host kept accepted =>
    obtain rfl := Option.some.inj (reads.symm.trans href)
    obtain ⟨next, hparsed⟩ := Option.isSome_iff_exists.mp accepted
    have hslash : '/' ∉ redirect.location.toList.head? := by
      intro hslash
      obtain ⟨rest, hrest⟩ := List.head?_eq_some_iff.mp hslash
      cases absolute.symm.trans (Reference.scheme_of_slash (hrest ▸ reads))
    refine ⟨next, ?_, ?_⟩
    · rw [hnext, nextUrl, if_neg hslash]
      exact hparsed
    · exact (hparse _ _ _ _ _ hparsed reads absolute web host kept).request_eq _ absolute host
        (Reference.not_mem_path reads)
  | path reads slash path no_query =>
    obtain rfl := Option.some.inj (reads.symm.trans href)
    refine ⟨_, ?_, (setPath_followed_iff reads slash).mpr ⟨path, no_query⟩⟩
    rw [hnext, nextUrl, if_pos slash]
    rfl

theorem Redirects.next_eq {U O : Type} [DecidableEq O] {urls : Urls U O}
    {exchanges : Nat → Exchange} {left : Nat} {url : U} {pool : Pool O}
    {redirects : List (Redirect U)} {rest : Rest U O}
    (h : Redirects urls exchanges left url pool redirects rest) :
    ∀ redirect ∈ redirects, redirect.next = nextUrl urls redirect.url redirect.location := by
  induction h with
  | none => simp
  | @follow left url next _ _ _ c _ _ _ _ _ _ head refers hop _ _ ih =>
    rw [List.forall_mem_cons]
    refine ⟨?_, ih⟩
    have hends := @requestHop_next _ _ urls url _ c _ _ head refers
    rw [Ends, hop] at hends
    exact (hends next rfl).symm
  | @refuse left url _ _ _ c _ _ _ _ head refers hop =>
    rw [List.forall_mem_singleton]
    have hends := @requestHop_next _ _ urls url _ c _ _ head refers
    rw [Ends, hop] at hends
    exact (hends rfl).symm

/-- In a chain of redirects, those that are supported are followed. -/
theorem redirects_followed {parseUrl : String → Option Url} (hparse : ParsesUrls parseUrl)
    {exchanges : Nat → Exchange} {url : Url} {pool : Pool NetworkOrigin}
    {redirects : List (Redirect Url)} {rest : Rest Url NetworkOrigin}
    (h : Redirects (neoUrls parseUrl) exchanges 100 url pool redirects rest)
    (hsupported : ∀ redirect ∈ redirects, redirect.Supported parseUrl) :
    (∀ redirect ∈ redirects, redirect.Followed) ∧
      exec (request (neoUrls parseUrl) exchanges url) pool =
        rest.outcome (neoUrls parseUrl) exchanges := by
  refine ⟨fun redirect hmem => ?_, h.exec_requestFrom⟩
  exact (hsupported redirect hmem).followed hparse (h.next_eq redirect hmem)

/-- A parser that knows one URL. -/
def parseOne (s : String) : Option Url :=
  if s = "http://b.org/y?z" then
    some { scheme := "http", host := some "b.org", path := "/y", query := some "z" }
  else none

theorem readsOne : Reference.ofList "http://b.org/y?z".toList = some {
    scheme := some "http".toList, authority := some { host := "b.org".toList }
    path := "/y".toList, query := some "z".toList } := by
  decide +kernel

theorem parsesUrls_parseOne : ParsesUrls parseOne := by
  intro s url ref scheme authority hparse hreads hscheme _ hauthority _
  obtain ⟨rfl, hurl⟩ := Option.ite_none_right_eq_some.mp hparse
  obtain rfl := Option.some.inj (readsOne.symm.trans hreads)
  obtain rfl := Option.some.inj hscheme
  obtain rfl := Option.some.inj hauthority
  obtain rfl := Option.some.inj hurl
  refine ⟨rfl, rfl, rfl, ?_, rfl⟩
  decide +kernel

def redirectTo (location : String) : Exchange where
  head := some {
    status := 302, contentLengthHeader := some "2", connection := some "close"
    location := some location }

def twoRedirects (left : Nat) : Exchange :=
  if left = 100 then redirectTo "/x" else redirectTo "http://b.org/y?z"

/-- One redirect of a chain, on a connection that is closed. -/
theorem Redirects.closed {parseUrl : String → Option Url} {exchanges : Nat → Exchange} {left : Nat}
    {url next : Url} {location : String} {redirects : List (Redirect Url)}
    {rest : Rest Url NetworkOrigin} (hexchange : exchanges (left + 1) = redirectTo location)
    (hnext : nextUrl (neoUrls parseUrl) url location = some next)
    (more : Redirects (neoUrls parseUrl) exchanges left next {} redirects rest) :
    Redirects (neoUrls parseUrl) exchanges (left + 1) url {}
      (⟨url, location, some next⟩ :: redirects) rest := by
  have hconnects : exec (clientForOrigin (exchanges (left + 1)) (NetworkOrigin.forUrl url)) {} =
      (.ok ⟨{ origin := .forUrl url }, 0⟩, {}) := by
    rw [hexchange]
    rfl
  have hhop : exec (requestHop (neoUrls parseUrl) url (exchanges (left + 1)) false)
      ⟨{ origin := .forUrl url }, 0⟩ =
        (.ok (.follow next), ⟨{ origin := .forUrl url, peerDisconnected := true }, 0⟩) := by
    rw [hexchange]
    by_cases hslash : '/' ∈ location.toList.head?
    · obtain rfl : (neoUrls parseUrl).setPath url location = next := by
        simpa [nextUrl, hslash] using hnext
      exact congrArg (exec · _) (if_pos hslash)
    · have hparse : (neoUrls parseUrl).parse location = some next := by
        simpa [nextUrl, hslash] using hnext
      refine (congrArg (exec · _) (if_neg hslash)).trans ?_
      rw [hparse]
      rfl
  exact .follow hconnects (congrArg Exchange.head hexchange) rfl hhop rfl more

/-- A chain whose second redirect leads to another origin. -/
theorem redirects_followed_two :
    ∃ (url next : Url) (redirects : List (Redirect Url)),
      Redirects (neoUrls parseOne) twoRedirects 100 url {} redirects (.loop 98 next {}) ∧
      (∀ redirect ∈ redirects, redirect.Followed) ∧ redirects.length = 2 := by
  let w : Url := { scheme := "http", host := some "a.org", path := "/w" }
  let x : Url := { scheme := "http", host := some "a.org", path := "/x" }
  let y : Url := { scheme := "http", host := some "b.org", path := "/y", query := some "z" }
  let redirects : List (Redirect Url) :=
    [⟨w, "/x", some x⟩, ⟨x, "http://b.org/y?z", some y⟩]
  have hchain : Redirects (neoUrls parseOne) twoRedirects 100 w {} redirects (.loop 98 y {}) :=
    .closed rfl rfl (.closed rfl rfl .none)
  have hread : Reference.ofList "/x".toList = some { path := "/x".toList } := by decide +kernel
  have hx : Redirect.Supported parseOne ⟨w, "/x", some x⟩ :=
    .path hread (by decide +kernel) ⟨rfl, rfl, by decide +kernel⟩ rfl
  have hy : Redirect.Supported parseOne ⟨x, "http://b.org/y?z", some y⟩ :=
    .absolute readsOne rfl (.inl rfl) rfl ⟨by decide, by decide, by decide⟩ rfl
  refine ⟨w, y, redirects, hchain, ?_, rfl⟩
  refine (redirects_followed parsesUrls_parseOne hchain ?_).1
  rw [List.forall_mem_cons, List.forall_mem_singleton]
  exact ⟨hx, hy⟩

/-- The query of the URL that was requested is carried over. -/
theorem redirect_not_followed :
    ∃ (url next : Url) (redirects : List (Redirect Url)),
      Redirects (neoUrls parseOne) (fun _ => redirectTo "/x") 100 url {} redirects
        (.loop 99 next {}) ∧
      ¬ ∀ redirect ∈ redirects, redirect.Followed := by
  let w : Url := { scheme := "http", host := some "a.org", path := "/w", query := some "q" }
  let x : Url := { scheme := "http", host := some "a.org", path := "/x", query := some "q" }
  have hread : Reference.ofList "/x".toList = some { path := "/x".toList } := by decide +kernel
  refine ⟨w, x, [⟨w, "/x", some x⟩], .closed rfl rfl .none, fun h => ?_⟩
  obtain ⟨next, hnext, hrequest⟩ := h _ List.mem_cons_self _ hread
  obtain rfl := Option.some.inj hnext
  have hquery := ((@setPath_followed_iff w _ _ hread (by decide +kernel)).mp hrequest).2
  exact absurd hquery (by decide)

end Bpt.Http
