-- SUMMARY: Plain response bodies, read piece by piece from a stream that may end too early.
import Bpt.Util.Http.Pool

/-!
# Plain bodies

A body of a given length is read from the connection in as many turns as the
peer and the reader need. What is behind the end of the body stays on the
connection.
-/

namespace Bpt.Http

open Transaction

variable {O : Type}

/-! ## The stream -/

/-- What the peer sends behind the head. At each turn a number of bytes has
arrived, one more than `arrivals` says. -/
structure Stream where
  bytes : List UInt8
  /-- The stream ends with an error of the network. -/
  breaks : Bool := false
  arrivals : Nat → Nat := fun _ => 0

namespace Stream

/-- Up to `n` bytes. They are empty when the stream has ended. -/
def next (n : Nat) (strm : Stream) : Except HttpError (List UInt8) :=
  if strm.bytes.isEmpty && strm.breaks then .error .io
  else .ok (strm.bytes.take (min n (strm.arrivals 0 + 1)))

/-- Pass over `n` bytes, and go to the next turn. -/
def consume (n : Nat) (strm : Stream) : Stream where
  bytes := strm.bytes.drop n
  breaks := strm.breaks
  arrivals := fun turn => strm.arrivals (turn + 1)

/-- How the reading of a body of `size` bytes comes to an end. -/
def bodyEnd (size : Nat) (strm : Stream) : BodyEnd :=
  if size ≤ strm.bytes.length then .ends else if strm.breaks then .fails else .cutOff

end Stream

/-! ## The reader of the body -/

/-- `recv_plain_state`. -/
structure RecvPlainState (O : Type) where
  strm : Stream
  size : Nat
  impl : ClientImpl O

namespace RecvPlainState

def setReady (s : RecvPlainState O) : RecvPlainState O :=
  { s with impl := { s.impl with state := .ready } }

def next (n : Nat) (s : RecvPlainState O) : Except HttpError (List UInt8) × RecvPlainState O :=
  if s.size = 0 then (.ok [], s.setReady)
  else
    match s.strm.next (min n s.size) with
    | .error err => (.error err, s)
    | .ok [] => (.ok [], s.setReady)
    | .ok (b :: bs) => (.ok (b :: bs), s)

def consume (n : Nat) (s : RecvPlainState O) : RecvPlainState O :=
  { s with size := s.size - n, strm := s.strm.consume n }

theorem next_eq_cons {n : Nat} {s s' : RecvPlainState O} {b : UInt8} {bs : List UInt8}
    (h : s.next n = (.ok (b :: bs), s')) :
    s' = s ∧ s.size ≠ 0 ∧
      b :: bs = s.strm.bytes.take (min (min n s.size) (s.strm.arrivals 0 + 1)) := by
  unfold next at h
  split at h
  · cases h
  next hsize =>
    split at h
    · cases h
    · cases h
    next hpart =>
      cases h
      unfold Stream.next at hpart
      split at hpart
      · cases hpart
      · exact ⟨rfl, hsize, (Except.ok.inj hpart).symm⟩

end RecvPlainState

/-! ## Reading to the end -/

/-- What `neo::buffer_copy` does from the reader to a sink. At each turn it asks for
some bytes, writes those that the sink has room for, and consumes as many, up to
a part that is empty. The result has what was written to the sink. -/
inductive BufferCopies : RecvPlainState O → Except HttpError (List UInt8) × RecvPlainState O → Prop where
  | error {s s' : RecvPlainState O} {ask : Nat} {err : HttpError}
      (h : s.next (ask + 1) = (.error err, s')) : BufferCopies s (.error err, s')
  | done {s s' : RecvPlainState O} {ask : Nat} (h : s.next (ask + 1) = (.ok [], s')) :
      BufferCopies s (.ok [], s')
  | part {s s' : RecvPlainState O} {ask room : Nat} {b : UInt8} {bs : List UInt8}
      {result : Except HttpError (List UInt8) × RecvPlainState O}
      (h : s.next (ask + 1) = (.ok (b :: bs), s'))
      (hrest : BufferCopies (s'.consume ((b :: bs).take (room + 1)).length) result) :
      BufferCopies s (result.1.map ((b :: bs).take (room + 1) ++ ·), result.2)

/-- A copy that asks for and has room for numbers of bytes that the functions say,
less one. -/
def bufferCopy (ask room : Nat → Nat) (turn : Nat) (s : RecvPlainState O) :
    Except HttpError (List UInt8) × RecvPlainState O :=
  match _hnext : s.next (ask turn + 1) with
  | (.error err, s') => (.error err, s')
  | (.ok [], s') => (.ok [], s')
  | (.ok (b :: bs), s') =>
    let part := (b :: bs).take (room turn + 1)
    let result := bufferCopy ask room (turn + 1) (s'.consume part.length)
    (result.1.map (part ++ ·), result.2)
termination_by s.size
decreasing_by
  obtain ⟨rfl, hsize, _⟩ := RecvPlainState.next_eq_cons _hnext
  simp only [RecvPlainState.consume, List.take_succ_cons, List.length_cons]
  omega

theorem bufferCopy_copies (ask room : Nat → Nat) (turn : Nat) (s : RecvPlainState O) :
    BufferCopies s (bufferCopy ask room turn s) := by
  fun_induction bufferCopy ask room turn s with
  | case1 turn s err s' hnext => exact .error hnext
  | case2 turn s s' hnext => exact .done hnext
  | case3 turn s b bs s' hnext part result ih => exact .part hnext ih

/-- The loop of `discard_body`. Returns what was passed over. -/
def discardLoop (s : RecvPlainState O) : Except HttpError (List UInt8) × RecvPlainState O :=
  match _hnext : s.next 1024 with
  | (.error err, s') => (.error err, s')
  | (.ok [], s') => (.ok [], s'.consume 0)
  | (.ok (b :: bs), s') =>
    match discardLoop (s'.consume (b :: bs).length) with
    | (.error err, s'') => (.error err, s'')
    | (.ok rest, s'') => (.ok (b :: bs ++ rest), s'')
termination_by s.size
decreasing_by
  obtain ⟨rfl, hsize, _⟩ := RecvPlainState.next_eq_cons _hnext
  simp only [RecvPlainState.consume, List.length_cons]
  omega

/-- A response with a plain body of `n` bytes. -/
structure ResponseInfo.Plain (r : ResponseInfo) (n : Nat) : Prop where
  bodyless : r.bodyless = false
  transferEncoding : r.transferEncoding = none
  contentLength : r.contentLength = some (n : Int)
  pos : 0 < n

namespace Client

/-- What `recv_body_into` and `discard_body` do with the reader of a plain body. -/
def readPlainBody
    (loop : RecvPlainState O → Except HttpError (List UInt8) × RecvPlainState O)
    (c : Client O) (r : ResponseInfo) (strm : Stream) :
    Except HttpFailure (List UInt8) × Client O :=
  match exec (makeBodyReader r) c with
  | (.error err, c') => (.error err, c')
  | (.ok _, c') =>
    match loop ⟨strm, (r.contentLength.getD 0).toNat, c'.impl⟩ with
    | (.error err, s) => (.error (.exception err), { c' with impl := s.impl })
    | (.ok data, s) =>
      (.ok data, { c' with impl := { s.impl with state := .ready, unread := s.size ≠ 0 } })

/-- `copy` is `neo::buffer_copy` to the sink that is given. -/
def recvBodyInto (copy : RecvPlainState O → Except HttpError (List UInt8) × RecvPlainState O)
    (c : Client O) (r : ResponseInfo) (strm : Stream) : Except HttpFailure (List UInt8) × Client O :=
  readPlainBody copy c r strm

def discardBody (c : Client O) (r : ResponseInfo) (strm : Stream) :
    Except HttpFailure (List UInt8) × Client O :=
  readPlainBody discardLoop c r strm

end Client

/-! ## Where the reading ends -/

/-- The body is read to its end or to the end of the stream, whichever comes
first. The network may fail before both. -/
def Drained (s : RecvPlainState O) (result : Except HttpError (List UInt8) × RecvPlainState O) :
    Prop :=
  if s.size ≤ s.strm.bytes.length ∨ s.strm.breaks = false then
    result.1 = .ok (s.strm.bytes.take s.size) ∧ result.2.size = s.size - s.strm.bytes.length ∧
      result.2.impl = { s.impl with state := .ready }
  else result.1 = .error .io ∧ result.2.impl = s.impl

namespace RecvPlainState

variable {s : RecvPlainState O}

theorem next_cases {n : Nat} (hn : 0 < n) :
    (s.next n = (.ok [], s.setReady) ∧
      (s.size = 0 ∨ s.strm.bytes = [] ∧ s.strm.breaks = false)) ∨
    (s.next n = (.error .io, s) ∧ s.size ≠ 0 ∧ s.strm.bytes = [] ∧ s.strm.breaks = true) ∨
    ∃ b bs, s.next n = (.ok (b :: bs), s) ∧ b :: bs <+: s.strm.bytes ∧
      (b :: bs).length ≤ s.size := by
  unfold next
  by_cases hsize : s.size = 0
  · rw [if_pos hsize]
    exact .inl ⟨rfl, .inl hsize⟩
  · rw [if_neg hsize]
    unfold Stream.next
    cases hbytes : s.strm.bytes with
    | nil =>
        cases hbreaks : s.strm.breaks with
        | true => exact .inr (.inl ⟨rfl, hsize, rfl, rfl⟩)
        | false =>
            rw [List.take_nil]
            exact .inl ⟨rfl, .inr ⟨rfl, rfl⟩⟩
    | cons b bs =>
        obtain ⟨k, hk⟩ := Nat.exists_eq_succ_of_ne_zero
          (show min (min n s.size) (s.strm.arrivals 0 + 1) ≠ 0 by omega)
        rw [hk]
        refine .inr (.inr ⟨b, bs.take k, rfl, List.take_prefix (k + 1) (b :: bs), ?_⟩)
        rw [List.length_cons, List.length_take]
        omega

/-- The end of the body or of the stream. -/
theorem drained_done (h : s.size = 0 ∨ s.strm.bytes = [] ∧ s.strm.breaks = false)
    (strm : Stream) : Drained s (.ok [], { s.setReady with strm := strm }) := by
  have hend : s.size ≤ s.strm.bytes.length ∨ s.strm.breaks = false := by
    rcases h with h | ⟨_, h⟩
    · exact .inl (by omega)
    · exact .inr h
  unfold Drained
  rw [if_pos hend]
  rcases h with h | ⟨h, _⟩
  · simp [h, setReady]
  · simp [h, setReady]

theorem drained_error (hsize : s.size ≠ 0) (hbytes : s.strm.bytes = [])
    (hbreaks : s.strm.breaks = true) : Drained s (.error .io, s) := by
  unfold Drained
  rw [if_neg (by simp [hsize, hbytes, hbreaks])]
  exact ⟨rfl, rfl⟩

/-- One turn takes a part off the front. -/
theorem drained_part {part : List UInt8}
    {result : Except HttpError (List UInt8) × RecvPlainState O} (hfront : part <+: s.strm.bytes)
    (hpart : part.length ≤ s.size) (h : Drained (s.consume part.length) result) :
    Drained s (result.1.map (part ++ ·), result.2) := by
  have hlen : part.length ≤ s.strm.bytes.length := hfront.length_le
  have hend : ((s.consume part.length).size ≤ (s.consume part.length).strm.bytes.length ∨
      (s.consume part.length).strm.breaks = false) ↔
      (s.size ≤ s.strm.bytes.length ∨ s.strm.breaks = false) := by
    refine or_congr ?_ Iff.rfl
    simp only [consume, Stream.consume, List.length_drop]
    omega
  unfold Drained at h ⊢
  split at h
  next hdone =>
    rw [if_pos (hend.mp hdone)]
    obtain ⟨hdata, hsize, himpl⟩ := h
    refine ⟨?_, ?_, himpl⟩
    · have hsplit := List.take_add (l := s.strm.bytes) (i := part.length)
        (j := s.size - part.length)
      rw [Nat.add_sub_cancel' hpart, ← List.prefix_iff_eq_take.mp hfront] at hsplit
      rw [hdata, hsplit]
      rfl
    · rw [hsize]
      simp only [consume, Stream.consume, List.length_drop]
      omega
  next hbroken =>
    rw [if_neg fun hdone => hbroken (hend.mpr hdone), h.1]
    exact ⟨rfl, h.2⟩

end RecvPlainState

theorem discardLoop_eq (s : RecvPlainState O) :
    discardLoop s =
      match s.next 1024 with
      | (.error err, s') => (.error err, s')
      | (.ok [], s') => (.ok [], s'.consume 0)
      | (.ok (b :: bs), s') =>
        let result := discardLoop (s'.consume (b :: bs).length)
        (result.1.map (b :: bs ++ ·), result.2) := by
  rw [discardLoop]
  split
  next hnext => rw [hnext]
  next hnext => rw [hnext]
  next hnext =>
    rw [hnext]
    dsimp only
    split
    next hrest => rw [hrest]; rfl
    next hrest => rw [hrest]; rfl

theorem BufferCopies.drained {s : RecvPlainState O}
    {result : Except HttpError (List UInt8) × RecvPlainState O} (h : BufferCopies s result) :
    Drained s result := by
  induction h with
  | @error s s' ask err hnext =>
      obtain ⟨heq, -⟩ | ⟨heq, hne, hbytes, hbreaks⟩ | ⟨b, bs, heq, -⟩ :=
        s.next_cases (Nat.succ_pos ask)
      · cases hnext.symm.trans heq
      · cases hnext.symm.trans heq
        exact s.drained_error hne hbytes hbreaks
      · cases hnext.symm.trans heq
  | @done s s' ask hnext =>
      obtain ⟨heq, hdone⟩ | ⟨heq, -⟩ | ⟨b, bs, heq, -⟩ := s.next_cases (Nat.succ_pos ask)
      · cases hnext.symm.trans heq
        exact s.drained_done hdone s.strm
      · cases hnext.symm.trans heq
      · cases hnext.symm.trans heq
  | @part s s' ask room b bs result hnext _ ih =>
      obtain ⟨heq, -⟩ | ⟨heq, -⟩ | ⟨b', bs', heq, hpart, hlen⟩ := s.next_cases (Nat.succ_pos ask)
      · cases hnext.symm.trans heq
      · cases hnext.symm.trans heq
      · cases hnext.symm.trans heq
        have htake := List.take_prefix (room + 1) (b :: bs)
        exact s.drained_part (htake.trans hpart) (htake.length_le.trans hlen) ih

theorem discardLoop_drained (s : RecvPlainState O) : Drained s (discardLoop s) := by
  induction hsize : s.size using Nat.strongRecOn generalizing s with
  | ind size ih =>
      subst hsize
      rw [discardLoop_eq]
      obtain ⟨hnext, hdone⟩ | ⟨hnext, hne, hbytes, hbreaks⟩ | ⟨b, bs, hnext, hpart, hlen⟩ :=
        s.next_cases (Nat.succ_pos 1023)
      · rw [hnext]
        exact s.drained_done hdone _
      · rw [hnext]
        exact s.drained_error hne hbytes hbreaks
      · rw [hnext]
        refine s.drained_part hpart hlen (ih _ ?_ _ rfl)
        simp only [RecvPlainState.consume, List.length_cons] at hlen ⊢
        omega

/-! ## Truncated bodies -/

/-- The call returns with the whole body or fails, and after a body that is too
short the connection does not go back to the pool. -/
structure ReadsWhole (n : Nat) (strm : Stream)
    (result : Except HttpFailure (List UInt8) × Client O) : Prop where
  whole : ∀ data, result.1 = .ok data → data = strm.bytes.take n ∧ data.length = n
  truncated : strm.bytes.length < n →
    (∃ err, result.1 = .error (.exception err)) ∧
      ∀ uncaught pool, (exec (destroy result.2 uncaught) pool).2 = pool

namespace Client

variable {loop : RecvPlainState O → Except HttpError (List UInt8) × RecvPlainState O}
  {r : ResponseInfo} {n : Nat} {c : Client O}

theorem exec_makeBodyReader_plain (hplain : r.Plain n) (hstate : c.impl.state = .recvdRespHead) :
    exec (makeBodyReader r) c = (.ok .stream, c) := by
  have hzero : r.contentLength ≠ some 0 := by
    rw [hplain.contentLength]
    have := hplain.pos
    simp only [ne_eq, Option.some.injEq]
    omega
  have hlength : r.transferEncoding = none ∧ 0 < r.contentLength.getD 0 := by
    refine ⟨hplain.transferEncoding, ?_⟩
    rw [hplain.contentLength, Option.getD_some]
    exact Int.natCast_pos.mpr hplain.pos
  unfold makeBodyReader
  rw [exec_bind, exec_get]
  dsimp only
  rw [if_neg (not_not_intro hstate), if_neg (by simp [hplain.bodyless]), if_neg hzero,
    if_neg (by simp [hlength.1]), if_neg (by simp [hlength.1]), if_pos hlength]
  rfl

/-- What a loop that drains the body makes of a response. -/
theorem readPlainBody_cases (hloop : ∀ s, Drained s (loop s)) (hplain : r.Plain n) (strm : Stream)
    (hstate : c.impl.state = .recvdRespHead) :
    if n ≤ strm.bytes.length ∨ strm.breaks = false then
      readPlainBody loop c r strm = (.ok (strm.bytes.take n), { c with
        impl := { c.impl with state := .ready, unread := n - strm.bytes.length ≠ 0 } })
    else readPlainBody loop c r strm = (.error (.exception .io), c) := by
  have hsize : (r.contentLength.getD 0).toNat = n := by rw [hplain.contentLength]; rfl
  have hdrained := hloop ⟨strm, n, c.impl⟩
  unfold readPlainBody Drained at *
  rw [exec_makeBodyReader_plain hplain hstate, hsize]
  dsimp only at hdrained ⊢
  generalize loop ⟨strm, n, c.impl⟩ = result at hdrained ⊢
  obtain ⟨res, s⟩ := result
  dsimp only at hdrained
  split at hdrained
  next hend =>
    rw [if_pos hend]
    obtain ⟨rfl, hleft, himpl⟩ := hdrained
    dsimp only
    rw [hleft, himpl]
  next hbroken =>
    rw [if_neg hbroken]
    obtain ⟨rfl, himpl⟩ := hdrained
    dsimp only
    rw [himpl]

theorem readsWhole_of_drained (hloop : ∀ s, Drained s (loop s)) (hplain : r.Plain n)
    (strm : Stream) (hstate : c.impl.state = .recvdRespHead) :
    ReadsWhole n strm (readPlainBody loop c r strm) ↔
      n ≤ strm.bytes.length ∨ strm.breaks = true := by
  have hcases := readPlainBody_cases hloop hplain strm hstate
  split at hcases
  next hend =>
    rw [hcases]
    constructor
    · intro h
      -- nothing is returned but all the bytes
      have hlen := (h.whole _ rfl).2
      rw [List.length_take] at hlen
      exact .inl (by omega)
    · intro h
      have hlen : n ≤ strm.bytes.length := by
        rcases h with h | h
        · exact h
        · exact hend.resolve_right (by simp [h])
      refine ⟨?_, fun hshort => absurd hlen (by omega)⟩
      rintro data ⟨⟩
      exact ⟨rfl, by rw [List.length_take]; omega⟩
  next hbroken =>
    rw [not_or, Bool.not_eq_false] at hbroken
    refine iff_of_true ?_ (.inr hbroken.2)
    rw [hcases]
    refine ⟨nofun, fun _ => ⟨⟨_, rfl⟩, fun uncaught pool => ?_⟩⟩
    unfold destroy
    split
    · rfl
    · rw [if_pos (by simp [hstate])]
      rfl

/-- The loops read a body as the pool has it. -/
theorem readPlainBody_refines (hloop : ∀ s, Drained s (loop s)) (hplain : r.Plain n)
    (strm : Stream) (hstate : c.impl.state = .recvdRespHead) (hunread : c.impl.unread = true)
    (ex : Exchange) (hbody : ex.body = strm.bodyEnd n) :
    exec (readBody r ex) c =
      ((readPlainBody loop c r strm).1.map fun _ => (), (readPlainBody loop c r strm).2) := by
  have hcases := readPlainBody_cases hloop hplain strm hstate
  unfold readBody
  rw [exec_bind, exec_makeBodyReader_plain hplain hstate, hbody, Stream.bodyEnd]
  dsimp only
  by_cases hlen : n ≤ strm.bytes.length
  · rw [if_pos (.inl hlen)] at hcases
    rw [hcases]
    simp [hlen, modifyImpl, setReady, exec_bind, Except.map]
  · cases hbreaks : strm.breaks with
    | true =>
        rw [if_neg (by simp [hlen, hbreaks])] at hcases
        rw [hcases]
        simp [hlen, Except.map]
    | false =>
        rw [if_pos (.inr hbreaks)] at hcases
        rw [hcases]
        have hleft : n - strm.bytes.length ≠ 0 := by omega
        obtain ⟨impl, nExceptions⟩ := c
        obtain ⟨origin, state, peerDisconnected, unread⟩ := impl
        cases hunread
        simp [hlen, hleft, modifyImpl, setReady, Except.map]

end Client

/-- A plain body is read whole, or the reading fails, if and only if the peer does
not end the stream before the end of the body. -/
theorem plainBody_readsWhole_iff
    {copy : RecvPlainState O → Except HttpError (List UInt8) × RecvPlainState O}
    (hcopy : ∀ s, BufferCopies s (copy s)) {r : ResponseInfo} {n : Nat}
    (hplain : r.Plain n) (strm : Stream) {c : Client O} (hstate : c.impl.state = .recvdRespHead) :
    (ReadsWhole n strm (c.recvBodyInto copy r strm) ↔
      n ≤ strm.bytes.length ∨ strm.breaks = true) ∧
    (ReadsWhole n strm (c.discardBody r strm) ↔
      n ≤ strm.bytes.length ∨ strm.breaks = true) :=
  ⟨Client.readsWhole_of_drained (fun s => (hcopy s).drained) hplain strm hstate,
    Client.readsWhole_of_drained discardLoop_drained hplain strm hstate⟩

/-! ### A body of two bytes -/

section

def twoBytes : ResponseInfo := { status := 200, contentLengthHeader := some "2" }

theorem plain_twoBytes : twoBytes.Plain 2 where
  bodyless := by decide
  transferEncoding := rfl
  contentLength := by decide
  pos := by decide

def waitingClient : Client String := ⟨{ origin := "http://foo", state := .recvdRespHead }, 0⟩

theorem plainBody_readsWhole_iff_twoBytes :
    (ReadsWhole 2 ⟨[0, 1], false, fun _ => 0⟩
        (waitingClient.recvBodyInto (bufferCopy (fun _ => 0) (fun _ => 0) 0) twoBytes
          ⟨[0, 1], false, fun _ => 0⟩) ↔
      2 ≤ [0, 1].length ∨ false = true) ∧
    (ReadsWhole 2 ⟨[0, 1], false, fun _ => 0⟩
        (waitingClient.discardBody twoBytes ⟨[0, 1], false, fun _ => 0⟩) ↔
      2 ≤ [0, 1].length ∨ false = true) :=
  plainBody_readsWhole_iff (bufferCopy_copies (fun _ => 0) (fun _ => 0) 0) plain_twoBytes
    ⟨[0, 1], false, fun _ => 0⟩ rfl

/-- The stream ends after one of two bytes. The byte is taken for the body, and the
connection goes back to the pool. -/
theorem truncated_body_returned :
    ¬ ReadsWhole 2 ⟨[0], false, fun _ => 0⟩
        (waitingClient.recvBodyInto (bufferCopy (fun _ => 0) (fun _ => 0) 0) twoBytes
          ⟨[0], false, fun _ => 0⟩) ∧
      ¬ ReadsWhole 2 ⟨[0], false, fun _ => 0⟩
        (waitingClient.discardBody twoBytes ⟨[0], false, fun _ => 0⟩) := by
  have hends : ¬ (2 ≤ [(0 : UInt8)].length ∨ false = true) := by decide
  have hcopy := fun s : RecvPlainState String =>
    (bufferCopy_copies (fun _ => 0) (fun _ => 0) 0 s).drained
  constructor
  · exact fun h => hends ((Client.readsWhole_of_drained hcopy plain_twoBytes _ rfl).mp h)
  · exact fun h => hends ((Client.readsWhole_of_drained discardLoop_drained plain_twoBytes
      _ rfl).mp h)

end

end Bpt.Http
