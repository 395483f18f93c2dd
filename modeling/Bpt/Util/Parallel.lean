-- SUMMARY: The workers that share a range under a mutex, as the steps that each of them and the main thread make.
import Bpt.Base.Lts

/-!
# Parallel runs

`parallel_run` starts its workers while it holds the mutex, lets them go and waits for all of
them. A worker holds the mutex while it looks at what is shared: the exceptions, and the
iterator into the range.
-/

namespace Bpt.Parallel

open Lts

/-- What is thrown, as `log_exception` tells it apart. -/
inductive Exn where
  | userCancelled
  | std (what : String)
  /-- Not derived from `std::exception`. -/
  | other
  deriving DecidableEq

/-- What a call on an item may end with: an exception, or none. Every call ends. -/
structure Func (α : Type) where
  ends : α → Option Exn → Prop
  exists_ends : ∀ item, ∃ thrown, ends item thrown

/-- What the threads share. The iterator is a position in the range. -/
structure Shared where
  locked : Bool
  iter : Nat
  exceptions : List Exn

/-- Where a worker is in `run_one`. -/
inductive Pc where
  | lock
  | checkExceptions
  | checkStop
  | deref
  | advance (item : Nat)
  | unlock (item : Nat)
  | call (item : Nat)
  | running (item : Nat)
  /-- In the handler, with the exception in flight. -/
  | relock (e : Exn)
  | record (e : Exn)
  /-- At a `break`, which leaves the scope of the lock. -/
  | leave
  | ended
  deriving DecidableEq

inductive MainPc where
  | spawn
  | join
  /-- At the exception `k` of the loop that logs them. -/
  | log (k : Nat)
  | returned (result : Bool)
  | terminated
  deriving DecidableEq

structure State extends Shared where
  workers : List Pc
  main : MainPc

/-- What is seen of a step from outside. -/
inductive Event where
  | internal
  | take (item : Nat)
  | call (item : Nat)
  | returns (item : Nat)
  | throws (item : Nat) (e : Exn)
  | record (e : Exn)
  deriving DecidableEq

variable {α : Type}

/-- A step of one worker. -/
inductive RunOne (items : List α) (fn : Func α) : Shared → Pc → Event → Shared → Pc → Prop where
  | acquire {sh : Shared} : sh.locked = false →
      RunOne items fn sh .lock .internal { sh with locked := true } .checkExceptions
  | someException {sh : Shared} : sh.exceptions ≠ [] →
      RunOne items fn sh .checkExceptions .internal sh .leave
  | noException {sh : Shared} : sh.exceptions = [] →
      RunOne items fn sh .checkExceptions .internal sh .checkStop
  | stop {sh : Shared} : sh.iter = items.length →
      RunOne items fn sh .checkStop .internal sh .leave
  | notStop {sh : Shared} : sh.iter ≠ items.length →
      RunOne items fn sh .checkStop .internal sh .deref
  | deref {sh : Shared} : RunOne items fn sh .deref .internal sh (.advance sh.iter)
  | advance {sh : Shared} {i : Nat} :
      RunOne items fn sh (.advance i) (.take i) { sh with iter := sh.iter + 1 } (.unlock i)
  | unlock {sh : Shared} {i : Nat} :
      RunOne items fn sh (.unlock i) .internal { sh with locked := false } (.call i)
  | call {sh : Shared} {i : Nat} : RunOne items fn sh (.call i) (.call i) sh (.running i)
  | returns {sh : Shared} {i : Nat} {item : α} : items[i]? = some item → fn.ends item none →
      RunOne items fn sh (.running i) (.returns i) sh .lock
  | throws {sh : Shared} {i : Nat} {item : α} {e : Exn} : items[i]? = some item →
      fn.ends item (some e) → RunOne items fn sh (.running i) (.throws i e) sh (.relock e)
  | relock {sh : Shared} {e : Exn} : sh.locked = false →
      RunOne items fn sh (.relock e) .internal { sh with locked := true } (.record e)
  | record {sh : Shared} {e : Exn} :
      RunOne items fn sh (.record e) (.record e)
        { sh with exceptions := sh.exceptions ++ [e] } .leave
  | leave {sh : Shared} :
      RunOne items fn sh .leave .internal { sh with locked := false } .ended

/-- A step of the main thread, with `n` workers to start. -/
inductive RunMain (n : Nat) : State → State → Prop where
  | spawn {s : State} : s.main = .spawn → s.workers.length < n →
      RunMain n s { s with workers := s.workers ++ [.lock] }
  | unlock {s : State} : s.main = .spawn → s.workers.length = n →
      RunMain n s { s with locked := false, main := .join }
  | join {s : State} : s.main = .join → (∀ pc ∈ s.workers, pc = .ended) →
      RunMain n s { s with main := .log 0 }
  | log {s : State} {k : Nat} {e : Exn} : s.main = .log k → s.exceptions[k]? = some e →
      e ≠ .other → RunMain n s { s with main := .log (k + 1) }
  -- what is rethrown is not caught, and leaves a function that is `noexcept`
  | logOther {s : State} {k : Nat} : s.main = .log k → s.exceptions[k]? = some .other →
      RunMain n s { s with main := .terminated }
  | return_ {s : State} {k : Nat} : s.main = .log k → s.exceptions.length = k →
      RunMain n s { s with main := .returned s.exceptions.isEmpty }

/-- A step of one of the threads. -/
inductive Step (items : List α) (fn : Func α) (n : Nat) : State → Event → State → Prop where
  | worker {s : State} {pc pc' : Pc} {e : Event} {sh : Shared} {workers : List Pc} :
      RunOne items fn s.toShared pc e sh pc' → Moves pc pc' s.workers workers →
      Step items fn n s e ⟨sh, workers, s.main⟩
  | main {s s' : State} : RunMain n s s' → Step items fn n s .internal s'

/-- The main thread holds the mutex, and no worker has been started. -/
def start : State where
  locked := true
  iter := 0
  exceptions := []
  workers := []
  main := .spawn

/-- The number of workers. -/
def jobs (nJobs : Int) (hardwareConcurrency : Nat) : Nat :=
  if nJobs < 1 then hardwareConcurrency + 2 else nJobs.toNat

theorem jobs_pos (nJobs : Int) (hardwareConcurrency : Nat) : 0 < jobs nJobs hardwareConcurrency := by
  unfold jobs
  split <;> omega

end Bpt.Parallel
