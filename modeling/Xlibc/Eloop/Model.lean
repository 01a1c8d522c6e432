import Xlibc.Eloop.SignalTable
import Xlibc.Eloop.Sock
import Xlibc.Eloop.Timeout

/-!
# Xlibc.Eloop.Model

The event loop of `eloop.c`, with everything that may come between its steps. `eloop_run` is cut into
steps at the places where a signal makes a difference: a signal may arrive before every step, and its
handler runs as one. The functions that the application calls, outside of `eloop_run` or in the handlers
that `eloop_run` calls, are one step each.

* `Call`     : the calls of the application.
* `Control`  : where `eloop_run` is.
* `System.advance` : its next step, by what the clock and `epoll_wait` give.
* `Allowed`  : what the kernel, the clock, the allocator and the application may do.
-/

namespace Xlibc
namespace Eloop

/-- `EINTR` -/
def EINTR : Nat := 4

variable {H : Type}

/-! ## The loop -/

/-- Where `eloop_run` has called `eloop_process_pending_signals`: at its head, or behind `epoll_wait`, which has
reported events. -/
inductive Pass where
  | early
  | late (events : List Nat)
  deriving DecidableEq

/-- What a handler returns to. -/
inductive Return (H : Type) where
  | signal (p : Pass) (i : Nat)
  | timeout (x : EloopTimeout H) (events : List Nat)
  | sock (x : EloopSock H) (events : List Nat)
  deriving DecidableEq

/-- Where `eloop_run` is. `outside` is the application. -/
inductive Control (H : Type) where
  | outside
  | top
  | wait
  | process (p : Pass)
  | reset (p : Pass)
  | unpend (p : Pass)
  | scan (p : Pass) (i : Nat)
  | clear (p : Pass) (i : Nat)
  | timers (events : List Nat)
  | dispatch (events : List Nat)
  | handler (back : Return H)
  deriving DecidableEq

/-- What the clock and `epoll_wait` give in one step; an error is that of `errno`. -/
structure Input where
  now : OsReltime
  epoll : Except Nat (List Nat)

/-- The functions of `eloop.h`, and `close`, as the application calls them. -/
inductive Call (H : Type) where
  | registerTimeout (block : Option Nat) (clock : Option OsReltime) (secs usecs : Nat) (handler : H)
      (eloopData userData : Nat)
  | cancelTimeout (handler : H) (eloopData userData : Nat)
  | cancelTimeoutOne (now : OsReltime) (handler : H) (eloopData userData : Nat)
  | depleteTimeout (now : OsReltime) (block : Option Nat) (clock : Option OsReltime) (reqSecs reqUsecs : Nat)
      (handler : H) (eloopData userData : Nat)
  | replenishTimeout (now : OsReltime) (block : Option Nat) (clock : Option OsReltime) (reqSecs reqUsecs : Nat)
      (handler : H) (eloopData userData : Nat)
  | registerSock (sock : Nat) (type : EventType) (handler : H) (eloopData userData : Nat) (env : SockEnv)
  | unregisterSock (sock : Nat) (type : EventType) (ctl : Bool)
  | close (sock : Nat)
  | registerSignal (sig : Nat) (handler : H) (userData : Nat) (success : Bool) (early late : List Nat)
  | terminate

inductive Event (H : Type) where
  | signal (sig : Nat)
  | call (c : Call H)
  | run
  | advance (i : Input)
  | ret

/-- `struct eloop_data` with `timeout_ms` of `eloop_run` and the place where this is. `clock` is the last reading
of the clock, `seen` the sockets registered when `epoll_wait` last returned; `waits` and `returns` count
the calls of `epoll_wait` and the returns of `eloop_run`. No function reads these four. -/
structure System (H : Type) where
  timeouts : Timeouts H
  socks : Socks H
  signals : Signals H
  terminate : Bool
  timeoutMs : Int
  control : Control H
  clock : OsReltime
  seen : List (EloopSock H)
  waits : Nat
  returns : Nat

/-- The `int` of `timeout_ms`. -/
def i32OfInt (z : Int) : Int := Int.bmod z (2 ^ 32)

/-- `timeout_ms` for the first timeout, which is due at `time`. -/
def waitMs (time now : OsReltime) : Option Int :=
  let tv : OsReltime := if osReltimeBefore now time then osReltimeSub time now else ⟨0, 0⟩
  if tv.sec * 1000 + tv.usec / 1000 ≤ longMax then some (i32OfInt (tv.sec * 1000 + tv.usec / 1000)) else none

namespace System

/-- `eloop_init` -/
def init (clock : OsReltime) : System H :=
  { timeouts := initTimeouts, socks := initSocks, signals := initSignals, terminate := false, timeoutMs := -1,
    control := .outside, clock := clock, seen := [], waits := 0, returns := 0 }

/-- The end of `eloop_run`, `eloop.terminate = 0` included. -/
def leave (s : System H) : System H :=
  { s with terminate := false, control := .outside, returns := s.returns + 1 }

/-- The head of the loop. -/
def top (s : System H) : Option (System H) := do
  let empty ← dlListEmpty s.timeouts.links .head
  let busy := !empty || s.socks.readers.table.length > 0 || s.socks.writers.table.length > 0 ||
    s.socks.exceptions.table.length > 0
  if !s.terminate && busy then
    if s.signals.pendingTerminate then some { s with control := .process .early } else some { s with control := .wait }
  else some s.leave

/-- `eloop_process_pending_signals` returns. -/
def processed (s : System H) : Pass → System H
  | .early => if s.terminate then s.leave else { s with control := .wait }
  | .late events => { s with control := .timers events }

/-- The round of `eloop_process_pending_signals` for the entry at `i`, up to its test. -/
def scan (s : System H) (p : Pass) (i : Nat) : System H :=
  match s.signals.signals[i]? with
  | none => s.processed p
  | some x => { s with control := if x.signaled ≠ 0 then .clear p i else .scan p (i + 1) }

/-- `timeout_ms` for the next `epoll_wait`; without a timeout it stays what it was. -/
def nextTimeoutMs (s : System H) (now : OsReltime) : Option Int := do
  match ← s.timeouts.firstTimeout with
  | none => some s.timeoutMs
  | some (_, x) => waitMs x.time now

/-- `epoll_wait` has reported `events`. -/
def reported (s : System H) (events : List Nat) : System H :=
  { s with socks := s.socks.clearChanged, seen := s.socks.all, control := .process (.late events) }

/-- `epoll_wait`, unless no socket is registered; an error other than `EINTR` ends `eloop_run`. -/
def poll (s : System H) (epoll : Except Nat (List Nat)) : System H :=
  if s.socks.count = 0 then s.reported []
  else match epoll with
    | .ok events => s.reported events
    | .error errno =>
      if errno ≠ EINTR ∧ errno ≠ 0 then { s with control := .outside, returns := s.returns + 1 }
        else s.reported []

/-- From the clock through `epoll_wait`. -/
def wait (s : System H) (i : Input) : Option (System H) := do
  let timeoutMs ← s.nextTimeoutMs i.now
  some (poll { s with timeoutMs := timeoutMs, clock := i.now, waits := s.waits + 1 } i.epoll)

/-- Behind the timeouts: the sockets with events, unless a table has changed. -/
def behindTimers (s : System H) (events : List Nat) : System H :=
  { s with control := if events = [] ∨ s.socks.changed = true then .top else .dispatch events }

def timers (s : System H) (events : List Nat) (i : Input) : Option (System H) := do
  let (x, timeouts) ← s.timeouts.takeExpired i.now
  let s := { s with timeouts := timeouts, clock := i.now }
  match x with
  | none => some (s.behindTimers events)
  | some x => some { s with control := .handler (.timeout x events) }

/-- A round of `eloop_sock_table_dispatch`, up to its handler. -/
def dispatch (s : System H) : List Nat → Option (System H)
  | [] => some { s with control := .top }
  | fd :: events => do
    let x ← (← s.socks.fdTable[fd]?)
    if x.handler.isNone then some { s with control := .dispatch events }
    else some { s with control := .handler (.sock x events) }

/-- The next step of `eloop_run`. -/
def advance (s : System H) (i : Input) : Option (System H) :=
  match s.control with
  | .top => s.top
  | .wait => s.wait i
  | .process p => some (if s.signals.signaled = 0 then s.processed p else { s with control := .reset p })
  | .reset p => some { s with signals := { s.signals with signaled := 0 }, control := .unpend p }
  | .unpend p => some { s with signals := { s.signals with pendingTerminate := false }, control := .scan p 0 }
  | .scan p j => some (s.scan p j)
  | .clear p j => some { s with signals := s.signals.takeSignal j, control := .handler (.signal p j) }
  | .timers events => s.timers events i
  | .dispatch events => s.dispatch events
  | .outside | .handler _ => none

/-- The handler returns. -/
def ret (s : System H) : Option (System H) :=
  match s.control with
  | .handler (.signal p i) => some { s with control := .scan p (i + 1) }
  | .handler (.timeout _ events) => some (s.behindTimers events)
  | .handler (.sock _ events) => some { s with control := if s.socks.changed then .top else .dispatch events }
  | _ => none

variable [DecidableEq H]

def call (s : System H) : Call H → Option (System H)
  | .registerTimeout block clock secs usecs handler eloopData userData => do
    let (_, t) ← s.timeouts.registerTimeout block clock secs usecs handler eloopData userData
    some { s with timeouts := t, clock := clock.getD s.clock }
  | .cancelTimeout handler eloopData userData => do
    let (_, t) ← s.timeouts.cancelTimeout handler eloopData userData
    some { s with timeouts := t }
  | .cancelTimeoutOne now handler eloopData userData => do
    let (_, t) ← s.timeouts.cancelTimeoutOne now handler eloopData userData
    some { s with timeouts := t, clock := now }
  | .depleteTimeout now block clock reqSecs reqUsecs handler eloopData userData => do
    let (_, t) ← s.timeouts.depleteTimeout now block clock reqSecs reqUsecs handler eloopData userData
    some { s with timeouts := t, clock := clock.getD now }
  | .replenishTimeout now block clock reqSecs reqUsecs handler eloopData userData => do
    let (_, t) ← s.timeouts.replenishTimeout now block clock reqSecs reqUsecs handler eloopData userData
    some { s with timeouts := t, clock := clock.getD now }
  | .registerSock sock type handler eloopData userData env => do
    let (_, socks) ← s.socks.addSock type sock handler eloopData userData env
    some { s with socks := socks }
  | .unregisterSock sock type ctl => do
    let socks ← s.socks.removeSock type sock ctl
    some { s with socks := socks }
  | .close sock => some { s with socks := { s.socks with interest := s.socks.interest.erase sock } }
  | .registerSignal sig handler userData success early late => do
    let (_, signals) ← s.signals.registerSignal sig handler userData success early late
    some { s with signals := signals }
  | .terminate => some { s with terminate := true }

def exec (s : System H) : Event H → Option (System H)
  | .signal sig => do
    let signals ← s.signals.handleSignal sig
    some { s with signals := signals }
  | .call c => s.call c
  | .run => some { s with timeoutMs := -1, control := .top }
  | .advance i => s.advance i
  | .ret => s.ret

end System

end Eloop
end Xlibc
