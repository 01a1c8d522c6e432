import Xlibc.Base.CInt
import Xlibc.Base.Chain
import Xlibc.Eloop.DlList

/-!
# Xlibc.Eloop.Timeout

The timeouts of `eloop.c`: blocks linked into a circular list in the order of their times. `none` is
undefined behaviour, an access outside of the allocated blocks or the overflow of a `long`, of 64 bits.
A clock that was read, and an address `os_zalloc` returned, are arguments; `none` is their failure.

* `OsReltime`  : times, and the arithmetic of `os.h` and of `eloop_register_timeout` on them.
* `Timeouts`   : the memory of the timeouts, and what has happened to them.
* `registerTimeout`, `cancelTimeout`, `cancelTimeoutOne`, `isTimeoutRegistered`, `depleteTimeout`,
  `replenishTimeout` : the functions on them, and `takeExpired`, the part of `eloop_run`.
-/

namespace Xlibc
namespace Eloop

open Xqueue

/-! ## Time -/

/-- `struct os_reltime` -/
structure OsReltime where
  sec : Int
  usec : Int
  deriving DecidableEq, Repr

def osReltimeBefore (a b : OsReltime) : Bool := a.sec < b.sec || (a.sec == b.sec && a.usec < b.usec)

def osReltimeSub (a b : OsReltime) : OsReltime :=
  let res : OsReltime := ⟨a.sec - b.sec, a.usec - b.usec⟩
  if res.usec < 0 then ⟨res.sec - 1, res.usec + 1000000⟩ else res

/-- `LONG_MAX` -/
def longMax : Int := 2 ^ 63 - 1

/-- The sum of two numbers that are not negative, as a `long`. -/
def addLong (a b : Int) : Option Int := if a + b ≤ longMax then some (a + b) else none

/-- `while(timeout->time.usec >= 1000000)`; every round takes from `usec`, so `usec` rounds are enough. -/
def carry : Nat → OsReltime → OsReltime
  | 0, time => time
  | n + 1, time => if time.usec ≥ 1000000 then carry n ⟨time.sec + 1, time.usec - 1000000⟩ else time

/-- `eloop_register_timeout`: the time of the new timeout, unless its seconds overflow. -/
def timeoutTime (now : OsReltime) (secs usecs : Nat) : Option (Option OsReltime) := do
  let sec ← addLong now.sec secs
  if sec < now.sec then some none
  else do
    let usec ← addLong now.usec usecs
    let time := carry usec.toNat ⟨sec, usec⟩
    if time.sec ≤ longMax then some (some time) else none

/-! ## The code -/

/-- A `dl_list`: that of `eloop`, or that of the timeout at an address. -/
inductive Ptr where
  | head
  | timeout (a : Nat)
  deriving DecidableEq, Repr

/-- `struct eloop_timeout` without its links. Handlers are of any type. `serial` counts the registrations,
and no function reads it. -/
structure EloopTimeout (H : Type) where
  time : OsReltime
  eloopData : Nat
  userData : Nat
  handler : H
  serial : Nat
  deriving DecidableEq

/-- What has happened to a timeout. -/
inductive Act (H : Type) where
  | registered (x : EloopTimeout H)
  | cancelled (x : EloopTimeout H)
  | fired (x : EloopTimeout H) (now : OsReltime)

/-- The memory of the timeouts. `log` records what has happened to them, and no function reads it. -/
structure Timeouts (H : Type) where
  links : Links Ptr
  blocks : Store (EloopTimeout H)
  log : List (Act H)

/-- `ELOOP_ALL_CTX` -/
def eloopAllCtx : Nat := 2 ^ 64 - 1

variable {H : Type}

def registered (log : List (Act H)) : List (EloopTimeout H) :=
  log.filterMap fun act => match act with
    | .registered x => some x
    | _ => none

/-- `eloop_init`, the timeouts -/
def initTimeouts : Timeouts H := { links := dlListInit ∅ .head, blocks := ∅, log := [] }

namespace Timeouts

variable [DecidableEq H]

/-- The block at `a`, cleared and filled. -/
def newTimeout (t : Timeouts H) (a : Nat) (x : EloopTimeout H) : Timeouts H :=
  { t with links := t.links.insert (.timeout a) { next := none, prev := none }, blocks := t.blocks.insert a x }

/-- `dl_list_for_each` of `eloop_register_timeout`: before the first later timeout, or at the end. -/
def linkTimeout (t : Timeouts H) (a : Nat) (time : OsReltime) : Nat → Ptr → Option (Links Ptr)
  | _, .head => dlListAddTail t.links .head (.timeout a)
  | 0, .timeout _ => none
  | fuel + 1, .timeout b => do
    let tmp ← t.blocks.lookup b
    if osReltimeBefore time tmp.time then dlListAdd t.links (← prevOf t.links (.timeout b)) (.timeout a)
    else linkTimeout t a time fuel (← nextOf t.links (.timeout b))

/-- `eloop_register_timeout`: the block at `a`, filled and linked. -/
def addTimeout (t : Timeouts H) (a : Nat) (x : EloopTimeout H) : Option (Timeouts H) := do
  let t := t.newTimeout a x
  let links ← linkTimeout t a x.time t.blocks.entries.length (← nextOf t.links .head)
  some { t with links := links, log := t.log ++ [.registered x] }

def registerTimeout (t : Timeouts H) (block : Option Nat) (clock : Option OsReltime) (secs usecs : Nat) (handler : H)
    (eloopData userData : Nat) : Option (Int × Timeouts H) :=
  match block, clock with
  | some a, some now => do
    match ← timeoutTime now secs usecs with
    | none => some (0, t)
    | some time =>
      let t ← t.addTimeout a ⟨time, eloopData, userData, handler, (registered t.log).length⟩
      some (0, t)
  | _, _ => some (-1, t)

/-- `eloop_remove_timeout` -/
def removeTimeout (t : Timeouts H) (a : Nat) : Option (Timeouts H) := do
  let links ← dlListDel t.links (.timeout a)
  some { t with links := links.erase (.timeout a), blocks := t.blocks.erase a }

/-- `dl_list_for_each_safe` of `eloop_cancel_timeout` -/
def cancelLoop (cond : EloopTimeout H → Bool) : Nat → Ptr → Ptr → Int → Timeouts H →
    Option (Int × Timeouts H)
  | _, .head, _, removed, t => some (removed, t)
  | 0, .timeout _, _, _, _ => none
  | fuel + 1, .timeout a, next, removed, t => do
    let x ← t.blocks.lookup a
    if cond x then do
      let t ← t.removeTimeout a
      let t := { t with log := t.log ++ [.cancelled x] }
      cancelLoop cond fuel next (← nextOf t.links next) (removed + 1) t
    else cancelLoop cond fuel next (← nextOf t.links next) removed t

/-- The comparison of `eloop_cancel_timeout`. -/
def isCancelled (handler : H) (eloopData userData : Nat) (x : EloopTimeout H) : Bool :=
  x.handler == handler && (x.eloopData == eloopData || eloopData == eloopAllCtx) &&
    (x.userData == userData || userData == eloopAllCtx)

def cancelTimeout (t : Timeouts H) (handler : H) (eloopData userData : Nat) : Option (Int × Timeouts H) := do
  let timeout ← nextOf t.links .head
  let next ← nextOf t.links timeout
  cancelLoop (isCancelled handler eloopData userData) t.blocks.entries.length timeout next 0 t

/-- The comparison of the other functions. -/
def isSame (handler : H) (eloopData userData : Nat) (x : EloopTimeout H) : Bool :=
  x.handler == handler && x.eloopData == eloopData && x.userData == userData

/-- A loop over the timeouts up to the first match. -/
def findTimeout (t : Timeouts H) (cond : EloopTimeout H → Bool) : Nat → Ptr →
    Option (Option (Nat × EloopTimeout H))
  | _, .head => some none
  | 0, .timeout _ => none
  | fuel + 1, .timeout a => do
    let x ← t.blocks.lookup a
    if cond x then some (some (a, x)) else findTimeout t cond fuel (← nextOf t.links (.timeout a))

def find (t : Timeouts H) (cond : EloopTimeout H → Bool) : Option (Option (Nat × EloopTimeout H)) := do
  findTimeout t cond t.blocks.entries.length (← nextOf t.links .head)

/-- `eloop_cancel_timeout_one`, with the time left -/
def cancelTimeoutOne (t : Timeouts H) (now : OsReltime) (handler : H) (eloopData userData : Nat) :
    Option ((Int × OsReltime) × Timeouts H) := do
  match ← t.find (isSame handler eloopData userData) with
  | none => some ((0, ⟨0, 0⟩), t)
  | some (a, x) =>
    let remaining := if osReltimeBefore now x.time then osReltimeSub x.time now else ⟨0, 0⟩
    let t ← t.removeTimeout a
    some ((1, remaining), { t with log := t.log ++ [.cancelled x] })

def isTimeoutRegistered (t : Timeouts H) (handler : H) (eloopData userData : Nat) : Option Int := do
  match ← t.find (isSame handler eloopData userData) with
  | none => some 0
  | some _ => some 1

/-- `eloop_deplete_timeout` and `eloop_replenish_timeout`; `now` is the clock of the comparison, `block` and
`clock` are those of the new registration. -/
def changeTimeout (change : OsReltime → OsReltime → Bool) (t : Timeouts H) (now : OsReltime) (block : Option Nat)
    (clock : Option OsReltime) (reqSecs reqUsecs : Nat) (handler : H) (eloopData userData : Nat) :
    Option (Int × Timeouts H) := do
  match ← t.find (isSame handler eloopData userData) with
  | none => some (-1, t)
  | some (_, x) =>
    let requested : OsReltime := ⟨reqSecs, reqUsecs⟩
    if change requested (osReltimeSub x.time now) then do
      let (_, t) ← t.cancelTimeout handler eloopData userData
      let (_, t) ← t.registerTimeout block clock reqSecs reqUsecs handler eloopData userData
      some (1, t)
    else some (0, t)

def depleteTimeout (t : Timeouts H) (now : OsReltime) (block : Option Nat) (clock : Option OsReltime)
    (reqSecs reqUsecs : Nat) (handler : H) (eloopData userData : Nat) : Option (Int × Timeouts H) :=
  changeTimeout osReltimeBefore t now block clock reqSecs reqUsecs handler eloopData userData

def replenishTimeout (t : Timeouts H) (now : OsReltime) (block : Option Nat) (clock : Option OsReltime)
    (reqSecs reqUsecs : Nat) (handler : H) (eloopData userData : Nat) : Option (Int × Timeouts H) :=
  changeTimeout (fun requested remaining => osReltimeBefore remaining requested) t now block clock reqSecs reqUsecs
    handler eloopData userData

/-- `dl_list_first` -/
def firstTimeout (t : Timeouts H) : Option (Option (Nat × EloopTimeout H)) := do
  match ← nextOf t.links .head with
  | .head => some none
  | .timeout a => some (some (a, ← t.blocks.lookup a))

/-- `eloop_run`, where it checks whether a timeout has occurred: the one whose handler it calls. -/
def takeExpired (t : Timeouts H) (now : OsReltime) : Option (Option (EloopTimeout H) × Timeouts H) := do
  match ← t.firstTimeout with
  | none => some (none, t)
  | some (a, x) =>
    if osReltimeBefore now x.time then some (none, t)
    else do
      let t ← t.removeTimeout a
      some (some x, { t with log := t.log ++ [.fired x now] })

end Timeouts

end Eloop
end Xlibc
