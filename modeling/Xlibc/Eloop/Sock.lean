import Mathlib.Data.List.Basic

/-!
# Xlibc.Eloop.Sock

The sockets of `eloop.c`: a table for each type of event, and `fd_table`, which leads from a descriptor
to the handler that is called for it. What `epoll` watches is kept by the kernel. `none` is a write
outside of `fd_table`.

* `addSock`, `removeSock` : `eloop_sock_table_add_sock` and `eloop_sock_table_remove_sock`.
* `Registry s` : what the tables say agrees with what the kernel watches.
* `addSock_spec`, `removeSock_spec` : both keep it, and tell by `changed` that they changed something.
* `addSock_none_iff` : when `fd_table` is too short.
-/

namespace Xlibc
namespace Eloop

/-! ## The code -/

/-- `eloop_event_type` -/
inductive EventType where
  | read
  | write
  | exception
  deriving DecidableEq

/-- `struct eloop_sock`; a handler is `NULL` in an entry that was cleared. -/
structure EloopSock (H : Type) where
  sock : Nat
  eloopData : Nat
  userData : Nat
  handler : Option H
  deriving DecidableEq

/-- `struct eloop_sock_table`; `count` is the length of `table`. -/
structure SockTable (H : Type) where
  table : List (EloopSock H)
  changed : Bool

/-- The sockets of `struct eloop_data`. An entry of `fd_table` is `none` until it is written; the length of
the table is `max_fd`. `interest` holds the descriptors that `epollfd` watches. -/
structure Socks (H : Type) where
  maxSock : Nat
  count : Nat
  fdTable : List (Option (EloopSock H))
  epollMaxEventNum : Nat
  readers : SockTable H
  writers : SockTable H
  exceptions : SockTable H
  interest : List Nat

/-- Which of the calls of `eloop_sock_table_add_sock` succeed: those of `os_realloc_array` for `fd_table`, for
`epoll_events` and for the table, and `epoll_ctl`. -/
structure SockEnv where
  fdTable : Bool
  events : Bool
  table : Bool
  ctl : Bool

variable {H : Type}

/-- `eloop_init`, the sockets -/
def initSocks : Socks H :=
  { maxSock := 0, count := 0, fdTable := [], epollMaxEventNum := 0, readers := ⟨[], false⟩,
    writers := ⟨[], false⟩,
    exceptions := ⟨[], false⟩, interest := [] }

namespace Socks

/-- `eloop_get_sock_table` -/
def getTable (s : Socks H) : EventType → SockTable H
  | .read => s.readers
  | .write => s.writers
  | .exception => s.exceptions

def setTable (s : Socks H) (type : EventType) (table : SockTable H) : Socks H :=
  match type with
  | .read => { s with readers := table }
  | .write => { s with writers := table }
  | .exception => { s with exceptions := table }

/-- The room for descriptors that `fd_table` gets when it is too short. -/
def nextFd (s : Socks H) : Nat := if s.fdTable.length = 0 then 16 else s.fdTable.length * 2

def nextEvents (s : Socks H) : Nat := if s.epollMaxEventNum = 0 then 8 else s.epollMaxEventNum * 2

/-- `os_realloc_array` of `fd_table`, if it has no room for `newMaxSock` -/
def growFds (s : Socks H) (newMaxSock : Nat) (success : Bool) : Option (Socks H) :=
  if newMaxSock ≥ s.fdTable.length then
    if success then some { s with fdTable := s.fdTable ++ List.replicate (s.nextFd - s.fdTable.length) none } else none
  else some s

/-- `os_realloc_array` of `epoll_events`, if it has no room for one more -/
def growEvents (s : Socks H) (success : Bool) : Option (Socks H) :=
  if s.count + 1 > s.epollMaxEventNum then
    if success then some { s with epollMaxEventNum := s.nextEvents } else none
  else some s

/-- `x` at the end of its table -/
def addEntry (s : Socks H) (type : EventType) (x : EloopSock H) (newMaxSock : Nat) : Socks H :=
  ({ s with maxSock := newMaxSock, count := s.count + 1 } : Socks H).setTable type
    ⟨(s.getTable type).table ++ [x], true⟩

/-- `eloop_sock_queue` has succeeded, and `x` is copied to `fd_table`. -/
def watch (s : Socks H) (x : EloopSock H) : Option (Socks H) :=
  if x.sock < s.fdTable.length then
    some { s with fdTable := s.fdTable.set x.sock (some x), interest := x.sock :: s.interest }
  else none

/-- `eloop_sock_table_add_sock` -/
def addSock (s : Socks H) (type : EventType) (sock : Nat) (handler : H) (eloopData userData : Nat) (env : SockEnv) :
    Option (Int × Socks H) :=
  let newMaxSock := if sock > s.maxSock then sock else s.maxSock
  match s.growFds newMaxSock env.fdTable with
  | none => some (-1, s)
  | some s =>
    match s.growEvents env.events with
    | none => some (-1, s)
    | some s =>
      if env.table then
        let x : EloopSock H := ⟨sock, eloopData, userData, some handler⟩
        let s := s.addEntry type x newMaxSock
        if env.ctl then (s.watch x).map fun s => (0, s) else some (-1, s)
      else some (-1, s)

/-- The entry at `i` of its table is closed up. -/
def removeEntry (s : Socks H) (type : EventType) (i : Nat) : Socks H :=
  ({ s with count := s.count - 1 } : Socks H).setTable type ⟨(s.getTable type).table.eraseIdx i, true⟩

/-- `EPOLL_CTL_DEL` has succeeded, and the entry of `fd_table` is cleared. -/
def unwatch (s : Socks H) (sock : Nat) : Option (Socks H) :=
  if sock < s.fdTable.length then
    some { s with fdTable := s.fdTable.set sock (some ⟨0, 0, 0, none⟩), interest := s.interest.erase sock }
  else none

/-- `eloop_sock_table_remove_sock`; `ctl` is the success of `epoll_ctl`. -/
def removeSock (s : Socks H) (type : EventType) (sock : Nat) (ctl : Bool) : Option (Socks H) :=
  match (s.getTable type).table.findIdx? (·.sock == sock) with
  | none => some s
  | some i => if ctl then (s.removeEntry type i).unwatch sock else some (s.removeEntry type i)

/-- `eloop_run`, behind `epoll_wait` -/
def clearChanged (s : Socks H) : Socks H :=
  { s with
    readers := { s.readers with changed := false }
    writers := { s.writers with changed := false }
    exceptions := { s.exceptions with changed := false } }

def changed (s : Socks H) : Bool := s.readers.changed || s.writers.changed || s.exceptions.changed

/-! ## The registered sockets -/

def all (s : Socks H) : List (EloopSock H) := s.readers.table ++ s.writers.table ++ s.exceptions.table

end Socks

/-- `fd_table` leads from `fd` to `x`, which is registered for it. -/
structure Leads (s : Socks H) (fd : Nat) (x : EloopSock H) : Prop where
  entry : s.fdTable[fd]? = some (some x)
  sock : x.sock = fd
  handler : x.handler ≠ none
  mem : x ∈ s.all

/-- The kernel watches descriptors of registered sockets only. -/
structure Registry (s : Socks H) : Prop where
  count : s.count = s.all.length
  room : s.count ≤ s.epollMaxEventNum
  maxSock : s.maxSock < s.fdTable.length ∨ s.fdTable = [] ∧ s.maxSock = 0
  nodup : s.interest.Nodup
  watched : ∀ fd ∈ s.interest, ∃ x, Leads s fd x

theorem initSocks_registry : Registry (initSocks : Socks H) where
  count := rfl
  room := Nat.le_refl 0
  maxSock := .inr ⟨rfl, rfl⟩
  nodup := List.nodup_nil
  watched _ hfd := (nomatch hfd)

/-! ## Adding -/

variable {s s' : Socks H} {type : EventType} {sock fd : Nat} {x : EloopSock H}

/-- `s'` is `s` with more room. -/
structure Grown (s s' : Socks H) : Prop where
  readers : s'.readers = s.readers
  writers : s'.writers = s.writers
  exceptions : s'.exceptions = s.exceptions
  count : s'.count = s.count
  interest : s'.interest = s.interest
  maxSock : s'.maxSock = s.maxSock
  fdTable : ∃ k, s'.fdTable = s.fdTable ++ List.replicate k none
  room : s.epollMaxEventNum ≤ s'.epollMaxEventNum

namespace Grown

theorem refl (s : Socks H) : Grown s s := ⟨rfl, rfl, rfl, rfl, rfl, rfl, ⟨0, by simp⟩, Nat.le_refl _⟩

theorem trans {s'' : Socks H} (h : Grown s s') (h' : Grown s' s'') : Grown s s'' := by
  obtain ⟨k, hk⟩ := h.fdTable
  obtain ⟨k', hk'⟩ := h'.fdTable
  exact ⟨h'.readers.trans h.readers, h'.writers.trans h.writers, h'.exceptions.trans h.exceptions,
    h'.count.trans h.count, h'.interest.trans h.interest, h'.maxSock.trans h.maxSock,
    ⟨k + k', by rw [hk', hk, List.append_assoc, List.replicate_append_replicate]⟩, Nat.le_trans h.room h'.room⟩

theorem all (h : Grown s s') : s'.all = s.all := by
  rw [Socks.all, h.readers, h.writers, h.exceptions, Socks.all]

theorem changed (h : Grown s s') : s'.changed = s.changed := by
  rw [Socks.changed, h.readers, h.writers, h.exceptions, Socks.changed]

theorem leads (h : Grown s s') (hx : Leads s fd x) : Leads s' fd x := by
  obtain ⟨k, hk⟩ := h.fdTable
  obtain ⟨hlt, -⟩ := List.getElem?_eq_some_iff.mp hx.entry
  exact ⟨by rw [hk, List.getElem?_append_left hlt, hx.entry], hx.sock, hx.handler, h.all ▸ hx.mem⟩

theorem registry (h : Grown s s') (hs : Registry s) : Registry s' where
  count := by rw [h.count, h.all, hs.count]
  room := by
    rw [h.count]
    exact Nat.le_trans hs.room h.room
  maxSock := by
    obtain ⟨k, hk⟩ := h.fdTable
    rw [h.maxSock, hk, List.length_append]
    rcases hs.maxSock with hlt | ⟨hnil, hzero⟩
    · exact .inl (by omega)
    · rw [hnil, hzero]
      cases k with
      | zero => exact .inr ⟨rfl, rfl⟩
      | succ k => exact .inl (by simp)
  nodup := by
    rw [h.interest]
    exact hs.nodup
  watched fd hfd := by
    obtain ⟨x, hx⟩ := hs.watched fd (h.interest ▸ hfd)
    exact ⟨x, h.leads hx⟩

end Grown

theorem growFds_spec {newMaxSock : Nat} {success : Bool} (h : s.growFds newMaxSock success = some s') : Grown s s' := by
  unfold Socks.growFds at h
  split at h
  · split at h
    · cases h
      exact ⟨rfl, rfl, rfl, rfl, rfl, rfl, ⟨_, rfl⟩, Nat.le_refl _⟩
    · cases h
  · cases h
    exact .refl s

theorem growEvents_spec {success : Bool} (h : s.growEvents success = some s') :
    Grown s s' ∧ s'.fdTable = s.fdTable ∧
      (s.count ≤ s.epollMaxEventNum → s'.count + 1 ≤ s'.epollMaxEventNum) := by
  unfold Socks.growEvents at h
  split at h
  · split at h
    · cases h
      have hle : s.epollMaxEventNum ≤ s.nextEvents := by unfold Socks.nextEvents; split <;> omega
      refine ⟨⟨rfl, rfl, rfl, rfl, rfl, rfl, ⟨0, by simp⟩, hle⟩, rfl, fun hroom => ?_⟩
      simp only [Socks.nextEvents]
      split <;> omega
    · cases h
  · cases h
    exact ⟨.refl s, rfl, fun _ => by omega⟩

/-- A descriptor that `fd_table` holds, or will hold after it has grown once. -/
def Reach (s : Socks H) (sock : Nat) : Prop := sock < s.nextFd

instance (s : Socks H) (sock : Nat) : Decidable (Reach s sock) := inferInstanceAs (Decidable (_ < _))

theorem growFds_reach {newMaxSock : Nat} {success : Bool} (hle : sock ≤ newMaxSock)
    (h : s.growFds newMaxSock success = some s') : sock < s'.fdTable.length ↔ Reach s sock := by
  unfold Socks.growFds at h
  unfold Reach Socks.nextFd
  split at h
  · split at h
    · cases h
      simp only [List.length_append, List.length_replicate, Socks.nextFd]
      split <;> omega
    · cases h
  · cases h
    split <;> omega

/-- The registered sockets are those of one table between those of the others. -/
theorem all_setTable (s : Socks H) (type : EventType) : ∃ a b, s.all = a ++ (s.getTable type).table ++ b ∧
    ∀ l changed, (s.setTable type ⟨l, changed⟩).all = a ++ l ++ b := by
  cases type with
  | read => exact ⟨[], s.writers.table ++ s.exceptions.table, by simp [Socks.all, Socks.getTable],
      fun l changed => by simp [Socks.all, Socks.setTable]⟩
  | write => exact ⟨s.readers.table, s.exceptions.table, by simp [Socks.all, Socks.getTable],
      fun l changed => by simp [Socks.all, Socks.setTable]⟩
  | exception => exact ⟨s.readers.table ++ s.writers.table, [], by simp [Socks.all, Socks.getTable],
      fun l changed => by simp [Socks.all, Socks.setTable]⟩

section SetTable

variable (s : Socks H) (type : EventType) (t : SockTable H)

@[simp] theorem setTable_fdTable : (s.setTable type t).fdTable = s.fdTable := by cases type <;> rfl
@[simp] theorem setTable_interest : (s.setTable type t).interest = s.interest := by cases type <;> rfl
@[simp] theorem setTable_count : (s.setTable type t).count = s.count := by cases type <;> rfl
@[simp] theorem setTable_maxSock : (s.setTable type t).maxSock = s.maxSock := by cases type <;> rfl
@[simp] theorem setTable_epollMaxEventNum : (s.setTable type t).epollMaxEventNum = s.epollMaxEventNum := by
  cases type <;> rfl

theorem setTable_changed (l : List (EloopSock H)) : (s.setTable type ⟨l, true⟩).changed = true := by
  cases type <;> simp [Socks.setTable, Socks.changed]

end SetTable

/-- An entry of `fd_table` is written over. -/
theorem leads_set {entry : Option (EloopSock H)} (hx : Leads s fd x) (hne : fd ≠ sock)
    (hfd : s'.fdTable = s.fdTable.set sock entry) (hmem : x ∈ s'.all) : Leads s' fd x :=
  ⟨by rw [hfd, List.getElem?_set_ne hne.symm, hx.entry], hx.sock, hx.handler, hmem⟩

theorem addEntry_all (s : Socks H) (type : EventType) (x : EloopSock H) (newMaxSock : Nat) :
    (s.addEntry type x newMaxSock).all.length = s.all.length + 1 ∧
      ∀ y, y ∈ (s.addEntry type x newMaxSock).all ↔ y = x ∨ y ∈ s.all := by
  obtain ⟨a, b, hall, hset⟩ := all_setTable s type
  have hall' : (s.addEntry type x newMaxSock).all = a ++ ((s.getTable type).table ++ [x]) ++ b := by
    rw [← hset ((s.getTable type).table ++ [x]) true]
    cases type <;> rfl
  rw [hall', hall]
  refine ⟨by simp; omega, fun y => ?_⟩
  simp only [List.mem_append, List.mem_singleton]
  tauto

theorem addEntry_registry (hs : Registry s) (hroom : s.count + 1 ≤ s.epollMaxEventNum) {newMaxSock : Nat}
    (hmax : newMaxSock < s.fdTable.length) (type : EventType) (x : EloopSock H) :
    Registry (s.addEntry type x newMaxSock) := by
  obtain ⟨hlen, hmem⟩ := addEntry_all s type x newMaxSock
  refine ⟨by rw [hlen, ← hs.count]; simp [Socks.addEntry], by simpa [Socks.addEntry] using hroom,
    .inl (by simpa [Socks.addEntry] using hmax), by simpa [Socks.addEntry] using hs.nodup, fun fd hfd => ?_⟩
  obtain ⟨y, hy⟩ := hs.watched fd (by simpa [Socks.addEntry] using hfd)
  exact ⟨y, by simpa [Socks.addEntry] using hy.entry, hy.sock, hy.handler, (hmem y).mpr (.inr hy.mem)⟩

theorem watch_registry (hs : Registry s) (hx : x ∈ s.all) (hhandler : x.handler ≠ none)
    (hnew : x.sock ∉ s.interest)
    (hsock : x.sock < s.fdTable.length) : ∃ s', s.watch x = some s' ∧ Registry s' ∧ s'.changed = s.changed := by
  refine ⟨_, if_pos hsock, ⟨hs.count, hs.room, ?_, List.nodup_cons.mpr ⟨hnew, hs.nodup⟩, fun fd hfd => ?_⟩,
    rfl⟩
  · rcases hs.maxSock with hlt | ⟨hnil, -⟩
    · exact .inl (by simpa using hlt)
    · rw [hnil] at hsock
      simp at hsock
  · by_cases hfd' : fd = x.sock
    · subst hfd'
      exact ⟨x, by simp [hsock], rfl, hhandler, hx⟩
    · obtain ⟨y, hy⟩ := hs.watched fd (by simpa [hfd'] using hfd)
      exact ⟨y, leads_set hy hfd' rfl hy.mem⟩

theorem addSock_spec (hs : Registry s) (hreach : Reach s sock) {env : SockEnv}
    (hctl : env.ctl = true → sock ∉ s.interest)
    (type : EventType) (handler : H) (eloopData userData : Nat) :
    ∃ n s', s.addSock type sock handler eloopData userData env = some (n, s') ∧ Registry s' ∧
      (s'.changed = true ∨ Grown s s') := by
  unfold Socks.addSock
  generalize hm : (if sock > s.maxSock then sock else s.maxSock) = newMaxSock
  have hle : sock ≤ newMaxSock := by rw [← hm]; split <;> omega
  cases h₁ : s.growFds newMaxSock env.fdTable with
  | none => exact ⟨-1, s, by simp [h₁], hs, .inr (.refl s)⟩
  | some s₁ =>
    have hg₁ := growFds_spec h₁
    have hlt : sock < s₁.fdTable.length := (growFds_reach hle h₁).mpr hreach
    have hmax : newMaxSock < s₁.fdTable.length := by
      have hold := (hg₁.registry hs).maxSock
      have heq := hg₁.maxSock
      rw [← hm]
      split
      · exact hlt
      · rcases hold with hold | ⟨hnil, -⟩
        · omega
        · simp [hnil] at hlt
    cases h₂ : s₁.growEvents env.events with
    | none => exact ⟨-1, s₁, by simp [h₁, h₂], hg₁.registry hs, .inr hg₁⟩
    | some s₂ =>
      obtain ⟨hg₂, hfd, hroom⟩ := growEvents_spec h₂
      have hg := hg₁.trans hg₂
      have hs₂ := hg.registry hs
      by_cases htable : env.table = true
      · have hs₃ := addEntry_registry hs₂ (hroom (hg₁.registry hs).room) (hfd ▸ hmax) type
          ⟨sock, eloopData, userData, some handler⟩
        have hchanged : (s₂.addEntry type ⟨sock, eloopData, userData, some handler⟩ newMaxSock).changed = true :=
          setTable_changed _ _ _
        by_cases hc : env.ctl = true
        · obtain ⟨s', hwatch, hs', hchanged'⟩ := watch_registry hs₃
            ((addEntry_all s₂ type ⟨sock, eloopData, userData, some handler⟩ newMaxSock).2 _ |>.mpr (.inl rfl))
            (by simp) (by simpa [Socks.addEntry, hg.interest] using hctl hc) (by simpa [Socks.addEntry, hfd] using hlt)
          exact ⟨0, s', by simp [h₁, h₂, htable, hc, hwatch], hs', .inl (hchanged'.trans hchanged)⟩
        · exact ⟨-1, _, by simp [h₁, h₂, htable, hc], hs₃, .inl hchanged⟩
      · exact ⟨-1, s₂, by simp [h₁, h₂, htable], hs₂, .inr hg⟩

/-- Where everything else succeeds, the entry of `fd_table` is written outside of it for the descriptors that are
out of reach. -/
theorem addSock_none_iff (s : Socks H) (type : EventType) (handler : H) (eloopData userData : Nat) :
    s.addSock type sock handler eloopData userData ⟨true, true, true, true⟩ = none ↔ ¬ Reach s sock := by
  unfold Socks.addSock
  generalize hm : (if sock > s.maxSock then sock else s.maxSock) = newMaxSock
  have hle : sock ≤ newMaxSock := by rw [← hm]; split <;> omega
  obtain ⟨s₁, h₁⟩ : ∃ s₁, s.growFds newMaxSock true = some s₁ := by unfold Socks.growFds; split <;> simp
  obtain ⟨s₂, h₂⟩ : ∃ s₂, s₁.growEvents true = some s₂ := by unfold Socks.growEvents; split <;> simp
  obtain ⟨-, hfd, -⟩ := growEvents_spec h₂
  rw [← growFds_reach hle h₁]
  simp [h₁, h₂, Socks.watch, Socks.addEntry, hfd]

/-! ## Removing -/

/-- Only an entry of this descriptor leaves the table. -/
theorem removeEntry_all {i : Nat} (hi : i < (s.getTable type).table.length)
    (hsock : (s.getTable type).table[i].sock = sock) :
    (s.removeEntry type i).all.length = s.all.length - 1 ∧ 0 < s.all.length ∧
      ∀ y ∈ s.all, y.sock ≠ sock → y ∈ (s.removeEntry type i).all := by
  obtain ⟨a, b, hall, hset⟩ := all_setTable s type
  have hall' : (s.removeEntry type i).all = a ++ (s.getTable type).table.eraseIdx i ++ b := by
    rw [← hset ((s.getTable type).table.eraseIdx i) true]
    cases type <;> rfl
  rw [hall', hall]
  refine ⟨by simp [List.length_eraseIdx, hi]; omega, by simp; omega, fun y hy hne => ?_⟩
  simp only [List.mem_append] at hy ⊢
  rcases hy with (hy | hy) | hy
  · exact .inl (.inl hy)
  · obtain ⟨j, hj, rfl⟩ := List.mem_iff_getElem.mp hy
    refine .inl (.inr (List.mem_eraseIdx_iff_getElem.mpr ⟨j, hj, ?_, rfl⟩))
    rintro rfl
    exact hne hsock
  · exact .inr hy

theorem unwatch_registry (hcount : s.count = s.all.length) (hroom : s.count ≤ s.epollMaxEventNum)
    (hnodup : s.interest.Nodup) (hmax : s.maxSock < s.fdTable.length) (hsock : sock < s.fdTable.length)
    (hleads : ∀ fd ∈ s.interest, fd ≠ sock → ∃ x, Leads s fd x) :
    ∃ s', s.unwatch sock = some s' ∧ Registry s' ∧ s'.changed = s.changed := by
  refine ⟨_, if_pos hsock, ⟨hcount, hroom, .inl (by simpa using hmax), hnodup.erase sock, fun fd hfd => ?_⟩,
    rfl⟩
  obtain ⟨hne, hfd⟩ := hnodup.mem_erase_iff.mp hfd
  obtain ⟨y, hy⟩ := hleads fd hfd hne
  exact ⟨y, leads_set hy hne rfl hy.mem⟩

theorem removeSock_spec (hs : Registry s) (type : EventType) {ctl : Bool} (hctl : ctl = true ↔ sock ∈ s.interest) :
    ∃ s', s.removeSock type sock ctl = some s' ∧ Registry s' ∧ (s'.changed = true ∨ s' = s) := by
  unfold Socks.removeSock
  cases hfind : (s.getTable type).table.findIdx? (·.sock == sock) with
  | none => exact ⟨s, rfl, hs, .inr rfl⟩
  | some i =>
    obtain ⟨hi, hsock, -⟩ := List.findIdx?_eq_some_iff_getElem.mp hfind
    obtain ⟨hlen, hpos, hmem⟩ := removeEntry_all hi (beq_iff_eq.mp hsock)
    have hchanged : (s.removeEntry type i).changed = true := setTable_changed _ _ _
    have hcount : (s.removeEntry type i).count = (s.removeEntry type i).all.length := by
      rw [hlen, ← hs.count]
      simp [Socks.removeEntry]
    have hroom : (s.removeEntry type i).count ≤ (s.removeEntry type i).epollMaxEventNum := by
      have hold := hs.room
      simp only [Socks.removeEntry, setTable_count, setTable_epollMaxEventNum]
      omega
    have hleads : ∀ fd ∈ s.interest, fd ≠ sock → ∃ x, Leads (s.removeEntry type i) fd x := by
      intro fd hfd hne
      obtain ⟨x, hx⟩ := hs.watched fd hfd
      exact ⟨x, by simpa [Socks.removeEntry] using hx.entry, hx.sock, hx.handler, hmem x hx.mem (by rwa [hx.sock])⟩
    by_cases hc : ctl = true
    · obtain ⟨x, hx⟩ := hs.watched sock (hctl.mp hc)
      obtain ⟨hlt, -⟩ := List.getElem?_eq_some_iff.mp hx.entry
      have hmax : s.maxSock < s.fdTable.length := hs.maxSock.resolve_right fun hnil => by simp [hnil.1] at hlt
      obtain ⟨s', hunwatch, hs', hchanged'⟩ := unwatch_registry hcount hroom
        (by simpa [Socks.removeEntry] using hs.nodup) (by simpa [Socks.removeEntry] using hmax)
        (by simpa [Socks.removeEntry] using hlt) fun fd hfd => hleads fd (by simpa [Socks.removeEntry] using hfd)
      exact ⟨s', by simp [hc, hunwatch], hs', .inl (hchanged'.trans hchanged)⟩
    · refine ⟨s.removeEntry type i, by simp [hc], ⟨hcount, hroom, by simpa [Socks.removeEntry] using hs.maxSock,
        by simpa [Socks.removeEntry] using hs.nodup, fun fd hfd => ?_⟩, .inl hchanged⟩
      have hfd' : fd ∈ s.interest := by simpa [Socks.removeEntry] using hfd
      exact hleads fd hfd' fun heq => hc (hctl.mpr (heq ▸ hfd'))

end Eloop
end Xlibc
