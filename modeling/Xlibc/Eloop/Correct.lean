import Xlibc.Base.Run
import Xlibc.Eloop.Model
import Xlibc.Eloop.Plan

/-!
# Xlibc.Eloop.Correct

What holds over whole runs of the event loop. An application may call any of the functions, outside of
`eloop_run` and in every handler; signals arrive at any time, and the clock and `epoll_wait` give what
they like.

* `Sane s` : the invariant. Its steps are `call_sane`, `Sane.advance` and `Sane.ret`.
-/

namespace Xlibc
namespace Eloop

variable {H : Type}

/-! ## The invariant -/

def Control.idle : Control H → Bool
  | .outside | .handler _ => true
  | _ => false

/-- The application runs. -/
def Running (s : System H) : Prop := s.control = .outside ∨ ∃ back, s.control = .handler back

def Pass.events : Pass → Option (List Nat)
  | .early => none
  | .late events => some events

/-- The events that `epoll_wait` has reported, as far as their handlers are still to be called. -/
def Control.events : Control H → Option (List Nat)
  | .process p | .reset p | .unpend p | .scan p _ | .clear p _ | .handler (.signal p _) => p.events
  | .timers events | .dispatch events | .handler (.timeout _ events) | .handler (.sock _ events) => some events
  | .outside | .top | .wait => none

/-- As long as no table has changed, the sockets registered are those of the time when `epoll_wait` returned, and
`fd_table` leads to them from every event. -/
def Batch (s : System H) (events : Option (List Nat)) : Prop :=
  ∀ l ∈ events, s.socks.changed = false → s.socks.all = s.seen ∧ ∀ fd ∈ l, ∃ x, Leads s.socks fd x

/-- `p₀` is the plan from which the timeouts have moved. -/
structure Sane (p₀ : Plan H) (s : System H) : Prop where
  start : Ordered p₀
  plan : ∃ l, Holds s.timeouts l ∧ Moves p₀ (planOf s.timeouts l s.clock)
  registry : Registry s.socks
  batch : Batch s s.control.events
  going : s.control = .wait → s.terminate = false
  quiet : ∀ events, s.control = .dispatch events → s.socks.changed = false

variable {p₀ : Plan H} {s : System H}

theorem Running.ne_dispatch (h : Running s) (events : List Nat) : s.control ≠ .dispatch events := by
  rcases h with h | ⟨back, h⟩ <;> simp [h]

theorem Running.ne_wait (h : Running s) : s.control ≠ .wait := by
  rcases h with h | ⟨back, h⟩ <;> simp [h]

theorem init_sane (clock : OsReltime) : Sane ⟨[], [], clock⟩ (System.init clock : System H) where
  start := .init clock
  plan := ⟨[], initTimeouts_holds, .refl⟩
  registry := initSocks_registry
  batch _ hl := (nomatch hl)
  going h := (nomatch h)
  quiet _ h := (nomatch h)

/-- What the plan says about the timeouts that are pending. -/
theorem Sane.ordered (h : Sane p₀ s) : ∃ l, Holds s.timeouts l ∧ Ordered (planOf s.timeouts l s.clock) := by
  obtain ⟨l, hl, hmoves⟩ := h.plan
  exact ⟨l, hl, hmoves.ordered h.start⟩

namespace Sane

theorem setTimeouts (h : Sane p₀ s) {timeouts : Timeouts H} {clock : OsReltime} {l' : List (Nat × EloopTimeout H)}
    (hl' : Holds timeouts l') (hplan : Moves p₀ (planOf timeouts l' clock)) :
    Sane p₀ { s with timeouts := timeouts, clock := clock } := by
  exact ⟨h.start, ⟨l', hl', hplan⟩, h.registry, h.batch, h.going, h.quiet⟩

/-- The sockets change, and a table says so. -/
theorem setSocks (h : Sane p₀ s) (hrun : Running s) {socks : Socks H} (hs : Registry socks)
    (hchange : socks.changed = true ∨ socks.changed = s.socks.changed ∧ socks.all = s.socks.all ∧
      ∀ fd x, Leads s.socks fd x → Leads socks fd x) :
    Sane p₀ { s with socks := socks } := by
  refine ⟨h.start, h.plan, hs, fun l hl hfalse => ?_, h.going, fun events hd => absurd hd (hrun.ne_dispatch events)⟩
  have hfalse' : socks.changed = false := hfalse
  rcases hchange with htrue | ⟨hsame, hall, hleads⟩
  · rw [htrue] at hfalse'
    cases hfalse'
  · obtain ⟨hseen, hev⟩ := h.batch l hl (hsame ▸ hfalse')
    refine ⟨hall.trans hseen, fun fd hfd => ?_⟩
    obtain ⟨x, hx⟩ := hev fd hfd
    exact ⟨x, hleads fd x hx⟩

/-- The loop goes to a place where no new events wait. -/
theorem setControl (h : Sane p₀ s) (control : Control H)
    (hevents : ∀ l, control.events = some l → ∃ l', s.control.events = some l' ∧ ∀ fd ∈ l, fd ∈ l')
    (hgoing : control = .wait → s.terminate = false)
    (hquiet : ∀ events, control = .dispatch events → s.socks.changed = false) :
    Sane p₀ { s with control := control } := by
  refine ⟨h.start, h.plan, h.registry, fun l hl hfalse => ?_, hgoing, hquiet⟩
  obtain ⟨l', hl', hsub⟩ := hevents l hl
  obtain ⟨hseen, hev⟩ := h.batch l' hl' hfalse
  exact ⟨hseen, fun fd hfd => hev fd (hsub fd hfd)⟩

theorem leave (h : Sane p₀ s) : Sane p₀ s.leave :=
  ⟨h.start, h.plan, h.registry, fun _ hl => (nomatch hl), fun hw => (nomatch hw), fun _ hd => (nomatch hd)⟩

theorem setSignals (h : Sane p₀ s) (signals : Signals H) : Sane p₀ { s with signals := signals } :=
  ⟨h.start, h.plan, h.registry, h.batch, h.going, h.quiet⟩

end Sane

/-! ## The steps of the loop -/

/-- `timeout_ms` is the time left, in milliseconds, as an `int`. -/
theorem waitMs_spec {time now : OsReltime} (htime : time.Normal) (hnow : Clock now)
    (hnear : time.sec ≤ now.sec + 2 ^ 33) :
    waitMs time now = some (i32OfInt (max 0 (time.micros - now.micros) / 1000)) := by
  obtain ⟨hsub, hmicros⟩ := osReltimeSub_micros htime hnow.toNormal
  have hbefore := osReltimeBefore_micros hnow.toNormal htime
  unfold waitMs
  generalize htv : (if osReltimeBefore now time = true then osReltimeSub time now else ⟨0, 0⟩ : OsReltime) = tv
  have hval : tv.micros = max 0 (time.micros - now.micros) ∧ tv.Normal := by
    by_cases hlt : osReltimeBefore now time = true
    · rw [if_pos hlt] at htv
      rw [hbefore] at hlt
      rw [← htv, hmicros]
      exact ⟨by omega, hsub⟩
    · rw [if_neg hlt] at htv
      rw [hbefore] at hlt
      rw [← htv]
      exact ⟨by rw [max_eq_left (by omega)]; rfl, ⟨le_rfl, by decide⟩⟩
  obtain ⟨hval, hn0, hn1⟩ := hval
  obtain ⟨ht0, ht1⟩ := htime
  unfold OsReltime.micros at hval
  obtain ⟨⟨hr0, hr1⟩, -, -⟩ := hnow
  have hms : tv.sec * 1000 + tv.usec / 1000 = max 0 (time.micros - now.micros) / 1000 := by
    unfold OsReltime.micros
    rw [← hval]
    omega
  have hle : max 0 (time.micros - now.micros) / 1000 ≤ longMax := by
    unfold OsReltime.micros longMax
    omega
  simp only [hms, if_pos hle]

theorem first_near (h₀ : Ordered p₀) {now : OsReltime} (hr : Readable s.clock (some now))
    {l : List (Nat × EloopTimeout H)}
    (hplan : Moves p₀ (planOf s.timeouts l s.clock)) {e : Nat × EloopTimeout H}
    (he : e ∈ l) : e.2.time.Normal ∧ e.2.time.sec ≤ now.sec + 2 ^ 33 := by
  obtain ⟨hnorm, hsec⟩ := (hplan.ordered h₀).near e.2 (List.mem_map.mpr ⟨e, he, rfl⟩)
  exact ⟨hnorm, hsec.trans (Int.add_le_add_right (sec_le_of_not_before (hr now rfl).2) _)⟩

namespace Sane

theorem processed (h : Sane p₀ s) {p : Pass} (hp : s.control.events = p.events) : Sane p₀ (s.processed p) := by
  cases p with
  | early =>
    by_cases hterm : s.terminate = true
    · rw [System.processed, if_pos hterm]
      exact h.leave
    · rw [System.processed, if_neg hterm]
      exact h.setControl .wait (fun _ hl => (nomatch hl)) (fun _ => by simpa using hterm) fun _ hd => (nomatch hd)
  | late events =>
    exact h.setControl (.timers events) (fun l hl => ⟨l, by rw [hp, ← hl]; rfl, fun _ hfd => hfd⟩)
      (fun hw => (nomatch hw)) fun _ hd => (nomatch hd)

theorem behindTimers (h : Sane p₀ s) {events : List Nat} (hp : s.control.events = some events) :
    Sane p₀ (s.behindTimers events) := by
  refine h.setControl _ (fun l hl => ⟨events, hp, ?_⟩) (fun hw => ?_) fun events' hd => ?_
  · split at hl
    · cases hl
    · cases hl
      exact fun _ hfd => hfd
  · split at hw <;> cases hw
  · split at hd
    · cases hd
    · next hno => simpa using (not_or.mp hno).2

theorem top (h : Sane p₀ s) : ∃ s', s.top = some s' ∧ Sane p₀ s' := by
  obtain ⟨l, hl, -⟩ := h.plan
  obtain ⟨p, hp⟩ : ∃ p, (ptrs l ++ [Ptr.head]).head? = some p := by cases l <;> simp
  have hfirst : Xqueue.nextOf s.timeouts.links .head = some p := by rw [hl.ring.next_head, hp]
  unfold System.top
  simp only [dlListEmpty, hfirst, Option.bind_eq_bind, Option.bind_some]
  split
  · next hgo =>
    split
    · exact ⟨_, rfl, h.setControl _ (fun _ hl => (nomatch hl)) (fun hw => (nomatch hw)) fun _ hd => (nomatch hd)⟩
    · refine ⟨_, rfl, h.setControl _ (fun _ hl => (nomatch hl)) (fun _ => ?_) fun _ hd => (nomatch hd)⟩
      simp only [Bool.and_eq_true, Bool.not_eq_true'] at hgo
      exact hgo.1
  · exact ⟨_, rfl, h.leave⟩

theorem scan (h : Sane p₀ s) {p : Pass} {i : Nat} (hp : s.control = .scan p i) : Sane p₀ (s.scan p i) := by
  have hev : s.control.events = p.events := by rw [hp]; rfl
  unfold System.scan
  split
  · exact h.processed hev
  · refine h.setControl _ (fun l hl => ⟨l, ?_, fun _ hfd => hfd⟩) (fun hw => ?_) fun _ hd => ?_
    · rw [hev, ← hl]
      split <;> rfl
    · split at hw <;> cases hw
    · split at hd <;> cases hd

/-- The sockets registered now are those `epoll_wait` has reported about. -/
theorem reported (h : Sane p₀ s) {events : List Nat} (hev : ∀ fd ∈ events, fd ∈ s.socks.interest) :
    Sane p₀ (s.reported events) := by
  have hleads : ∀ fd ∈ s.socks.interest, ∃ x, Leads s.socks.clearChanged fd x := by
    intro fd hfd
    obtain ⟨x, hx⟩ := h.registry.watched fd hfd
    exact ⟨x, hx.entry, hx.sock, hx.handler, hx.mem⟩
  refine ⟨h.start, h.plan, ⟨h.registry.count, h.registry.room, h.registry.maxSock, h.registry.nodup, hleads⟩, ?_,
    fun hw => (nomatch hw), fun _ hd => (nomatch hd)⟩
  intro l hl _
  obtain rfl : events = l := Option.some.inj hl
  exact ⟨rfl, fun fd hfd => hleads fd (hev fd hfd)⟩

theorem poll (h : Sane p₀ s) {epoll : Except Nat (List Nat)}
    (hev : ∀ events, epoll = .ok events → ∀ fd ∈ events, fd ∈ s.socks.interest) :
      Sane p₀ (s.poll epoll) := by
  unfold System.poll
  split
  · exact h.reported (by simp)
  · cases epoll with
    | ok events => exact h.reported (hev events rfl)
    | error errno =>
      simp only []
      split
      · exact ⟨h.start, h.plan, h.registry, fun _ hl => (nomatch hl), fun hw => (nomatch hw),
          fun _ hd => (nomatch hd)⟩
      · exact h.reported (by simp)

theorem wait (h : Sane p₀ s) {i : Input} (hr : Readable s.clock (some i.now))
    (hev : ∀ events, i.epoll = .ok events → ∀ fd ∈ events, fd ∈ s.socks.interest) :
    ∃ s', s.wait i = some s' ∧ Sane p₀ s' := by
  obtain ⟨l, hl, hplan⟩ := h.plan
  have hfirst := firstTimeout_spec hl
  obtain ⟨ms, hms⟩ : ∃ ms, s.nextTimeoutMs i.now = some ms := by
    cases l with
    | nil => exact ⟨s.timeoutMs, by simp [System.nextTimeoutMs, hfirst]⟩
    | cons e l =>
      obtain ⟨hnorm, hnear⟩ := first_near h.start hr hplan (e := e) (by simp)
      exact ⟨_, by simp [System.nextTimeoutMs, hfirst, waitMs_spec hnorm (hr i.now rfl).1 hnear]; rfl⟩
  have h' : Sane p₀ { s with timeoutMs := ms, clock := i.now, waits := s.waits + 1 } :=
    ⟨h.start, ⟨l, hl, hplan.trans (tick_moves s.timeouts l hr)⟩, h.registry, h.batch, h.going, h.quiet⟩
  exact ⟨_, by simp only [System.wait, hms]; rfl, h'.poll hev⟩

theorem timers (h : Sane p₀ s) {events : List Nat} (hp : s.control = .timers events) {i : Input}
    (hr : Readable s.clock (some i.now)) : ∃ s', s.timers events i = some s' ∧ Sane p₀ s' := by
  obtain ⟨l, hl, hplan⟩ := h.plan
  obtain ⟨x, t', l', htake, hl', hmoves⟩ := takeExpired_moves hl hr
  have h' : Sane p₀ { s with timeouts := t', clock := i.now } := h.setTimeouts hl' (hplan.trans hmoves)
  have hev : s.control.events = some events := by rw [hp]; rfl
  unfold System.timers
  simp only [htake, Option.bind_eq_bind, Option.bind_some]
  cases x with
  | none => exact ⟨_, rfl, h'.behindTimers hev⟩
  | some x =>
    exact ⟨_, rfl, h'.setControl _ (fun l hl => ⟨l, hev.trans hl, fun _ hfd => hfd⟩) (fun hw => (nomatch hw))
      fun _ hd => (nomatch hd)⟩

/-- `fd_table` leads from the event to a socket that is registered. -/
theorem lead (h : Sane p₀ s) {fd : Nat} {events : List Nat} (hp : s.control = .dispatch (fd :: events)) :
    ∃ x, Leads s.socks fd x :=
  (h.batch (fd :: events) (by rw [hp]; rfl) (h.quiet _ hp)).2 fd (by simp)

theorem dispatch (h : Sane p₀ s) {events : List Nat} (hp : s.control = .dispatch events) :
    ∃ s', s.dispatch events = some s' ∧ Sane p₀ s' := by
  cases events with
  | nil =>
    exact ⟨_, rfl, h.setControl .top (fun _ hl => (nomatch hl)) (fun hw => (nomatch hw)) fun _ hd => (nomatch hd)⟩
  | cons fd events =>
    obtain ⟨x, hx⟩ := h.lead hp
    refine ⟨{ s with control := .handler (.sock x events) }, by simp [System.dispatch, hx.entry, hx.handler],
      h.setControl _ (fun l hl => ⟨fd :: events, by rw [hp]; rfl, ?_⟩)
        (fun hw => (nomatch hw)) fun _ hd => (nomatch hd)⟩
    obtain rfl : events = l := Option.some.inj hl
    exact fun _ hfd => List.mem_cons_of_mem _ hfd

theorem ret (h : Sane p₀ s) {back : Return H} (hp : s.control = .handler back) :
    ∃ s', s.ret = some s' ∧ Sane p₀ s' := by
  cases back with
  | signal p i =>
    exact ⟨{ s with control := .scan p (i + 1) }, by simp only [System.ret, hp], h.setControl _ (fun l hl =>
      ⟨l, by rw [hp, ← hl]; rfl, fun _ hfd => hfd⟩) (fun hw => (nomatch hw)) fun _ hd => (nomatch hd)⟩
  | timeout x events =>
    exact ⟨s.behindTimers events, by simp only [System.ret, hp], h.behindTimers (by rw [hp]; rfl)⟩
  | sock x events =>
    refine ⟨{ s with control := if s.socks.changed then .top else .dispatch events }, by simp only [System.ret, hp],
      h.setControl _ (fun l hl => ⟨events, by rw [hp]; rfl, ?_⟩) (fun hw => ?_) fun events' hd => ?_⟩
    · split at hl
      · cases hl
      · cases hl
        exact fun _ hfd => hfd
    · split at hw <;> cases hw
    · split at hd
      · cases hd
      · next hno => simpa using hno

theorem advance (h : Sane p₀ s) (hrun : ¬ Running s) {i : Input} (hr : Readable s.clock (some i.now))
    (hev : ∀ events, i.epoll = .ok events → ∀ fd ∈ events, fd ∈ s.socks.interest) :
    ∃ s', s.advance i = some s' ∧ Sane p₀ s' := by
  -- the next place has the events of this one
  have hgo : ∀ (control : Control H) (signals : Signals H), control.events = s.control.events →
    control ≠ .wait →
      (∀ events, control ≠ .dispatch events) → Sane p₀ { s with signals := signals, control := control } :=
    fun control signals hsame hw hd => (h.setSignals signals).setControl control
      (fun l hl => ⟨l, hsame ▸ hl, fun _ hfd => hfd⟩) (fun heq => absurd heq hw) fun _ heq => absurd heq (hd _)
  unfold System.advance
  cases hp : s.control with
  | outside => exact absurd (.inl hp) hrun
  | handler back => exact absurd (.inr ⟨back, hp⟩) hrun
  | top => exact h.top
  | wait => exact h.wait hr hev
  | process p =>
    refine ⟨if s.signals.signaled = 0 then s.processed p else { s with control := .reset p }, rfl, ?_⟩
    split
    · exact h.processed (by rw [hp]; rfl)
    · exact hgo (.reset p) s.signals (by rw [hp]; rfl) (by simp) (by simp)
  | reset p => exact ⟨_, rfl, hgo (.unpend p) _ (by rw [hp]; rfl) (by simp) (by simp)⟩
  | unpend p => exact ⟨_, rfl, hgo (.scan p 0) _ (by rw [hp]; rfl) (by simp) (by simp)⟩
  | scan p j => exact ⟨_, rfl, h.scan hp⟩
  | clear p j => exact ⟨_, rfl, hgo (.handler (.signal p j)) _ (by rw [hp]; rfl) (by simp) (by simp)⟩
  | timers events => exact h.timers hp hr
  | dispatch events => exact h.dispatch hp

end Sane

/-! ## What may happen -/

section Steps

variable [DecidableEq H]

/-- The allocator returns blocks that are free, the clock does not go back, and `epoll_ctl` adds a descriptor that
is not watched yet and deletes the ones that are watched. Arguments are of their C types, a descriptor is
in reach of `fd_table`, and no signal arrives while the table of signals is replaced. -/
def CallAllowed (s : System H) : Call H → Prop
  | .registerTimeout block clock secs usecs _ _ _ =>
    Free s.timeouts block ∧ Readable s.clock clock ∧ secs < 2 ^ 32 ∧ usecs < 2 ^ 32
  | .cancelTimeoutOne now _ _ _ => Readable s.clock (some now)
  | .depleteTimeout now block clock reqSecs reqUsecs handler eloopData userData
  | .replenishTimeout now block clock reqSecs reqUsecs handler eloopData userData =>
    Readable s.clock (some now) ∧ Readable now clock ∧ reqSecs < 2 ^ 32 ∧ reqUsecs < 2 ^ 32 ∧
      ∀ n t, s.timeouts.cancelTimeout handler eloopData userData = some (n, t) → Free t block
  | .registerSock sock _ _ _ _ env => Reach s.socks sock ∧ (env.ctl = true → sock ∉ s.socks.interest)
  | .unregisterSock sock _ ctl => ctl = true ↔ sock ∈ s.socks.interest
  | .registerSignal _ _ _ _ early late => early = [] ∧ late = [] ∧ s.signals.signals.length < intMax
  | .cancelTimeout _ _ _ | .close _ | .terminate => True

/-- A signal is handled once it is registered, while its counters are below `INT_MAX`. `epoll_wait` reports descriptors
that are watched. -/
def Allowed (s : System H) : Event H → Prop
  | .signal sig => (∃ x ∈ s.signals.signals, x.sig = sig) ∧ Room s.signals sig
  | .call c => Running s ∧ CallAllowed s c
  | .run => s.control = .outside
  | .advance i => ¬ Running s ∧ Readable s.clock (some i.now) ∧
      ∀ events, i.epoll = .ok events → ∀ fd ∈ events, fd ∈ s.socks.interest
  | .ret => ∃ back, s.control = .handler back

instance (s : System H) : Decidable (Running s) :=
  decidable_of_iff (s.control.idle = true) (by unfold Running; cases s.control <;> simp [Control.idle])

instance (s : System H) : DecidablePred (CallAllowed s)
  | .registerTimeout _ _ _ _ _ _ _ => inferInstanceAs (Decidable (_ ∧ _ ∧ _ ∧ _))
  | .cancelTimeoutOne _ _ _ _ => inferInstanceAs (Decidable (Readable _ _))
  | .depleteTimeout _ block _ _ _ handler eloopData userData
  | .replenishTimeout _ block _ _ _ handler eloopData userData =>
    have : Decidable (∀ n t, s.timeouts.cancelTimeout handler eloopData userData = some (n, t) → Free t block) :=
      decidable_of_iff (∀ r ∈ s.timeouts.cancelTimeout handler eloopData userData, Free r.2 block)
        ⟨fun h n t heq => h (n, t) heq, fun h r heq => h r.1 r.2 heq⟩
    inferInstanceAs (Decidable (_ ∧ _ ∧ _ ∧ _ ∧ _))
  | .registerSock _ _ _ _ _ _ => inferInstanceAs (Decidable (_ ∧ (_ → _)))
  | .unregisterSock _ _ _ => inferInstanceAs (Decidable (_ ↔ _))
  | .cancelTimeout _ _ _ => .isTrue trivial
  | .close _ => .isTrue trivial
  | .registerSignal _ _ _ _ _ _ => inferInstanceAs (Decidable (_ ∧ _ ∧ _))
  | .terminate => .isTrue trivial

instance (s : System H) : DecidablePred (Allowed s)
  | .signal _ => inferInstanceAs (Decidable ((∃ x ∈ _, _) ∧ _))
  | .call _ => inferInstanceAs (Decidable (_ ∧ _))
  | .run => inferInstanceAs (Decidable (_ = _))
  | .advance i =>
    have : Decidable (∀ events, i.epoll = .ok events → ∀ fd ∈ events, fd ∈ s.socks.interest) :=
      decidable_of_iff (∀ fd ∈ i.epoll.toOption.getD [], fd ∈ s.socks.interest)
        (by cases i.epoll <;> simp [Except.toOption])
    inferInstanceAs (Decidable (_ ∧ _ ∧ _))
  | .ret => decidable_of_iff (s.control.idle = true ∧ s.control ≠ .outside)
      (by unfold Allowed; cases s.control <;> simp [Control.idle])

abbrev Runs : System H → List (Event H) → System H → Prop := Run fun s e t => Allowed s e ∧ s.exec e = some t

/-- The state that `es` leads to, unless one of them is not allowed. -/
def System.replay (s : System H) (es : List (Event H)) : Option (System H) :=
  es.foldlM (fun s e => if Allowed s e then s.exec e else none) s

theorem replay_runs {s t : System H} {es : List (Event H)} (h : s.replay es = some t) : Runs s es t :=
  Run.ofFold _ _ _ _ h

/-! ## Calls -/

theorem call_sane {p₀ : Plan H} {s : System H} (h : Sane p₀ s) (hrun : Running s) {c : Call H}
    (hc : CallAllowed s c) : ∃ s', s.call c = some s' ∧ Sane p₀ s' := by
  obtain ⟨l, hl, hplan⟩ := h.plan
  cases c with
  | registerTimeout block clock secs usecs handler eloopData userData =>
    obtain ⟨hb, hr, hsecs, husecs⟩ := hc
    obtain ⟨n, t', l', hcall, hl', hmoves⟩ := registerTimeout_moves hl hb hr hsecs husecs handler eloopData userData
    exact ⟨{ s with timeouts := t', clock := clock.getD s.clock }, by simp [System.call, hcall],
      h.setTimeouts hl' (hplan.trans hmoves)⟩
  | cancelTimeout handler eloopData userData =>
    obtain ⟨n, t', l', hcall, hl', hmoves⟩ := cancelTimeout_moves hl s.clock handler eloopData userData
    exact ⟨{ s with timeouts := t' }, by simp [System.call, hcall], h.setTimeouts hl' (hplan.trans hmoves)⟩
  | cancelTimeoutOne now handler eloopData userData =>
    obtain ⟨n, t', l', hcall, hl', hmoves⟩ := cancelTimeoutOne_moves hl hc handler eloopData userData
    exact ⟨{ s with timeouts := t', clock := now }, by simp [System.call, hcall],
      h.setTimeouts hl' (hplan.trans hmoves)⟩
  | depleteTimeout now block clock reqSecs reqUsecs handler eloopData userData =>
    obtain ⟨hnow, hr, hsecs, husecs, hb⟩ := hc
    obtain ⟨n, t', l', hcall, hl', hmoves⟩ := changeTimeout_moves osReltimeBefore hl hnow hr hsecs husecs hb
    exact ⟨{ s with timeouts := t', clock := clock.getD now },
      by simp [System.call, Timeouts.depleteTimeout, hcall], h.setTimeouts hl' (hplan.trans hmoves)⟩
  | replenishTimeout now block clock reqSecs reqUsecs handler eloopData userData =>
    obtain ⟨hnow, hr, hsecs, husecs, hb⟩ := hc
    obtain ⟨n, t', l', hcall, hl', hmoves⟩ := changeTimeout_moves
      (fun requested remaining => osReltimeBefore remaining requested) hl hnow hr hsecs husecs hb
    exact ⟨{ s with timeouts := t', clock := clock.getD now },
      by simp [System.call, Timeouts.replenishTimeout, hcall], h.setTimeouts hl' (hplan.trans hmoves)⟩
  | registerSock sock type handler eloopData userData env =>
    obtain ⟨n, socks, hcall, hs, hchange⟩ := addSock_spec h.registry hc.1 hc.2 type handler eloopData userData
    exact ⟨{ s with socks := socks }, by simp [System.call, hcall], h.setSocks hrun hs
      (hchange.imp_right fun hg => ⟨hg.changed, hg.all, fun _ _ hx => hg.leads hx⟩)⟩
  | unregisterSock sock type ctl =>
    obtain ⟨socks, hcall, hs, hchange⟩ := removeSock_spec h.registry type hc
    refine ⟨{ s with socks := socks }, by simp [System.call, hcall], h.setSocks hrun hs (hchange.imp_right ?_)⟩
    rintro rfl
    exact ⟨rfl, rfl, fun _ _ hx => hx⟩
  | close sock =>
    refine ⟨_, rfl, h.setSocks hrun
      ⟨h.registry.count, h.registry.room, h.registry.maxSock, h.registry.nodup.erase sock,
      fun fd hfd => ?_⟩ (.inr ⟨rfl, rfl, fun _ _ hx => ⟨hx.entry, hx.sock, hx.handler, hx.mem⟩⟩)⟩
    obtain ⟨x, hx⟩ := h.registry.watched fd (List.mem_of_mem_erase hfd)
    exact ⟨x, hx.entry, hx.sock, hx.handler, hx.mem⟩
  | registerSignal sig handler userData success early late =>
    obtain ⟨rfl, rfl, hroom⟩ := hc
    exact ⟨_, by simp [System.call, registerSignal_quiet _ _ _ _ hroom]; rfl, h.setSignals _⟩
  | terminate =>
    exact ⟨_, rfl, h.start, h.plan, h.registry, h.batch, fun hw => absurd hw hrun.ne_wait, h.quiet⟩

/-- Whatever may happen does not lead to undefined behaviour, and keeps the invariant. -/
theorem exec_sane {p₀ : Plan H} {s : System H} (h : Sane p₀ s) {e : Event H} (he : Allowed s e) :
    ∃ s', s.exec e = some s' ∧ Sane p₀ s' := by
  cases e with
  | signal sig =>
    obtain ⟨signals, hsignals⟩ := handleSignal_isSome he.2
    exact ⟨{ s with signals := signals }, by simp [System.exec, hsignals], h.setSignals signals⟩
  | call c => exact call_sane h he.1 he.2
  | run => exact ⟨_, rfl, h.start, h.plan, h.registry, fun _ hl => (nomatch hl), fun hw => (nomatch hw),
    fun _ hd => (nomatch hd)⟩
  | advance i => exact h.advance he.1 he.2.1 he.2.2
  | ret =>
    obtain ⟨back, hp⟩ := he
    exact h.ret hp

theorem run_sane {p₀ : Plan H} {s t : System H} (hs : Sane p₀ s) {es : List (Event H)} (h : Runs s es t) :
    Sane p₀ t := by
  refine Run.invariant (I := fun _ t => Sane p₀ t) hs (fun _ hsane hstep => ?_) h
  obtain ⟨s', hexec, hsane'⟩ := exec_sane hsane hstep.1
  rw [hstep.2] at hexec
  cases hexec
  exact hsane'

/-- The list that the memory holds starts with the timeout that `dl_list_first` gives. -/
theorem run_first {clock : OsReltime} {s : System H} {es : List (Event H)} (h : Runs (System.init clock) es s)
    {e : Nat × EloopTimeout H} (hfirst : s.timeouts.firstTimeout = some (some e)) :
    ∃ l, Holds s.timeouts (e :: l) := by
  obtain ⟨l, hl, -⟩ := (run_sane (init_sane clock) h).plan
  rw [firstTimeout_spec hl, Option.some.injEq] at hfirst
  obtain ⟨l, rfl⟩ := List.head?_eq_some_iff.mp hfirst
  exact ⟨l, hl⟩

end Steps

end Eloop
end Xlibc
