import Xlibc.Eloop.Correct

/-!
# Xlibc.Eloop.Timers

The timeouts over whole runs of the event loop, with any calls of the application and any signals in
between.

* `eloop_no_fault`      : nothing that may happen leads to undefined behaviour.
* `eloop_timeouts`      : what has been fired and what is pending, in the order of the times.
* `eloop_no_overtaking` : a timeout whose time has come waits for those before it only.
* `eloop_wait`          : for how long `epoll_wait` is called.
* `eloop_change_timeout`   : when `eloop_deplete_timeout` and `eloop_replenish_timeout` replace a timeout.
-/

namespace Xlibc
namespace Eloop

variable {H : Type}

theorem poll_timeoutMs (s : System H) (epoll : Except Nat (List Nat)) : (s.poll epoll).timeoutMs = s.timeoutMs := by
  unfold System.poll
  split
  · rfl
  · cases epoll with
    | ok events => rfl
    | error errno =>
      simp only []
      split <;> rfl

variable [DecidableEq H] {clock : OsReltime} {s t : System H} {es : List (Event H)}

/-- A timeout of one second is registered, and `eloop_run` gets to `epoll_wait`. -/
def armed : List (Event Nat) :=
  [.call (.registerTimeout (some 5) (some ⟨1, 0⟩) 1 0 7 0 0), .run, .advance ⟨⟨1, 0⟩, .ok []⟩]

/-- **In every run, the timeouts fired so far, followed by those that are pending, are those registered and not
cancelled**, in the order of their times, and in the order of their registration where the times are equal.
None was fired early. -/
theorem eloop_timeouts (h : Runs (System.init clock) es s) :
    ∃ l, Holds s.timeouts l ∧
      Agenda due (standing s.timeouts.log) (fired s.timeouts.log ++ l.map Prod.snd) ∧
      ∀ x now, Act.fired x now ∈ s.timeouts.log → ¬ osReltimeBefore now x.time = true := by
  obtain ⟨l, hl, hordered⟩ := (run_sane (init_sane clock) h).ordered
  exact ⟨l, hl, hordered.agenda, hordered.onTime⟩

/-- A second later it has been called. -/
theorem eloop_timeouts_armed : ∃ s l, (System.init ⟨1, 0⟩).replay (armed ++
      [.advance ⟨⟨2, 0⟩, .ok []⟩, .advance ⟨⟨2, 0⟩, .ok []⟩, .advance ⟨⟨2, 0⟩, .ok []⟩]) =
        some s ∧
    fired s.timeouts.log = [⟨⟨2, 0⟩, 0, 0, 7, 0⟩] ∧ Holds s.timeouts l ∧
      Agenda due (standing s.timeouts.log) (fired s.timeouts.log ++ l.map Prod.snd) ∧
      ∀ x now, Act.fired x now ∈ s.timeouts.log → ¬ osReltimeBefore now x.time = true := by
  have hrun : ((System.init ⟨1, 0⟩).replay (armed ++
      [.advance ⟨⟨2, 0⟩, .ok []⟩, .advance ⟨⟨2, 0⟩, .ok []⟩, .advance ⟨⟨2, 0⟩, .ok []⟩])).map
      (fun s => fired s.timeouts.log) = some [⟨⟨2, 0⟩, 0, 0, 7, 0⟩] := by decide +kernel
  obtain ⟨s, hs, hfired⟩ := Option.map_eq_some_iff.mp hrun
  obtain ⟨l, h⟩ := eloop_timeouts (replay_runs hs)
  exact ⟨s, l, hs, hfired, h⟩

/-- **Once the clock has reached the time of a timeout, nothing gets before it**: it is fired or cancelled, or only some
of the timeouts that were before it still are. -/
theorem eloop_no_overtaking (h : Runs (System.init clock) es s) {l r : List (Nat × EloopTimeout H)} {a : Nat}
    {x : EloopTimeout H} (hl : Holds s.timeouts (l ++ (a, x) :: r)) (hdue : ¬ osReltimeBefore s.clock x.time = true)
    {es' : List (Event H)} (h' : Runs s es' t) :
    ∃ l', Holds t.timeouts l' ∧ (x ∈ fired t.timeouts.log ∨ x ∈ cancelled t.timeouts.log ∨
      ∃ before after, l'.map Prod.snd = before ++ x :: after ∧ before.Sublist (l.map Prod.snd)) := by
  have hsane := run_sane (init_sane clock) h
  obtain ⟨l₀, hl₀, hordered⟩ := hsane.ordered
  -- the list is the one that the memory holds
  obtain rfl : l₀ = l ++ (a, x) :: r := hl₀.unique hl
  have hstart : Sane (planOf s.timeouts (l ++ (a, x) :: r) s.clock) s :=
    ⟨hordered, ⟨_, hl, .refl⟩, hsane.registry, hsane.batch, hsane.going, hsane.quiet⟩
  obtain ⟨l', hl', hmoves⟩ := (run_sane hstart h').plan
  exact ⟨l', hl', hmoves.served hordered (l := l.map Prod.snd) (r := r.map Prod.snd) hdue (by simp [planOf])⟩

theorem eloop_no_overtaking_armed : ∃ s t l l',
    (System.init ⟨1, 0⟩).replay (armed ++ [.advance ⟨⟨2, 0⟩, .ok []⟩]) = some s ∧
    s.replay [.advance ⟨⟨2, 0⟩, .ok []⟩] = some t ∧
      Holds s.timeouts ((5, ⟨⟨2, 0⟩, 0, 0, 7, 0⟩) :: l) ∧
    Holds t.timeouts l' ∧ (⟨⟨2, 0⟩, 0, 0, 7, 0⟩ ∈ fired t.timeouts.log ∨
      ⟨⟨2, 0⟩, 0, 0, 7, 0⟩ ∈ cancelled t.timeouts.log ∨
      ∃ before after, l'.map Prod.snd = before ++ ⟨⟨2, 0⟩, 0, 0, 7, 0⟩ :: after ∧ before.Sublist []) := by
  have hrun : ((System.init ⟨1, 0⟩).replay (armed ++ [.advance ⟨⟨2, 0⟩, .ok []⟩])).any (fun s =>
      decide (¬ osReltimeBefore s.clock ⟨2, 0⟩ = true ∧
        s.timeouts.firstTimeout = some (some (5, ⟨⟨2, 0⟩, 0, 0, 7, 0⟩)) ∧
        (s.replay [.advance ⟨⟨2, 0⟩, .ok []⟩]).isSome = true)) = true := by decide +kernel
  obtain ⟨s, hs, hobs⟩ := (Option.any_eq_true _ _).mp hrun
  obtain ⟨hdue, hfirst, hstep⟩ := of_decide_eq_true hobs
  obtain ⟨t, ht⟩ := Option.isSome_iff_exists.mp hstep
  obtain ⟨l, hl⟩ := run_first (replay_runs hs) hfirst
  obtain ⟨l', hl', hserved⟩ := eloop_no_overtaking (replay_runs hs) (l := []) hl hdue (replay_runs ht)
  exact ⟨s, t, l, l', hs, ht, hl, hl', hserved⟩

/-- **The time that `epoll_wait` is given is that left to the first timeout, in whole milliseconds, as an `int`.** While
that is below 2 ^ 31 milliseconds, the wait ends before the time of any timeout, and less than a
millisecond before that of the first. -/
theorem eloop_wait (h : Runs (System.init clock) es s) (hc : s.control = .wait) {i : Input}
    (hi : Allowed s (.advance i)) (hexec : s.exec (.advance i) = some t) {l : List (Nat × EloopTimeout H)} {a : Nat}
    {x : EloopTimeout H} (hl : Holds s.timeouts ((a, x) :: l)) :
    t.timeoutMs = i32OfInt (max 0 (x.time.micros - i.now.micros) / 1000) ∧
      (x.time.micros - i.now.micros < 2 ^ 31 * 1000 →
        0 ≤ t.timeoutMs ∧ x.time.micros < i.now.micros + (t.timeoutMs + 1) * 1000 ∧
          ∀ e ∈ (a, x) :: l, i.now.micros + t.timeoutMs * 1000 ≤ max i.now.micros e.2.time.micros) := by
  have hsane := run_sane (init_sane clock) h
  obtain ⟨l₀, hl₀, hplan⟩ := hsane.plan
  obtain rfl : l₀ = (a, x) :: l := hl₀.unique hl
  have hordered := hplan.ordered hsane.start
  have hnear := fun e he => first_near hsane.start hi.2.1 hplan (e := e) he
  obtain ⟨hnorm, hsec⟩ : x.time.Normal ∧ x.time.sec ≤ i.now.sec + 2 ^ 33 := hnear (a, x) (by simp)
  have hms := waitMs_spec hnorm (hi.2.1 i.now rfl).1 hsec
  have hwait : s.wait i = some t := by simpa [System.exec, System.advance, hc] using hexec
  have ht : t.timeoutMs = i32OfInt (max 0 (x.time.micros - i.now.micros) / 1000) := by
    simp only [System.wait, System.nextTimeoutMs, firstTimeout_spec hl, List.head?_cons, Option.bind_eq_bind,
      Option.bind_some, hms, Option.some.injEq] at hwait
    rw [← hwait, poll_timeoutMs]
  refine ⟨ht, fun hshort => ?_⟩
  have hval : t.timeoutMs = max 0 (x.time.micros - i.now.micros) / 1000 := by
    rw [ht, i32OfInt, Int.bmod_eq_of_le] <;> omega
  refine ⟨by omega, by omega, fun e he => ?_⟩
  -- the first timeout is due no later than this one
  have hle : x.time.micros ≤ e.2.time.micros := by
    have hpair := (List.pairwise_append.mp hordered.agenda.ordered).2.1
    rcases List.mem_cons.mp he with rfl | he
    · exact le_rfl
    · have hdue := (List.pairwise_cons.mp hpair).1 e.2 (List.mem_map.mpr ⟨e, he, rfl⟩)
      have hbefore : ¬ osReltimeBefore e.2.time x.time = true :=
        fun hlt => not_lt.mpr hdue (osReltimeBefore_iff.mp hlt)
      rw [osReltimeBefore_micros (hnear e (List.mem_cons_of_mem _ he)).1 hnorm] at hbefore
      omega
  omega

theorem eloop_wait_armed : ∃ s t l, (System.init ⟨1, 0⟩).replay armed = some s ∧
    s.exec (.advance ⟨⟨1, 0⟩, .ok []⟩) = some t ∧
      Holds s.timeouts ((5, ⟨⟨2, 0⟩, 0, 0, 7, 0⟩) :: l) ∧
    t.timeoutMs = i32OfInt (max 0 (2000000 - 1000000) / 1000) ∧
    0 ≤ t.timeoutMs ∧ 2000000 < 1000000 + (t.timeoutMs + 1) * 1000 ∧
      ∀ e ∈ (5, ⟨⟨2, 0⟩, 0, 0, 7, 0⟩) :: l,
        1000000 + t.timeoutMs * 1000 ≤ max 1000000 e.2.time.micros := by
  have hrun : ((System.init ⟨1, 0⟩).replay armed).any (fun s => decide (s.control = .wait ∧
      Allowed s (.advance ⟨⟨1, 0⟩, .ok []⟩) ∧
        s.timeouts.firstTimeout = some (some (5, ⟨⟨2, 0⟩, 0, 0, 7, 0⟩)) ∧
      (s.exec (.advance ⟨⟨1, 0⟩, .ok []⟩)).isSome = true)) = true := by decide +kernel
  obtain ⟨s, hs, hobs⟩ := (Option.any_eq_true _ _).mp hrun
  obtain ⟨hc, hi, hfirst, hstep⟩ := of_decide_eq_true hobs
  obtain ⟨t, ht⟩ := Option.isSome_iff_exists.mp hstep
  obtain ⟨l, hl⟩ := run_first (replay_runs hs) hfirst
  obtain ⟨hms, hbounds⟩ := eloop_wait (replay_runs hs) hc hi ht hl
  exact ⟨s, t, l, hs, ht, hl, hms, hbounds (by decide)⟩

/-! ## Changing a timeout -/

/-- The timeouts of `l` with these arguments are replaced by one, in the block at `a`, that is due `secs` and `usecs`
after `clock`. -/
def Replaced (l : List (Nat × EloopTimeout H)) (a : Nat) (clock : OsReltime) (secs usecs : Nat) (handler : H)
    (eloopData userData : Nat) (t : Timeouts H) : Prop :=
  ∃ x : EloopTimeout H, x.handler = handler ∧ x.eloopData = eloopData ∧ x.userData = userData ∧
    x.time.micros = clock.micros + secs * 1000000 + usecs ∧
    Holds t (enlist (fun e => due e.2) (a, x)
      (l.filter fun e => !Timeouts.isCancelled handler eloopData userData e.2))

/-- What a change of the first timeout of `l` with these arguments returns, and where it leads: the timeout is replaced
if `p` holds of the microseconds left to it. -/
def Changed (p : Int → Prop) (now : OsReltime) (l : List (Nat × EloopTimeout H)) (a : Nat) (clock : OsReltime)
    (secs usecs : Nat) (handler : H) (eloopData userData : Nat) (t : Timeouts H) (n : Int) (t' : Timeouts H) : Prop :=
  n = -1 ∧ t' = t ∧ (∀ e ∈ l, ¬ Timeouts.isSame handler eloopData userData e.2 = true) ∨
    ∃ e, (l.find? fun e => Timeouts.isSame handler eloopData userData e.2) = some e ∧
      (n = 0 ∧ t' = t ∧ ¬ p (e.2.time.micros - now.micros) ∨
        n = 1 ∧ p (e.2.time.micros - now.micros) ∧ Replaced l a clock secs usecs handler eloopData userData t')

theorem changeTimeout_changed (change : OsReltime → OsReltime → Bool) (p : Int → Prop) {t : Timeouts H}
    {l : List (Nat × EloopTimeout H)} (hl : Holds t l) {now clock : OsReltime} (hclock : Clock clock)
      {a secs usecs : Nat}
    (hsecs : secs < 2 ^ 32) (husecs : usecs < 2 ^ 32) {handler : H} {eloopData userData : Nat}
    (hfree : ∀ n t', t.cancelTimeout handler eloopData userData = some (n, t') → Free t' (some a))
    (hp : ∀ e ∈ l, change ⟨secs, usecs⟩ (osReltimeSub e.2.time now) = true ↔
      p (e.2.time.micros - now.micros)) :
    ∃ n t', Timeouts.changeTimeout change t now (some a) (some clock) secs usecs handler eloopData userData =
        some (n, t') ∧ Changed p now l a clock secs usecs handler eloopData userData t n t' := by
  -- the block is free, or in use for one that is cancelled
  have ha : ∀ e ∈ l, e.1 = a → Timeouts.isCancelled handler eloopData userData e.2 = true := by
    rintro e he rfl
    by_contra hnot
    obtain ⟨t', hcancel, -, h'⟩ := cancelTimeout_spec hl handler eloopData userData
    refine hfree _ t' hcancel e.1 rfl ((h'.owned e.1).mpr ?_)
    exact List.mem_map.mpr ⟨e, List.mem_filter.mpr ⟨he, by simpa using hnot⟩, rfl⟩
  rcases changeTimeout_spec change hl now hclock hsecs husecs ha with
    ⟨hno, heq⟩ | ⟨e, hfind, ⟨hc, heq⟩ | ⟨hc, time, -, hmicros, t', heq, -, h'⟩⟩
  · exact ⟨-1, t, heq, .inl ⟨rfl, rfl, hno⟩⟩
  · have hmem := List.mem_of_find?_eq_some hfind
    exact ⟨0, t, heq, .inr ⟨e, hfind, .inl ⟨rfl, rfl, fun hpe => hc ((hp e hmem).mpr hpe)⟩⟩⟩
  · have hmem := List.mem_of_find?_eq_some hfind
    exact ⟨1, t', heq, .inr ⟨e, hfind, .inr ⟨rfl, (hp e hmem).mp hc, _, rfl, rfl, rfl, hmicros, h'⟩⟩⟩

/-- The time left of a timeout, against a number of seconds and of microseconds below a second. -/
theorem remaining_micros {time now : OsReltime} (htime : time.Normal) (hnow : now.Normal) (secs : Nat) {usecs : Nat}
    (husecs : usecs < 1000000) :
    (osReltimeBefore ⟨secs, usecs⟩ (osReltimeSub time now) = true ↔
        (secs * 1000000 + usecs : Int) < time.micros - now.micros) ∧
      (osReltimeBefore (osReltimeSub time now) ⟨secs, usecs⟩ = true ↔
        time.micros - now.micros < (secs * 1000000 + usecs : Int)) := by
  obtain ⟨hsub, hmicros⟩ := osReltimeSub_micros htime hnow
  have hreq : OsReltime.Normal ⟨secs, usecs⟩ := ⟨by simp only []; omega, by simp only []; omega⟩
  rw [osReltimeBefore_micros hreq hsub, osReltimeBefore_micros hsub hreq, hmicros]
  exact ⟨Iff.rfl, Iff.rfl⟩

variable {l : List (Nat × EloopTimeout H)} {now reading : OsReltime} {a secs usecs : Nat} {handler : H}
  {eloopData userData : Nat}

/-- **`eloop_deplete_timeout` replaces a timeout when less is asked for than is left, `eloop_replenish_timeout`
when more is**, if `usecs` is below a second and the allocator and the clock do not fail. They return 1 then, 0
where the timeout stays as it is, and -1 where there is none. -/
theorem eloop_change_timeout (h : Runs (System.init clock) es s) (hl : Holds s.timeouts l)
    (hc : CallAllowed s (.depleteTimeout now (some a) (some reading) secs usecs handler eloopData userData))
    (husecs : usecs < 1000000) :
    (∃ n t, s.timeouts.depleteTimeout now (some a) (some reading) secs usecs handler eloopData userData =
        some (n, t) ∧
      Changed (fun left => (secs * 1000000 + usecs : Int) < left) now l a reading secs usecs handler eloopData userData
        s.timeouts n t) ∧
    ∃ n t, s.timeouts.replenishTimeout now (some a) (some reading) secs usecs handler eloopData userData =
        some (n, t) ∧
      Changed (fun left => left < (secs * 1000000 + usecs : Int)) now l a reading secs usecs handler eloopData userData
        s.timeouts n t := by
  have hsane := run_sane (init_sane clock) h
  obtain ⟨l₀, hl₀, hplan⟩ := hsane.plan
  obtain rfl : l₀ = l := hl₀.unique hl
  obtain ⟨hnow, hr, hsecs, husecs', hfree⟩ := hc
  have hleft := fun e he => remaining_micros (first_near hsane.start hnow hplan (e := e) he).1
    (hnow now rfl).1.toNormal secs husecs
  exact ⟨changeTimeout_changed osReltimeBefore _ hl (hr reading rfl).1 hsecs husecs' hfree fun e he => (hleft e he).1,
    changeTimeout_changed (fun requested remaining => osReltimeBefore remaining requested) _ hl (hr reading rfl).1 hsecs
      husecs' hfree fun e he => (hleft e he).2⟩

theorem eloop_change_timeout_armed : ∃ s l, (System.init ⟨1, 0⟩).replay armed = some s ∧
    Holds s.timeouts ((5, ⟨⟨2, 0⟩, 0, 0, 7, 0⟩) :: l) ∧
    (∃ n t, s.timeouts.depleteTimeout ⟨1, 0⟩ (some 6) (some ⟨1, 0⟩) 0 500000 7 0 0 = some (n, t) ∧
      Changed (fun left => 0 * 1000000 + 500000 < left) ⟨1, 0⟩ ((5, ⟨⟨2, 0⟩, 0, 0, 7, 0⟩) :: l) 6
        ⟨1, 0⟩ 0 500000 7 0 0
        s.timeouts n t) ∧
    ∃ n t, s.timeouts.replenishTimeout ⟨1, 0⟩ (some 6) (some ⟨1, 0⟩) 0 500000 7 0 0 = some (n, t) ∧
      Changed (fun left => left < 0 * 1000000 + 500000) ⟨1, 0⟩ ((5, ⟨⟨2, 0⟩, 0, 0, 7, 0⟩) :: l) 6
        ⟨1, 0⟩ 0 500000 7 0 0
        s.timeouts n t := by
  have hrun : ((System.init ⟨1, 0⟩).replay armed).any (fun s => decide (
      s.timeouts.firstTimeout = some (some (5, ⟨⟨2, 0⟩, 0, 0, 7, 0⟩)) ∧
      CallAllowed s (.depleteTimeout ⟨1, 0⟩ (some 6) (some ⟨1, 0⟩) 0 500000 7 0 0))) = true := by decide +kernel
  obtain ⟨s, hs, hobs⟩ := (Option.any_eq_true _ _).mp hrun
  obtain ⟨hfirst, hc⟩ := of_decide_eq_true hobs
  obtain ⟨l, hl⟩ := run_first (replay_runs hs) hfirst
  exact ⟨s, l, hs, hl, eloop_change_timeout (replay_runs hs) hl hc (by decide)⟩

end Eloop
end Xlibc
