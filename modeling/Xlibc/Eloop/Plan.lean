import Mathlib.Data.List.Nodup
import Mathlib.Logic.Relation
import Xlibc.Eloop.TimeoutOps

/-!
# Xlibc.Eloop.Plan

What timeouts are for, without their memory. A plan lists the timeouts that are pending, what happened
before, and the time. Time goes on, a timeout is registered for a time to come, one is cancelled, or the
first one is fired once its time has come.

* `Ordered p` : those fired, followed by those pending, are the ones registered and not cancelled, by
  the time they are due, and by their registration where they are due at the same time.
* `Move.ordered` : every move keeps a plan ordered.
* `Move.served`  : no move puts a timeout before one whose time has come.
* `registerTimeout_moves`, `cancelTimeout_moves`, `cancelTimeoutOne_moves`, `changeTimeout_moves`,
  `takeExpired_moves` : the functions on the memory make moves of the plan.
-/

namespace Xlibc
namespace Eloop

variable {H : Type}

structure Plan (H : Type) where
  pending : List (EloopTimeout H)
  log : List (Act H)
  clock : OsReltime

def cancelled (log : List (Act H)) : List (EloopTimeout H) :=
  log.filterMap fun act => match act with
    | .cancelled x => some x
    | _ => none

def fired (log : List (Act H)) : List (EloopTimeout H) :=
  log.filterMap fun act => match act with
    | .fired x _ => some x
    | _ => none

inductive Move : Plan H → Plan H → Prop where
  | tick {p : Plan H} {now : OsReltime} (hnow : ¬ osReltimeBefore now p.clock = true) : Move p { p with clock := now }
  | register {p : Plan H} {x : EloopTimeout H} (hx : ¬ osReltimeBefore x.time p.clock = true)
      (hnear : x.time.Normal ∧ x.time.sec ≤ p.clock.sec + 2 ^ 33) (hserial : x.serial = (registered p.log).length) :
      Move p { p with pending := enlist due x p.pending, log := p.log ++ [.registered x] }
  | cancel {p : Plan H} {l r : List (EloopTimeout H)} {x : EloopTimeout H} (hp : p.pending = l ++ x :: r) :
      Move p { p with pending := l ++ r, log := p.log ++ [.cancelled x] }
  | fire {p : Plan H} {l : List (EloopTimeout H)} {x : EloopTimeout H} (hp : p.pending = x :: l)
      (hdue : ¬ osReltimeBefore p.clock x.time = true) :
      Move p { p with pending := l, log := p.log ++ [.fired x p.clock] }

/-- The timeouts that have been registered and not cancelled. -/
def standing (log : List (Act H)) : List (EloopTimeout H) :=
  (registered log).filter fun x => x.serial ∉ (cancelled log).map (·.serial)

structure Ordered (p : Plan H) : Prop where
  agenda : Agenda due (standing p.log) (fired p.log ++ p.pending)
  serials : (registered p.log).map (·.serial) = List.range (registered p.log).length
  cancelled_lt : ∀ x ∈ cancelled p.log, x.serial < (registered p.log).length
  past : ∀ x ∈ fired p.log, ¬ osReltimeBefore p.clock x.time = true
  onTime : ∀ x now, Act.fired x now ∈ p.log → ¬ osReltimeBefore now x.time = true
  near : ∀ x ∈ p.pending, x.time.Normal ∧ x.time.sec ≤ p.clock.sec + 2 ^ 33

/-! ## The log -/

section Log

variable (log : List (Act H)) (x : EloopTimeout H) (now : OsReltime)

@[simp] theorem registered_registered : registered (log ++ [.registered x]) = registered log ++ [x] := by
  simp [registered]
@[simp] theorem registered_cancelled : registered (log ++ [.cancelled x]) = registered log := by simp [registered]
@[simp] theorem registered_fired : registered (log ++ [.fired x now]) = registered log := by simp [registered]
@[simp] theorem cancelled_registered : cancelled (log ++ [.registered x]) = cancelled log := by simp [cancelled]
@[simp] theorem cancelled_cancelled : cancelled (log ++ [.cancelled x]) = cancelled log ++ [x] := by
  simp [cancelled]
@[simp] theorem cancelled_fired : cancelled (log ++ [.fired x now]) = cancelled log := by simp [cancelled]
@[simp] theorem fired_registered : fired (log ++ [.registered x]) = fired log := by simp [fired]
@[simp] theorem fired_cancelled : fired (log ++ [.cancelled x]) = fired log := by simp [fired]
@[simp] theorem fired_fired : fired (log ++ [.fired x now]) = fired log ++ [x] := by simp [fired]

end Log

/-! ## Moves -/

theorem not_before_trans {a b c : OsReltime} (hab : ¬ osReltimeBefore b a = true)
    (hbc : ¬ osReltimeBefore c b = true) :
    ¬ osReltimeBefore c a = true := by
  rw [osReltimeBefore_iff, not_lt] at *
  exact hab.trans hbc

theorem sec_le_of_not_before {a b : OsReltime} (h : ¬ osReltimeBefore b a = true) : a.sec ≤ b.sec := by
  simp only [osReltimeBefore, Bool.or_eq_true, decide_eq_true_eq, not_or, not_lt] at h
  exact h.1

namespace Ordered

variable {p : Plan H}

theorem init (clock : OsReltime) : Ordered (⟨[], [], clock⟩ : Plan H) where
  agenda := .nil
  serials := rfl
  cancelled_lt _ hx := (nomatch hx)
  past _ hx := (nomatch hx)
  onTime _ _ hx := (nomatch hx)
  near _ hx := (nomatch hx)

/-- No two of them are the same registration. -/
theorem nodup (h : Ordered p) : ((fired p.log ++ p.pending).map (·.serial)).Nodup := by
  have hperm := h.agenda.perm.map (·.serial)
  have hsub : ((standing p.log).map (·.serial)).Sublist ((registered p.log).map (·.serial)) :=
    List.filter_sublist.map _
  rw [h.serials] at hsub
  exact hperm.nodup_iff.mpr (List.nodup_range.sublist hsub)

theorem serial_lt (h : Ordered p) {x : EloopTimeout H} (hx : x ∈ fired p.log ++ p.pending) :
    x.serial < (registered p.log).length := by
  have hmem := (List.mem_filter.mp (h.agenda.mem.mp hx)).1
  have hser : x.serial ∈ (registered p.log).map (·.serial) := List.mem_map.mpr ⟨x, hmem, rfl⟩
  rwa [h.serials, List.mem_range] at hser

end Ordered

theorem Move.ordered {p q : Plan H} (hm : Move p q) (h : Ordered p) : Ordered q := by
  cases hm with
  | tick hnow =>
    refine ⟨h.agenda, h.serials, h.cancelled_lt, fun x hx => not_before_trans (h.past x hx) hnow, h.onTime,
      fun x hx => ?_⟩
    obtain ⟨hnorm, hsec⟩ := h.near x hx
    exact ⟨hnorm, hsec.trans (Int.add_le_add_right (sec_le_of_not_before hnow) _)⟩
  | @register x hx hnear hserial =>
    refine ⟨?_, ?_, fun y hy => ?_, fun y hy => ?_, fun y now hy => ?_, fun y hy => ?_⟩
    · have hno : x.serial ∉ (cancelled p.log).map (·.serial) := by
        intro hmem
        obtain ⟨y, hy, heq⟩ := List.mem_map.mp hmem
        have hlt := h.cancelled_lt y hy
        omega
      have hlate : ∀ y ∈ fired p.log, ¬ due x < due y := fun y hy hlt =>
        not_before_trans (h.past y hy) hx (osReltimeBefore_iff.mpr hlt)
      have hstanding : standing (p.log ++ [.registered x]) = standing p.log ++ [x] := by
        simp only [standing, registered_registered, cancelled_registered, List.filter_append]
        rw [List.filter_cons_of_pos (by simpa using hno), List.filter_nil]
      rw [hstanding, fired_registered, ← enlist_append _ hlate]
      exact h.agenda.arrive x
    · simp [h.serials, hserial, List.range_succ]
    · have hlt := h.cancelled_lt y (by simpa using hy)
      simp only [registered_registered, List.length_append, List.length_singleton]
      omega
    · exact h.past y (by simpa using hy)
    · exact h.onTime y now (by simpa using hy)
    · rcases mem_enlist.mp hy with rfl | hy
      · exact hnear
      · exact h.near y hy
  | @cancel l r x hp =>
    refine ⟨?_, by simpa using h.serials, fun y hy => ?_, fun y hy => h.past y (by simpa using hy),
      fun y now hy => h.onTime y now (by simpa using hy), fun y hy => h.near y ?_⟩
    · have hstanding : standing (p.log ++ [.cancelled x]) =
        (standing p.log).filter fun y => y.serial ≠ x.serial := by
        simp only [standing, registered_cancelled, cancelled_cancelled, List.filter_filter]
        refine List.filter_congr fun y _ => ?_
        by_cases hy : y.serial = x.serial <;> simp [hy]
      have hnd := h.nodup
      rw [hp, ← List.append_assoc, List.map_append, List.map_cons] at hnd
      have hother : ∀ y ∈ (fired p.log ++ l) ++ r, y.serial ≠ x.serial := by
        intro y hy heq
        refine (List.nodup_middle.mp hnd).notMem ?_
        rw [← List.map_append, ← heq]
        exact List.mem_map.mpr ⟨y, hy, rfl⟩
      have hrest : (fired p.log ++ p.pending).filter (fun y => y.serial ≠ x.serial) = fired p.log ++ (l ++ r) := by
        rw [hp, ← List.append_assoc, ← List.append_assoc, List.filter_append, List.filter_cons_of_neg (by simp),
          ← List.filter_append]
        exact List.filter_eq_self.mpr fun y hy => by simpa using hother y hy
      rw [hstanding, fired_cancelled, ← hrest]
      exact h.agenda.filter _
    · simp only [cancelled_cancelled, List.mem_append, List.mem_singleton] at hy
      rcases hy with hy | rfl
      · simpa using h.cancelled_lt y hy
      · simpa using h.serial_lt (x := y) (by simp [hp])
    · rw [hp]
      simp only [List.mem_append, List.mem_cons] at hy ⊢
      tauto
  | @fire l x hp hdue =>
    refine ⟨?_, by simpa using h.serials, fun y hy => ?_, fun y hy => ?_, fun y now hy => ?_, fun y hy => ?_⟩
    · have hagenda := h.agenda
      rw [hp] at hagenda
      simpa [standing] using hagenda
    · simpa using h.cancelled_lt y (by simpa using hy)
    · simp only [fired_fired, List.mem_append, List.mem_singleton] at hy
      rcases hy with hy | rfl
      · exact h.past y hy
      · exact hdue
    · simp only [List.mem_append, List.mem_singleton, Act.fired.injEq] at hy
      rcases hy with hy | ⟨rfl, rfl⟩
      · exact h.onTime y now hy
      · exact hdue
    · exact h.near y (by rw [hp]; exact List.mem_cons_of_mem _ hy)

/-- A timeout whose time has come: it is pending behind no other timeouts than before, or it is done. -/
def Served (x : EloopTimeout H) (l : List (EloopTimeout H)) (q : Plan H) : Prop :=
  x ∈ fired q.log ∨ x ∈ cancelled q.log ∨ ∃ l' r', q.pending = l' ++ x :: r' ∧ l'.Sublist l

theorem Move.served {p q : Plan H} (hm : Move p q) (h : Ordered p) {x : EloopTimeout H} {l : List (EloopTimeout H)}
    (hdue : ¬ osReltimeBefore p.clock x.time = true) (hx : Served x l p) :
    ¬ osReltimeBefore q.clock x.time = true ∧ Served x l q := by
  rcases hx with hx | hx | ⟨l', r', hp, hsub⟩
  · cases hm with
    | tick hnow => exact ⟨not_before_trans hdue hnow, .inl hx⟩
    | register | cancel | fire => exact ⟨hdue, .inl (by simp [hx])⟩
  · cases hm with
    | tick hnow => exact ⟨not_before_trans hdue hnow, .inr (.inl hx)⟩
    | register | cancel | fire => exact ⟨hdue, .inr (.inl (by simp [hx]))⟩
  · cases hm with
    | tick hnow => exact ⟨not_before_trans hdue hnow, .inr (.inr ⟨l', r', hp, hsub⟩)⟩
    | @register y hy hnear hserial =>
      -- the new one is due no earlier than now, so it goes behind `x`
      have hordered : (l' ++ x :: r').Pairwise fun a b => due a ≤ due b :=
        hp ▸ (List.pairwise_append.mp h.agenda.ordered).2.1
      have hxy : ¬ due y < due x := fun hlt => not_before_trans hdue hy (osReltimeBefore_iff.mpr hlt)
      have hlate : ∀ z ∈ l' ++ [x], ¬ due y < due z := by
        intro z hz hlt
        rcases List.mem_append.mp hz with hz | hz
        · have hzx := (List.pairwise_append.mp hordered).2.2 z hz x (by simp)
          exact hxy (hlt.trans_le hzx)
        · exact hxy (List.mem_singleton.mp hz ▸ hlt)
      refine ⟨hdue, .inr (.inr ⟨l', enlist due y r', ?_, hsub⟩)⟩
      show enlist due y p.pending = _
      rw [hp, ← List.singleton_append, ← List.append_assoc, enlist_append r' hlate, List.append_assoc,
        List.singleton_append]
    | @cancel l₁ r₁ z hz =>
      refine ⟨hdue, ?_⟩
      rcases List.append_eq_append_iff.mp (hz.symm.trans hp) with ⟨as, rfl, has⟩ | ⟨bs, rfl, hbs⟩
      · cases as with
        | nil =>
          obtain ⟨rfl, -⟩ := List.cons.inj has
          exact .inr (.inl (by simp))
        | cons z' as =>
          obtain ⟨rfl, rfl⟩ := List.cons.inj has
          refine .inr (.inr ⟨l₁ ++ as, r', by simp, List.Sublist.trans ?_ hsub⟩)
          exact List.Sublist.append (.refl l₁) (List.sublist_cons_self z as)
      · cases bs with
        | nil =>
          obtain ⟨rfl, -⟩ := List.cons.inj hbs
          exact .inr (.inl (by simp))
        | cons x' bs =>
          obtain ⟨rfl, rfl⟩ := List.cons.inj hbs
          exact .inr (.inr ⟨l', bs ++ r₁, by simp, hsub⟩)
    | @fire l₁ z hz hlate =>
      refine ⟨hdue, ?_⟩
      cases l' with
      | nil =>
        obtain ⟨rfl, -⟩ := List.cons.inj (hz.symm.trans hp)
        exact .inl (by simp)
      | cons y l' =>
        obtain ⟨rfl, rfl⟩ := List.cons.inj (hz.symm.trans hp)
        exact .inr (.inr ⟨l', r', rfl, (List.sublist_cons_self z l').trans hsub⟩)

/-! ## The functions move the plan -/

abbrev Moves : Plan H → Plan H → Prop := Relation.ReflTransGen Move

theorem Moves.ordered {p q : Plan H} (hm : Moves p q) (h : Ordered p) : Ordered q := by
  induction hm with
  | refl => exact h
  | tail _ hstep ih => exact hstep.ordered ih

theorem Moves.served {p q : Plan H} (hm : Moves p q) (h : Ordered p) {x : EloopTimeout H} {l r : List (EloopTimeout H)}
    (hdue : ¬ osReltimeBefore p.clock x.time = true) (hx : p.pending = l ++ x :: r) : Served x l q := by
  suffices hboth : ¬ osReltimeBefore q.clock x.time = true ∧ Served x l q from hboth.2
  induction hm with
  | refl => exact ⟨hdue, .inr (.inr ⟨l, r, hx, .refl l⟩)⟩
  | tail hms hstep ih => exact hstep.served (Moves.ordered hms h) ih.1 ih.2

/-- The plan of the timeouts in a list, at the time `clock`. -/
def planOf (t : Timeouts H) (l : List (Nat × EloopTimeout H)) (clock : OsReltime) : Plan H :=
  ⟨l.map Prod.snd, t.log, clock⟩

/-- A reading of the clock, if there is one: it never goes back. -/
def Readable (clock : OsReltime) (reading : Option OsReltime) : Prop :=
  ∀ now ∈ reading, Clock now ∧ ¬ osReltimeBefore now clock = true

/-- What `os_zalloc` returned is not in use. -/
def Free (t : Timeouts H) (block : Option Nat) : Prop := ∀ a ∈ block, a ∉ t.blocks

instance (now : OsReltime) : Decidable (Clock now) :=
  decidable_of_iff ((0 ≤ now.usec ∧ now.usec < 1000000) ∧ 0 ≤ now.sec ∧ now.sec < 2 ^ 62)
    ⟨fun ⟨⟨h, h'⟩, hsec, hlt⟩ => ⟨⟨h, h'⟩, hsec, hlt⟩,
      fun ⟨⟨h, h'⟩, hsec, hlt⟩ => ⟨⟨h, h'⟩, hsec, hlt⟩⟩

instance (clock : OsReltime) (reading : Option OsReltime) : Decidable (Readable clock reading) :=
  inferInstanceAs (Decidable (∀ now ∈ reading, _))

instance (t : Timeouts H) (block : Option Nat) : Decidable (Free t block) :=
  inferInstanceAs (Decidable (∀ a ∈ block, _))

variable {t : Timeouts H} {l r : List (Nat × EloopTimeout H)} {clock : OsReltime}

theorem tick_moves (t : Timeouts H) (l : List (Nat × EloopTimeout H)) {reading : Option OsReltime}
    (hr : Readable clock reading) : Moves (planOf t l clock) (planOf t l (reading.getD clock)) := by
  cases reading with
  | none => exact .refl
  | some now => exact .single (.tick (hr now rfl).2)

theorem cancel_moves (cond : EloopTimeout H → Bool) (l r : List (EloopTimeout H)) (log : List (Act H))
    (clock : OsReltime) :
    Moves ⟨l ++ r, log, clock⟩ ⟨l ++ r.filter (!cond ·), log ++ (r.filter cond).map .cancelled, clock⟩ := by
  induction r generalizing l log with
  | nil => simpa using Relation.ReflTransGen.refl
  | cons x r ih =>
    by_cases hc : cond x = true
    · have hrest := ih l (log ++ [.cancelled x])
      refine .head (.cancel (l := l) (r := r) (x := x) rfl) ?_
      simpa [hc] using hrest
    · simpa [hc] using ih (l ++ [x]) log

theorem registerTimeout_moves (h : Holds t l) {block : Option Nat} {reading : Option OsReltime} (hb : Free t block)
    (hr : Readable clock reading) {secs usecs : Nat} (hsecs : secs < 2 ^ 32) (husecs : usecs < 2 ^ 32) (handler : H)
    (eloopData userData : Nat) :
    ∃ n t' l', t.registerTimeout block reading secs usecs handler eloopData userData = some (n, t') ∧
      Holds t' l' ∧
      Moves (planOf t l clock) (planOf t' l' (reading.getD clock)) := by
  have htick := tick_moves t l hr
  cases block with
  | none => exact ⟨-1, t, l, rfl, h, htick⟩
  | some a =>
    cases reading with
    | none => exact ⟨-1, t, l, rfl, h, htick⟩
    | some now =>
      obtain ⟨hnow, -⟩ := hr now rfl
      obtain ⟨time, hnorm, hmicros, t', hregister, hlog, h'⟩ :=
        registerTimeout_spec h (hb a rfl) hnow hsecs husecs handler eloopData userData
      refine ⟨0, t', _, hregister, h', htick.tail ?_⟩
      have hlate : ¬ osReltimeBefore time now = true := by
        rw [osReltimeBefore_micros hnorm hnow.toNormal]
        omega
      have hnear : time.Normal ∧ time.sec ≤ now.sec + 2 ^ 33 := by
        refine ⟨hnorm, ?_⟩
        obtain ⟨hn0, hn1⟩ := hnorm
        obtain ⟨hr0, hr1⟩ := hnow.toNormal
        unfold OsReltime.micros at hmicros
        omega
      have hmove := Move.register (p := planOf t l now)
        (x := ⟨time, eloopData, userData, handler, (registered t.log).length⟩) hlate hnear rfl
      simpa [planOf, hlog, enlist_map] using hmove

section Matching

variable [DecidableEq H]

theorem cancelTimeout_moves (h : Holds t l) (clock : OsReltime) (handler : H) (eloopData userData : Nat) :
    ∃ n t' l', t.cancelTimeout handler eloopData userData = some (n, t') ∧ Holds t' l' ∧
      Moves (planOf t l clock) (planOf t' l' clock) := by
  obtain ⟨t', hcancel, hlog, h'⟩ := cancelTimeout_spec h handler eloopData userData
  refine ⟨_, t', _, hcancel, h', ?_⟩
  have hmoves := cancel_moves (Timeouts.isCancelled handler eloopData userData) [] (l.map Prod.snd) t.log clock
  simpa [planOf, hlog, List.filter_map, Function.comp_def] using hmoves

theorem cancelTimeoutOne_moves (h : Holds t l) {now : OsReltime} (hr : Readable clock (some now)) (handler : H)
    (eloopData userData : Nat) :
    ∃ n t' l', t.cancelTimeoutOne now handler eloopData userData = some (n, t') ∧ Holds t' l' ∧
      Moves (planOf t l clock) (planOf t' l' now) := by
  have htick := tick_moves t l hr
  rcases cancelTimeoutOne_spec h now handler eloopData userData with
    ⟨-, hnone⟩ | ⟨l₁, a, x, l₂, rfl, -, -, t', hone, hlog, h'⟩
  · exact ⟨_, t, l, hnone, h, htick⟩
  · refine ⟨_, t', _, hone, h', htick.tail ?_⟩
    have hmove := Move.cancel (p := planOf t (l₁ ++ (a, x) :: l₂) now) (l := l₁.map Prod.snd)
      (r := l₂.map Prod.snd)
      (x := x) (by simp [planOf])
    simpa [planOf, hlog] using hmove

theorem changeTimeout_moves (change : OsReltime → OsReltime → Bool) (h : Holds t l) {now : OsReltime}
    {block : Option Nat}
    {reading : Option OsReltime} (hr : Readable clock (some now)) (hr' : Readable now reading) {reqSecs reqUsecs : Nat}
    (hsecs : reqSecs < 2 ^ 32) (husecs : reqUsecs < 2 ^ 32) {handler : H} {eloopData userData : Nat}
    (hb : ∀ n t', t.cancelTimeout handler eloopData userData = some (n, t') → Free t' block) :
    ∃ n t' l', Timeouts.changeTimeout change t now block reading reqSecs reqUsecs handler eloopData userData =
        some (n, t') ∧ Holds t' l' ∧ Moves (planOf t l clock) (planOf t' l' (reading.getD now)) := by
  have htick := tick_moves t l hr
  have hfind := find_spec h (Timeouts.isSame handler eloopData userData)
  have hstay : Moves (planOf t l clock) (planOf t l (reading.getD now)) := htick.trans (tick_moves t l hr')
  cases hf : l.find? fun e => Timeouts.isSame handler eloopData userData e.2 with
  | none => exact ⟨-1, t, l, by simp [Timeouts.changeTimeout, hfind, hf], h, hstay⟩
  | some e =>
    by_cases hc : change ⟨reqSecs, reqUsecs⟩ (osReltimeSub e.2.time now) = true
    · obtain ⟨n, t₁, l₁, hcancel, h₁, hmoves⟩ := cancelTimeout_moves h now handler eloopData userData
      obtain ⟨n', t', l', hregister, h', hmoves'⟩ :=
        registerTimeout_moves h₁ (hb n t₁ hcancel) hr' hsecs husecs handler eloopData userData
      exact ⟨1, t', l', by simp [Timeouts.changeTimeout, hfind, hf, hc, hcancel, hregister], h',
        htick.trans (hmoves.trans hmoves')⟩
    · exact ⟨0, t, l, by simp [Timeouts.changeTimeout, hfind, hf, hc], h, hstay⟩

end Matching

theorem takeExpired_moves (h : Holds t l) {now : OsReltime} (hr : Readable clock (some now)) :
    ∃ x t' l', t.takeExpired now = some (x, t') ∧ Holds t' l' ∧ Moves (planOf t l clock) (planOf t' l' now) := by
  have htick := tick_moves t l hr
  rcases takeExpired_spec h now with ⟨hnone, -⟩ | ⟨a, x, l', rfl, hdue, t', htake, hlog, h'⟩
  · exact ⟨none, t, l, hnone, h, htick⟩
  · refine ⟨some x, t', l', htake, h', htick.tail ?_⟩
    have hmove := Move.fire (p := planOf t ((a, x) :: l') now) (l := l'.map Prod.snd) (x := x) rfl hdue
    simpa [planOf, hlog] using hmove

end Eloop
end Xlibc
