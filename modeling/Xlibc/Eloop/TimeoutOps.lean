import Mathlib.Data.Prod.Lex
import Mathlib.Order.Basic
import Xlibc.Base.Agenda
import Xlibc.Eloop.Timeout

/-!
# Xlibc.Eloop.TimeoutOps

What the functions on timeouts do to the list.

* `Holds t l` : the blocks of `l`, and no others, are allocated, and linked in this order.
* `registerTimeout_spec`, `cancelTimeout_spec`, `cancelTimeoutOne_spec`, `changeTimeout_spec`,
  `takeExpired_spec` : what the functions do to `l`.
* `osReltimeBefore_micros`, `osReltimeSub_micros`, `timeoutTime_spec` : what times mean.
-/

namespace Xlibc
namespace Eloop

open Xqueue

variable {H : Type}

/-! ## Time in order -/

/-- When a timeout is due, in the order of `os_reltime_before`. -/
def due (x : EloopTimeout H) : Int ×ₗ Int := toLex (x.time.sec, x.time.usec)

theorem osReltimeBefore_iff {a b : OsReltime} :
    osReltimeBefore a b = true ↔ (toLex (a.sec, a.usec) : Int ×ₗ Int) < toLex (b.sec, b.usec) := by
  simp [osReltimeBefore, Prod.Lex.toLex_lt_toLex]

/-- A time as a clock reads it. -/
structure OsReltime.Normal (a : OsReltime) : Prop where
  nonneg : 0 ≤ a.usec
  lt : a.usec < 1000000

def OsReltime.micros (a : OsReltime) : Int := a.sec * 1000000 + a.usec

theorem osReltimeBefore_micros {a b : OsReltime} (ha : a.Normal) (hb : b.Normal) :
    osReltimeBefore a b = true ↔ a.micros < b.micros := by
  obtain ⟨ha0, ha1⟩ := ha
  obtain ⟨hb0, hb1⟩ := hb
  simp only [osReltimeBefore, OsReltime.micros, Bool.or_eq_true, Bool.and_eq_true, decide_eq_true_eq, beq_iff_eq]
  omega

theorem osReltimeSub_micros {a b : OsReltime} (ha : a.Normal) (hb : b.Normal) :
    (osReltimeSub a b).Normal ∧ (osReltimeSub a b).micros = a.micros - b.micros := by
  obtain ⟨ha0, ha1⟩ := ha
  obtain ⟨hb0, hb1⟩ := hb
  by_cases hneg : a.usec - b.usec < 0
  · simp only [osReltimeSub, hneg, if_true, OsReltime.micros]
    exact ⟨⟨by simp only []; omega, by simp only []; omega⟩, by omega⟩
  · simp only [osReltimeSub, hneg, if_false, OsReltime.micros]
    exact ⟨⟨by simp only []; omega, by simp only []; omega⟩, by omega⟩

theorem carry_spec : ∀ {n : Nat} {time : OsReltime}, 0 ≤ time.usec → time.usec ≤ n →
    (carry n time).Normal ∧ (carry n time).micros = time.micros
  | 0, time, h0, hn => ⟨⟨h0, by simpa [carry] using lt_of_le_of_lt hn (by decide)⟩, rfl⟩
  | n + 1, time, h0, hn => by
    rw [carry]
    split
    · next hge =>
      obtain ⟨hnorm, hmicros⟩ := @carry_spec n ⟨time.sec + 1, time.usec - 1000000⟩
        (by simpa using hge) (by simp at hn ⊢; omega)
      refine ⟨hnorm, hmicros.trans ?_⟩
      simp [OsReltime.micros]
      omega
    · next hlt => exact ⟨⟨h0, by simpa using hlt⟩, rfl⟩

/-! ## The list -/

abbrev ptrs (l : List (Nat × EloopTimeout H)) : List Ptr := l.map fun e => .timeout e.1

structure Holds (t : Timeouts H) (l : List (Nat × EloopTimeout H)) : Prop where
  ring : IsXlist t.links .head (ptrs l)
  data : ∀ e ∈ l, t.blocks.lookup e.1 = some e.2
  owned : ∀ a, a ∈ t.blocks ↔ a ∈ l.map Prod.fst
  links : ∀ a, Ptr.timeout a ∈ t.links ↔ a ∈ t.blocks

theorem mem_ptrs {a : Nat} {l : List (Nat × EloopTimeout H)} :
    Ptr.timeout a ∈ Ptr.head :: ptrs l ↔ a ∈ l.map Prod.fst := by
  simp

theorem initTimeouts_holds : Holds (initTimeouts : Timeouts H) [] where
  ring := dlListInit_spec _ _
  data e he := (nomatch he)
  owned a := by simp [initTimeouts]
  links a := by simp [initTimeouts, dlListInit, -AList.insert_empty]

variable {t : Timeouts H} {l r : List (Nat × EloopTimeout H)} {a : Nat} {x : EloopTimeout H}

theorem Holds.length_le (h : Holds t l) : l.length ≤ t.blocks.entries.length := by
  have hnd : (l.map Prod.fst).Nodup := by
    have hring := (List.nodup_cons.mp h.ring.nodup).2
    rw [ptrs] at hring
    exact List.Nodup.of_map Ptr.timeout (by simpa [List.map_map, Function.comp_def] using hring)
  have hsub : ∀ b ∈ l.map Prod.fst, b ∈ t.blocks.keys := fun b hb => (h.owned b).mpr hb
  simpa [AList.keys, List.keys] using (hnd.subperm hsub).length_le

/-- The memory holds one list. -/
theorem Holds.unique (h : Holds t l) (h' : Holds t r) : l = r := by
  have hptrs : ptrs l = ptrs r := by
    have hlen : (ptrs l).length ≤ l.length + r.length := by simp
    have hlen' : (ptrs r).length ≤ l.length + r.length := by simp
    obtain ⟨p, hp, hwalk⟩ := h.ring.walk hlen
    obtain ⟨p', hp', hwalk'⟩ := h'.ring.walk hlen'
    obtain rfl : p = p' := Option.some.inj (hp.symm.trans hp')
    exact Option.some.inj (hwalk.symm.trans hwalk')
  have hfst : l.map Prod.fst = r.map Prod.fst := by
    have hinj : Function.Injective Ptr.timeout := fun a b hab => Ptr.timeout.inj hab
    apply List.map_injective_iff.mpr hinj
    simpa [List.map_map, Function.comp_def] using hptrs
  have hcell : ∀ {l : List (Nat × EloopTimeout H)}, Holds t l →
      l.map (fun e => (e.1, some e.2)) = (l.map Prod.fst).map fun a => (a, t.blocks.lookup a) := by
    intro l h
    rw [List.map_map]
    exact List.map_congr_left fun e he => by simp [h.data e he]
  have hinj : Function.Injective fun e : Nat × EloopTimeout H => (e.1, some e.2) := by
    rintro ⟨a, x⟩ ⟨b, y⟩ hab
    simpa using hab
  apply List.map_injective_iff.mpr hinj
  rw [hcell h, hcell h', hfst]

theorem linkTimeout_spec (hnew : Ptr.timeout a ∈ t.links) {fuel : Nat} {p : Ptr}
    (hring : IsXlist t.links .head (ptrs (l ++ r))) (hdata : ∀ e ∈ r, t.blocks.lookup e.1 = some e.2)
    (hfresh : a ∉ (l ++ r).map Prod.fst) (hp : (ptrs r ++ [Ptr.head]).head? = some p) (hfuel : r.length ≤ fuel) :
    ∃ links, t.linkTimeout a x.time fuel p = some links ∧
      IsXlist links .head (ptrs (l ++ enlist (fun e => due e.2) (a, x) r)) ∧ ∀ q, q ∈ links ↔
        q ∈ t.links := by
  induction r generalizing l fuel p with
  | nil =>
    obtain rfl : Ptr.head = p := by simpa using hp
    rw [List.append_nil] at hring hfresh
    obtain ⟨links, hadd, hring, hmem⟩ := dlListAddTail_spec hring hnew fun hmem => hfresh (mem_ptrs.mp hmem)
    exact ⟨links, by cases fuel <;> simp [Timeouts.linkTimeout, hadd], by simpa [ptrs, enlist] using hring, hmem⟩
  | cons e r ih =>
    obtain rfl : Ptr.timeout e.1 = p := by simpa using hp
    obtain ⟨fuel, rfl⟩ : ∃ n, fuel = n + 1 := ⟨fuel - 1, by simp at hfuel; omega⟩
    have hlookup := hdata e (by simp)
    rw [ptrs, List.map_append, List.map_cons] at hring
    by_cases hlt : osReltimeBefore x.time e.2.time = true
    · have hdue : due x < due e.2 := osReltimeBefore_iff.mp hlt
      obtain ⟨-, last, -, hlast⟩ := hring.links (p := .timeout e.1) (by simp)
      obtain ⟨links, hadd, hring, hmem⟩ := dlListAdd_spec hring rfl hlast hnew
        (fun hmem => hfresh (by simpa using hmem))
      exact ⟨links, by simp [Timeouts.linkTimeout, hlookup, hlt, hlast, hadd],
        by simpa [ptrs, enlist, hdue] using hring, hmem⟩
    · have hdue : ¬ due x < due e.2 := fun hd => hlt (osReltimeBefore_iff.mpr hd)
      obtain ⟨q, hq⟩ : ∃ q, (ptrs r ++ [Ptr.head]).head? = some q := by cases r <;> simp
      have hnext : nextOf t.links (.timeout e.1) = some q := by rw [hring.next_at, hq]
      obtain ⟨links, hlink, hring, hmem⟩ := ih (l := l ++ [e]) (by simpa [ptrs] using hring)
        (fun e' he' => hdata e' (List.mem_cons_of_mem _ he')) (by simpa using hfresh) hq (Nat.le_of_succ_le_succ hfuel)
      exact ⟨links, by simp [Timeouts.linkTimeout, hlookup, hlt, hnext, hlink],
        by simpa [enlist, hdue] using hring, hmem⟩

/-- A clock reading: a normal time that stays in the range of a `long` for every timeout behind it. -/
structure Clock (now : OsReltime) : Prop extends OsReltime.Normal now where
  nonneg_sec : 0 ≤ now.sec
  sec_lt : now.sec < 2 ^ 62

theorem timeoutTime_spec {now : OsReltime} (hnow : Clock now) {secs usecs : Nat} (hsecs : secs < 2 ^ 32)
    (husecs : usecs < 2 ^ 32) :
    ∃ time, timeoutTime now secs usecs = some (some time) ∧ time.Normal ∧
      time.micros = now.micros + secs * 1000000 + usecs := by
  obtain ⟨⟨hnonneg, hlt⟩, hsec0, hsec⟩ := hnow
  have hadd : addLong now.sec secs = some (now.sec + secs) := if_pos (by unfold longMax; omega)
  have hadd' : addLong now.usec usecs = some (now.usec + usecs) := if_pos (by unfold longMax; omega)
  have hnot : ¬ now.sec + secs < now.sec := by omega
  obtain ⟨hnorm, hmicros⟩ := @carry_spec (now.usec + usecs).toNat ⟨now.sec + secs, now.usec + usecs⟩
    (by simp only []; omega) (by simp only []; omega)
  generalize hcarry : carry (now.usec + usecs).toNat ⟨now.sec + secs, now.usec + usecs⟩ = time at hnorm hmicros
  simp only [OsReltime.micros] at hmicros
  -- the microseconds carry less than 2 ^ 32 seconds
  have hrange : time.sec ≤ longMax := by
    obtain ⟨hn0, hn1⟩ := hnorm
    unfold longMax
    omega
  exact ⟨time, by simp [timeoutTime, hadd, hnot, hadd', hcarry, hrange], hnorm,
    by simp only [OsReltime.micros]; omega⟩

theorem newTimeout_ring (h : Holds t l) (hal : a ∉ l.map Prod.fst) (x : EloopTimeout H) :
    IsXlist (t.newTimeout a x).links .head (ptrs l) := by
  have hne : ∀ p ∈ Ptr.head :: ptrs l, p ≠ .timeout a := fun p hp heq => hal (mem_ptrs.mp (heq ▸ hp))
  refine h.ring.frame (fun p hp => ?_) fun p hp => ?_
  · rw [Timeouts.newTimeout, nextOf_insert, Function.update_of_ne (hne p hp)]
  · rw [Timeouts.newTimeout, prevOf_insert, Function.update_of_ne (hne p hp)]

theorem newTimeout_lookup (h : Holds t l) (hal : a ∉ l.map Prod.fst) (x : EloopTimeout H) :
    ∀ e ∈ (a, x) :: l, (t.newTimeout a x).blocks.lookup e.1 = some e.2 := by
  intro e he
  rcases List.mem_cons.mp he with rfl | he
  · rw [Timeouts.newTimeout, AList.lookup_insert]
  · have hne : e.1 ≠ a := fun heq => hal (List.mem_map.mpr ⟨e, he, heq⟩)
    rw [Timeouts.newTimeout, AList.lookup_insert_ne hne, h.data e he]

theorem addTimeout_spec (h : Holds t l) (ha : a ∉ t.blocks) (x : EloopTimeout H) :
    ∃ t', t.addTimeout a x = some t' ∧ t'.log = t.log ++ [.registered x] ∧
      Holds t' (enlist (fun e => due e.2) (a, x) l) := by
  have hal : a ∉ l.map Prod.fst := fun hmem => ha ((h.owned a).mpr hmem)
  have hring := newTimeout_ring h hal x
  have hdata := newTimeout_lookup h hal x
  obtain ⟨p, hp⟩ : ∃ p, (ptrs l ++ [Ptr.head]).head? = some p := by cases l <;> simp
  have hnext : nextOf (t.newTimeout a x).links .head = some p := by rw [hring.next_head, hp]
  have hfuel : l.length ≤ (t.newTimeout a x).blocks.entries.length := by
    rw [Timeouts.newTimeout, AList.entries_insert_of_notMem ha]
    exact Nat.le_succ_of_le h.length_le
  obtain ⟨links, hlink, hring', hmem⟩ := linkTimeout_spec (t := t.newTimeout a x) (a := a) (x := x) (l := [])
    (by simp [Timeouts.newTimeout]) hring (fun e he => hdata e (List.mem_cons_of_mem _ he))
      (by simpa using hal) hp hfuel
  have hperm : ∀ e, e ∈ enlist (fun e => due e.2) (a, x) l ↔ e ∈ (a, x) :: l := fun e => by
    rw [mem_enlist, List.mem_cons]
  have hfst : ∀ b, b ∈ (enlist (fun e => due e.2) (a, x) l).map Prod.fst ↔ b = a ∨
    b ∈ l.map Prod.fst := fun b => by
    simp [hperm, eq_comm]
  refine ⟨{ t.newTimeout a x with links := links, log := t.log ++ [.registered x] }, ?_, rfl,
    hring', fun e he => hdata e ((hperm e).mp he), fun b => ?_, fun b => ?_⟩
  · simp only [Timeouts.addTimeout, hnext, Option.bind_eq_bind, Option.bind_some, hlink]
    rfl
  · rw [hfst, ← h.owned]
    exact AList.mem_insert _
  · rw [hmem]
    simp [Timeouts.newTimeout, h.links]

theorem registerTimeout_spec (h : Holds t l) (ha : a ∉ t.blocks) {now : OsReltime} (hnow : Clock now)
    {secs usecs : Nat}
    (hsecs : secs < 2 ^ 32) (husecs : usecs < 2 ^ 32) (handler : H) (eloopData userData : Nat) :
    ∃ time, time.Normal ∧ time.micros = now.micros + secs * 1000000 + usecs ∧
      ∃ t', t.registerTimeout (some a) (some now) secs usecs handler eloopData userData = some (0, t') ∧
        t'.log = t.log ++ [.registered ⟨time, eloopData, userData, handler, (registered t.log).length⟩] ∧
        Holds t' (enlist (fun e => due e.2)
          (a, ⟨time, eloopData, userData, handler, (registered t.log).length⟩) l) := by
  obtain ⟨time, htime, hnorm, hmicros⟩ := timeoutTime_spec hnow hsecs husecs
  obtain ⟨t', hadd, hlog, hholds⟩ := addTimeout_spec h ha
    ⟨time, eloopData, userData, handler, (registered t.log).length⟩
  exact ⟨time, hnorm, hmicros, t', by simp [Timeouts.registerTimeout, htime, hadd], hlog, hholds⟩

theorem removeTimeout_spec (h : Holds t (l ++ (a, x) :: r)) :
    ∃ t', t.removeTimeout a = some t' ∧ t'.log = t.log ∧ Holds t' (l ++ r) := by
  have hring := h.ring
  rw [ptrs, List.map_append, List.map_cons] at hring
  have hnd := (List.nodup_cons.mp hring.nodup).2
  -- the address is that of no other timeout
  have hal : ∀ e ∈ l ++ r, e.1 ≠ a := by
    intro e he heq
    have hmem : Ptr.timeout a ∈ ptrs l ++ ptrs r := by
      rw [← List.map_append]
      exact List.mem_map.mpr ⟨e, he, by rw [heq]⟩
    exact (List.nodup_middle.mp hnd).notMem hmem
  obtain ⟨links, hdel, hring', hmem⟩ := dlListDel_spec hring
  rw [← List.map_append] at hring'
  have hne : ∀ p ∈ Ptr.head :: ptrs (l ++ r), p ≠ .timeout a := by
    rintro p hp rfl
    obtain ⟨e, he, heq⟩ := List.mem_map.mp (mem_ptrs.mp hp)
    exact hal e he heq
  refine ⟨{ t with links := links.erase (.timeout a), blocks := t.blocks.erase a },
    by simp only [Timeouts.removeTimeout, hdel]; rfl, rfl, ?_, fun e he => ?_, fun b => ?_, fun b => ?_⟩
  · refine hring'.frame (fun p hp => ?_) fun p hp => ?_
    · rw [nextOf, AList.lookup_erase_ne (hne p hp), nextOf]
    · rw [prevOf, AList.lookup_erase_ne (hne p hp), prevOf]
  · rw [AList.lookup_erase_ne (hal e he)]
    exact h.data e (by simp only [List.mem_append, List.mem_cons] at he ⊢; tauto)
  · rw [AList.mem_erase, h.owned]
    constructor
    · rintro ⟨hb, hmem⟩
      simpa [hb] using hmem
    · intro hb
      obtain ⟨e, he, rfl⟩ := List.mem_map.mp hb
      exact ⟨hal e he,
        by simp only [List.map_append, List.map_cons, List.mem_append, List.mem_cons] at hb ⊢; tauto⟩
  · rw [AList.mem_erase, AList.mem_erase, hmem, h.links]
    simp

/-- The log says no more than what happened before. -/
theorem Holds.log (h : Holds t l) (log : List (Act H)) : Holds { t with log := log } l :=
  ⟨h.ring, h.data, h.owned, h.links⟩

theorem cancelLoop_spec (cond : EloopTimeout H → Bool) (removed : Int) {fuel : Nat} {p next : Ptr}
    (h : Holds t (l ++ r)) (hp : (ptrs r ++ [Ptr.head]).head? = some p) (hnext : nextOf t.links p = some next)
    (hfuel : r.length ≤ fuel) :
    ∃ t', Timeouts.cancelLoop cond fuel p next removed t =
        some (removed + ((r.filter fun e => cond e.2).length : Int), t') ∧
      t'.log = t.log ++ (r.filter fun e => cond e.2).map (fun e => .cancelled e.2) ∧
      Holds t' (l ++ r.filter fun e => !cond e.2) := by
  induction r generalizing l t fuel p next removed with
  | nil =>
    obtain rfl : Ptr.head = p := by simpa using hp
    exact ⟨t, by cases fuel <;> simp [Timeouts.cancelLoop], by simp, by simpa using h⟩
  | cons e r ih =>
    obtain ⟨a, x⟩ := e
    obtain rfl : Ptr.timeout a = p := by simpa using hp
    obtain ⟨fuel, rfl⟩ : ∃ n, fuel = n + 1 := ⟨fuel - 1, by simp at hfuel; omega⟩
    have hlookup : t.blocks.lookup a = some x := h.data (a, x) (by simp)
    have hring := h.ring
    rw [ptrs, List.map_append, List.map_cons] at hring
    have hq : (ptrs r ++ [Ptr.head]).head? = some next := by rw [← hring.next_at, hnext]
    have hstep : ∀ {t : Timeouts H} {l : List (Nat × EloopTimeout H)}, Holds t (l ++ r) →
        ∃ q, nextOf t.links next = some q := by
      intro t l h
      have hmem : next ∈ Ptr.head :: ptrs (l ++ r) := by
        rw [List.head?_eq_some_iff] at hq
        obtain ⟨_, hq⟩ := hq
        have hnr : next ∈ ptrs r ++ [Ptr.head] := by simp [hq]
        simp only [ptrs, List.map_append, List.mem_cons, List.mem_append] at hnr ⊢
        tauto
      obtain ⟨⟨q, -, hq⟩, -⟩ := h.ring.links hmem
      exact ⟨q, hq⟩
    by_cases hc : cond x = true
    · obtain ⟨t1, hremove, hlog, h1⟩ := removeTimeout_spec h
      obtain ⟨q, hnext'⟩ := hstep h1
      obtain ⟨t', hloop, hlog', h'⟩ := ih (removed + 1) (h1.log (t1.log ++ [.cancelled x])) hq hnext'
        (by simpa using hfuel)
      refine ⟨t', ?_, by simp [hlog', hlog, hc], by simpa [hc] using h'⟩
      simp [Timeouts.cancelLoop, hlookup, hc, hremove, hnext', hloop]
      omega
    · obtain ⟨q, hnext'⟩ := hstep (l := l ++ [(a, x)]) (by simpa using h)
      obtain ⟨t', hloop, hlog', h'⟩ := ih removed (l := l ++ [(a, x)]) (by simpa using h) hq hnext'
        (by simpa using hfuel)
      exact ⟨t', by simp [Timeouts.cancelLoop, hlookup, hc, hnext', hloop], by simp [hlog', hc],
        by simpa [hc] using h'⟩

theorem findTimeout_spec (cond : EloopTimeout H → Bool) {fuel : Nat} {p : Ptr} (h : Holds t (l ++ r))
    (hp : (ptrs r ++ [Ptr.head]).head? = some p) (hfuel : r.length ≤ fuel) :
    t.findTimeout cond fuel p = some (r.find? fun e => cond e.2) := by
  induction r generalizing l fuel p with
  | nil =>
    obtain rfl : Ptr.head = p := by simpa using hp
    cases fuel <;> simp [Timeouts.findTimeout]
  | cons e r ih =>
    obtain ⟨a, x⟩ := e
    obtain rfl : Ptr.timeout a = p := by simpa using hp
    obtain ⟨fuel, rfl⟩ : ∃ n, fuel = n + 1 := ⟨fuel - 1, by simp at hfuel; omega⟩
    have hlookup : t.blocks.lookup a = some x := h.data (a, x) (by simp)
    by_cases hc : cond x = true
    · simp [Timeouts.findTimeout, hlookup, hc]
    · have hring := h.ring
      rw [ptrs, List.map_append, List.map_cons] at hring
      obtain ⟨q, hq⟩ : ∃ q, (ptrs r ++ [Ptr.head]).head? = some q := by cases r <;> simp
      have hnext : nextOf t.links (.timeout a) = some q := by rw [hring.next_at, hq]
      have hrest := ih (l := l ++ [(a, x)]) (by simpa using h) hq (by simpa using hfuel)
      simp [Timeouts.findTimeout, hlookup, hc, hnext, hrest]

theorem find_spec (h : Holds t l) (cond : EloopTimeout H → Bool) :
    t.find cond = some (l.find? fun e => cond e.2) := by
  obtain ⟨p, hp⟩ : ∃ p, (ptrs l ++ [Ptr.head]).head? = some p := by cases l <;> simp
  have hfirst : nextOf t.links .head = some p := by rw [h.ring.next_head, hp]
  simp [Timeouts.find, hfirst, findTimeout_spec cond (l := []) h hp h.length_le]

theorem firstTimeout_spec (h : Holds t l) : t.firstTimeout = some l.head? := by
  have hnext := h.ring.next_head
  cases l with
  | nil =>
    have hfirst : nextOf t.links .head = some Ptr.head := by simpa using hnext
    simp [Timeouts.firstTimeout, hfirst]
  | cons e l =>
    have hfirst : nextOf t.links .head = some (Ptr.timeout e.1) := by simpa using hnext
    simp [Timeouts.firstTimeout, hfirst, h.data e (by simp)]

theorem takeExpired_spec (h : Holds t l) (now : OsReltime) :
    (t.takeExpired now = some (none, t) ∧ ∀ e ∈ l.head?, osReltimeBefore now e.2.time = true) ∨
      ∃ a x l', l = (a, x) :: l' ∧ ¬ osReltimeBefore now x.time = true ∧
        ∃ t', t.takeExpired now = some (some x, t') ∧ t'.log = t.log ++ [.fired x now] ∧ Holds t' l' := by
  have hfirst := firstTimeout_spec h
  cases l with
  | nil => exact .inl ⟨by simp [Timeouts.takeExpired, hfirst], by simp⟩
  | cons e l =>
    obtain ⟨a, x⟩ := e
    by_cases hlt : osReltimeBefore now x.time = true
    · exact .inl ⟨by simp [Timeouts.takeExpired, hfirst, hlt], by simpa using hlt⟩
    · obtain ⟨t', hremove, hlog, h'⟩ := removeTimeout_spec (l := []) h
      refine .inr ⟨a, x, l, rfl, hlt, { t' with log := t'.log ++ [.fired x now] }, ?_, by rw [hlog], h'.log _⟩
      simp [Timeouts.takeExpired, hfirst, hlt, hremove]

variable [DecidableEq H]

theorem cancelTimeout_spec (h : Holds t l) (handler : H) (eloopData userData : Nat) :
    ∃ t', t.cancelTimeout handler eloopData userData =
        some (((l.filter fun e => Timeouts.isCancelled handler eloopData userData e.2).length : Int), t') ∧
      t'.log = t.log ++ (l.filter fun e => Timeouts.isCancelled handler eloopData userData e.2).map
        (fun e => .cancelled e.2) ∧
      Holds t' (l.filter fun e => !Timeouts.isCancelled handler eloopData userData e.2) := by
  obtain ⟨p, hp⟩ : ∃ p, (ptrs l ++ [Ptr.head]).head? = some p := by cases l <;> simp
  have hfirst : nextOf t.links .head = some p := by rw [h.ring.next_head, hp]
  have hmem : p ∈ Ptr.head :: ptrs l := by cases l <;> simp_all
  obtain ⟨⟨q, -, hq⟩, -⟩ := h.ring.links hmem
  obtain ⟨t', hloop, hlog, h'⟩ := cancelLoop_spec (Timeouts.isCancelled handler eloopData userData) 0
    (l := []) h hp hq h.length_le
  exact ⟨t', by simp [Timeouts.cancelTimeout, hfirst, hq, hloop], hlog, h'⟩

theorem isTimeoutRegistered_spec (h : Holds t l) (handler : H) (eloopData userData : Nat) :
    t.isTimeoutRegistered handler eloopData userData =
      some (if ∃ e ∈ l, Timeouts.isSame handler eloopData userData e.2 = true then 1 else 0) := by
  simp only [Timeouts.isTimeoutRegistered, find_spec h, Option.bind_eq_bind, Option.bind_some]
  cases hfind : l.find? fun e => Timeouts.isSame handler eloopData userData e.2 with
  | none =>
    rw [if_neg]
    rintro ⟨e, he, hsame⟩
    exact List.find?_eq_none.mp hfind e he hsame
  | some e =>
    have hsame := List.find?_some hfind
    rw [if_pos ⟨e, List.mem_of_find?_eq_some hfind, hsame⟩]

theorem cancelTimeoutOne_spec (h : Holds t l) (now : OsReltime) (handler : H) (eloopData userData : Nat) :
    ((∀ e ∈ l, ¬ Timeouts.isSame handler eloopData userData e.2 = true) ∧
        t.cancelTimeoutOne now handler eloopData userData = some ((0, ⟨0, 0⟩), t)) ∨
      ∃ l₁ a x l₂, l = l₁ ++ (a, x) :: l₂ ∧ Timeouts.isSame handler eloopData userData x = true ∧
        (∀ e ∈ l₁, ¬ Timeouts.isSame handler eloopData userData e.2 = true) ∧
        ∃ t', t.cancelTimeoutOne now handler eloopData userData =
            some ((1, if osReltimeBefore now x.time then osReltimeSub x.time now else ⟨0, 0⟩), t') ∧
          t'.log = t.log ++ [.cancelled x] ∧ Holds t' (l₁ ++ l₂) := by
  have hfind := find_spec h (Timeouts.isSame handler eloopData userData)
  cases hf : l.find? fun e => Timeouts.isSame handler eloopData userData e.2 with
  | none =>
    refine .inl ⟨List.find?_eq_none.mp hf, ?_⟩
    simp [Timeouts.cancelTimeoutOne, hfind, hf]
  | some e =>
    obtain ⟨a, x⟩ := e
    obtain ⟨hx, l₁, l₂, rfl, hl₁⟩ := List.find?_eq_some_iff_append.mp hf
    obtain ⟨t', hremove, hlog, h'⟩ := removeTimeout_spec h
    refine .inr ⟨l₁, a, x, l₂, rfl, hx, fun e he => by simpa using hl₁ e he,
      { t' with log := t'.log ++ [.cancelled x] }, ?_, by rw [hlog], h'.log _⟩
    simp [Timeouts.cancelTimeoutOne, hfind, hf, hremove]

theorem changeTimeout_spec (change : OsReltime → OsReltime → Bool) (h : Holds t l) (now : OsReltime)
    {clock : OsReltime}
    (hclock : Clock clock) {reqSecs reqUsecs : Nat} (hsecs : reqSecs < 2 ^ 32) (husecs : reqUsecs < 2 ^ 32)
      {handler : H}
    {eloopData userData : Nat}
    (ha : ∀ e ∈ l, e.1 = a → Timeouts.isCancelled handler eloopData userData e.2 = true) :
    ((∀ e ∈ l, ¬ Timeouts.isSame handler eloopData userData e.2 = true) ∧
        Timeouts.changeTimeout change t now (some a) (some clock) reqSecs reqUsecs handler eloopData userData =
          some (-1, t)) ∨
      ∃ e, (l.find? fun e => Timeouts.isSame handler eloopData userData e.2) = some e ∧
        ((¬ change ⟨reqSecs, reqUsecs⟩ (osReltimeSub e.2.time now) = true ∧
            Timeouts.changeTimeout change t now (some a) (some clock) reqSecs reqUsecs handler eloopData userData =
              some (0, t)) ∨
          (change ⟨reqSecs, reqUsecs⟩ (osReltimeSub e.2.time now) = true ∧
            ∃ time, time.Normal ∧ time.micros = clock.micros + reqSecs * 1000000 + reqUsecs ∧
              ∃ t', Timeouts.changeTimeout change t now (some a) (some clock) reqSecs reqUsecs handler eloopData
                userData =
                  some (1, t') ∧
                t'.log = t.log ++ (l.filter fun e => Timeouts.isCancelled handler eloopData userData e.2).map
                    (fun e => .cancelled e.2) ++
                  [.registered ⟨time, eloopData, userData, handler, (registered t.log).length⟩] ∧
                Holds t' (enlist (fun e => due e.2)
                  (a, ⟨time, eloopData, userData, handler, (registered t.log).length⟩)
                  (l.filter fun e => !Timeouts.isCancelled handler eloopData userData e.2)))) := by
  have hfind := find_spec h (Timeouts.isSame handler eloopData userData)
  cases hf : l.find? fun e => Timeouts.isSame handler eloopData userData e.2 with
  | none => exact .inl ⟨List.find?_eq_none.mp hf, by simp [Timeouts.changeTimeout, hfind, hf]⟩
  | some e =>
    refine .inr ⟨e, rfl, ?_⟩
    by_cases hc : change ⟨reqSecs, reqUsecs⟩ (osReltimeSub e.2.time now) = true
    · obtain ⟨t1, hcancel, hlog, h1⟩ := cancelTimeout_spec h handler eloopData userData
      have hfree : a ∉ t1.blocks := by
        intro hmem
        obtain ⟨e', he', heq⟩ := List.mem_map.mp ((h1.owned a).mp hmem)
        obtain ⟨he', hnot⟩ := List.mem_filter.mp he'
        simp [ha e' he' heq] at hnot
      have hcount : (registered t1.log).length = (registered t.log).length := by
        rw [hlog, registered, registered, List.filterMap_append, List.filterMap_map]
        simp
      obtain ⟨time, hnorm, hmicros, t', hregister, hlog', h'⟩ :=
        registerTimeout_spec h1 hfree hclock hsecs husecs handler eloopData userData
      rw [hcount] at hlog' h'
      refine .inr ⟨hc, time, hnorm, hmicros, t', ?_, by rw [hlog', hlog], h'⟩
      simp [Timeouts.changeTimeout, hfind, hf, hc, hcancel, hregister]
    · exact .inl ⟨hc, by simp [Timeouts.changeTimeout, hfind, hf, hc]⟩

end Eloop
end Xlibc
