import Mathlib.Algebra.Ring.Int.Defs
import Mathlib.Algebra.Ring.Nat
import Mathlib.Tactic.Common

/-!
# Xlibc.Base.Transfer

System calls that may transfer less than they are asked for, be interrupted, or fail, and the loops around
them. What the calls come back with is a schedule, one outcome for each call.

* `retry` : a call, made again as long as it is interrupted.
* `drain` : calls until everything is transferred.
* `Parts` : what is to be known of a call that transfers a part, `drain_result` of a loop of them.
* `Answers` : a call that comes back; `drain_returns` for a schedule that is long enough.
-/

namespace Xlibc

def EINTR : Int := 4

/-- A `ssize_t` of `w` bits. -/
def ssizeT (w : Nat) (z : Int) : Int := z.bmod (2 ^ w)

theorem ssizeT_of_lt {w n : Nat} (h : n < 2 ^ (w - 1)) : ssizeT w n = n := by
  have hpow : 2 ^ (w - 1) ≤ (2 ^ w + 1) / 2 := by
    cases w with
    | zero => simp
    | succ w =>
      rw [Nat.add_sub_cancel, Nat.pow_succ]
      omega
  exact Int.bmod_eq_of_le (by omega) (by omega)

/-- What a call comes back with: a count, if so many bytes are asked for, or a failure. -/
inductive Outcome where
  | count (n : Nat)
  | fail (errno : Int)

/-- An outcome that brings a transfer forward or ends it. -/
def Outcome.proceeds : Outcome → Bool
  | .count n => n ≠ 0
  | .fail errno => errno ≠ EINTR

universe u

/-- A call at an offset of a buffer, for a count: the result, `errno`, and what the call has changed. -/
abbrev Call (σ : Type u) : Type u := σ → Nat → Nat → Outcome → Option (Int × Int × σ)

section Loops

variable {σ : Type u}

/-- `do n = call(..); while (n < 0 && errno == EINTR)`. There is no result if the schedule ends first. -/
def retry (call : Call σ) (s : σ) (off count : Nat) : List Outcome → Option (Int × σ × List Outcome)
  | [] => none
  | outcome :: schedule => do
    let (n, errno, s) ← call s off count outcome
    if n < 0 ∧ errno = EINTR then retry call s off count schedule
    else some (n, s, schedule)

/-- `while (len)` with a call that transfers `cc` bytes of the `len` that are left. If some have been transferred
a failure is not reported; `stops` tells if a count of 0 ends the loop. Every round takes an outcome. -/
def drain (once : σ → Nat → Nat → List Outcome → Option (Int × σ × List Outcome)) (w : Nat) (stops : Bool) :
    Nat → σ → Nat → Nat → Int → List Outcome → Option (Int × σ × List Outcome)
  | fuel, s, off, len, total, schedule =>
    if len = 0 then some (total, s, schedule)
    else match fuel with
      | 0 => none
      | fuel + 1 => do
        let (cc, s, schedule) ← once s off len schedule
        if cc < 0 then
          if total ≠ 0 then some (total, s, schedule) else some (cc, s, schedule)
        else if stops ∧ cc = 0 then some (total, s, schedule)
        else drain once w stops fuel s (off + cc.toNat) (len - cc.toNat) (ssizeT w (total + cc)) schedule

/-- The call has transferred the `m` bytes it returns from `off` on, which `R off m` says, or failed and changed
nothing. Two transfers in a row are one. -/
structure Parts (call : Call σ) (size : σ → Nat) (R : Nat → Nat → σ → σ → Prop) : Prop where
  zero : ∀ off s, R off 0 s s
  trans : ∀ {off m n s s' s''}, R off m s s' → R (off + m) n s' s'' → R off (m + n) s s''
  kept : ∀ {off m s s'}, R off m s s' → size s' = size s
  result : ∀ {s off count outcome n errno s'}, call s off count outcome = some (n, errno, s') →
    off + count ≤ size s ∧ ((n = -1 ∧ s' = s) ∨ ∃ m : Nat, m ≤ count ∧ n = m ∧ R off m s s')

/-- The call comes back, and with a byte if it can. -/
structure Answers (call : Call σ) (size : σ → Nat) (stops : Bool) : Prop where
  fail : ∀ {s off count errno}, off + count ≤ size s → call s off count (.fail errno) = some (-1, errno, s)
  count : ∀ {s off count n}, off + count ≤ size s → count ≠ 0 → ∃ (m : Nat) (s' : σ),
    call s off count (.count n) = some ((m : Int), 0, s') ∧ (n ≠ 0 → m ≠ 0 ∨ stops = true)

variable {call : Call σ} {size : σ → Nat} {R : Nat → Nat → σ → σ → Prop} {w : Nat} {stops : Bool}
  {s s' : σ}
  {off count : Nat} {n : Int} {schedule schedule' : List Outcome}

/-- The interrupted calls have changed nothing. -/
theorem retry_result (hcall : Parts call size R) (h : retry call s off count schedule = some (n, s', schedule')) :
    off + count ≤ size s ∧ ((n = -1 ∧ s' = s) ∨ ∃ m : Nat, m ≤ count ∧ n = m ∧ R off m s s') := by
  induction schedule with
  | nil => cases h
  | cons outcome schedule ih =>
    rw [retry, Option.bind_eq_bind, Option.bind_eq_some_iff] at h
    obtain ⟨⟨n1, errno, s1⟩, hrun, h⟩ := h
    obtain ⟨hroom, hn⟩ := hcall.result hrun
    dsimp only at h
    split at h
    · next hintr =>
      obtain ⟨-, rfl⟩ | ⟨m, -, rfl, -⟩ := hn
      · exact ih h
      · omega
    · cases h
      exact ⟨hroom, hn⟩

/-- The loop, by induction on the rounds: `total` is how far the buffer pointer has come. -/
theorem drain_result (hcall : Parts call size R) {fuel len : Nat} (hsize : size s < 2 ^ (w - 1))
    (h : drain (retry call) w stops fuel s off len off schedule = some (n, s', schedule')) :
    (n = -1 ∧ off = 0 ∧ R off 0 s s') ∨ ∃ m : Nat, m ≤ len ∧ n = (off + m : Nat) ∧ R off m s s' := by
  induction fuel generalizing s off len schedule with
  | zero =>
    unfold drain at h
    split at h
    · cases h
      exact .inr ⟨0, Nat.zero_le len, rfl, hcall.zero off _⟩
    · cases h
  | succ fuel ih =>
    unfold drain at h
    split at h
    · cases h
      exact .inr ⟨0, Nat.zero_le len, rfl, hcall.zero off _⟩
    · dsimp only at h
      rw [Option.bind_eq_bind, Option.bind_eq_some_iff] at h
      obtain ⟨⟨cc, s1, schedule1⟩, honce, h⟩ := h
      obtain ⟨hroom, ⟨rfl, rfl⟩ | ⟨m, hm, rfl, hpart⟩⟩ := retry_result hcall honce
      · dsimp only at h
        rw [if_pos (by omega)] at h
        split at h
        · cases h
          exact .inr ⟨0, Nat.zero_le len, rfl, hcall.zero off _⟩
        · next hoff =>
          cases h
          exact .inl ⟨rfl, by omega, hcall.zero off _⟩
      · dsimp only at h
        rw [if_neg (by omega)] at h
        split at h
        · next hend =>
          obtain rfl : m = 0 := by omega
          cases h
          exact .inr ⟨0, Nat.zero_le len, rfl, hpart⟩
        · rw [Int.toNat_natCast, show (off : Int) + m = (off + m : Nat) by omega, ssizeT_of_lt (by omega)] at h
          obtain ⟨hn, hoff, hrest⟩ | ⟨m', hm', hn, hrest⟩ := ih (hcall.kept hpart ▸ hsize) h
          · obtain rfl : m = 0 := by omega
            exact .inl ⟨hn, by omega, hcall.trans hpart hrest⟩
          · exact .inr ⟨m + m', by omega, by rw [hn, Nat.add_assoc], hcall.trans hpart hrest⟩

theorem retry_returns (hans : Answers call size stops) (hroom : off + count ≤ size s) (hcount : count ≠ 0)
    (h : schedule.countP Outcome.proceeds ≠ 0) :
    ∃ n s' schedule', retry call s off count schedule = some (n, s', schedule') ∧
      schedule'.length < schedule.length ∧ (n < 0 ∨ (stops = true ∧ n = 0) ∨
        schedule.countP Outcome.proceeds ≤ schedule'.countP Outcome.proceeds + n.toNat) := by
  induction schedule with
  | nil => exact absurd rfl h
  | cons outcome schedule ih =>
    rw [List.countP_cons] at h
    cases outcome with
    | count k =>
      obtain ⟨m, s', hrun, hm⟩ := hans.count (n := k) hroom hcount
      refine ⟨m, s', schedule, ?_, Nat.lt_succ_self _, .inr ?_⟩
      · rw [retry, hrun, Option.bind_eq_bind, Option.bind_some]
        exact if_neg (by omega)
      · rw [List.countP_cons, Int.toNat_natCast]
        by_cases hk : k = 0
        · simp [Outcome.proceeds, hk]
        · obtain hm | hstops := hm hk
          · exact .inr (by split <;> omega)
          · by_cases hzero : m = 0
            · exact .inl ⟨hstops, by omega⟩
            · exact .inr (by split <;> omega)
    | fail errno =>
      by_cases hintr : errno = EINTR
      · obtain ⟨n, s', schedule', hrun, hlt, hn⟩ := ih (by simpa [Outcome.proceeds, hintr] using h)
        refine ⟨n, s', schedule', ?_, Nat.lt_succ_of_lt hlt, ?_⟩
        · rw [retry, hans.fail hroom, Option.bind_eq_bind, Option.bind_some]
          simpa [hintr] using hrun
        · simpa [List.countP_cons, Outcome.proceeds, hintr] using hn
      · refine ⟨-1, s, schedule, ?_, Nat.lt_succ_self _, .inl (by omega)⟩
        rw [retry, hans.fail hroom, Option.bind_eq_bind, Option.bind_some]
        simp [hintr]

theorem drain_returns (hcall : Parts call size R) (hans : Answers call size stops) {fuel len : Nat}
    (hroom : off + len ≤ size s) (total : Int) (hfuel : schedule.length ≤ fuel)
    (h : len ≤ schedule.countP Outcome.proceeds) :
    ∃ r, drain (retry call) w stops fuel s off len total schedule = some r := by
  induction fuel generalizing s off len total schedule with
  | zero =>
    have hle := List.countP_le_length (p := Outcome.proceeds) (l := schedule)
    exact ⟨_, by rw [drain, if_pos (by omega)]⟩
  | succ fuel ih =>
    by_cases hlen : len = 0
    · exact ⟨_, by rw [drain, if_pos hlen]⟩
    obtain ⟨cc, s', schedule', honce, hlt, hcc⟩ := retry_returns hans hroom hlen
      (show schedule.countP Outcome.proceeds ≠ 0 by omega)
    have hle : cc.toNat ≤ len ∧ size s' = size s := by
      obtain ⟨-, ⟨rfl, rfl⟩ | ⟨m, hm, rfl, hpart⟩⟩ := retry_result hcall honce
      · exact ⟨Nat.zero_le len, rfl⟩
      · exact ⟨hm, hcall.kept hpart⟩
    rw [drain, if_neg hlen]
    simp only [honce, Option.bind_eq_bind, Option.bind_some]
    split
    · split <;> exact ⟨_, rfl⟩
    · next hneg =>
      split
      · exact ⟨_, rfl⟩
      · next hstop =>
        obtain hneg' | hstop' | hleft := hcc
        · exact absurd hneg' hneg
        · exact absurd hstop' hstop
        · exact ih (by omega) _ (by omega) (by omega)

end Loops

end Xlibc
