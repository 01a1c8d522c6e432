import Mathlib.Algebra.Ring.Int.Defs
import Mathlib.Algebra.Ring.Nat
import Mathlib.Tactic.Common

/-!
# Xlibc.Base.CInt

C's 32-bit `unsigned int` and `int`. An `unsigned` value is a `Nat` below `2^32`, an `int` is an
`Int`; every operation that may leave its type is written with one of these conversions.

* `u32`, `u32Sub` : unsigned results, reduced modulo `2^32`.
* `u32OfInt`, `i32OfNat` : the two conversions (`unsigned` to `int` wraps, as gcc defines it).
* `forInt`, `findInt`, `returnInt`, `forExit` : `for (int i = 0; i < n; i++)` with an `unsigned` bound
  `n`, running a body, searching an index, returning early, or running a body that may give up.
  Stepping `i` past `INT_MAX` is undefined, so such a loop has no result.
* `listExit` : `forExit` over the members of a list.
-/

namespace Xlibc

/-- The largest `int`. -/
def intMax : Nat := 2 ^ 31 - 1

/-- An unsigned result, reduced to 32 bits. -/
def u32 (n : Nat) : Nat := n % 2 ^ 32

/-- `a - b` on `unsigned` operands. -/
def u32Sub (a b : Nat) : Nat := (a + (2 ^ 32 - b % 2 ^ 32)) % 2 ^ 32

/-- An `int` operand converted to `unsigned`. -/
def u32OfInt (z : Int) : Nat := (z % 2 ^ 32).toNat

/-- An `unsigned` value converted to `int`. -/
def i32OfNat (n : Nat) : Int := if n % 2 ^ 32 < 2 ^ 31 then (n % 2 ^ 32 : Nat) else (n % 2 ^ 32 : Nat) - 2 ^ 32

theorem u32_of_lt {n : Nat} (h : n < 2 ^ 32) : u32 n = n := Nat.mod_eq_of_lt h

theorem u32Sub_of_le {a b : Nat} (hb : b ≤ a) (ha : a < 2 ^ 32) : u32Sub a b = a - b := by
  unfold u32Sub; omega

theorem u32OfInt_ofNat {n : Nat} (h : n < 2 ^ 32) : u32OfInt n = n := by
  unfold u32OfInt; omega

theorem i32OfNat_of_lt {n : Nat} (h : n < 2 ^ 31) : i32OfNat n = n := by
  unfold i32OfNat; rw [if_pos (by omega)]; omega

theorem i32OfNat_le (n : Nat) : i32OfNat n ≤ n := by
  unfold i32OfNat
  split <;> omega

/-- The conversion to an unsigned type of `w` bits keeps what fits. -/
theorem natCast_emod_two_pow {w n : Nat} (h : n < 2 ^ w) : (n : Int) % 2 ^ w = n :=
  Int.emod_eq_of_lt (Int.natCast_nonneg n) (by exact_mod_cast h)

theorem u32OfInt_i32OfNat (n : Nat) : u32OfInt (i32OfNat n) = u32 n := by
  unfold u32OfInt i32OfNat u32
  split <;> omega

universe u

/-- `for (int i = ..; i < n; i++) s = body(i, s)`, with `n - i` rounds left. -/
def forInt {σ : Type u} (body : Nat → σ → Option σ) : Nat → Nat → σ → Option σ
  | _, 0, s => some s
  | i, left + 1, s => do
    let s' ← body i s
    if i = intMax then none else forInt body (i + 1) left s'

/-- `for (int i = ..; i < n; i++) if (p(i)) break`, with `n - i` rounds left: the index found. -/
def findInt (p : Nat → Option Bool) : Nat → Nat → Option (Option Nat)
  | _, 0 => some none
  | i, left + 1 => do
    if ← p i then some (some i)
    else if i = intMax then none else findInt p (i + 1) left

/-- `for (int i = ..; i < n; i++)` with `n - i` rounds left, whose body may return a result from the
enclosing function. -/
def returnInt {ρ : Type u} (body : Nat → Option (Option ρ)) : Nat → Nat → Option (Option ρ)
  | _, 0 => some none
  | i, left + 1 => do
    match ← body i with
    | some r => some (some r)
    | none => if i = intMax then none else returnInt body (i + 1) left

/-- `for (int i = ..; i < n; i++) s = body(i, s)` with `n - i` rounds left, whose body may give up: the
enclosing function then returns without a state. -/
def forExit {σ : Type u} (body : Nat → σ → Option (Option σ)) : Nat → Nat → σ → Option (Option σ)
  | _, 0, s => some (some s)
  | i, left + 1, s => do
    match ← body i s with
    | none => some none
    | some s' => if i = intMax then none else forExit body (i + 1) left s'

/-- The same, one round for each member of a list. -/
def listExit {σ α : Type u} (f : σ → α → Option (Option σ)) : Nat → List α → σ → Option (Option σ)
  | _, [], s => some (some s)
  | i, x :: xs, s => do
    match ← f s x with
    | none => some none
    | some s' => if i = intMax then none else listExit f (i + 1) xs s'

/-- An `unsigned` bound past `INT_MAX` takes the counter past it, unless the body faults first. -/
theorem forInt_overflow {σ : Type u} {body : Nat → σ → Option σ} {left i : Nat} {s : σ}
    (hi : i ≤ intMax) (h : intMax < i + left) : forInt body i left s = none := by
  induction left generalizing i s with
  | zero => omega
  | succ left ih =>
    cases hb : body i s with
    | none => simp [forInt, hb]
    | some s' =>
      by_cases hmax : i = intMax
      · simp [forInt, hmax]
      · simpa [forInt, hb, hmax] using ih (by omega) (by omega)

/-- What a search passes over. -/
theorem findInt_skip {p : Nat → Option Bool} {n m : Nat} : ∀ {i : Nat}, i + n ≤ intMax →
    (∀ j, i ≤ j → j < i + n → p j = some false) → findInt p i (n + m) = findInt p (i + n) m := by
  induction n with
  | zero =>
    intro i _ _
    rw [Nat.zero_add, Nat.add_zero]
  | succ n ih =>
    intro i hmax hp
    have hi : i ≠ intMax := by omega
    have hfirst : findInt p i (n + m + 1) = findInt p (i + 1) (n + m) := by
      rw [findInt, hp i (Nat.le_refl i) (by omega), Option.bind_eq_bind, Option.bind_some,
        if_neg Bool.false_ne_true, if_neg hi]
    rw [show n + 1 + m = n + m + 1 by omega, hfirst,
      ih (by omega) fun j hj hlt => hp j (by omega) (by omega)]
    congr 1
    omega

/-- A search that does not end before `INT_MAX` overflows. -/
theorem findInt_overflow {p : Nat → Option Bool} {left i : Nat} (hp : ∀ j ≤ intMax, p j ≠ some true)
    (hi : i ≤ intMax) (h : intMax < i + left) : findInt p i left = none := by
  induction left generalizing i with
  | zero => omega
  | succ left ih =>
    cases hb : p i with
    | none => simp [findInt, hb]
    | some b =>
      cases b with
      | true => exact absurd hb (hp i hi)
      | false =>
        by_cases hmax : i = intMax
        · rw [findInt, hb, if_pos hmax]
          rfl
        · simpa [findInt, hb, hmax] using ih (by omega) (by omega)

/-- A loop below `INT_MAX` that keeps an invariant of the counter. -/
theorem forInt_invariant {σ : Type u} (body : Nat → σ → Option σ) (I : Nat → σ → Prop) (i left : Nat)
    {s : σ} (hmax : i + left ≤ intMax) (h0 : I i s)
    (hs : ∀ j s, i ≤ j → j < i + left → I j s → ∃ s', body j s = some s' ∧ I (j + 1) s') :
    ∃ s', forInt body i left s = some s' ∧ I (i + left) s' := by
  induction left generalizing i s with
  | zero => exact ⟨s, rfl, h0⟩
  | succ left ih =>
    obtain ⟨s1, hb, h1⟩ := hs i s (by omega) (by omega) h0
    have hi : i ≠ intMax := by omega
    obtain ⟨s', hrun, h'⟩ := ih (i + 1) (by omega) h1 fun j s hj hlt => hs j s (by omega) (by omega)
    refine ⟨s', by simp [forInt, hb, hi, hrun], ?_⟩
    rw [show i + (left + 1) = i + 1 + left by omega]
    exact h'

/-- A loop over the members of a list of lists, below `INT_MAX` of them, is one fold. -/
theorem forInt_foldlM {σ : Type u} {α : Type u} {body : Nat → σ → Option σ} {f : σ → α → Option σ} :
    ∀ (ls : List (List α)) (i : Nat) (s : σ), i + ls.length ≤ intMax →
      (∀ j l, ls[j]? = some l → ∀ s, body (i + j) s = l.foldlM f s) →
      forInt body i ls.length s = ls.flatten.foldlM f s := by
  intro ls
  induction ls with
  | nil => intro i s _ _; rfl
  | cons l ls ih =>
    intro i s hmax hbody
    rw [List.length_cons] at hmax
    have hi : i ≠ intMax := by omega
    have hl : body i s = l.foldlM f s := hbody 0 l rfl s
    rw [List.length_cons, forInt, hl, List.flatten_cons, List.foldlM_append]
    cases l.foldlM f s with
    | none => rfl
    | some s' =>
      simp only [Option.bind_eq_bind, Option.bind_some, if_neg hi]
      refine ih (i + 1) s' (by omega) fun j l' hl' => ?_
      rw [show i + 1 + j = i + (j + 1) by omega]
      exact hbody (j + 1) l' hl'

section Exit

variable {σ α : Type u} {f : σ → α → Option (Option σ)} {i : Nat} {x : α} {xs : List α} {s s' : σ}

theorem listExit_fault (h : f s x = none) : listExit f i (x :: xs) s = none := by
  rw [listExit, h]
  rfl

theorem listExit_exit (h : f s x = some none) : listExit f i (x :: xs) s = some none := by
  rw [listExit, h]
  rfl

theorem listExit_step (h : f s x = some (some s')) (hi : i ≠ intMax) :
    listExit f i (x :: xs) s = listExit f (i + 1) xs s' := by
  rw [listExit, h, Option.bind_eq_bind, Option.bind_some]
  exact if_neg hi

theorem listExit_last (h : f s x = some (some s')) : listExit f intMax (x :: xs) s = none := by
  rw [listExit, h, Option.bind_eq_bind, Option.bind_some]
  exact if_pos rfl

/-- A loop over the members of a list. -/
theorem forExit_list (body : Nat → σ → Option (Option σ)) :
    ∀ (l : List α) (i : Nat) (s : σ), (∀ j a, l[j]? = some a → ∀ s, body (i + j) s = f s a) →
      forExit body i l.length s = listExit f i l s := by
  intro l
  induction l with
  | nil => intro i s _; rfl
  | cons a l ih =>
    intro i s hbody
    have ha : body i s = f s a := hbody 0 a rfl s
    have hrest : ∀ s, forExit body (i + 1) l.length s = listExit f (i + 1) l s := fun s =>
      ih (i + 1) s fun j b hb => by
        rw [show i + 1 + j = i + (j + 1) by omega]
        exact hbody (j + 1) b hb
    rw [List.length_cons, forExit, ha, listExit]
    simp only [hrest]

/-- A bound past `INT_MAX` takes the counter past it, unless the body faults or gives up first. -/
theorem forExit_overflow {body : Nat → σ → Option (Option σ)} {left : Nat} :
    ∀ {i : Nat} {s : σ}, i ≤ intMax → intMax < i + left → forExit body i left s ≠ some (some s') := by
  induction left with
  | zero => intro i s hi h; omega
  | succ left ih =>
    intro i s hi h hrun
    rw [forExit] at hrun
    cases hb : body i s with
    | none =>
      rw [hb] at hrun
      cases hrun
    | some r =>
      rw [hb, Option.bind_eq_bind, Option.bind_some] at hrun
      cases r with
      | none => cases hrun
      | some s1 =>
        have hnext : (if i = intMax then none else forExit body (i + 1) left s1) = some (some s') := hrun
        by_cases hmax : i = intMax
        · rw [if_pos hmax] at hnext
          cases hnext
        · rw [if_neg hmax] at hnext
          exact ih (by omega) (by omega) hnext

end Exit

/-- The index found is one of those searched. -/
theorem findInt_lt {p : Nat → Option Bool} {i left k : Nat} (h : findInt p i left = some (some k)) :
    k < i + left := by
  induction left generalizing i with
  | zero => cases h
  | succ left ih =>
    rw [findInt] at h
    cases hb : p i with
    | none => rw [hb] at h; cases h
    | some b =>
      rw [hb] at h
      cases b with
      | true => cases h; omega
      | false =>
        by_cases hmax : i = intMax
        · simp [hmax] at h
        · have hrest := ih (by simpa [hmax] using h)
          omega

/-- Searching a list below `INT_MAX` elements finds its first match. -/
theorem findInt_list {α : Type u} {p : Nat → Option Bool} {q : α → Bool} :
    ∀ (l : List α) (i : Nat), i + l.length ≤ intMax →
      (∀ j a, l[j]? = some a → p (i + j) = some (q a)) →
      findInt p i l.length = some ((l.findIdx? q).map (i + ·)) := by
  intro l
  induction l with
  | nil => intro i _ _; rfl
  | cons a l ih =>
    intro i hmax hp
    have ha : p i = some (q a) := hp 0 a rfl
    rw [List.length_cons] at hmax
    cases hq : q a with
    | true => simp [findInt, ha, hq, List.findIdx?_cons]
    | false =>
      have hi : i ≠ intMax := by omega
      have hrest := ih (i + 1) (by omega) fun j b hb => by
        rw [show i + 1 + j = i + (j + 1) by omega]; exact hp (j + 1) b hb
      simp only [List.length_cons, findInt, ha, hq, Option.bind_eq_bind, Option.bind_some, hi,
        if_false, hrest, List.findIdx?_cons]
      cases l.findIdx? q with
      | none => rfl
      | some k => simp; omega

/-- A search that returns has found the first match, however long the list is. -/
theorem findInt_list_some {α : Type u} {p : Nat → Option Bool} {q : α → Bool} {r : Option Nat} :
    ∀ (l : List α) (i : Nat), (∀ j a, l[j]? = some a → p (i + j) = some (q a)) →
      findInt p i l.length = some r → r = (l.findIdx? q).map (i + ·) := by
  intro l
  induction l with
  | nil =>
    intro i _ h
    cases h
    rfl
  | cons a l ih =>
    intro i hp h
    have ha : p i = some (q a) := hp 0 a rfl
    rw [List.length_cons, findInt, ha, Option.bind_eq_bind, Option.bind_some] at h
    rw [List.findIdx?_cons]
    cases hq : q a with
    | true =>
      rw [hq, if_pos rfl] at h
      cases h
      rfl
    | false =>
      rw [hq, if_neg Bool.false_ne_true] at h
      split at h
      · cases h
      have hrest := ih (i + 1) (fun j b hb => by
        rw [show i + 1 + j = i + (j + 1) by omega]
        exact hp (j + 1) b hb) h
      rw [hrest]
      cases l.findIdx? q with
      | none => rfl
      | some k =>
        have hk : i + 1 + k = i + (k + 1) := by omega
        simp [hk]

end Xlibc
