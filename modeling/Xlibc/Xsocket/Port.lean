import Xlibc.Base.CInt
import Xlibc.Base.Inet

/-!
# Xlibc.Xsocket.Port

`lookup_port`, and the `errno` it finds. `strtoul` sets `errno` when it fails and leaves it alone when it
does not, so what is tested behind it may be older than the call.

* `Numeral` : the digits of a port.
* `lookupPort_numeral` : the result for a numeral, by `errno` before the call.
* `lookupPort_exact` : the number itself if `errno` was 0.
-/

namespace Xlibc
namespace Xsocket

/-! ## The code -/

def ERANGE : Int := 34

/-- `strtoul(s, NULL, 10)` for an `unsigned long` of `w` bits, and `errno` behind it. -/
def strtoul10 (w : Nat) (s : List Byte) (errno : Int) : Nat × Int :=
  match scanNumber 10 s with
  | some (z, _) => if z.natAbs < 2 ^ w then ((z % 2 ^ w).toNat, errno) else (2 ^ w - 1, ERANGE)
  | none => (0, errno)

def ntohs (e : ByteOrder) (x : BitVec 16) : BitVec 16 :=
  match e with
  | .little => x.extractLsb' 0 8 ++ x.extractLsb' 8 8
  | .big => x

/-- The service database: `s_port` of an entry, and `errno` behind the search. -/
abbrev Services : Type := CString → Option CString → Int → Option (BitVec 16) × Int

/-- The port, and `errno` behind the call. A pointer that is `NULL` is `none`. -/
def lookupPort (w : Nat) (e : ByteOrder) (getservbyname : Services) (port protocol : Option CString)
    (defaultPort : Nat) (errno : Int) : Nat × Int :=
  match port with
  | none => (defaultPort, errno)
  | some port =>
    let oldErrno := errno
    let (val, errno) := strtoul10 w port.val errno
    let portNr := u32 val
    if errno ≠ 0 ∨ portNr ≤ 0 then
      let (tserv, _) := getservbyname port protocol errno
      match tserv with
      | some sPort => ((ntohs e sPort).toNat, oldErrno)
      | none => (defaultPort, oldErrno)
    else (portNr, oldErrno)

/-! ## Numerals -/

/-- Decimal digits of the value `n`. -/
def Numeral (port : CString) (n : Nat) : Prop :=
  port.val ≠ [] ∧ (∀ c ∈ port.val, isDigit 10 c = true) ∧ number 10 0 port.val = n

/-- There is no service with a number for a name. -/
def NoNumericName (getservbyname : Services) : Prop :=
  ∀ name protocol errno, (∀ c ∈ name.val, isDigit 10 c = true) → (getservbyname name protocol errno).1 = none

section Numeral

variable {w : Nat} {port : CString} {n : Nat}

theorem strtoul10_numeral (h : Numeral port n) (hn : n < 2 ^ w) (errno : Int) :
    strtoul10 w port.val errno = (n, errno) := by
  obtain ⟨hne, hdigits, hvalue⟩ := h
  have hend : ∀ c ∈ ([] : List Byte).head?, isDigit 10 c = false := by
    intro c hc
    cases hc
  have hscan := scanNumber_digits (.inl ⟨rfl, rfl⟩) (show 10 ≤ 36 by omega) hne hdigits hend rfl
  rw [List.nil_append, List.append_nil, hvalue, if_neg Bool.false_ne_true] at hscan
  simp only [strtoul10, hscan, Int.natAbs_natCast, hn, if_true, natCast_emod_two_pow hn, Int.toNat_natCast]

variable {e : ByteOrder} {getservbyname : Services} {protocol : Option CString} {defaultPort : Nat}

/-- The number is taken if `errno` is 0, and nothing else about the state matters. -/
theorem lookupPort_numeral (hw : 32 ≤ w) (hserv : NoNumericName getservbyname) (h : Numeral port n) (h1 : 1 ≤ n)
    (hn : n ≤ 65535) (errno : Int) :
    lookupPort w e getservbyname (some port) protocol defaultPort errno =
      (if errno = 0 then n else defaultPort, errno) := by
  have hlt : n < 2 ^ w := Nat.lt_of_lt_of_le (by omega) (Nat.pow_le_pow_right (show 0 < 2 by omega) hw)
  have hnone : ∀ errno, (getservbyname port protocol errno).1 = none := fun errno =>
    hserv port protocol errno h.2.1
  rw [lookupPort, strtoul10_numeral h hlt]
  simp only [u32_of_lt (show n < 2 ^ 32 by omega), show ¬ n ≤ 0 by omega, or_false]
  by_cases herr : errno = 0
  · simp only [herr, ne_eq, not_true_eq_false, if_false, if_true]
  · simp only [herr, ne_eq, not_false_eq_true, if_true, if_false, hnone]

/-- **Ports as numbers.** A number is returned as itself exactly if `errno` was 0, or the default happens to
be that number; two calls agree exactly if both or neither have an old error; `errno` is always left as it was. -/
theorem lookupPort_exact (hw : 32 ≤ w) (hserv : NoNumericName getservbyname) (h : Numeral port n) (h1 : 1 ≤ n)
    (hn : n ≤ 65535) :
    (∀ errno, lookupPort w e getservbyname (some port) protocol defaultPort errno = (n, errno) ↔
      errno = 0 ∨ defaultPort = n) ∧
    (∀ errno errno', (lookupPort w e getservbyname (some port) protocol defaultPort errno).1 =
        (lookupPort w e getservbyname (some port) protocol defaultPort errno').1 ↔
      ((errno = 0 ↔ errno' = 0) ∨ defaultPort = n)) ∧
    ∀ errno, (lookupPort w e getservbyname (some port) protocol defaultPort errno).2 = errno := by
  have hrun : ∀ errno, lookupPort w e getservbyname (some port) protocol defaultPort errno =
      (if errno = 0 then n else defaultPort, errno) := lookupPort_numeral hw hserv h h1 hn
  refine ⟨fun errno => ?_, fun errno errno' => ?_, fun errno => by rw [hrun]⟩
  · rw [hrun, Prod.mk.injEq]
    by_cases herr : errno = 0
    · simp [herr]
    · simp [herr]
  · rw [hrun, hrun]
    by_cases herr : errno = 0
    · by_cases herr' : errno' = 0
      · simp [herr, herr']
      · simp [herr, herr', eq_comm]
    · by_cases herr' : errno' = 0
      · simp [herr, herr']
      · simp [herr, herr']

end Numeral

/-- A database without entries. -/
def noServices : Services := fun _ _ errno => (none, errno)

theorem numeral_eighty : Numeral ⟨['8'.toUInt8, '0'.toUInt8], by decide⟩ 80 :=
  ⟨by decide, List.all_eq_true.mp rfl, rfl⟩

theorem lookupPort_exact_eighty :
    lookupPort 64 .little noServices (some ⟨['8'.toUInt8, '0'.toUInt8], by decide⟩) none 25 0 = (80, 0) :=
  ((lookupPort_exact (by omega) (fun _ _ _ _ => rfl) numeral_eighty (by omega) (by omega)).1 0).mpr (.inl rfl)

/-- With `ENOENT` left behind by an earlier call, port 80 is the default port. -/
theorem lookupPort_stale : ¬
    lookupPort 64 .little noServices (some ⟨['8'.toUInt8, '0'.toUInt8], by decide⟩) none 25 2 = (80, 2) := by
  rw [lookupPort_numeral (by omega) (fun _ _ _ _ => rfl) numeral_eighty (by omega) (by omega)]
  decide

end Xsocket
end Xlibc
