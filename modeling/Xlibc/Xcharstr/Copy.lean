import Xlibc.Base.CInt
import Xlibc.Base.CStr

/-!
# Xlibc.Xcharstr.Copy

`xstrncpy` and `xstrncat`: a string into a block of `size` bytes, and another one behind it. The block
and the strings are different objects. The lengths are `size_t`, and go out as an `int`.

* `Holds` : the string at the start of a block and what is behind the first `size` bytes.
* `xstrncpy_spec`, `xstrncat_spec` : the two calls, for every size of the block.
* `appends_iff_length` : both in a row, which is as documented as long as the length fits in the return type.
-/

namespace Xlibc
namespace Xcharstr

/-! ## The code -/

/-- `for (; len < size && src[len] != '\0'; len++) dst[len] = src[len]`, with `size - len` rounds left. -/
def copyLoop (src : List Byte) : Nat → Nat → List Byte → Option (List Byte × Nat)
  | 0, len, dst => some (dst, len)
  | left + 1, len, dst => do
    let c ← src[len]?
    if c = 0 then some (dst, len)
    else do
      let dst ← storeBytes dst len [c]
      copyLoop src left (len + 1) dst

def xstrncpy (dst src : List Byte) (size : Nat) : Option (List Byte × Int) :=
  if size = 0 then some (dst, 0)
  else do
    let (dst, len) ← copyLoop src size 0 dst
    let len := if len = size then len - 1 else len
    let dst ← storeBytes dst len [0]
    some (dst, i32OfNat len)

/-- `while (n-- != 0 && *d != '\0') d++` -/
def findEnd (dst : List Byte) : Nat → Nat → Option Nat
  | 0, d => some d
  | n + 1, d => do
    let c ← dst[d]?
    if c ≠ 0 then findEnd dst n (d + 1) else some d

/-- `while (*s != '\0')`: the block, the place behind what has been appended, and `s - src`. -/
def appendLoop : List Byte → Nat → List Byte → Nat → Nat → Option (List Byte × Nat × Nat)
  | [], _, _, _, _ => none
  | c :: s, count, dst, d, n =>
    if c = 0 then some (dst, d, count)
    else if n ≠ 1 then do
      let dst ← storeBytes dst d [c]
      appendLoop s (count + 1) dst (d + 1) (n - 1)
    else appendLoop s (count + 1) dst d n

def xstrncat (dst src : List Byte) (siz : Nat) : Option (List Byte × Int) := do
  let dlen ← findEnd dst siz 0
  let n := siz - dlen
  if n = 0 then do
    let s ← cstr src
    some (dst, i32OfNat (dlen + s.length))
  else do
    let (dst, d, count) ← appendLoop src 0 dst dlen n
    let dst ← storeBytes dst d [0]
    some (dst, i32OfNat (dlen + count))

/-! ## What a block holds -/

/-- `dst` starts with `s` and a zero, and is as `old` is from `size` on. -/
structure Holds (old : List Byte) (size : Nat) (dst s : List Byte) : Prop where
  length : dst.length = old.length
  front : dst.take (s.length + 1) = s ++ [0]
  behind : dst.drop size = old.drop size

variable {old dst s : List Byte} {size : Nat}

theorem Holds.cstr (h : Holds old size dst s) (hs : (0 : Byte) ∉ s) : Xlibc.cstr dst = some s := by
  have hsplit := List.take_append_drop (s.length + 1) dst
  rw [h.front, List.append_assoc] at hsplit
  rw [← hsplit]
  exact cstr_append_zero hs

theorem Holds.terminate (hlen : dst.length = old.length) (hfront : dst.take s.length = s)
    (hbehind : dst.drop size = old.drop size) (hs : s.length < size) (hsize : size ≤ old.length) :
    ∃ dst', storeBytes dst s.length [0] = some dst' ∧ Holds old size dst' s := by
  obtain ⟨dst', hstore, hlen', htake⟩ := storeBytes_byte 0 (show s.length < dst.length by omega)
  refine ⟨dst', hstore, hlen'.trans hlen, ?_, ?_⟩
  · rw [htake, hfront]
  · rw [drop_storeBytes hstore (by rw [List.length_singleton]; omega), hbehind]

/-! ## Copying -/

variable {a b : List Byte} (rest : List Byte)

theorem copyLoop_spec (ha : (0 : Byte) ∉ a) : ∀ (left len : Nat) (dst : List Byte), len ≤ a.length →
    len + left ≤ dst.length → dst.take len = a.take len →
    ∃ dst', copyLoop (a ++ 0 :: rest) left len dst = some (dst', min a.length (len + left)) ∧
      dst'.length = dst.length ∧ dst'.take (min a.length (len + left)) = a.take (len + left) ∧
      dst'.drop (len + left) = dst.drop (len + left) := by
  intro left
  induction left with
  | zero =>
    intro len dst hlen _ htake
    have hmin : min a.length (len + 0) = len := by omega
    refine ⟨dst, by rw [copyLoop, hmin], rfl, by rw [hmin]; exact htake, rfl⟩
  | succ left ih =>
    intro len dst hlen hroom htake
    rw [copyLoop]
    rcases Nat.lt_or_ge len a.length with hlt | hge
    · have hread : (a ++ 0 :: rest)[len]? = some a[len] := by
        rw [List.getElem?_append_left hlt, List.getElem?_eq_getElem hlt]
      have hne : a[len] ≠ 0 := fun h0 => ha (h0 ▸ List.getElem_mem hlt)
      obtain ⟨dst1, hstore, hlen1, htake1⟩ := storeBytes_byte a[len] (show len < dst.length by omega)
      obtain ⟨dst', hrun, hlen', htake', hdrop'⟩ := ih (len + 1) dst1 hlt (by omega) (by
        rw [htake1, htake, List.take_append_getElem hlt])
      rw [hread, Option.bind_eq_bind, Option.bind_some, if_neg hne, hstore, Option.bind_eq_bind,
        Option.bind_some, hrun]
      rw [show len + 1 + left = len + (left + 1) by omega] at htake' hdrop' ⊢
      refine ⟨dst', rfl, hlen'.trans hlen1, htake', ?_⟩
      rw [hdrop', drop_storeBytes hstore (by rw [List.length_singleton]; omega)]
    · obtain rfl : len = a.length := by omega
      have hread : (a ++ 0 :: rest)[a.length]? = some 0 := by
        rw [List.getElem?_append_right (Nat.le_refl _), Nat.sub_self]
        rfl
      rw [hread, Option.bind_eq_bind, Option.bind_some, if_pos rfl, Nat.min_eq_left (by omega)]
      refine ⟨dst, rfl, rfl, ?_, rfl⟩
      rw [htake, List.take_length, List.take_of_length_le (by omega)]

theorem xstrncpy_spec (ha : (0 : Byte) ∉ a) (h1 : 1 ≤ size) (hsize : size ≤ old.length) :
    ∃ dst, xstrncpy old (a ++ 0 :: rest) size = some (dst, i32OfNat (a.take (size - 1)).length) ∧
      Holds old size dst (a.take (size - 1)) := by
  obtain ⟨dst, hrun, hlen, htake, hdrop⟩ :=
    copyLoop_spec rest ha size 0 old (Nat.zero_le _) (by omega) rfl
  rw [Nat.zero_add] at hrun htake hdrop
  have hstep : (if min a.length size = size then min a.length size - 1 else min a.length size) =
      (a.take (size - 1)).length := by
    rw [List.length_take]
    split <;> omega
  have hfront : dst.take (a.take (size - 1)).length = a.take (size - 1) := by
    have hle : (a.take (size - 1)).length ≤ min a.length size := by
      rw [List.length_take]
      omega
    rw [← Nat.min_eq_left hle, ← List.take_take, htake, List.take_take, List.length_take]
    rw [List.take_eq_take_iff]
    omega
  have hlt : (a.take (size - 1)).length < size := by
    rw [List.length_take]
    omega
  obtain ⟨dst', hstore, hholds⟩ := Holds.terminate hlen hfront hdrop hlt hsize
  refine ⟨dst', ?_, hholds⟩
  simp only [xstrncpy, show size ≠ 0 by omega, if_false, hrun, Option.bind_eq_bind, Option.bind_some,
    hstep, hstore]

/-! ## Appending -/

theorem findEnd_spec (hs : (0 : Byte) ∉ s) : ∀ (n d : Nat) (dst : List Byte), d ≤ s.length →
    s.length < d + n → dst.take (s.length + 1) = s ++ [0] → findEnd dst n d = some s.length := by
  intro n
  induction n with
  | zero => intro d dst hd hlt; omega
  | succ n ih =>
    intro d dst hd hlt hfront
    have hread : dst[d]? = (s ++ [0])[d]? := by
      rw [← hfront, List.getElem?_take_of_lt (by omega)]
    rw [findEnd, hread]
    rcases Nat.lt_or_ge d s.length with hin | hge
    · have hne : s[d] ≠ 0 := fun h0 => hs (h0 ▸ List.getElem_mem hin)
      rw [List.getElem?_append_left hin, List.getElem?_eq_getElem hin, Option.bind_eq_bind, Option.bind_some,
        if_pos hne]
      exact ih (d + 1) dst hin (by omega) hfront
    · obtain rfl : d = s.length := by omega
      rw [List.getElem?_append_right (Nat.le_refl _), Nat.sub_self]
      rfl

/-- All of `b` is passed, and as much of it is stored as there is room in front of the terminator. -/
theorem appendLoop_spec (hb : (0 : Byte) ∉ b) : ∀ (count : Nat) (dst : List Byte) (d n : Nat), 1 ≤ n →
    d + n ≤ dst.length →
    ∃ dst', appendLoop (b ++ 0 :: rest) count dst d n =
        some (dst', d + (b.take (n - 1)).length, count + b.length) ∧
      dst'.length = dst.length ∧
      dst'.take (d + (b.take (n - 1)).length) = dst.take d ++ b.take (n - 1) ∧
      dst'.drop (d + n) = dst.drop (d + n) := by
  induction b with
  | nil =>
    intro count dst d n _ _
    refine ⟨dst, ?_, rfl, ?_, rfl⟩
    · rw [List.nil_append, appendLoop, if_pos rfl, List.take_nil]
      rfl
    · rw [List.take_nil, List.append_nil]
      rfl
  | cons c b ih =>
    intro count dst d n hn hroom
    rw [List.mem_cons, not_or] at hb
    have hc : c ≠ 0 := fun h => hb.1 h.symm
    rw [List.cons_append, appendLoop, if_neg hc, List.length_cons,
      show count + (b.length + 1) = count + 1 + b.length by omega]
    by_cases hone : n = 1
    · subst hone
      obtain ⟨dst', hrun, hrest⟩ := ih hb.2 (count + 1) dst d 1 (Nat.le_refl _) hroom
      rw [if_neg (not_not.mpr rfl)]
      exact ⟨dst', hrun, hrest⟩
    · obtain ⟨m, rfl⟩ : ∃ m, n = m + 1 + 1 := ⟨n - 2, by omega⟩
      obtain ⟨dst1, hstore, hlen1, htake1⟩ := storeBytes_byte c (show d < dst.length by omega)
      obtain ⟨dst', hrun, hlen', htake', hdrop'⟩ := ih hb.2 (count + 1) dst1 (d + 1) (m + 1) (by omega) (by omega)
      rw [if_pos hone, hstore, Option.bind_eq_bind, Option.bind_some]
      rw [Nat.add_sub_cancel] at hrun htake' ⊢
      rw [List.take_succ_cons, List.length_cons, show d + ((b.take m).length + 1) = d + 1 + (b.take m).length by omega,
        show d + (m + 1 + 1) = d + 1 + (m + 1) by omega]
      refine ⟨dst', hrun, hlen'.trans hlen1, ?_, ?_⟩
      · rw [htake', htake1, List.append_assoc, List.singleton_append]
      · rw [hdrop', drop_storeBytes hstore (by rw [List.length_singleton]; omega)]

theorem xstrncat_spec (hs : (0 : Byte) ∉ s) (hb : (0 : Byte) ∉ b) (h : Holds old size dst s) (hlt : s.length < size)
    (hsize : size ≤ old.length) :
    ∃ dst', xstrncat dst (b ++ 0 :: rest) size = some (dst', i32OfNat (s.length + b.length)) ∧
      Holds old size dst' (s ++ b.take (size - 1 - s.length)) := by
  have hend := findEnd_spec hs size 0 dst (Nat.zero_le _) (by omega) h.front
  have hlen := h.length
  obtain ⟨dst1, hrun, hlen1, htake1, hdrop1⟩ :=
    appendLoop_spec rest hb 0 dst s.length (size - s.length) (by omega) (by omega)
  rw [show size - s.length - 1 = size - 1 - s.length by omega, Nat.zero_add] at hrun
  rw [show size - s.length - 1 = size - 1 - s.length by omega] at htake1
  rw [show s.length + (size - s.length) = size by omega] at hdrop1
  have hstart : dst.take s.length = s := by
    have hcut := congrArg (List.take s.length) h.front
    rwa [List.take_take, Nat.min_eq_left (by omega), List.take_left] at hcut
  rw [hstart, ← List.length_append] at htake1
  obtain ⟨dst', hstore, hholds⟩ := Holds.terminate (hlen1.trans hlen) htake1 (hdrop1.trans h.behind)
    (by rw [List.length_append, List.length_take]; omega) hsize
  refine ⟨dst', ?_, hholds⟩
  rw [List.length_append] at hstore
  simp only [xstrncat, hend, Option.bind_eq_bind, Option.bind_some, show size - s.length ≠ 0 by omega, if_false,
    hrun, hstore]

/-! ## Both in a row -/

/-- `xstrncpy` of `a` and then `xstrncat` of `b` leave what fits of both, and report its length and the one
it should have had. Part of `b` is cut where it is not all behind what is there of `a`. -/
def Appends (old a b : List Byte) (size : Nat) (resta restb : List Byte) : Prop :=
  ∃ dst m dst' n, xstrncpy old (a ++ 0 :: resta) size = some (dst, m) ∧ cstr dst = some (a.take (size - 1)) ∧
    m = (a.take (size - 1)).length ∧
    xstrncat dst (b ++ 0 :: restb) size = some (dst', n) ∧ cstr dst' = some ((a ++ b).take (size - 1)) ∧
    dst'.length = old.length ∧ dst'.drop size = old.drop size ∧
    n = (a.take (size - 1)).length + b.length ∧
    ((size : Int) ≤ n ↔ (a ++ b).take (size - 1) ≠ a.take (size - 1) ++ b)

theorem zero_notMem_take (hs : (0 : Byte) ∉ s) (n : Nat) : (0 : Byte) ∉ s.take n :=
  fun h => hs (List.mem_of_mem_take h)

theorem take_both (a b : List Byte) (n : Nat) :
    (a ++ b).take n = a.take n ++ b.take (n - (a.take n).length) := by
  rw [List.take_append, List.length_take]
  congr 2
  omega

theorem cut_iff (a b : List Byte) (h1 : 1 ≤ size) :
    (a ++ b).take (size - 1) ≠ a.take (size - 1) ++ b ↔ size ≤ (a.take (size - 1)).length + b.length := by
  rw [take_both, ne_eq, List.append_cancel_left_eq]
  have hle : (a.take (size - 1)).length ≤ size - 1 := List.length_take_le _ _
  constructor
  · intro hcut
    by_contra hall
    exact hcut (List.take_of_length_le (by omega))
  · intro hlong hall
    have hlen := congrArg List.length hall
    rw [List.length_take] at hlen
    omega

section Both

variable {old a b : List Byte} {size : Nat}

/-- The two calls, with the length as it comes out of the `int`. -/
theorem appends_iff_length (ha : (0 : Byte) ∉ a) (hb : (0 : Byte) ∉ b) (hlen : a.length < 2 ^ 31) (h1 : 1 ≤ size)
    (hsize : size ≤ old.length) (resta restb : List Byte) :
    Appends old a b size resta restb ↔
      i32OfNat ((a.take (size - 1)).length + b.length) = (a.take (size - 1)).length + b.length := by
  have ht := zero_notMem_take ha (size - 1)
  have hlt : (a.take (size - 1)).length < size := by
    rw [List.length_take]
    omega
  obtain ⟨dst, hcpy, hdst⟩ := xstrncpy_spec resta ha h1 hsize
  obtain ⟨dst', hcat, hdst'⟩ := xstrncat_spec restb ht hb hdst hlt hsize
  rw [← take_both] at hdst'
  constructor
  · rintro ⟨d, m, d', n, hd, -, -, hd', -, -, -, hn, -⟩
    rw [hcpy] at hd
    cases hd
    rw [hcat] at hd'
    cases hd'
    exact hn
  · intro hn
    have hm : i32OfNat (a.take (size - 1)).length = (a.take (size - 1)).length :=
      i32OfNat_of_lt (by rw [List.length_take]; omega)
    have hall : (0 : Byte) ∉ (a ++ b).take (size - 1) :=
      zero_notMem_take (fun h => (List.mem_append.mp h).elim ha hb) _
    refine ⟨dst, _, dst', _, hcpy, hdst.cstr ht, hm, hcat, hdst'.cstr hall, hdst'.length, hdst'.behind, hn, ?_⟩
    rw [hn, cut_iff a b h1]
    omega

theorem i32OfNat_eq_iff {n : Nat} (h : n < 2 ^ 32) : i32OfNat n = n ↔ n < 2 ^ 31 := by
  unfold i32OfNat
  split <;> omega

/-- **Copying and appending.** The block ends up with what fits of both strings and nothing is written
behind it, and `xstrncat` tells what it should, as long as that length fits in its return type. -/
theorem xstrncat_appends_iff (ha : (0 : Byte) ∉ a) (hb : (0 : Byte) ∉ b) (hla : a.length < 2 ^ 31)
    (hlb : b.length < 2 ^ 31) (h1 : 1 ≤ size) (hsize : size ≤ old.length) (resta restb : List Byte) :
    Appends old a b size resta restb ↔ min a.length (size - 1) + b.length < 2 ^ 31 := by
  rw [appends_iff_length ha hb hla h1 hsize, List.length_take, Nat.min_comm]
  have hlt : min a.length (size - 1) + b.length < 2 ^ 32 := by omega
  have hiff := i32OfNat_eq_iff hlt
  push_cast at hiff ⊢
  exact hiff

theorem xstrncat_appends_le : Appends (List.replicate 4 1) ['L'.toUInt8] ['E'.toUInt8, 'X'.toUInt8] 3 [] [] :=
  (xstrncat_appends_iff (by decide) (by decide) (by simp) (by simp) (by omega) (by simp) [] []).mpr (by simp)

/-- Two strings of `2^30` bytes in a block of `2^31 - 1`: two bytes are cut, and the length comes out as a
negative number. -/
theorem xstrncat_wraps : ∃ a b : CString, a.val = List.replicate (2 ^ 30) 'a'.toUInt8 ∧
    b.val = List.replicate (2 ^ 30) 'b'.toUInt8 ∧
    ¬ Appends (List.replicate (2 ^ 31 - 1) 0) a.val b.val (2 ^ 31 - 1) [] [] := by
  have hzero : ∀ c : Byte, c ≠ 0 → (0 : Byte) ∉ List.replicate (2 ^ 30) c := fun c hc h =>
    hc (List.eq_of_mem_replicate h).symm
  refine ⟨⟨_, hzero _ (by decide)⟩, ⟨_, hzero _ (by decide)⟩, rfl, rfl, fun happ => ?_⟩
  have hlen := (appends_iff_length (hzero _ (by decide)) (hzero _ (by decide))
    (by rw [List.length_replicate]; omega) (by omega) (by rw [List.length_replicate]) [] []).mp happ
  rw [List.length_take, List.length_replicate, List.length_replicate, Nat.min_eq_right (by omega)] at hlen
  have := (i32OfNat_eq_iff (show 2 ^ 30 + 2 ^ 30 < 2 ^ 32 by omega)).mp hlen
  omega

end Both

end Xcharstr
end Xlibc
