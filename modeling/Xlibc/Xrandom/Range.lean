import Mathlib.Logic.Function.Basic
import Xlibc.Base.Bytes
import Xlibc.Base.Inet

/-!
# Xlibc.Xrandom.Range

`xrand_rc4` and the range reduction of `xrand_range`. Indices into the table are taken modulo 256, so the
table is a function of a byte.

* `Rc4` : the state of the generator, `Seed` what the first call takes from the system.
* `xrandRc4_all` : every word is the output of some state.
* `xrandRange_exact_iff` : `xrand_range` is right but for the range of all words.
-/

namespace Xlibc
namespace Xrandom

/-! ## The code -/

/-- `rc4_sbox`, `rc4_seedflag`, and the two static indices of `xrand_rc4`. -/
structure Rc4 where
  sbox : Byte → Byte
  seeded : Bool
  i : Byte
  j : Byte

/-- What was read from `/dev/urandom`, if it could be opened, and the time at each entry of the table. -/
structure Seed where
  urandom : Option (List Byte)
  tvSec : Byte → Int
  tvUsec : Byte → Int

def lowByte (z : Int) : Byte := UInt8.ofNat (z % 256).toNat

/-- A read may be short. -/
def xrandRc4Init (seed : Seed) (s : Rc4) : Rc4 :=
  let sbox := match seed.urandom with
    | some bs => fun i : Byte => bs.getD i.toNat (s.sbox i)
    | none => s.sbox
  { s with
    sbox := fun i =>
      if i &&& 1 ≠ 0 then sbox i ^^^ lowByte (seed.tvUsec i >>> (i &&& 0xF).toNat)
      else sbox i ^^^ lowByte (seed.tvSec i >>> (i &&& 0xF).toNat)
    seeded := true }

/-- One byte of pseudo-random data. -/
def rc4Byte (s : Rc4) : Rc4 × Byte :=
  let i := s.i + 1
  let si := s.sbox i
  let j := s.j + si
  let sj := s.sbox j
  let sbox := Function.update (Function.update s.sbox i sj) j si
  ({ s with sbox := sbox, i := i, j := j }, sbox (si + sj))

def xrandRc4 (e : ByteOrder) (seed : Seed) (s : Rc4) : Rc4 × BitVec 32 :=
  let s := if s.seeded = false then xrandRc4Init seed s else s
  let (s, b0) := rc4Byte s
  let (s, b1) := rc4Byte s
  let (s, b2) := rc4Byte s
  let (s, b3) := rc4Byte s
  (s, wordOfBytes e b0.toBitVec b1.toBitVec b2.toBitVec b3.toBitVec)

/-- Division by zero has no result. -/
def xrandRange (e : ByteOrder) (seed : Seed) (s : Rc4) (min max : BitVec 32) : Option (Rc4 × BitVec 32) :=
  let offset := max - min
  let (s, r) := xrandRc4 e seed s
  if offset + 1#32 = 0#32 then none else some (s, min + r % (offset + 1#32))

/-! ## The generator -/

/-- A seeded state: the next four indices lead to the entries `0x10`, `0x20`, `0x30`, `0x40`, and these to
the entries from `0x81` on. -/
def leading (b0 b1 b2 b3 : Byte) : Rc4 where
  sbox k :=
    if k = 0x10 then 0x71 else if k = 0x20 then 0x72 else if k = 0x30 then 0x73 else if k = 0x40 then 0x74
    else if k = 0x81 then b0 else if k = 0x82 then b1 else if k = 0x83 then b2 else if k = 0x84 then b3
    else 0x10
  seeded := true
  i := 0
  j := 0

theorem xrandRc4_leading (e : ByteOrder) (seed : Seed) (b0 b1 b2 b3 : Byte) :
    (xrandRc4 e seed (leading b0 b1 b2 b3)).2 =
      wordOfBytes e b0.toBitVec b1.toBitVec b2.toBitVec b3.toBitVec := by
  simp [xrandRc4, rc4Byte, leading]

theorem xrandRc4_all (e : ByteOrder) (seed : Seed) (r : BitVec 32) : ∃ s, (xrandRc4 e seed s).2 = r := by
  have hword := word_bytes r
  cases e with
  | little =>
    refine ⟨leading ⟨r.extractLsb' 0 8⟩ ⟨r.extractLsb' 8 8⟩ ⟨r.extractLsb' 16 8⟩ ⟨r.extractLsb' 24 8⟩,
      ?_⟩
    rw [xrandRc4_leading]
    exact hword
  | big =>
    refine ⟨leading ⟨r.extractLsb' 24 8⟩ ⟨r.extractLsb' 16 8⟩ ⟨r.extractLsb' 8 8⟩ ⟨r.extractLsb' 0 8⟩,
      ?_⟩
    rw [xrandRc4_leading]
    exact hword

/-! ## The range -/

section Range

variable {min max : BitVec 32}

/-- The width wraps for the range of all words only. -/
theorem width_zero_iff (h : min ≤ max) : max - min + 1#32 = 0#32 ↔ min = 0#32 ∧ max = 0xffffffff#32 := by
  bv_omega

theorem width_toNat (h : min ≤ max) (hw : max - min + 1#32 ≠ 0#32) :
    (max - min + 1#32).toNat = max.toNat - min.toNat + 1 := by
  bv_omega

theorem reduced_mem (h : min ≤ max) (hw : max - min + 1#32 ≠ 0#32) (r : BitVec 32) :
    min ≤ min + r % (max - min + 1#32) ∧ min + r % (max - min + 1#32) ≤ max := by
  have hwidth := width_toNat h hw
  have hmod : (r % (max - min + 1#32)).toNat < max.toNat - min.toNat + 1 := by
    rw [BitVec.toNat_umod, hwidth]
    exact Nat.mod_lt _ (Nat.succ_pos _)
  generalize r % (max - min + 1#32) = m at hmod ⊢
  constructor
  · bv_omega
  · bv_omega

theorem reduced_all {v : BitVec 32} (hmin : min ≤ v) (hmax : v ≤ max) (hw : max - min + 1#32 ≠ 0#32) :
    min + (v - min) % (max - min + 1#32) = v := by
  have hwidth := width_toNat (BitVec.le_trans hmin hmax) hw
  have hmod : (v - min) % (max - min + 1#32) = v - min := by
    apply BitVec.eq_of_toNat_eq
    rw [BitVec.toNat_umod, hwidth]
    exact Nat.mod_eq_of_lt (by bv_omega)
  rw [hmod]
  bv_omega

/-- A value between the bounds for every state, and every such value for some state. -/
def InRange (e : ByteOrder) (min max : BitVec 32) : Prop :=
  (∀ seed s, ∃ s' v, xrandRange e seed s min max = some (s', v) ∧ min ≤ v ∧ v ≤ max) ∧
  ∀ v, min ≤ v → v ≤ max → ∃ seed s s', xrandRange e seed s min max = some (s', v)

theorem xrandRange_eq (e : ByteOrder) (seed : Seed) (s : Rc4) (hw : max - min + 1#32 ≠ 0#32) :
    xrandRange e seed s min max =
      some ((xrandRc4 e seed s).1, min + (xrandRc4 e seed s).2 % (max - min + 1#32)) := if_neg hw

/-- The first call of a program that reads nothing and has no clock. -/
def unseeded : Seed where
  urandom := none
  tvSec _ := 0
  tvUsec _ := 0

theorem xrandRange_faults (e : ByteOrder) (seed : Seed) (s : Rc4) :
    xrandRange e seed s 0#32 0xffffffff#32 = none := rfl

/-- **A value in a range.** The reduction is right for every range but the one of all words. -/
theorem xrandRange_exact_iff (e : ByteOrder) (h : min ≤ max) :
    InRange e min max ↔ ¬ (min = 0#32 ∧ max = 0xffffffff#32) := by
  rw [← width_zero_iff h]
  constructor
  · rintro ⟨hall, -⟩ hw
    obtain ⟨s', v, hrun, -⟩ := hall unseeded (leading 0 0 0 0)
    obtain ⟨rfl, rfl⟩ := (width_zero_iff h).mp hw
    rw [xrandRange_faults] at hrun
    cases hrun
  · intro hw
    refine ⟨fun seed s => ⟨_, _, xrandRange_eq e seed s hw, reduced_mem h hw _⟩, fun v hmin hmax => ?_⟩
    obtain ⟨s, hs⟩ := xrandRc4_all e unseeded (v - min)
    refine ⟨unseeded, s, (xrandRc4 e unseeded s).1, ?_⟩
    rw [xrandRange_eq e unseeded s hw, hs, reduced_all hmin hmax hw]

theorem xrandRange_exact_die : InRange .little 1#32 6#32 :=
  (xrandRange_exact_iff .little (by decide)).mpr fun h => absurd h.1 (by decide)

theorem xrandRange_divides : ¬ InRange .little 0#32 0xffffffff#32 := by
  rintro ⟨hall, -⟩
  obtain ⟨s', v, hrun, -⟩ := hall unseeded (leading 0 0 0 0)
  rw [xrandRange_faults] at hrun
  cases hrun

end Range

end Xrandom
end Xlibc
