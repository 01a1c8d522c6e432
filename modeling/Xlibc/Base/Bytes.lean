import Mathlib.Algebra.Ring.Nat
import Mathlib.Data.List.Basic

/-!
# Xlibc.Base.Bytes

Bytes in network order, and blocks of memory made of bytes.

* `be32`, `ofBe32`  : a 32-bit number in four bytes, the highest first, and back.
* `forall_byte`     : a fact about all 256 bytes.
* `storeBytes`      : writing into a block, which must hold what is written.
* `reallocBytes`    : a block made larger, `fill` being what the new memory holds.
-/

namespace Xlibc

abbrev Byte := UInt8

/-- Something about every byte, from the numbers below 256. -/
theorem forall_byte {p : Byte → Prop} (h : ∀ n < 256, p (UInt8.ofNat n)) (c : Byte) : p c := by
  have hc := h c.toNat c.toNat_lt
  rwa [UInt8.ofNat_toNat] at hc

def be32 (n : Nat) : List Byte :=
  [UInt8.ofNat (n / 2 ^ 24), UInt8.ofNat (n / 2 ^ 16), UInt8.ofNat (n / 2 ^ 8), UInt8.ofNat n]

/-- The number in the first four bytes. -/
def ofBe32 : List Byte → Nat
  | a :: b :: c :: d :: _ => a.toNat * 2 ^ 24 + b.toNat * 2 ^ 16 + c.toNat * 2 ^ 8 + d.toNat
  | _ => 0

@[simp] theorem be32_length (n : Nat) : (be32 n).length = 4 := rfl

theorem ofBe32_be32 {n : Nat} (h : n < 2 ^ 32) (rest : List Byte) : ofBe32 (be32 n ++ rest) = n := by
  simp only [be32, List.cons_append, ofBe32, UInt8.toNat_ofNat']
  omega

theorem ofBe32_lt (bs : List Byte) : ofBe32 bs < 2 ^ 32 := by
  unfold ofBe32
  split
  · next a b c d _ =>
    have ha := a.toNat_lt
    have hb := b.toNat_lt
    have hc := c.toNat_lt
    have hd := d.toNat_lt
    omega
  · decide

theorem be32_inj {m n : Nat} (hm : m < 2 ^ 32) (hn : n < 2 ^ 32) (h : be32 m = be32 n) : m = n := by
  rw [← ofBe32_be32 hm [], h, ofBe32_be32 hn []]

/-- Writing `bs` at offset `off` of a block. -/
def storeBytes (block : List Byte) (off : Nat) (bs : List Byte) : Option (List Byte) :=
  if off + bs.length ≤ block.length then
    some (block.take off ++ bs ++ block.drop (off + bs.length))
  else none

/-- `realloc` to a larger size. -/
def reallocBytes (fill : Byte) (block : List Byte) (n : Nat) : List Byte :=
  block ++ List.replicate (n - block.length) fill

/-- Overwriting one byte. -/
theorem storeBytes_singleton (a : List Byte) (b c : Byte) (rest : List Byte) :
    storeBytes (a ++ b :: rest) a.length [c] = some (a ++ c :: rest) := by
  rw [storeBytes, if_pos (by simp), List.take_left, List.append_assoc, List.singleton_append]
  congr 3
  rw [List.append_cons, List.length_singleton]
  exact List.drop_left' (by simp)

theorem storeBytes_append {acc rest bs : List Byte} (h : bs.length ≤ rest.length) :
    storeBytes (acc ++ rest) acc.length bs = some (acc ++ bs ++ rest.drop bs.length) := by
  rw [storeBytes, if_pos (by rw [List.length_append]; omega), List.take_left, List.drop_append,
    List.drop_of_length_le (by omega), List.nil_append, Nat.add_sub_cancel_left]

/-- Overwriting the last byte. -/
theorem storeBytes_end {block : List Byte} {k : Nat} (h : block.length = k + 1) (b : Byte) :
    storeBytes block k [b] = some (block.take k ++ [b]) := by
  have hend : k + [b].length = block.length := h.symm
  rw [storeBytes, hend, if_pos (Nat.le_refl _), List.drop_length, List.append_nil]

theorem storeBytes_fits {block bs block' : List Byte} {off : Nat}
    (h : storeBytes block off bs = some block') : off + bs.length ≤ block.length := by
  unfold storeBytes at h
  split at h
  · assumption
  · cases h

theorem storeBytes_length {block bs block' : List Byte} {off : Nat}
    (h : storeBytes block off bs = some block') : block'.length = block.length := by
  unfold storeBytes at h
  split at h
  · next hle =>
    cases h
    simp
    omega
  · cases h

/-- Writing behind what has been written extends it. -/
theorem take_storeBytes {block bs block' : List Byte} {off : Nat}
    (h : storeBytes block off bs = some block') :
    block'.take (off + bs.length) = block.take off ++ bs := by
  unfold storeBytes at h
  split at h
  · next hle =>
    cases h
    have hoff : (block.take off).length = off := by rw [List.length_take]; omega
    have hlen : (block.take off ++ bs).length = off + bs.length := by rw [List.length_append, hoff]
    rw [List.take_append_of_le_length (Nat.le_of_eq hlen.symm), List.take_of_length_le (Nat.le_of_eq hlen)]
  · cases h

/-- The first part of what is written, behind what has been written. -/
theorem take_storeBytes_append {block block' bs bs' : List Byte} {off : Nat}
    (h : storeBytes block off (bs ++ bs') = some block') :
    block'.take (off + bs.length) = block.take off ++ bs := by
  have hall := take_storeBytes h
  have hoff : (block.take off).length = off := by
    unfold storeBytes at h
    split at h
    · rw [List.length_take]
      omega
    · cases h
  rw [List.length_append, ← List.append_assoc] at hall
  have htake := congrArg (List.take (off + bs.length)) hall
  rw [List.take_take, Nat.min_eq_left (by omega)] at htake
  rw [htake, List.take_left' (by rw [List.length_append, hoff])]

/-- What is behind the written bytes stays as it is. -/
theorem drop_storeBytes {block bs block' : List Byte} {off n : Nat}
    (h : storeBytes block off bs = some block') (hn : off + bs.length ≤ n) :
    block'.drop n = block.drop n := by
  unfold storeBytes at h
  split at h
  · next hle =>
    cases h
    have hfront : (block.take off ++ bs).length = off + bs.length := by
      rw [List.length_append, List.length_take]
      omega
    rw [List.drop_append, hfront, List.drop_drop, List.drop_of_length_le (by omega), List.nil_append,
      show off + bs.length + (n - (off + bs.length)) = n by omega]
  · cases h

theorem storeBytes_some {block : List Byte} (bs : List Byte) {off : Nat}
    (h : off + bs.length ≤ block.length) :
    ∃ block', storeBytes block off bs = some block' := ⟨_, if_pos h⟩

/-- One byte more behind what has been written. -/
theorem storeBytes_byte {block : List Byte} {off : Nat} (b : Byte) (h : off < block.length) :
    ∃ block', storeBytes block off [b] = some block' ∧ block'.length = block.length ∧
      block'.take (off + 1) = block.take off ++ [b] := by
  obtain ⟨block', hstore⟩ := storeBytes_some [b] (show off + [b].length ≤ block.length from h)
  exact ⟨block', hstore, storeBytes_length hstore, take_storeBytes hstore⟩

end Xlibc
