import Xlibc.Base.Bytes

/-!
# Xlibc.Base.Blocks

Functions of a text that work through it in blocks of `b` members.

* `blocks`, `leftover` : the whole blocks of a text, and what is behind them.
* `blocks_append`, `leftover_append` : the blocks of a text that comes in two parts.
* `absorb` : a state taken through the blocks, `absorb_append` for two parts.
* `hmac` : the keyed hash over a hash function with blocks of `b` bytes.
-/

namespace Xlibc

universe u v

section Blocks

variable {α : Type u} {σ : Type v}

/-- The first `n` blocks. -/
def takeBlocks (b : Nat) : Nat → List α → List (List α)
  | 0, _ => []
  | n + 1, xs => xs.take b :: takeBlocks b n (xs.drop b)

/-- The whole blocks of a text. -/
def blocks (b : Nat) (xs : List α) : List (List α) := takeBlocks b (xs.length / b) xs

/-- What is behind the whole blocks. -/
def leftover (b : Nat) (xs : List α) : List α := xs.drop (b * (xs.length / b))

/-- A state taken through the whole blocks. -/
def absorb (b : Nat) (f : σ → List α → σ) (s : σ) (xs : List α) : σ := (blocks b xs).foldl f s

@[simp] theorem leftover_length (b : Nat) (xs : List α) : (leftover b xs).length = xs.length % b := by
  rw [leftover, List.length_drop, Nat.mod_def]

theorem blocks_of_lt {b : Nat} {xs : List α} (h : xs.length < b) : blocks b xs = [] := by
  rw [blocks, Nat.div_eq_of_lt h, takeBlocks]

theorem leftover_of_lt {b : Nat} {xs : List α} (h : xs.length < b) : leftover b xs = xs := by
  rw [leftover, Nat.div_eq_of_lt h, Nat.mul_zero, List.drop_zero]

section Cons

variable {b : Nat} {x : List α} (hb : 0 < b) (hx : x.length = b) (xs : List α)
include hb hx

theorem div_length_block : (x ++ xs).length / b = xs.length / b + 1 := by
  rw [List.length_append, hx, Nat.add_div_left _ hb]

theorem blocks_cons : blocks b (x ++ xs) = x :: blocks b xs := by
  rw [blocks, div_length_block hb hx, takeBlocks, List.take_left' hx, List.drop_left' hx, blocks]

theorem leftover_cons : leftover b (x ++ xs) = leftover b xs := by
  rw [leftover, div_length_block hb hx, Nat.mul_add, Nat.mul_one, Nat.add_comm, ← List.drop_drop, List.drop_left' hx,
    leftover]

end Cons

/-- A text is short of a block, or a block and another text. -/
theorem blocks_induction {b : Nat} (hb : 0 < b) {p : List α → Prop} (short : ∀ xs, xs.length < b → p xs)
    (block : ∀ x xs, x.length = b → p xs → p (x ++ xs)) (xs : List α) : p xs := by
  induction hn : xs.length using Nat.strongRecOn generalizing xs with
  | ind n ih =>
    by_cases h : xs.length < b
    · exact short xs h
    · have hx : (xs.take b).length = b := List.length_take_of_le (by omega)
      have hrest := ih (xs.drop b).length (by rw [List.length_drop]; omega) (xs.drop b) rfl
      rw [← List.take_append_drop b xs]
      exact block _ _ hx hrest

theorem blocks_append {b : Nat} (hb : 0 < b) (xs ys : List α) :
    blocks b (xs ++ ys) = blocks b xs ++ blocks b (leftover b xs ++ ys) := by
  induction xs using blocks_induction hb with
  | short xs h => rw [blocks_of_lt h, leftover_of_lt h, List.nil_append]
  | block x xs hx ih =>
    rw [List.append_assoc, blocks_cons hb hx, blocks_cons hb hx, leftover_cons hb hx, ih, List.cons_append]

theorem leftover_append {b : Nat} (hb : 0 < b) (xs ys : List α) :
    leftover b (xs ++ ys) = leftover b (leftover b xs ++ ys) := by
  induction xs using blocks_induction hb with
  | short xs h => rw [leftover_of_lt h]
  | block x xs hx ih => rw [List.append_assoc, leftover_cons hb hx, leftover_cons hb hx, ih]

theorem absorb_append {b : Nat} (hb : 0 < b) (f : σ → List α → σ) (s : σ) (xs ys : List α) :
    absorb b f s (xs ++ ys) = absorb b f (absorb b f s xs) (leftover b xs ++ ys) := by
  rw [absorb, blocks_append hb, List.foldl_append]
  rfl

theorem absorb_of_lt {b : Nat} {xs : List α} (h : xs.length < b) (f : σ → List α → σ) (s : σ) :
    absorb b f s xs = s := by
  rw [absorb, blocks_of_lt h, List.foldl_nil]

theorem absorb_cons {b : Nat} {x : List α} (hb : 0 < b) (hx : x.length = b) (xs : List α) (f : σ → List α → σ)
    (s : σ) :
    absorb b f s (x ++ xs) = absorb b f (f s x) xs := by
  rw [absorb, blocks_cons hb hx, List.foldl_cons, absorb]

end Blocks

/-! ## Keyed hashes -/

section Hmac

variable (b : Nat) (hash : List Byte → List Byte)

/-- A key that is longer than a block is hashed. -/
def hmacKey (key : List Byte) : List Byte := if b < key.length then hash key else key

/-- The key on a whole block, every byte of it changed by `pad`. -/
def hmacPad (pad : Byte) (key : List Byte) : List Byte :=
  (key ++ List.replicate (b - key.length) 0).map (· ^^^ pad)

/-- `H(K xor opad, H(K xor ipad, text))` -/
def hmac (key text : List Byte) : List Byte :=
  hash (hmacPad b 0x5c (hmacKey b hash key) ++ hash (hmacPad b 0x36 (hmacKey b hash key) ++ text))

end Hmac

theorem hmacPad_length {b : Nat} {key : List Byte} (h : key.length ≤ b) (pad : Byte) :
    (hmacPad b pad key).length = b := by
  rw [hmacPad, List.length_map, List.length_append, List.length_replicate]
  omega

theorem hmacKey_length {b : Nat} {hash : List Byte → List Byte} (h : ∀ text, (hash text).length ≤ b)
    (key : List Byte) : (hmacKey b hash key).length ≤ b := by
  unfold hmacKey
  split
  · exact h key
  · omega

end Xlibc
