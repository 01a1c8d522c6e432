import Xlibc.Base.CStr

/-!
# Xlibc.Base.Written

Writing a text into a block from its start, piece by piece, and over a text that is read from the same block.

* `Written` : the first bytes of a block are a text; what is behind them does not matter.
* `Written.store` : a piece more, if it fits.
* `Written.front` : the first part of what has been written.
* `Written.string` : the string in the block, once its terminator has been written.
* `Rewriting` : the bytes from an index on are still to be read, what has been written is before them.
-/

namespace Xlibc

/-- A block of `size` bytes that begins with `text`. -/
structure Written (size : Nat) (block text : List Byte) : Prop where
  length : block.length = size
  text : block.take text.length = text

section Written

variable {size : Nat} {block text : List Byte}

theorem Written.start (h : block.length = size) : Written size block [] := ⟨h, rfl⟩

theorem Written.fits (h : Written size block text) : text.length ≤ size := by
  have hlen := congrArg List.length h.text
  rw [List.length_take, h.length] at hlen
  omega

theorem Written.store (h : Written size block text) (bs : List Byte) {n : Nat} (hn : text.length = n)
    (hfit : n + bs.length ≤ size) :
    ∃ block', storeBytes block n bs = some block' ∧ Written size block' (text ++ bs) := by
  subst hn
  obtain ⟨block', hstore⟩ :=
    storeBytes_some bs (show text.length + bs.length ≤ block.length by rw [h.length]; exact hfit)
  refine ⟨block', hstore, by rw [storeBytes_length hstore, h.length], ?_⟩
  rw [List.length_append, take_storeBytes hstore, h.text]

theorem Written.front {bs : List Byte} (h : Written size block (text ++ bs)) : Written size block text := by
  refine ⟨h.length, ?_⟩
  have htake := congrArg (List.take text.length) h.text
  rwa [List.take_take, List.take_left, List.length_append, Nat.min_eq_left (Nat.le_add_right _ _)] at htake

/-- A piece and its terminator, behind which the next piece does not begin. -/
theorem Written.strcpy (h : Written size block text) (bs : List Byte) {n : Nat} (hn : text.length = n)
    (hfit : n + bs.length + 1 ≤ size) :
    ∃ block', storeBytes block n (bs ++ [0]) = some block' ∧ Written size block' (text ++ bs) := by
  obtain ⟨block', hstore, hw⟩ := h.store (bs ++ [0]) hn (by rw [List.length_append, List.length_singleton]; omega)
  rw [← List.append_assoc] at hw
  exact ⟨block', hstore, hw.front⟩

theorem Written.string (h : Written size block (text ++ [0])) (htext : (0 : Byte) ∉ text) :
    cstring block = some ⟨text, htext⟩ := by
  have hlen : (text ++ [0]).length = text.length + 1 := by simp
  have hblock : block = text ++ 0 :: block.drop (text.length + 1) := by
    rw [List.append_cons, ← hlen, ← List.take_append_drop (text ++ [0]).length block, h.text]
    simp
  rw [hblock]
  exact cstring_append_zero ⟨text, htext⟩ _

end Written

/-- A block whose first `into` bytes are `out`, while `left` is still to be read from `i` on. -/
structure Rewriting (block : List Byte) (into i : Nat) (out left : List Byte) : Prop where
  front : block.take into = out
  back : block.drop i = left
  length : out.length = into
  order : into ≤ i

section Rewriting

variable {block out left : List Byte} {into i : Nat} {c : Byte}

theorem Rewriting.start (block : List Byte) : Rewriting block 0 0 [] block := ⟨rfl, rfl, rfl, Nat.le_refl 0⟩

/-- What has been written is at the start of the block. -/
theorem Rewriting.written (h : Rewriting block into i out left) : Written block.length block out :=
  ⟨rfl, by rw [h.length, h.front]⟩

theorem Rewriting.read (h : Rewriting block into i out (c :: left)) : block[i]? = some c := by
  rw [← List.head?_drop, h.back, List.head?_cons]

theorem Rewriting.readNext (h : Rewriting block into i out (c :: left)) : block[i + 1]? = left.head? := by
  rw [← List.head?_drop, ← List.drop_drop, h.back, List.drop_succ_cons, List.drop_zero]

/-- Nothing is behind the block. -/
theorem Rewriting.readEnd (h : Rewriting block into i out []) : block[i]? = none := by
  rw [← List.head?_drop, h.back, List.head?_nil]

theorem Rewriting.skip (front : List Byte) (h : Rewriting block into i out (front ++ left)) :
    Rewriting block into (i + front.length) out left := by
  refine ⟨h.front, ?_, h.length, Nat.le_trans h.order (Nat.le_add_right _ _)⟩
  rw [← List.drop_drop, h.back, List.drop_left]

/-- A byte is written where there is one left to be read. -/
theorem Rewriting.store (h : Rewriting block into i out (c :: left)) (d : Byte) :
    ∃ block', storeBytes block into [d] = some block' ∧ block'.length = block.length ∧
      Rewriting block' (into + 1) (i + 1) (out ++ [d]) left := by
  have hat : i < block.length := by
    have hlen := congrArg List.length h.back
    rw [List.length_drop, List.length_cons] at hlen
    omega
  have horder := h.order
  obtain ⟨block', hstore, hlen, htake⟩ := storeBytes_byte d (show into < block.length by omega)
  refine ⟨block', hstore, hlen, by rw [htake, h.front], ?_, by rw [List.length_append, h.length]; rfl, by omega⟩
  rw [drop_storeBytes hstore (by rw [List.length_singleton]; omega), ← List.drop_drop, h.back]
  rfl

end Rewriting

end Xlibc
