import Xlibc.Xarray.Slots

/-!
# Xlibc.Xarray.Join

`xarray2str` and its block. The block is made larger for a string when `size - offset` is below its
length; what is written has two bytes more than that.

* `grown`, `Misses` : the size of the block for a string, and when it is too small even so.
* `Joins`      : the lengths that can be written in turn.
* `Joined`     : the block behind some strings, each with its split character.
* `joinSlot_cases`, `join_cases` : one slot, and all of them.
* `xarray2str_done` : the end of the call.
-/

namespace Xlibc
namespace Xarray

/-- The size of the block for `len` bytes more behind `offset`. -/
def grown (size offset len : Nat) : Nat :=
  if len ≤ size - offset then size
  else if size < len then size + len + 1
  else size * 2

/-- The string leaves no room for its terminator, or none for its split character either; or the
block is doubled for a string of its own length when one byte of it was left. -/
def Misses (size offset len : Nat) : Prop :=
  size - offset = len ∨ size - offset = len + 1 ∨ (size - offset = 1 ∧ len = size)

def slotLen : Option CString → Nat
  | none => 0
  | some s => s.val.length

/-- The slots from `i` on, by the lengths of their strings, with `size` bytes in the block and `offset`
of them written. A string whose length is 0 as an `int` is skipped; a larger block that is not granted
ends the loop. -/
def Joins (grant : Nat → Bool) : Nat → Nat → Nat → List Nat → Prop
  | _, _, _, [] => True
  | i, size, offset, len :: lens =>
    if i32OfNat len = 0 then i < intMax ∧ Joins grant (i + 1) size offset lens
    else grown size offset (i32OfNat len).toNat ≤ intMax ∧
      ((size < grown size offset (i32OfNat len).toNat →
          grant (grown size offset (i32OfNat len).toNat) = true) →
        (len < 2 ^ 31 ∧ ¬ Misses size offset len) ∧ i < intMax ∧
          Joins grant (i + 1) (grown size offset (i32OfNat len).toNat) (offset + len + 1) lens)

/-- `len` bytes and two more, behind `offset`. -/
theorem grown_room {size offset len : Nat} (hlt : offset < size) (hpos : 0 < len) :
    offset + (len + 2) ≤ grown size offset len ↔ ¬ Misses size offset len := by
  unfold grown Misses
  by_cases hroom : len ≤ size - offset
  · rw [if_pos hroom]
    omega
  · rw [if_neg hroom]
    split <;> omega

/-! ## The block -/

/-- The strings, each with the split character behind it. -/
def joined (split : Byte) (ws : List (List Byte)) : List Byte := (ws.map (· ++ [split])).flatten

theorem joined_append (split : Byte) (ws : List (List Byte)) (w : List Byte) :
    joined split (ws ++ [w]) = joined split ws ++ (w ++ [split]) := by
  simp [joined]

structure Joined (split : Byte) (ws : List (List Byte)) (n : Nat) (st : JoinState) : Prop where
  size : st.size = n
  length : st.str.length = n
  int : n ≤ intMax
  offset : st.offset = (joined split ws).length
  room : (joined split ws).length < n
  take : st.str.take (joined split ws).length = joined split ws
  empty : ws = [] → st.str.head? = some 0

variable {grant : Nat → Bool} {fill split : Byte} {ws : List (List Byte)} {n g : Nat} {st : JoinState}

/-- A larger block keeps what has been written. -/
theorem Joined.realloc (h : Joined split ws n st) (fill : Byte) (hle : n ≤ g) (hmax : g ≤ intMax) :
    Joined split ws g { st with str := reallocBytes fill st.str g, size := g } where
  size := rfl
  length := by
    show (reallocBytes fill st.str g).length = g
    rw [reallocBytes, List.length_append, List.length_replicate, h.length]
    omega
  int := hmax
  offset := h.offset
  room := Nat.lt_of_lt_of_le h.room hle
  take := by
    have hroom := h.room
    show (reallocBytes fill st.str g).take _ = _
    rw [reallocBytes, List.take_append_of_le_length (by rw [h.length]; omega), h.take]
  empty := fun hws => by
    have hhead := h.empty hws
    show (reallocBytes fill st.str g).head? = some 0
    rw [reallocBytes, List.head?_append, hhead]
    rfl

/-- `if(size - offset <= len - 1)`: the block gets `grown` bytes, unless they are no `int` or not
granted. -/
theorem joinGrow_cases (h : Joined split ws n st) (grant : Nat → Bool) (fill : Byte) {len : Int}
    (hg : grown n (joined split ws).length len.toNat = g) :
    (¬ g ≤ intMax ∧ joinGrow grant fill len st = none) ∨
    (g ≤ intMax ∧ ¬ (n < g → grant g = true) ∧ joinGrow grant fill len st = some none) ∨
    (g ≤ intMax ∧ (n < g → grant g = true) ∧
      ∃ st', joinGrow grant fill len st = some (some st') ∧ Joined split ws g st') := by
  have hsize := h.size
  have hoffset := h.offset
  have hroom := h.room
  have hint := h.int
  unfold grown at hg
  by_cases hmore : (st.size : Int) - st.offset ≤ len - 1
  · rw [if_neg (by omega)] at hg
    have hsz : joinSize st.size len = g := by
      unfold joinSize
      rw [← hg, hsize]
      split <;> split <;> omega
    have hlt : n < g := by
      rw [← hg]
      split <;> omega
    rw [joinGrow, if_pos hmore, hsz]
    by_cases hmax : g ≤ intMax
    · rw [if_neg (by omega)]
      cases hgrant : grant g with
      | false =>
        right; left
        exact ⟨hmax, fun hgranted => Bool.false_ne_true (hgranted hlt), if_pos rfl⟩
      | true =>
        right; right
        exact ⟨hmax, fun _ => rfl, _, if_neg (by simp), h.realloc fill (Nat.le_of_lt hlt) hmax⟩
    · left
      exact ⟨hmax, if_pos (by omega)⟩
  · rw [if_pos (by omega)] at hg
    right; right
    rw [← hg, joinGrow, if_neg hmore]
    exact ⟨hint, fun hlt => absurd hlt (Nat.lt_irrefl _), st, rfl, h⟩

/-! ## One string -/

/-- What is written behind the others, where the block has room for it. -/
theorem Joined.write (h : Joined split ws n st) {s : List Byte}
    (hfit : (joined split ws).length + (s.length + 2) ≤ n) :
    ∃ str, storeBytes st.str st.offset (s ++ [split, 0]) = some str ∧
      Joined split (ws ++ [s]) n { st with str := str, offset := st.offset + s.length + 1 } := by
  have hlen := h.length
  obtain ⟨str, hstore⟩ : ∃ str, storeBytes st.str st.offset (s ++ [split] ++ [0]) = some str :=
    storeBytes_some (s ++ [split] ++ [0]) (by rw [h.offset]; simp; omega)
  have htake := take_storeBytes_append hstore
  have hlength := storeBytes_length hstore
  rw [h.offset, h.take] at htake
  refine ⟨str, by rw [List.append_assoc] at hstore; exact hstore, h.size, hlength.trans hlen, h.int, ?_,
    ?_, ?_, fun hnil => absurd hnil (by simp)⟩
  · show st.offset + s.length + 1 = _
    rw [joined_append, h.offset]
    simp
    omega
  · rw [joined_append]
    simp
    omega
  · rw [joined_append, List.length_append]
    exact htake

/-- One string that is not skipped: a fault, `NULL`, or the string is behind the others. -/
theorem joinSlot_cases (h : Joined split ws n st) (grant : Nat → Bool) (fill : Byte) {s : CString}
    (hlen : i32OfNat s.val.length ≠ 0)
    (hg : grown n (joined split ws).length (i32OfNat s.val.length).toNat = g) :
    (¬ (g ≤ intMax ∧ ((n < g → grant g = true) →
        s.val.length < 2 ^ 31 ∧ ¬ Misses n (joined split ws).length s.val.length)) ∧
      joinSlot grant fill split st (some s) = none) ∨
    (g ≤ intMax ∧ ¬ (n < g → grant g = true) ∧ joinSlot grant fill split st (some s) = some none) ∨
    (g ≤ intMax ∧ (n < g → grant g = true) ∧
      (s.val.length < 2 ^ 31 ∧ ¬ Misses n (joined split ws).length s.val.length) ∧
      ∃ st', joinSlot grant fill split st (some s) = some (some st') ∧
        Joined split (ws ++ [s.val]) g st') := by
  have hroom := h.room
  rw [joinSlot, if_neg hlen]
  rcases joinGrow_cases h grant fill hg with ⟨hmax, hrun⟩ | ⟨hmax, hgrant, hrun⟩ |
    ⟨hmax, hgrant, st1, hrun, h1⟩
  · left
    rw [hrun]
    exact ⟨fun hall => hmax hall.1, rfl⟩
  · right; left
    rw [hrun]
    exact ⟨hmax, hgrant, rfl⟩
  · rw [hrun, Option.bind_eq_bind, Option.bind_some]
    by_cases hfits : s.val.length < 2 ^ 31 ∧ ¬ Misses n (joined split ws).length s.val.length
    · right; right
      have hint := i32OfNat_of_lt hfits.1
      rw [hint] at hlen
      rw [hint, Int.toNat_natCast] at hg
      have hfit := (grown_room hroom (by omega)).mpr hfits.2
      rw [hg] at hfit
      obtain ⟨str, hstore, hnext⟩ := h1.write hfit
      refine ⟨hmax, hgrant, hfits, _, ?_, hnext⟩
      show (storeBytes st1.str st1.offset (s.val ++ [split, 0])).bind _ = _
      rw [hstore, Option.bind_some, hint]
      rfl
    · left
      have hlong : ¬ (joined split ws).length + (s.val.length + 2) ≤ g := by
        intro hfit
        have hlt : s.val.length < 2 ^ 31 := by
          unfold intMax at hmax
          omega
        have hint := i32OfNat_of_lt hlt
        rw [hint] at hlen
        rw [hint, Int.toNat_natCast] at hg
        rw [← hg] at hfit
        exact hfits ⟨hlt, (grown_room hroom (by omega)).mp hfit⟩
      refine ⟨fun hall => hfits (hall.2 hgrant), ?_⟩
      show (storeBytes st1.str st1.offset (s.val ++ [split, 0])).bind _ = none
      rw [storeBytes, if_neg (by rw [h1.offset, h1.length]; simpa using hlong)]
      rfl

/-! ## All of them -/

/-- The strings that are not skipped. -/
def kept : List (Option CString) → List (List Byte)
  | [] => []
  | none :: slots => kept slots
  | some s :: slots => if i32OfNat s.val.length = 0 then kept slots else s.val :: kept slots

theorem joinSlot_skip {slot : Option CString} (hskip : i32OfNat (slotLen slot) = 0) :
    joinSlot grant fill split st slot = some (some st) := by
  cases slot with
  | none => rfl
  | some s => exact if_pos hskip

theorem kept_skip {slot : Option CString} (slots : List (Option CString))
    (hskip : i32OfNat (slotLen slot) = 0) : kept (slot :: slots) = kept slots := by
  cases slot with
  | none => rfl
  | some s => exact if_pos hskip

/-- The loop from slot `i` on, by induction on the slots: a fault, or the strings that are not skipped
are behind the others, unless a request has been refused. -/
theorem join_cases (grant : Nat → Bool) (fill : Byte) (slots : List (Option CString)) :
    ∀ {i n : Nat} {ws : List (List Byte)} {st : JoinState}, i ≤ intMax → Joined split ws n st →
      (listExit (joinSlot grant fill split) i slots st = none ∧
        ¬ Joins grant i n (joined split ws).length (slots.map slotLen)) ∨
      (Joins grant i n (joined split ws).length (slots.map slotLen) ∧
        ((listExit (joinSlot grant fill split) i slots st = some none ∧ ∃ g, grant g = false) ∨
          ∃ st' n', listExit (joinSlot grant fill split) i slots st = some (some st') ∧
            Joined split (ws ++ kept slots) n' st')) := by
  induction slots with
  | nil =>
    intro i n ws st _ h
    exact .inr ⟨trivial, .inr ⟨st, n, rfl, by rw [kept, List.append_nil]; exact h⟩⟩
  | cons slot slots ih =>
    intro i n ws st hi h
    rw [List.map_cons, Joins]
    by_cases hskip : i32OfNat (slotLen slot) = 0
    · rw [if_pos hskip, kept_skip slots hskip]
      by_cases hmax : i = intMax
      · rw [hmax, listExit_last (joinSlot_skip hskip)]
        exact .inl ⟨rfl, fun hall => Nat.lt_irrefl _ hall.1⟩
      · rw [listExit_step (joinSlot_skip hskip) hmax]
        rcases ih (i := i + 1) (by omega) h with ⟨hrun, hno⟩ | ⟨hall, hrun⟩
        · exact .inl ⟨hrun, fun hall => hno hall.2⟩
        · exact .inr ⟨⟨by omega, hall⟩, hrun⟩
    · rw [if_neg hskip]
      cases slot with
      | none => exact absurd rfl hskip
      | some s =>
        have hkept : kept (some s :: slots) = s.val :: kept slots := if_neg hskip
        obtain ⟨g, hg⟩ : ∃ g, grown n (joined split ws).length (i32OfNat (slotLen (some s))).toNat = g :=
          ⟨_, rfl⟩
        rw [hg, hkept, List.append_cons]
        rcases joinSlot_cases h grant fill hskip hg with ⟨hno, hslot⟩ | ⟨hmax, hgrant, hslot⟩ |
          ⟨hmax, hgrant, hfits, st1, hslot, h1⟩
        · rw [listExit_fault hslot]
          exact .inl ⟨rfl, fun hall => hno ⟨hall.1, fun hgrant => (hall.2 hgrant).1⟩⟩
        · rw [listExit_exit hslot]
          refine .inr ⟨⟨hmax, fun hgranted => absurd hgranted hgrant⟩, .inl ⟨rfl, g, ?_⟩⟩
          exact Bool.eq_false_iff.mpr fun htrue => hgrant fun _ => htrue
        · have hoff : (joined split (ws ++ [s.val])).length =
              (joined split ws).length + slotLen (some s) + 1 := by
            rw [joined_append, List.length_append, List.length_append, List.length_singleton]
            rfl
          by_cases hlast : i = intMax
          · rw [hlast, listExit_last hslot]
            exact .inl ⟨rfl, fun hall => Nat.lt_irrefl _ (hall.2 hgrant).2.1⟩
          · rw [listExit_step hslot hlast, ← hoff]
            rcases ih (i := i + 1) (by omega) h1 with ⟨hrun, hno⟩ | ⟨hall, hrun⟩
            · exact .inl ⟨hrun, fun hall => hno (hall.2 hgrant).2.2⟩
            · exact .inr ⟨⟨hmax, fun _ => ⟨hfits, by omega, hall⟩⟩, hrun⟩

/-! ## xarray2str -/

theorem joined_init (split : Byte) :
    Joined split [] 256 { str := List.replicate 256 0, size := 256, offset := 0 } where
  size := rfl
  length := List.length_replicate
  int := by decide
  offset := rfl
  room := Nat.zero_lt_succ _
  take := rfl
  empty := fun _ => rfl

section

variable {a : XArray CString} {xs : List (Option CString)}

theorem join_loop (h : Slots a xs) (st : JoinState) :
    forExit (fun i st => do
      let slot ← a.data[i]?
      joinSlot grant fill split st slot) 0 a.count st = listExit (joinSlot grant fill split) 0 xs st := by
  rw [h.count]
  refine forExit_list _ xs 0 st fun j slot hj s => ?_
  obtain ⟨hlt, -⟩ := List.getElem?_eq_some_iff.mp hj
  rw [Nat.zero_add, h.get hlt, hj, Option.bind_eq_bind, Option.bind_some]

/-- The last split character is overwritten. -/
theorem Joined.terminate (h : Joined split ws n st) :
    ∃ str, storeBytes st.str (st.offset - 1) [0] = some str :=
  storeBytes_some [0] (by
    have hroom := h.room
    rw [h.length, h.offset, List.length_singleton]
    omega)

theorem xarray2str_done (h : Slots a xs) (hgrant : grant 256 = true)
    (hrun : listExit (joinSlot grant fill split) 0 xs
      { str := List.replicate 256 0, size := 256, offset := 0 } = some (some st)) :
    xarray2str grant fill split (some a) =
      if st.offset ≠ 0 then (storeBytes st.str (st.offset - 1) [0]).bind fun str => some (some str)
      else some (some st.str) := by
  rw [xarray2str, if_neg (by simp [hgrant]), join_loop h, hrun]
  rfl

end

/-- `n` letters. -/
def letters (n : Nat) : CString := ⟨List.replicate n 97, fun h => by cases List.eq_of_mem_replicate h⟩

/-- `xstrarray()` with one string. -/
def oneString (s : CString) : XArray CString :=
  { size := 8, appendEnable := true, count := 1, data := some s :: List.replicate 7 none }

theorem oneString_slots (s : CString) : Slots (oneString s) [some s] :=
  ⟨rfl, Nat.le_add_left 1 7, rfl, Nat.lt_of_sub_eq_succ rfl⟩

theorem letters_length (n : Nat) : (letters n).val.length = n := List.length_replicate

theorem slotLen_letters (n : Nat) : slotLen (some (letters n)) = n := letters_length n

end Xarray
end Xlibc
