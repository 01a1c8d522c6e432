import Mathlib.Algebra.Ring.Nat
import Mathlib.Data.List.DropRight

/-!
# Xlibc.Base.Lines

Reading a list in pieces, and trimming.

* `piece`, `pieces` : a piece ends with the next separator, or after `n` elements.
* `pieces_append`   : what ends with a separator is read by itself.
* `flatMap_pieces`  : short lines are read one by one.
* `trim`            : a list without the blanks at its two ends.
-/

namespace Xlibc

variable {α : Type} [DecidableEq α]

/-- The start of a list, up to the first separator and with it, but at most `n` elements. -/
def piece (sep : α) : Nat → List α → List α
  | 0, _ => []
  | _ + 1, [] => []
  | n + 1, c :: s => if c = sep then [c] else c :: piece sep n s

def piecesUpTo (sep : α) (n : Nat) : Nat → List α → List (List α)
  | 0, _ => []
  | _ + 1, [] => []
  | fuel + 1, c :: s =>
    piece sep n (c :: s) :: piecesUpTo sep n fuel ((c :: s).drop (piece sep n (c :: s)).length)

/-- A list read piece by piece. -/
def pieces (sep : α) (n : Nat) (s : List α) : List (List α) := piecesUpTo sep n s.length s

theorem piece_initial (sep : α) (n : Nat) (s : List α) : piece sep n s <+: s := by
  induction n generalizing s with
  | zero => exact List.nil_prefix
  | succ n ih =>
    cases s with
    | nil => exact List.prefix_rfl
    | cons c s =>
      rw [piece]
      split
      · exact List.cons_prefix_cons.mpr ⟨rfl, List.nil_prefix⟩
      · exact List.cons_prefix_cons.mpr ⟨rfl, ih s⟩

theorem piece_length_le (sep : α) (n : Nat) (s : List α) : (piece sep n s).length ≤ n := by
  induction n generalizing s with
  | zero => exact Nat.le_refl 0
  | succ n ih =>
    cases s with
    | nil => exact Nat.zero_le _
    | cons c s =>
      rw [piece]
      split
      · exact Nat.succ_le_succ (Nat.zero_le n)
      · exact Nat.succ_le_succ (ih s)

theorem piece_length_pos (sep : α) {n : Nat} (hn : 0 < n) {s : List α} (hs : s ≠ []) :
    0 < (piece sep n s).length := by
  cases n with
  | zero => exact absurd hn (Nat.lt_irrefl 0)
  | succ n =>
    cases s with
    | nil => exact absurd rfl hs
    | cons c s =>
      rw [piece]
      split <;> simp

/-- A line that is short enough, with its separator. -/
theorem piece_line {sep : α} {l : List α} (hl : sep ∉ l) {n : Nat} (hn : l.length < n) (rest : List α) :
    piece sep n (l ++ sep :: rest) = l ++ [sep] := by
  induction l generalizing n with
  | nil =>
    cases n with
    | zero => exact absurd hn (Nat.not_lt_zero _)
    | succ n => simp [piece]
  | cons c l ih =>
    rw [List.mem_cons, not_or] at hl
    cases n with
    | zero => exact absurd hn (Nat.not_lt_zero _)
    | succ n =>
      have hc : c ≠ sep := fun h => hl.1 h.symm
      rw [List.cons_append, piece, if_neg hc, ih hl.2 (Nat.lt_of_succ_lt_succ hn), List.cons_append]

/-- The last line, if no separator ends it. -/
theorem piece_last {sep : α} {l : List α} (hl : sep ∉ l) {n : Nat} (hn : l.length ≤ n) :
    piece sep n l = l := by
  induction l generalizing n with
  | nil => cases n <;> rfl
  | cons c l ih =>
    rw [List.mem_cons, not_or] at hl
    cases n with
    | zero => exact absurd hn (Nat.not_succ_le_zero _)
    | succ n =>
      have hc : c ≠ sep := fun h => hl.1 h.symm
      rw [piece, if_neg hc, ih hl.2 (Nat.le_of_succ_le_succ hn)]

/-- A line without a separator is cut after `n` elements. -/
theorem piece_take {sep : α} {l : List α} (n : Nat) (hl : sep ∉ l.take n) : piece sep n l = l.take n := by
  induction n generalizing l with
  | zero => rfl
  | succ n ih =>
    cases l with
    | nil => rfl
    | cons c l =>
      rw [List.take_succ_cons, List.mem_cons, not_or] at hl
      have hc : c ≠ sep := fun h => hl.1 h.symm
      rw [piece, if_neg hc, ih hl.2, List.take_succ_cons]

theorem piece_append {sep : α} {a : List α} (ha : a.getLast? = some sep) (b : List α) (n : Nat) :
    piece sep n (a ++ b) = piece sep n a := by
  induction a generalizing n with
  | nil => cases ha
  | cons c a ih =>
    cases n with
    | zero => rfl
    | succ n =>
      rw [List.cons_append, piece, piece]
      by_cases hc : c = sep
      · rw [if_pos hc, if_pos hc]
      · rw [if_neg hc, if_neg hc]
        cases a with
        | nil =>
          simp only [List.getLast?_singleton, Option.some.injEq] at ha
          exact absurd ha hc
        | cons d a => rw [ih (by rwa [List.getLast?_cons_cons] at ha)]

/-! ## All pieces -/

@[simp] theorem pieces_nil (sep : α) (n : Nat) : pieces sep n [] = [] := rfl

theorem piecesUpTo_eq (sep : α) {n : Nat} (hn : 0 < n) {fuel : Nat} {s : List α} (hs : s.length ≤ fuel) :
    piecesUpTo sep n fuel s = pieces sep n s := by
  suffices h : ∀ fuel fuel' (s : List α), s.length ≤ fuel → s.length ≤ fuel' →
      piecesUpTo sep n fuel s = piecesUpTo sep n fuel' s from h fuel s.length s hs (Nat.le_refl _)
  intro fuel
  induction fuel with
  | zero =>
    intro fuel' s hs _
    cases List.length_eq_zero_iff.mp (Nat.le_zero.mp hs)
    cases fuel' <;> rfl
  | succ fuel ih =>
    intro fuel' s hs hs'
    cases s with
    | nil => cases fuel' <;> rfl
    | cons c s =>
      cases fuel' with
      | zero => exact absurd hs' (Nat.not_succ_le_zero _)
      | succ fuel' =>
        have hpos := piece_length_pos sep hn (List.cons_ne_nil c s)
        rw [List.length_cons] at hs hs'
        rw [piecesUpTo, piecesUpTo, ih fuel' _ (by rw [List.length_drop, List.length_cons]; omega)
          (by rw [List.length_drop, List.length_cons]; omega)]

theorem pieces_cons (sep : α) {n : Nat} (hn : 0 < n) {s : List α} (hs : s ≠ []) :
    pieces sep n s = piece sep n s :: pieces sep n (s.drop (piece sep n s).length) := by
  cases s with
  | nil => exact absurd rfl hs
  | cons c s =>
    have hpos := piece_length_pos sep hn hs
    rw [pieces, List.length_cons, piecesUpTo, piecesUpTo_eq sep hn]
    rw [List.length_drop, List.length_cons]
    omega

theorem mem_of_mem_pieces {sep : α} {n : Nat} (hn : 0 < n) {s : List α} :
    ∀ {p : List α}, p ∈ pieces sep n s → ∀ c ∈ p, c ∈ s := by
  induction hlen : s.length using Nat.strongRecOn generalizing s with
  | ind m ih =>
    intro p hp c hc
    by_cases hs : s = []
    · rw [hs, pieces_nil] at hp
      cases hp
    · rw [pieces_cons sep hn hs] at hp
      cases hp with
      | head => exact (piece_initial sep n s).subset hc
      | tail _ hp =>
        have hpos := piece_length_pos sep hn hs
        have hslen := List.length_pos_iff.mpr hs
        refine List.mem_of_mem_drop (ih _ ?_ rfl hp c hc)
        rw [List.length_drop]
        omega

/-- What ends with a separator is read by itself. -/
theorem pieces_append {sep : α} {n : Nat} (hn : 0 < n) {a : List α} (ha : a = [] ∨ a.getLast? = some sep)
    (b : List α) : pieces sep n (a ++ b) = pieces sep n a ++ pieces sep n b := by
  induction hlen : a.length using Nat.strongRecOn generalizing a with
  | ind m ih =>
    by_cases hnil : a = []
    · rw [hnil, pieces_nil, List.nil_append, List.nil_append]
    · have hend : a.getLast? = some sep := ha.resolve_left hnil
      have hpos := piece_length_pos sep hn hnil
      have hle := (piece_initial sep n a).length_le
      have hrest : a.drop (piece sep n a).length = [] ∨
          (a.drop (piece sep n a).length).getLast? = some sep := by
        by_cases hall : a.length ≤ (piece sep n a).length
        · exact .inl (List.drop_eq_nil_of_le hall)
        · right
          rw [List.getLast?_drop, if_neg hall, hend]
      have happ : a ++ b ≠ [] := by
        intro h
        exact hnil (List.append_eq_nil_iff.mp h).1
      have hshort : (a.drop (piece sep n a).length).length < m := by
        rw [List.length_drop]
        omega
      rw [pieces_cons sep hn hnil, pieces_cons sep hn happ, piece_append hend,
        List.drop_append_of_le_length hle, ih _ hshort hrest rfl, List.cons_append]

/-- Lines that are short enough are read one by one: for a function that takes no notice of the
separator at their end. -/
theorem flatMap_pieces {β : Type} {sep : α} {n : Nat} {g : List α → List β} (hnil : g [] = [])
    (hsep : ∀ l, g (l ++ [sep]) = g l) {s : List α} (hs : ∀ l ∈ s.splitOn sep, l.length < n) :
    (pieces sep n s).flatMap g = (s.splitOn sep).flatMap g := by
  induction hlen : s.length using Nat.strongRecOn generalizing s with
  | ind m ih =>
    have hn : 0 < n := by
      obtain ⟨l, hl⟩ := List.exists_mem_of_ne_nil _ (List.splitOn_ne_nil sep s)
      exact Nat.lt_of_le_of_lt (Nat.zero_le _) (hs l hl)
    by_cases hmem : sep ∈ s
    · obtain ⟨l, rest, rfl, hl⟩ := List.eq_append_cons_of_mem hmem
      rw [List.splitOn_append_cons_self_of_not_mem hl] at hs ⊢
      have hline := piece_line hl (hs l List.mem_cons_self) rest
      have hdrop : (l ++ sep :: rest).drop (l ++ [sep]).length = rest := by
        have hsplit : l ++ sep :: rest = l ++ [sep] ++ rest := by rw [List.append_assoc, List.singleton_append]
        rw [hsplit, List.drop_left]
      have hshort : rest.length < m := by
        rw [← hlen, List.length_append, List.length_cons]
        omega
      rw [pieces_cons sep hn (by simp), hline, hdrop, List.flatMap_cons, List.flatMap_cons, hsep,
        ih _ hshort (fun l' hl' => hs l' (List.mem_cons_of_mem _ hl')) rfl]
    · rw [List.splitOn_eq_singleton hmem] at hs ⊢
      rw [List.flatMap_singleton]
      by_cases hempty : s = []
      · rw [hempty, pieces_nil, List.flatMap_nil, hnil]
      · have hlast := piece_last hmem (Nat.le_of_lt (hs s List.mem_cons_self))
        rw [pieces_cons sep hn hempty, hlast, List.drop_length, pieces_nil, List.flatMap_singleton]

/-! ## Trimming -/

omit [DecidableEq α]

variable {p : α → Bool}

/-- Without the blanks at the end and at the start. -/
def trim (p : α → Bool) (s : List α) : List α := (s.rdropWhile p).dropWhile p

@[simp] theorem trim_nil : trim p [] = [] := by simp [trim]

theorem trim_subset (s : List α) : trim p s ⊆ s := fun _ hc =>
  (List.rdropWhile_prefix p s).subset ((List.dropWhile_sublist p).subset hc)

theorem trim_concat {c : α} (hc : p c = true) (s : List α) : trim p (s ++ [c]) = trim p s := by
  rw [trim, List.rdropWhile_concat_pos _ _ _ hc, trim]

theorem rdropWhile_append_left {a : List α} (ha : ∀ c ∈ a, p c = true) (s : List α) :
    (s.rdropWhile p = [] ∧ (a ++ s).rdropWhile p = []) ∨
    (a ++ s).rdropWhile p = a ++ s.rdropWhile p := by
  by_cases hs : s.rdropWhile p = []
  · refine .inl ⟨hs, ?_⟩
    rw [List.rdropWhile_eq_nil_iff] at hs ⊢
    intro c hc
    cases List.mem_append.mp hc with
    | inl hmem => exact ha c hmem
    | inr hmem => exact hs c hmem
  · right
    rw [List.rdropWhile, List.reverse_eq_nil_iff] at hs
    rw [List.rdropWhile, List.reverse_append, List.dropWhile_append, if_neg (by simpa using hs),
      List.reverse_append, List.reverse_reverse, List.rdropWhile]

theorem trim_append_left {a : List α} (ha : ∀ c ∈ a, p c = true) (s : List α) :
    trim p (a ++ s) = trim p s := by
  unfold trim
  cases rdropWhile_append_left ha s with
  | inl hnil => rw [hnil.1, hnil.2]
  | inr happ => rw [happ, List.dropWhile_append_of_pos ha]

end Xlibc
