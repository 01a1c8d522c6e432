import Mathlib.Data.Fintype.EquivFin
import Mathlib.Data.List.AList
import Mathlib.Data.List.Perm.Subperm

/-!
# Xlibc.Base.Chain

Singly linked chains in a store of cells. A store maps live addresses to cells; freeing a cell
erases its address. `next` reads a cell's link and `val` what else the cell holds.

* `Chain m p l`       : following `next` from `p` passes the cells of `l` and ends in `NULL`.
* `Chain.frame`       : a chain depends on its own cells only.
* `Chain.push`, `Chain.overwrite`, `Chain.bypass` : a new head, a new value, a cell linked out.
* `chain_length_le`   : a chain without repetition is no longer than its store.
* `forall₂_at`, `forall₂_join` : one chain of a directory, taken out and put back.
-/

namespace Xlibc

abbrev Store (β : Type) := AList fun _ : Nat => β

variable {β ξ : Type}

section Chain

variable (next : β → Option Nat) (val : β → ξ)

def Chain (m : Store β) : Option Nat → List (Nat × ξ) → Prop
  | p, [] => p = none
  | p, (a, x) :: l => p = some a ∧ ∃ b, m.lookup a = some b ∧ val b = x ∧ Chain m (next b) l

end Chain

/-- The addresses a list of cells occupies. -/
def addrs (l : List (Nat × ξ)) : List Nat := l.map Prod.fst

@[simp] theorem addrs_nil : addrs ([] : List (Nat × ξ)) = [] := rfl
@[simp] theorem addrs_cons (c : Nat × ξ) (l : List (Nat × ξ)) : addrs (c :: l) = c.1 :: addrs l := rfl
@[simp] theorem addrs_append (l l' : List (Nat × ξ)) : addrs (l ++ l') = addrs l ++ addrs l' :=
  List.map_append

namespace Chain

variable {next : β → Option Nat} {val : β → ξ} {m m' : Store β} {p : Option Nat} {l : List (Nat × ξ)}

theorem frame (hm : ∀ a ∈ addrs l, m'.lookup a = m.lookup a) (h : Chain next val m p l) :
    Chain next val m' p l := by
  induction l generalizing p with
  | nil => exact h
  | cons c l ih =>
    obtain ⟨hp, b, hb, hv, hl⟩ := h
    exact ⟨hp, b, by rw [hm _ (by simp), hb], hv, ih (fun a ha => hm a (by simp [ha])) hl⟩

theorem frame_insert {a : Nat} {b : β} (ha : a ∉ addrs l) (h : Chain next val m p l) :
    Chain next val (m.insert a b) p l :=
  h.frame fun _ hc => AList.lookup_insert_ne fun heq => ha (heq ▸ hc)

theorem frame_erase {a : Nat} (ha : a ∉ addrs l) (h : Chain next val m p l) :
    Chain next val (m.erase a) p l :=
  h.frame fun _ hc => AList.lookup_erase_ne fun heq => ha (heq ▸ hc)

/-- The cell at a place of the chain, and the chain behind it. -/
theorem cell {l₁ l₂ : List (Nat × ξ)} {a : Nat} {x : ξ}
    (h : Chain next val m p (l₁ ++ (a, x) :: l₂)) :
    ∃ b, m.lookup a = some b ∧ val b = x ∧ Chain next val m (next b) l₂ := by
  induction l₁ generalizing p with
  | nil => exact h.2
  | cons c l₁ ih =>
    obtain ⟨-, b, -, -, hl⟩ := h
    exact ih hl

theorem mem_keys {a : Nat} (h : Chain next val m p l) (ha : a ∈ addrs l) : a ∈ m.keys := by
  obtain ⟨⟨a', x⟩, hc, rfl⟩ := List.mem_map.mp ha
  obtain ⟨l₁, l₂, rfl⟩ := List.append_of_mem hc
  obtain ⟨b, hb, -⟩ := h.cell
  exact AList.lookup_isSome.mp (by rw [hb]; rfl)

theorem push {a : Nat} {b : β} (ha : a ∉ addrs l) (hb : next b = p) (h : Chain next val m p l) :
    Chain next val (m.insert a b) (some a) ((a, val b) :: l) :=
  ⟨rfl, b, AList.lookup_insert _, rfl, by rw [hb]; exact h.frame_insert ha⟩

/-- Writing a cell without changing its link changes the value at its place. -/
theorem overwrite {l₁ l₂ : List (Nat × ξ)} {a : Nat} {x : ξ} {b : β} (b' : β)
    (hb : m.lookup a = some b) (hnext : next b' = next b)
    (hnd : (addrs (l₁ ++ (a, x) :: l₂)).Nodup) (h : Chain next val m p (l₁ ++ (a, x) :: l₂)) :
    Chain next val (m.insert a b') p (l₁ ++ (a, val b') :: l₂) := by
  induction l₁ generalizing p with
  | nil =>
    obtain ⟨hp, c, hc, -, hl⟩ := h
    obtain rfl : b = c := Option.some.inj (hb.symm.trans hc)
    have ha : a ∉ addrs l₂ := (List.nodup_cons.mp hnd).1
    exact ⟨hp, b', AList.lookup_insert _, rfl, by rw [hnext]; exact hl.frame_insert ha⟩
  | cons c l₁ ih =>
    obtain ⟨hp, b1, hb1, hv, hl⟩ := h
    obtain ⟨hc, hnd'⟩ := List.nodup_cons.mp hnd
    have hne : c.1 ≠ a := fun heq => hc (by simp [heq])
    exact ⟨hp, b1, by rw [AList.lookup_insert_ne hne]; exact hb1, hv, ih hnd' hl⟩

/-- Making the cell at `q` point past its successor takes the successor out of the chain. -/
theorem bypass {l₁ l₂ : List (Nat × ξ)} {q a : Nat} {y x : ξ} {bq ba : β} (bq' : β)
    (hq : m.lookup q = some bq) (ha : m.lookup a = some ba) (hval : val bq' = val bq)
    (hnext : next bq' = next ba) (hnd : (addrs (l₁ ++ (q, y) :: (a, x) :: l₂)).Nodup)
    (h : Chain next val m p (l₁ ++ (q, y) :: (a, x) :: l₂)) :
    Chain next val (m.insert q bq') p (l₁ ++ (q, y) :: l₂) := by
  induction l₁ generalizing p with
  | nil =>
    obtain ⟨hp, c, hc, hy, -, d, hd, -, hl⟩ := h
    obtain rfl : bq = c := Option.some.inj (hq.symm.trans hc)
    obtain rfl : ba = d := Option.some.inj (ha.symm.trans hd)
    have hql : q ∉ addrs l₂ := fun hmem => (List.nodup_cons.mp hnd).1 (List.mem_cons_of_mem _ hmem)
    exact ⟨hp, bq', AList.lookup_insert _, hval.trans hy, by rw [hnext]; exact hl.frame_insert hql⟩
  | cons c l₁ ih =>
    obtain ⟨hp, b1, hb1, hv, hl⟩ := h
    obtain ⟨hc, hnd'⟩ := List.nodup_cons.mp hnd
    have hne : c.1 ≠ q := fun heq => hc (by simp [heq])
    exact ⟨hp, b1, by rw [AList.lookup_insert_ne hne]; exact hb1, hv, ih hnd' hl⟩

end Chain

theorem chain_length_le {m : Store β} {l : List (Nat × ξ)} (hnd : (addrs l).Nodup)
    (hsub : ∀ a ∈ addrs l, a ∈ m.keys) : l.length ≤ m.entries.length := by
  have := (hnd.subperm hsub).length_le
  simpa [addrs, AList.keys, List.keys] using this

/-! ## Live addresses -/

theorem exists_fresh (m : Store β) : ∃ a, m.lookup a = none := by
  obtain ⟨a, ha⟩ := Infinite.exists_notMem_finset m.keys.toFinset
  exact ⟨a, AList.lookup_eq_none.mpr fun hmem => ha (List.mem_toFinset.mpr hmem)⟩

theorem keys_insert_fresh {m : Store β} {a : Nat} {b : β} (ha : m.lookup a = none) :
    (m.insert a b).keys = a :: m.keys := by
  rw [AList.keys_insert, List.erase_of_not_mem (AList.lookup_eq_none.mp ha)]

theorem keys_insert_perm {m : Store β} {a : Nat} {b b' : β} (ha : m.lookup a = some b) :
    (m.insert a b').keys.Perm m.keys := by
  have hmem : a ∈ m.keys := AList.lookup_isSome.mp (by rw [ha]; rfl)
  rw [AList.keys_insert]
  exact (List.perm_cons_erase hmem).symm

theorem keys_erase_perm {m : Store β} {a : Nat} {l : List Nat} (h : m.keys.Perm (a :: l)) :
    (m.erase a).keys.Perm l := by
  rw [AList.keys_erase]
  simpa using h.erase a

/-! ## Directories of chains -/

/-- A position of a list of heads, and the chain that hangs there. -/
theorem forall₂_at {α γ : Type} {R : α → γ → Prop} {as : List α} {cs : List γ} {i : Nat}
    (h : List.Forall₂ R as cs) (hi : i < cs.length) :
    ∃ as₁ a as₂ cs₁ c cs₂, as = as₁ ++ a :: as₂ ∧ cs = cs₁ ++ c :: cs₂ ∧ as₁.length = i ∧
      cs₁.length = i ∧ List.Forall₂ R as₁ cs₁ ∧ R a c ∧ List.Forall₂ R as₂ cs₂ := by
  induction h generalizing i with
  | nil => cases hi
  | @cons a c as cs hac h ih =>
    cases i with
    | zero => exact ⟨[], a, as, [], c, cs, rfl, rfl, rfl, rfl, .nil, hac, h⟩
    | succ i =>
      obtain ⟨as₁, a', as₂, cs₁, c', cs₂, rfl, rfl, h1, h2, h3, h4, h5⟩ :=
        ih (Nat.lt_of_succ_lt_succ hi)
      exact ⟨a :: as₁, a', as₂, c :: cs₁, c', cs₂, rfl, rfl, by simp [h1], by simp [h2], .cons hac h3,
        h4, h5⟩

theorem forall₂_join {α γ : Type} {R : α → γ → Prop} {as₁ as₂ : List α} {cs₁ cs₂ : List γ} {a : α}
    {c : γ} (h1 : List.Forall₂ R as₁ cs₁) (h : R a c) (h2 : List.Forall₂ R as₂ cs₂) :
    List.Forall₂ R (as₁ ++ a :: as₂) (cs₁ ++ c :: cs₂) := by
  induction h1 with
  | nil => exact .cons h h2
  | cons hac _ ih => exact .cons hac ih

end Xlibc
