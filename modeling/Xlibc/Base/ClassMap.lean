import Mathlib.Data.Set.Finite.Basic
import Mathlib.Logic.Function.Basic

/-!
# Xlibc.Base.ClassMap

Finite maps from the classes of a setoid to a member of each class.

* `ClassMap.put`, `ClassMap.drop`, `ClassMap.empty` : the operations.
* `ClassMap.Enumerates m l` : `l` lists the stored members, each once.
-/

namespace Xlibc

variable {δ : Type} (s : Setoid δ)

structure ClassMap where
  find : Quotient s → Option δ
  mem_class : ∀ c d, find c = some d → Quotient.mk s d = c
  finite : {c | find c ≠ none}.Finite

variable {s}

namespace ClassMap

theorem ext_find {m m' : ClassMap s} (h : m.find = m'.find) : m = m' := by
  cases m; cases m'; cases h; rfl

def empty : ClassMap s where
  find _ := none
  mem_class := by simp
  finite := by simp

open Classical in
/-- Keep `d` for its own class. -/
noncomputable def put (m : ClassMap s) (d : δ) : ClassMap s where
  find := Function.update m.find (Quotient.mk s d) (some d)
  mem_class c e h := by
    by_cases hc : c = Quotient.mk s d
    · subst hc
      rw [Function.update_self] at h
      cases h
      rfl
    · exact m.mem_class c e (by rwa [Function.update_of_ne hc] at h)
  finite := by
    refine (m.finite.union (Set.finite_singleton (Quotient.mk s d))).subset fun c hc => ?_
    by_cases h : c = Quotient.mk s d
    · exact .inr h
    · exact .inl (by simpa [Function.update_of_ne h] using hc)

open Classical in
/-- Forget the member kept for `c`. -/
noncomputable def drop (m : ClassMap s) (c : Quotient s) : ClassMap s where
  find := Function.update m.find c none
  mem_class c' e h := by
    by_cases hc : c' = c
    · subst hc
      rw [Function.update_self] at h
      cases h
    · exact m.mem_class c' e (by rwa [Function.update_of_ne hc] at h)
  finite := by
    refine m.finite.subset fun c' hc => ?_
    by_cases h : c' = c
    · subst h
      simp at hc
    · simpa [Function.update_of_ne h] using hc

open Classical in
theorem put_find_iff {m : ClassMap s} {d e : δ} {c : Quotient s} :
    (m.put d).find c = some e ↔ (c = Quotient.mk s d ∧ e = d) ∨
      (c ≠ Quotient.mk s d ∧ m.find c = some e) := by
  by_cases h : c = Quotient.mk s d
  · subst h; simp [put, eq_comm]
  · simp [put, h]

open Classical in
theorem drop_find_iff {m : ClassMap s} {e : δ} {c c' : Quotient s} :
    (m.drop c').find c = some e ↔ c ≠ c' ∧ m.find c = some e := by
  by_cases h : c = c'
  · subst h; simp [drop]
  · simp [drop, h]

structure Enumerates (m : ClassMap s) (l : List δ) : Prop where
  pairwise : l.Pairwise fun a b => ¬ s a b
  find_iff : ∀ c d, m.find c = some d ↔ d ∈ l ∧ Quotient.mk s d = c

namespace Enumerates

variable {m : ClassMap s} {l l₁ l₂ : List δ} {d x : δ}

theorem nil : Enumerates (empty : ClassMap s) [] := ⟨.nil, by simp [empty]⟩

theorem perm {l' : List δ} (h : m.Enumerates l) (hp : l.Perm l') : m.Enumerates l' where
  pairwise := (hp.pairwise_iff fun hab hba => hab (s.symm hba)).mp h.pairwise
  find_iff c d := by rw [h.find_iff, hp.mem_iff]

theorem nodup (h : m.Enumerates l) : l.Nodup :=
  h.pairwise.imp fun {a b} hab (heq : a = b) => hab (heq ▸ s.refl a)

/-- What a class keeps: its only member of the list, if any. -/
theorem find_some (h : m.Enumerates l) (hx : x ∈ l) (hxd : s x d) :
    m.find (Quotient.mk s d) = some x :=
  (h.find_iff _ _).mpr ⟨hx, Quotient.sound hxd⟩

theorem find_none (h : m.Enumerates l) (hd : ∀ x ∈ l, ¬ s x d) : m.find (Quotient.mk s d) = none := by
  cases hf : m.find (Quotient.mk s d) with
  | none => rfl
  | some x =>
    obtain ⟨hx, hc⟩ := (h.find_iff _ _).mp hf
    exact absurd (Quotient.exact hc) (hd x hx)

theorem cons (h : m.Enumerates l) (hd : ∀ x ∈ l, ¬ s x d) : (m.put d).Enumerates (d :: l) where
  pairwise := List.pairwise_cons.mpr ⟨fun x hx hdx => hd x hx (s.symm hdx), h.pairwise⟩
  find_iff c e := by
    rw [put_find_iff, h.find_iff, List.mem_cons]
    constructor
    · rintro (⟨rfl, rfl⟩ | ⟨-, he, hc⟩)
      · exact ⟨.inl rfl, rfl⟩
      · exact ⟨.inr he, hc⟩
    · rintro ⟨rfl | he, rfl⟩
      · exact .inl ⟨rfl, rfl⟩
      · exact .inr ⟨fun hc => hd e he (Quotient.exact hc), he, rfl⟩

/-- Only `x` is in its class. -/
theorem middle (h : m.Enumerates (l₁ ++ x :: l₂)) : ∀ y ∈ l₁ ++ l₂, ¬ s y x := by
  have hp := (List.perm_middle.pairwise_iff fun hab hba => hab (s.symm hba)).mp h.pairwise
  intro y hy hyx
  exact (List.pairwise_cons.mp hp).1 y hy (s.symm hyx)

theorem remove (h : m.Enumerates (l₁ ++ x :: l₂)) (hx : s x d) :
    (m.drop (Quotient.mk s d)).Enumerates (l₁ ++ l₂) where
  pairwise := h.pairwise.sublist (List.Sublist.append_left (List.sublist_cons_self x l₂) l₁)
  find_iff c e := by
    rw [drop_find_iff, h.find_iff]
    have hmem : e ∈ l₁ ++ x :: l₂ ↔ e = x ∨ e ∈ l₁ ++ l₂ := by simp; tauto
    rw [hmem]
    constructor
    · rintro ⟨hc, rfl | he, rfl⟩
      · exact absurd (Quotient.sound hx) hc
      · exact ⟨he, rfl⟩
    · rintro ⟨he, rfl⟩
      exact ⟨fun hc => h.middle e he (s.trans (Quotient.exact hc) (s.symm hx)), .inr he, rfl⟩

theorem replace (h : m.Enumerates (l₁ ++ x :: l₂)) (hx : s x d) :
    (m.put d).Enumerates (l₁ ++ d :: l₂) := by
  have hrest := h.remove hx
  have hnew := hrest.cons fun y hy hyd => h.middle y hy (s.trans hyd (s.symm hx))
  have hput : (m.drop (Quotient.mk s d)).put d = m.put d :=
    ext_find (by simp [put, drop])
  rw [hput] at hnew
  exact hnew.perm List.perm_middle.symm

/-- Any list of pairwise inequivalent members is enumerated by a map. -/
theorem exists_of_pairwise (h : l.Pairwise fun a b => ¬ s a b) : ∃ m : ClassMap s, m.Enumerates l := by
  induction l with
  | nil => exact ⟨empty, .nil⟩
  | cons d l ih =>
    obtain ⟨hd, hl⟩ := List.pairwise_cons.mp h
    obtain ⟨m, hm⟩ := ih hl
    exact ⟨_, hm.cons fun x hx hxd => hd x hx (s.symm hxd)⟩

end Enumerates

end ClassMap

end Xlibc
