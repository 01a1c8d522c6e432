import Mathlib.Data.List.Nodup
import Mathlib.Logic.Function.Basic

/-!
# Xlibc.Base.Ring

Circular doubly linked lists. Links are two partial functions on places, `next` and `prev`; how a
program stores them is up to it.

* `Ring next prev head l` : from `head` the links lead over `l` back to `head`, both ways.
* `Ring.frame`            : a ring depends on the links of its own places only.
* `Ring.addTail`, `Ring.removeHead` : a new place before `head`, the place behind `head` taken out.
* `walkRing`, `Ring.walk` : the loop over all places of a ring lists them.
-/

namespace Xlibc

universe u

variable {α : Type u}

/-- `b` follows `a`, by the links of both. -/
def Linked (next prev : α → Option α) (a b : α) : Prop := next a = some b ∧ prev b = some a

/-- From `a` over `l` to `b`. -/
def Segment (next prev : α → Option α) : α → List α → α → Prop
  | a, [], b => Linked next prev a b
  | a, x :: l, b => Linked next prev a x ∧ Segment next prev x l b

structure Ring (next prev : α → Option α) (head : α) (l : List α) : Prop where
  segment : Segment next prev head l head
  nodup : (head :: l).Nodup

/-- `for (p = ..; p != head; p = p->next)` -/
def walkRing [DecidableEq α] (next : α → Option α) (head : α) : Nat → α → Option (List α)
  | fuel, p =>
    if p = head then some []
    else match fuel with
      | 0 => none
      | fuel + 1 => do
        let q ← next p
        let l ← walkRing next head fuel q
        some (p :: l)

variable {next prev next' prev' : α → Option α} {a b x head : α} {l : List α}

namespace Segment

theorem frame (hn : ∀ p ∈ a :: l, next' p = next p) (hp : ∀ p ∈ l ++ [b], prev' p = prev p)
    (h : Segment next prev a l b) : Segment next' prev' a l b := by
  induction l generalizing a with
  | nil =>
    obtain ⟨h1, h2⟩ := h
    exact ⟨by rw [hn a (by simp), h1], by rw [hp b (by simp), h2]⟩
  | cons x l ih =>
    obtain ⟨⟨h1, h2⟩, hl⟩ := h
    exact ⟨⟨by rw [hn a (by simp), h1], by rw [hp x (by simp), h2]⟩,
      ih (fun p hp' => hn p (List.mem_cons_of_mem _ hp'))
        (fun p hp' => hp p (List.mem_cons_of_mem _ hp')) hl⟩

theorem concat_iff : Segment next prev a (l ++ [x]) b ↔ Segment next prev a l x ∧ Linked next prev x b := by
  induction l generalizing a with
  | nil => exact Iff.rfl
  | cons y l ih =>
    rw [List.cons_append]
    exact (and_congr_right fun _ => ih).trans and_assoc.symm

/-- Every place but the last leads ahead, and every place but the first back. -/
theorem links (h : Segment next prev a l b) :
    (∀ p ∈ a :: l, ∃ q ∈ l ++ [b], next p = some q) ∧
      ∀ p ∈ l ++ [b], ∃ q ∈ a :: l, prev p = some q := by
  induction l generalizing a with
  | nil =>
    obtain ⟨h1, h2⟩ := h
    exact ⟨by simp [h1], by simp [h2]⟩
  | cons x l ih =>
    obtain ⟨⟨h1, h2⟩, hl⟩ := h
    obtain ⟨hn, hp⟩ := ih hl
    constructor
    · rintro p (_ | ⟨_, hmem⟩)
      · exact ⟨x, by simp, h1⟩
      · obtain ⟨q, hq, hpq⟩ := hn p hmem
        exact ⟨q, List.mem_cons_of_mem _ hq, hpq⟩
    · rintro p (_ | ⟨_, hmem⟩)
      · exact ⟨a, by simp, h2⟩
      · obtain ⟨q, hq, hpq⟩ := hp p hmem
        exact ⟨q, List.mem_cons_of_mem _ hq, hpq⟩

end Segment

namespace Ring

theorem empty (hn : next head = some head) (hp : prev head = some head) : Ring next prev head [] :=
  ⟨⟨hn, hp⟩, List.nodup_singleton head⟩

theorem frame (h : Ring next prev head l) (hn : ∀ p ∈ head :: l, next' p = next p)
    (hp : ∀ p ∈ head :: l, prev' p = prev p) : Ring next' prev' head l :=
  ⟨h.segment.frame hn fun p hmem => hp p (by simpa [or_comm] using hmem), h.nodup⟩

/-- Both links of every place lead to a place. -/
theorem links (h : Ring next prev head l) {p : α} (hp : p ∈ head :: l) :
    (∃ q ∈ head :: l, next p = some q) ∧ ∃ q ∈ head :: l, prev p = some q := by
  have hmem : ∀ q, q ∈ l ++ [head] ↔ q ∈ head :: l := fun q => by simp [or_comm]
  obtain ⟨q, hq, hpq⟩ := h.segment.links.1 p hp
  exact ⟨⟨q, (hmem q).mp hq, hpq⟩, h.segment.links.2 p ((hmem p).mpr hp)⟩

section Update

variable [DecidableEq α]

/-- A new place between the last one and `head`. -/
theorem addTail {new last : α} (h : Ring next prev head l) (hnew : new ∉ head :: l)
    (hlast : prev head = some last) :
    Ring (Function.update (Function.update next new (some head)) last (some new))
      (Function.update (Function.update prev head (some new)) new (some last)) head (l ++ [new]) := by
  obtain ⟨hseg, hnd⟩ := h
  obtain ⟨hnh, hnl⟩ : new ≠ head ∧ new ∉ l := by simpa using hnew
  have hnd' : (head :: (l ++ [new])).Nodup := by
    rw [← List.cons_append]
    exact hnd.append (List.nodup_singleton _)
      (by simpa [List.Disjoint] using ⟨hnh.symm, fun x hx heq => hnl (heq ▸ hx)⟩)
  refine ⟨Segment.concat_iff.mpr ⟨?_, ?_⟩, hnd'⟩
  · rcases List.eq_nil_or_concat' l with rfl | ⟨l, x, rfl⟩
    · obtain rfl : head = last := Option.some.inj (hseg.2.symm.trans hlast)
      exact ⟨by simp, by simp⟩
    · obtain ⟨hseg, hx⟩ := Segment.concat_iff.mp hseg
      obtain rfl : x = last := Option.some.inj (hx.2.symm.trans hlast)
      have hxn : x ≠ new := fun heq => hnl (by simp [heq])
      -- the links up to the last place stay as they are
      refine Segment.concat_iff.mpr ⟨hseg.frame (fun p hp => ?_) fun p hp => ?_, by simp, by simp⟩
      · have hpn : p ≠ new := fun heq => hnew (by rw [← heq]; simp at hp ⊢; tauto)
        have hpx : p ≠ x := by
          rintro rfl
          rw [← List.cons_append] at hnd
          exact (List.nodup_append.mp hnd).2.2 p hp p (by simp) rfl
        simp [hpn, hpx]
      · have hpn : p ≠ new := fun heq => hnl (by rw [← heq]; simpa using hp)
        have hph : p ≠ head := fun heq => (List.nodup_cons.mp hnd).1 (by rw [← heq]; simpa using hp)
        simp [hpn, hph]
  · have hln : new ≠ last := by
      obtain ⟨p, hp, hpl⟩ := hseg.links.2 head (by simp)
      rintro rfl
      rw [Option.some.inj (hlast.symm.trans hpl)] at hnew
      exact hnew hp
    exact ⟨by simp [hln], by simp [hnh.symm]⟩

/-- The place behind `head` is taken out, and its links are cleared. -/
theorem removeHead {c : α} (h : Ring next prev head (a :: l)) (hb : next a = some b)
    (hc : prev a = some c) :
    Ring (Function.update (Function.update next c (some b)) a none)
      (Function.update (Function.update prev b (some c)) a none) head l := by
  obtain ⟨⟨⟨hha, hah⟩, hseg⟩, hnd⟩ := h
  obtain rfl : head = c := Option.some.inj (hah.symm.trans hc)
  obtain ⟨⟨hne, hhl⟩, hal, hnl⟩ : (head ≠ a ∧ head ∉ l) ∧ a ∉ l ∧ l.Nodup := by simpa using hnd
  refine ⟨?_, List.nodup_cons.mpr ⟨hhl, hnl⟩⟩
  cases l with
  | nil =>
    obtain rfl : head = b := Option.some.inj (hseg.1.symm.trans hb)
    exact ⟨by simp [hne], by simp [hne]⟩
  | cons x l =>
    obtain ⟨⟨hax, hxa⟩, hseg⟩ := hseg
    obtain rfl : x = b := Option.some.inj (hax.symm.trans hb)
    have hxne : x ≠ a := fun heq => hal (by simp [heq])
    refine ⟨⟨by simp [hne], by simp [hxne]⟩, hseg.frame (fun p hp => ?_) fun p hp => ?_⟩
    · have hpa : p ≠ a := fun heq => hal (heq ▸ hp)
      have hph : p ≠ head := fun heq => hhl (heq ▸ hp)
      simp [hpa, hph]
    · have hpa : p ≠ a := by
        rintro rfl
        simp only [List.mem_append, List.mem_singleton] at hp
        rcases hp with hp | hp
        · exact hal (List.mem_cons_of_mem _ hp)
        · exact hne hp.symm
      have hpx : p ≠ x := by
        rintro rfl
        simp only [List.mem_append, List.mem_singleton] at hp
        rcases hp with hp | hp
        · exact (List.nodup_cons.mp hnl).1 hp
        · exact hhl (by simp [hp])
      simp [hpa, hpx]

end Update

/-- Walking from `head` once around lists the ring. -/
theorem walk [DecidableEq α] {fuel : Nat} (h : Ring next prev head l) (hfuel : l.length ≤ fuel) :
    ∃ p, next head = some p ∧ walkRing next head fuel p = some l := by
  have hgen : ∀ (l : List α) (a : α) (fuel : Nat), Segment next prev a l head → head ∉ l →
      l.length ≤ fuel → ∃ p, next a = some p ∧ walkRing next head fuel p = some l := by
    intro l
    induction l with
    | nil =>
      intro a fuel hseg _ _
      exact ⟨head, hseg.1, by cases fuel <;> simp [walkRing]⟩
    | cons x l ih =>
      intro a fuel hseg hno hfuel
      obtain ⟨fuel, rfl⟩ : ∃ n, fuel = n + 1 := ⟨fuel - 1, by simp at hfuel; omega⟩
      have hxh : x ≠ head := fun heq => hno (by simp [heq])
      obtain ⟨q, hq, hrest⟩ := ih x fuel hseg.2 (fun hmem => hno (List.mem_cons_of_mem _ hmem))
        (by simpa using hfuel)
      exact ⟨x, hseg.1.1, by simp [walkRing, hxh, hq, hrest]⟩
  exact hgen l head fuel h.segment (List.nodup_cons.mp h.nodup).1 hfuel

end Ring

end Xlibc
