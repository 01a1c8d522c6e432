import Xlibc.Base.Ring

/-!
# Xlibc.Base.RingEdit

Changing a circular doubly linked list at any of its places.

* `Ring.rotate`       : a ring, seen from another of its places.
* `Ring.insertBefore` : a new place before any place.
* `Ring.remove`       : any place but the head taken out.
* `Ring.splice`       : the places of another ring put between any two places.
* `Ring.cut`          : the places up to any place taken out, into a ring of their own.
* `Ring.links_eq`      : the links of a place are those the ring says.
* `Segment.retarget`, `Segment.restart` : a segment led to another end, or from another start.
-/

namespace Xlibc

universe u

variable {α : Type u} {next prev next' prev' : α → Option α} {a b c p x head : α} {l r : List α}

namespace Segment

theorem append_cons_iff : Segment next prev a (l ++ x :: r) b ↔ Segment next prev a l x ∧
    Segment next prev x r b := by
  induction l generalizing a with
  | nil => exact Iff.rfl
  | cons y l ih =>
    rw [List.cons_append]
    exact (and_congr_right fun _ => ih).trans and_assoc.symm

/-- The last place, from which the segment led to `b`, leads to `c`. -/
theorem retarget (h : Segment next prev a l b) (hnd : (a :: l).Nodup) (hp : prev b = some p)
    (hn : ∀ q ∈ a :: l, q ≠ p → next' q = next q) (hq : ∀ q ∈ l, prev' q = prev q)
    (hlink : Linked next' prev' p c) : Segment next' prev' a l c := by
  induction l generalizing a with
  | nil =>
    obtain rfl : a = p := Option.some.inj (h.2.symm.trans hp)
    exact hlink
  | cons x l ih =>
    obtain ⟨⟨hax, hxa⟩, hl⟩ := h
    -- the last place is further on
    have hne : a ≠ p := by
      rintro rfl
      obtain ⟨q, hmem, hq⟩ := hl.links.2 b (by simp)
      rw [Option.some.inj (hp.symm.trans hq)] at hnd
      exact (List.nodup_cons.mp hnd).1 hmem
    exact ⟨⟨by rw [hn a (by simp) hne, hax], by rw [hq x (by simp), hxa]⟩,
      ih hl (List.nodup_cons.mp hnd).2 (fun q hmem => hn q (List.mem_cons_of_mem _ hmem))
        fun q hmem => hq q (List.mem_cons_of_mem _ hmem)⟩

/-- The first place behind `a` follows `c`. -/
theorem restart (h : Segment next prev a l b) (hnd : (l ++ [b]).Nodup) (hx : next a = some x)
    (hn : ∀ q ∈ l, next' q = next q) (hq : ∀ q ∈ l ++ [b], q ≠ x → prev' q = prev q)
    (hlink : Linked next' prev' c x) : Segment next' prev' c l b := by
  cases l with
  | nil =>
    obtain rfl : b = x := Option.some.inj (h.1.symm.trans hx)
    exact hlink
  | cons y l =>
    obtain ⟨⟨hay, hya⟩, hl⟩ := h
    obtain rfl : y = x := Option.some.inj (hay.symm.trans hx)
    refine ⟨hlink, hl.frame hn fun q hmem => hq q (List.mem_cons_of_mem _ hmem) ?_⟩
    rintro rfl
    exact (List.nodup_cons.mp hnd).1 hmem

theorem links_eq (h : Segment next prev a l b) (h' : Segment next' prev' a l b) :
    (∀ p ∈ a :: l, next' p = next p) ∧ ∀ p ∈ l ++ [b], prev' p = prev p := by
  induction l generalizing a with
  | nil =>
    obtain ⟨hn, hp⟩ := h
    obtain ⟨hn', hp'⟩ := h'
    exact ⟨by simp [hn, hn'], by simp [hp, hp']⟩
  | cons x l ih =>
    obtain ⟨⟨hn, hp⟩, hl⟩ := h
    obtain ⟨⟨hn', hp'⟩, hl'⟩ := h'
    obtain ⟨hnext, hprev⟩ := ih hl hl'
    exact ⟨List.forall_mem_cons.mpr ⟨hn'.trans hn.symm, hnext⟩,
      List.forall_mem_cons.mpr ⟨hp'.trans hp.symm, hprev⟩⟩

end Segment

namespace Ring

/-- A ring says of its places what their links are. -/
theorem links_eq (h : Ring next prev head l) (h' : Ring next' prev' head l) (hp : p ∈ head :: l) :
    next' p = next p ∧ prev' p = prev p := by
  obtain ⟨hnext, hprev⟩ := h.segment.links_eq h'.segment
  exact ⟨hnext p hp, hprev p ((List.perm_append_singleton head l).mem_iff.mpr hp)⟩

theorem next_head (h : Ring next prev head l) : next head = (l ++ [head]).head? := by
  cases l with
  | nil => exact h.segment.1
  | cons x l => exact h.segment.1.1

theorem rotate (h : Ring next prev head (l ++ x :: r)) : Ring next prev x (r ++ head :: l) := by
  obtain ⟨hl, hr⟩ := Segment.append_cons_iff.mp h.segment
  have hperm : ((head :: l) ++ (x :: r)).Perm ((x :: r) ++ (head :: l)) := List.perm_append_comm
  exact ⟨Segment.append_cons_iff.mpr ⟨hr, hl⟩, hperm.nodup_iff.mp h.nodup⟩

theorem next_at (h : Ring next prev head (l ++ x :: r)) : next x = (r ++ [head]).head? := by
  rw [h.rotate.next_head]
  cases r <;> rfl

/-- The place that a place of the ring names as the one before it names that place as the next. -/
theorem next_of_prev (h : Ring next prev head l) (hx : x ∈ head :: l) (hp : prev x = some p) :
    next p = some x ∧ p ∈ head :: l := by
  have hlast : ∀ {head : α} {l : List α}, Ring next prev head l → prev head = some p →
      next p = some head ∧ p ∈ head :: l := by
    intro head l h hp
    rcases List.eq_nil_or_concat' l with rfl | ⟨l, y, rfl⟩
    · obtain rfl : head = p := Option.some.inj (h.segment.2.symm.trans hp)
      exact ⟨h.segment.1, by simp⟩
    · obtain ⟨-, hyh, hhy⟩ := Segment.concat_iff.mp h.segment
      obtain rfl : y = p := Option.some.inj (hhy.symm.trans hp)
      exact ⟨hyh, by simp⟩
  rcases List.mem_cons.mp hx with rfl | hx
  · exact hlast h hp
  · obtain ⟨l, r, rfl⟩ := List.append_of_mem hx
    obtain ⟨hnext, hmem⟩ := hlast h.rotate hp
    exact ⟨hnext, by simpa [or_comm, or_assoc, or_left_comm] using hmem⟩

section Update

variable [DecidableEq α]

theorem insertBefore {new last : α} (h : Ring next prev head (l ++ r)) (hx : (r ++ [head]).head? = some x)
    (hnew : new ∉ head :: (l ++ r)) (hlast : prev x = some last) :
    Ring (Function.update (Function.update next new (some x)) last (some new))
      (Function.update (Function.update prev x (some new)) new (some last)) head (l ++ new :: r) := by
  cases r with
  | nil =>
    obtain rfl : head = x := by simpa using hx
    rw [List.append_nil] at h hnew
    exact h.addTail hnew hlast
  | cons y r =>
    obtain rfl : y = x := by simpa using hx
    have hfresh : new ∉ y :: (r ++ head :: l) := by simpa [or_comm, or_assoc, or_left_comm] using hnew
    have hring := h.rotate.addTail hfresh hlast
    rw [List.append_assoc, List.cons_append] at hring
    simpa using hring.rotate

theorem remove {y : α} (h : Ring next prev head (l ++ x :: r)) (hb : next x = some b) (hc : prev x = some y) :
    Ring (Function.update (Function.update next y (some b)) x none)
      (Function.update (Function.update prev b (some y)) x none) head (l ++ r) := by
  rcases List.eq_nil_or_concat' l with rfl | ⟨l, z, rfl⟩
  · exact h.removeHead hb hc
  · rw [List.append_assoc, List.singleton_append] at h ⊢
    exact (h.rotate.removeHead hb hc).rotate

/-- The places of another ring, from `y` to `z`, behind the last place. -/
theorem join {y z head' : α} {m : List α} (h : Ring next prev head l) (h' : Ring next prev head' (y :: m))
    (hdis : (head :: l).Disjoint (y :: m)) (hp : prev head = some p) (hz : prev head' = some z) :
    Ring (Function.update (Function.update next p (some y)) z (some head))
      (Function.update (Function.update prev y (some p)) head (some z)) head (l ++ y :: m) := by
  obtain ⟨⟨hlink, hseg'⟩, hnd'⟩ := h'
  obtain ⟨hnexts, hprevs⟩ := h.segment.links
  obtain ⟨hpl, hzm⟩ : p ∈ head :: l ∧ z ∈ y :: m := by
    obtain ⟨q, hq, hpq⟩ := hprevs head (by simp)
    obtain ⟨q', hq', hzq⟩ := hseg'.links.2 head' (by simp)
    exact ⟨Option.some.inj (hp.symm.trans hpq) ▸ hq, Option.some.inj (hz.symm.trans hzq) ▸ hq'⟩
  have hpz : p ≠ z := fun heq => hdis hpl (heq ▸ hzm)
  have hyh : y ≠ head := fun heq => hdis (List.mem_cons_self ..) (heq ▸ List.mem_cons_self ..)
  have hndm : (y :: m).Nodup := (List.nodup_cons.mp hnd').2
  refine ⟨Segment.append_cons_iff.mpr ⟨?_, ?_⟩, h.nodup.append hndm hdis⟩
  · refine h.segment.retarget h.nodup hp (fun q hq hne => ?_) (fun q hq => ?_) ⟨?_, ?_⟩
    · have hqz : q ≠ z := fun heq => hdis hq (heq ▸ hzm)
      rw [Function.update_of_ne hqz, Function.update_of_ne hne]
    · have hqy : q ≠ y := fun heq => hdis (List.mem_cons_of_mem _ hq) (heq ▸ List.mem_cons_self ..)
      have hqh : q ≠ head := fun heq => (List.nodup_cons.mp h.nodup).1 (heq ▸ hq)
      rw [Function.update_of_ne hqh, Function.update_of_ne hqy]
    · rw [Function.update_of_ne hpz, Function.update_self]
    · rw [Function.update_of_ne hyh, Function.update_self]
  · refine hseg'.retarget hndm hz (fun q hq hne => ?_) (fun q hq => ?_) ⟨?_, ?_⟩
    · have hqp : q ≠ p := fun heq => hdis hpl (heq ▸ hq)
      rw [Function.update_of_ne hne, Function.update_of_ne hqp]
    · have hqy : q ≠ y := fun heq => (List.nodup_cons.mp hndm).1 (heq ▸ hq)
      have hqh : q ≠ head := fun heq => hdis (List.mem_cons_self ..) (heq ▸ List.mem_cons_of_mem _ hq)
      rw [Function.update_of_ne hqh, Function.update_of_ne hqy]
    · exact Function.update_self ..
    · exact Function.update_self ..

/-- The places of another ring between any place and the one behind it. -/
theorem splice {y z head' : α} {m : List α} (h : Ring next prev head (l ++ r)) (h' : Ring next prev head' (y :: m))
    (hdis : (head :: (l ++ r)).Disjoint (y :: m)) (hx : (r ++ [head]).head? = some x) (hp : prev x = some p)
    (hz : prev head' = some z) :
    Ring (Function.update (Function.update next p (some y)) z (some x))
      (Function.update (Function.update prev y (some p)) x (some z)) head (l ++ (y :: m) ++ r) := by
  cases r with
  | nil =>
    obtain rfl : head = x := by simpa using hx
    rw [List.append_nil] at h hdis
    rw [List.append_nil]
    exact h.join h' hdis hp hz
  | cons w r =>
    obtain rfl : w = x := by simpa using hx
    have hdis' : (w :: (r ++ head :: l)).Disjoint (y :: m) := by
      intro q hq hqm
      exact hdis (by simp only [List.mem_cons, List.mem_append] at hq ⊢; tauto) hqm
    have hring := h.rotate.join h' hdis' hp hz
    rw [List.append_assoc, List.cons_append] at hring
    exact hring.rotate

/-- The places up to `x` taken out, into a ring of their own around `c`. -/
theorem cut {f y : α} (h : Ring next prev head (l ++ x :: r)) (hc : c ∉ head :: (l ++ x :: r))
    (hf : next head = some f) (hy : next x = some y) :
    Ring (Function.update (Function.update (Function.update next c (some f)) x (some c)) head (some y))
        (Function.update (Function.update (Function.update prev f (some c)) c (some x)) y (some head)) c (l ++ [x]) ∧
      Ring (Function.update (Function.update (Function.update next c (some f)) x (some c)) head (some y))
        (Function.update (Function.update (Function.update prev f (some c)) c (some x)) y (some head)) head r := by
  obtain ⟨hl, hr⟩ := Segment.append_cons_iff.mp h.segment
  obtain ⟨hfm, hym⟩ : f ∈ l ++ [x] ∧ y ∈ r ++ [head] := by
    obtain ⟨q, hq, hfq⟩ := hl.links.1 head (by simp)
    obtain ⟨q', hq', hyq⟩ := hr.links.1 x (by simp)
    exact ⟨Option.some.inj (hf.symm.trans hfq) ▸ hq, Option.some.inj (hy.symm.trans hyq) ▸ hq'⟩
  -- the two parts, with the place at which each of them ends
  have hperm : (head :: (l ++ x :: r)).Perm ((l ++ [x]) ++ (r ++ [head])) := by
    rw [List.append_cons, ← List.append_assoc]
    exact (List.perm_append_singleton head _).symm
  have hnd : ((l ++ [x]) ++ (r ++ [head])).Nodup := hperm.nodup h.nodup
  obtain ⟨hndl, hndr, hne⟩ := List.nodup_append.mp hnd
  have hcl : ∀ q ∈ l ++ [x], q ≠ c := fun q hq heq => hc (hperm.mem_iff.mpr (List.mem_append_left _ (heq ▸ hq)))
  have hcr : ∀ q ∈ r ++ [head], q ≠ c :=
    fun q hq heq => hc (hperm.mem_iff.mpr (List.mem_append_right _ (heq ▸ hq)))
  have hxm : x ∈ l ++ [x] := by simp
  have hhm : head ∈ r ++ [head] := by simp
  refine ⟨⟨Segment.concat_iff.mpr ⟨?_, ?_, ?_⟩, ?_⟩, ?_, ?_⟩
  · refine hl.restart hndl hf (fun q hq => ?_) (fun q hq hqf => ?_) ⟨?_, ?_⟩
    · have hql : q ∈ l ++ [x] := List.mem_append_left _ hq
      have hqx : q ≠ x := fun heq => (List.nodup_append.mp hndl).2.2 q hq x (by simp) heq
      rw [Function.update_of_ne (hne q hql head hhm), Function.update_of_ne hqx, Function.update_of_ne (hcl q hql)]
    · rw [Function.update_of_ne (hne q hq y hym), Function.update_of_ne (hcl q hq), Function.update_of_ne hqf]
    · rw [Function.update_of_ne (hcr head hhm).symm, Function.update_of_ne (hcl x hxm).symm, Function.update_self]
    · rw [Function.update_of_ne (hne f hfm y hym), Function.update_of_ne (hcl f hfm), Function.update_self]
  · rw [Function.update_of_ne (hne x hxm head hhm), Function.update_self]
  · rw [Function.update_of_ne (hcr y hym).symm, Function.update_self]
  · exact List.nodup_cons.mpr ⟨fun hmem => hcl c hmem rfl, hndl⟩
  · refine hr.restart hndr hy (fun q hq => ?_) (fun q hq hqy => ?_) ⟨?_, ?_⟩
    · have hqr : q ∈ r ++ [head] := List.mem_append_left _ hq
      have hqh : q ≠ head := fun heq => (List.nodup_append.mp hndr).2.2 q hq head (by simp) heq
      rw [Function.update_of_ne hqh, Function.update_of_ne (hne x hxm q hqr).symm, Function.update_of_ne (hcr q hqr)]
    · rw [Function.update_of_ne hqy, Function.update_of_ne (hcr q hq), Function.update_of_ne (hne f hfm q hq).symm]
    · exact Function.update_self ..
    · exact Function.update_self ..
  · exact (List.perm_append_singleton head r).nodup hndr

end Update

end Ring

end Xlibc
