import Xlibc.Base.RingEdit
import Xlibc.Xqueue.Xlist

/-!
# Xlibc.Xqueue.Splice

The functions of `xlist.h` that move many entries at once.

* `xlistCutPosition_spec` : the front part of a list becomes a list of its own.
* `spliceBetween_spec`    : the entries of a list between two places of another.
* `xlist_splice_lists`    : which list is behind which head after each of the four ways to join two lists.
* `xlist_cut_splice`      : a list that was cut is joined to what it was.
-/

namespace Xlibc
namespace Xqueue

variable {π : Type} [DecidableEq π]

/-! ## The code -/

/-- `INIT_XLIST_HEAD` of a head that is allocated -/
def xlistInit (m : Links π) (list : π) : Option (Links π) := do
  let m ← setNext m list (some list)
  setPrev m list (some list)

def xlistEmpty (m : Links π) (head : π) : Option Bool := do
  let x ← m.lookup head
  some (x.next == some head)

def xlistIsSingular (m : Links π) (head : π) : Option Bool := do
  let x ← m.lookup head
  some (!(x.next == some head) && x.next == x.prev)

/-- `__xlist_cut_position` -/
def xlistCutBetween (m : Links π) (list head entry : π) : Option (Links π) := do
  let newFirst ← nextOf m entry
  let first ← nextOf m head
  let m ← setNext m list (some first)
  let m ← setPrev m first (some list)
  let m ← setPrev m list (some entry)
  let m ← setNext m entry (some list)
  let m ← setNext m head (some newFirst)
  setPrev m newFirst (some head)

def xlistCutPosition (m : Links π) (list head entry : π) : Option (Links π) := do
  if ← xlistEmpty m head then some m
  else if (← xlistIsSingular m head) && (nextOf m head != some entry && head != entry) then some m
  else if entry = head then xlistInit m list
  else xlistCutBetween m list head entry

/-- `__xlist_splice` -/
def xlistSpliceBetween (m : Links π) (list prev next : π) : Option (Links π) := do
  let first ← nextOf m list
  let last ← prevOf m list
  let m ← setPrev m first (some prev)
  let m ← setNext m prev (some first)
  let m ← setNext m last (some next)
  setPrev m next (some last)

def xlistSplice (m : Links π) (list head : π) : Option (Links π) := do
  if ← xlistEmpty m list then some m else xlistSpliceBetween m list head (← nextOf m head)

def xlistSpliceTail (m : Links π) (list head : π) : Option (Links π) := do
  if ← xlistEmpty m list then some m else xlistSpliceBetween m list (← prevOf m head) head

def xlistSpliceInit (m : Links π) (list head : π) : Option (Links π) := do
  if ← xlistEmpty m list then some m
  else do
    let m ← xlistSpliceBetween m list head (← nextOf m head)
    xlistInit m list

def xlistSpliceTailInit (m : Links π) (list head : π) : Option (Links π) := do
  if ← xlistEmpty m list then some m
  else do
    let m ← xlistSpliceBetween m list (← prevOf m head) head
    xlistInit m list

/-! ## What stays -/

/-- Only the links of `l` have changed. -/
structure Kept (m m' : Links π) (l : List π) : Prop where
  mem : ∀ q, q ∈ m' ↔ q ∈ m
  next : ∀ q ∉ l, nextOf m' q = nextOf m q
  prev : ∀ q ∉ l, prevOf m' q = prevOf m q

variable {m m' : Links π} {head list x p : π} {l r k : List π}

namespace Kept

theorem refl (m : Links π) (l : List π) : Kept m m l := ⟨fun _ => Iff.rfl, fun _ _ => rfl, fun _ _ => rfl⟩

theorem mono (h : Kept m m' l) (hsub : l ⊆ r) : Kept m m' r :=
  ⟨h.mem, fun q hq => h.next q fun hmem => hq (hsub hmem), fun q hq => h.prev q fun hmem => hq (hsub hmem)⟩

theorem trans {m'' : Links π} (h : Kept m m' l) (h' : Kept m' m'' l) : Kept m m'' l :=
  ⟨fun q => (h'.mem q).trans (h.mem q), fun q hq => (h'.next q hq).trans (h.next q hq),
    fun q hq => (h'.prev q hq).trans (h.prev q hq)⟩

/-- The lists that have none of these links. -/
theorem xlist (h : Kept m m' l) (hx : IsXlist m x k) (hdis : (x :: k).Disjoint l) : IsXlist m' x k :=
  Ring.frame hx (fun q hq => h.next q fun hmem => hdis hq hmem) fun q hq => h.prev q fun hmem => hdis hq hmem

end Kept

theorem setNext_kept (hp : p ∈ m) (v : Option π) :
    ∃ m', setNext m p v = some m' ∧ nextOf m' = Function.update (nextOf m) p v ∧ prevOf m' = prevOf m ∧
      Kept m m' [p] := by
  obtain ⟨m', h, hn, hp', hm⟩ := setNext_spec hp v
  refine ⟨m', h, hn, hp', hm, fun q hq => ?_, fun q _ => by rw [hp']⟩
  rw [hn, Function.update_of_ne (by simpa using hq)]

theorem setPrev_kept (hp : p ∈ m) (v : Option π) :
    ∃ m', setPrev m p v = some m' ∧ nextOf m' = nextOf m ∧ prevOf m' = Function.update (prevOf m) p v ∧
      Kept m m' [p] := by
  obtain ⟨m', h, hn, hp', hm⟩ := setPrev_spec hp v
  refine ⟨m', h, hn, hp', hm, fun q _ => by rw [hn], fun q hq => ?_⟩
  rw [hp', Function.update_of_ne (by simpa using hq)]

/-! ## The functions on lists -/

theorem xlistInit_spec (h : list ∈ m) : ∃ m', xlistInit m list = some m' ∧ IsXlist m' list [] ∧
    Kept m m' [list] := by
  obtain ⟨m1, h1, hn1, hp1, hk1⟩ := setNext_kept h (some list)
  obtain ⟨m2, h2, hn2, hp2, hk2⟩ := setPrev_kept ((hk1.mem list).mpr h) (some list)
  exact ⟨m2, by simp [xlistInit, h1, h2], Ring.empty (by simp [hn2, hn1]) (by simp [hp2]), hk1.trans hk2⟩

theorem xlistEmpty_spec (h : IsXlist m head l) : xlistEmpty m head = some l.isEmpty := by
  have hnext := Ring.next_head h
  obtain ⟨e, he⟩ : ∃ e, m.lookup head = some e :=
    Option.isSome_iff_exists.mp (AList.lookup_isSome.mpr (h.mem (List.mem_cons_self ..)))
  simp only [nextOf, he, Option.bind_some] at hnext
  cases l with
  | nil =>
    have hself : e.next = some head := by simpa using hnext
    simp [xlistEmpty, he, hself]
  | cons y l =>
    have hfirst : e.next = some y := by simpa using hnext
    have hne : y ≠ head := fun heq => (List.nodup_cons.mp h.nodup).1 (by simp [heq])
    simp [xlistEmpty, he, hfirst, hne]

/-- The last place of a list, as its head leads to it. -/
theorem prev_head (h : IsXlist m head (l ++ [x])) : prevOf m head = some x :=
  (Segment.concat_iff.mp h.segment).2.2

theorem xlistIsSingular_spec (h : IsXlist m head l) : xlistIsSingular m head = some (l.length == 1) := by
  have hnext := Ring.next_head h
  obtain ⟨e, he⟩ : ∃ e, m.lookup head = some e :=
    Option.isSome_iff_exists.mp (AList.lookup_isSome.mpr (h.mem (List.mem_cons_self ..)))
  simp only [nextOf, he, Option.bind_some] at hnext
  cases l with
  | nil =>
    have hself : e.next = some head := by simpa using hnext
    simp [xlistIsSingular, he, hself]
  | cons y l =>
    have hfirst : e.next = some y := by simpa using hnext
    have hne : y ≠ head := fun heq => (List.nodup_cons.mp h.nodup).1 (by simp [heq])
    rcases List.eq_nil_or_concat' l with rfl | ⟨l, z, rfl⟩
    · have hlast : e.prev = some y := by simpa [prevOf, he] using prev_head (l := []) h
      simp [xlistIsSingular, he, hfirst, hlast, hne]
    · have hlast : e.prev = some z := by simpa [prevOf, he] using prev_head (l := y :: l) h
      have hyz : y ≠ z := by
        rintro rfl
        exact (List.nodup_cons.mp (List.nodup_cons.mp h.nodup).2).1 (by simp)
      simp [xlistIsSingular, he, hfirst, hlast, hne, hyz]

/-- The first place of a list names the head as the one before it, and the head is it where the list is empty. -/
theorem prev_first (h : IsXlist m head l) (hx : (l ++ [head]).head? = some x) : prevOf m x = some head := by
  cases l with
  | nil =>
    obtain rfl : head = x := by simpa using hx
    exact h.segment.2
  | cons y l =>
    obtain rfl : y = x := by simpa using hx
    exact h.segment.1.2

theorem spliceBetween_spec (h : IsXlist m head (l ++ r)) {y : π} (h' : IsXlist m list (y :: k))
    (hdis : (head :: (l ++ r)).Disjoint (y :: k)) (hx : (r ++ [head]).head? = some x) (hp : prevOf m x = some p) :
    ∃ m', xlistSpliceBetween m list p x = some m' ∧ IsXlist m' head (l ++ (y :: k) ++ r) ∧
      Kept m m' (head :: (l ++ (y :: k) ++ r)) := by
  obtain ⟨-, z, hzm, hz⟩ := Ring.links h' (p := list) (List.mem_cons_self ..)
  have hfirst : nextOf m list = some y := by rw [Ring.next_head h']; rfl
  have hxl : x ∈ head :: (l ++ r) := by
    cases r with
    | nil => simp_all
    | cons w r => simp_all
  obtain ⟨-, hpl⟩ := Ring.next_of_prev h hxl hp
  -- the last place is not the head, as the list is not empty
  have hzk : z ∈ y :: k := by
    refine (List.mem_cons.mp hzm).resolve_left ?_
    rintro rfl
    have hnext := (Ring.next_of_prev h' (List.mem_cons_self ..) hz).1
    rw [hfirst, Option.some.injEq] at hnext
    exact (List.nodup_cons.mp h'.nodup).1 (by simp [hnext])
  obtain ⟨m1, h1, hn1, hp1, hk1⟩ := setPrev_kept (h'.mem (p := y) (by simp)) (some p)
  obtain ⟨m2, h2, hn2, hp2, hk2⟩ := setNext_kept ((hk1.mem p).mpr (h.mem hpl)) (some y)
  have hzm2 : z ∈ m2 := (hk2.mem z).mpr ((hk1.mem z).mpr (h'.mem hzm))
  obtain ⟨m3, h3, hn3, hp3, hk3⟩ := setNext_kept hzm2 (some x)
  have hxm3 : x ∈ m3 := (hk3.mem x).mpr ((hk2.mem x).mpr ((hk1.mem x).mpr (h.mem hxl)))
  obtain ⟨m4, h4, hn4, hp4, hk4⟩ := setPrev_kept hxm3 (some z)
  refine ⟨m4, by simp [xlistSpliceBetween, hfirst, hz, h1, h2, h3, h4], ?_, ?_⟩
  · have hring := Ring.splice h h' hdis hx hp hz
    rw [IsXlist, hn4, hn3, hn2, hn1, hp4, hp3, hp2, hp1]
    exact hring
  · have hin : ∀ q, q ∈ head :: (l ++ r) ∨ q ∈ y :: k → [q] ⊆ head :: (l ++ (y :: k) ++ r) := by
      intro q hq q' hq'
      obtain rfl : q' = q := by simpa using hq'
      simp only [List.mem_cons, List.mem_append] at hq ⊢
      tauto
    exact (((hk1.mono (hin y (.inr (by simp)))).trans (hk2.mono (hin p (.inl hpl)))).trans
      (hk3.mono (hin z (.inr hzk)))).trans (hk4.mono (hin x (.inl hxl)))

theorem cutBetween_spec (h : IsXlist m head (l ++ x :: r)) (hlist : list ∈ m)
    (hnew : list ∉ head :: (l ++ x :: r)) :
    ∃ m', xlistCutBetween m list head x = some m' ∧ IsXlist m' list (l ++ [x]) ∧ IsXlist m' head r ∧
      Kept m m' (list :: head :: (l ++ x :: r)) := by
  have hxl : x ∈ head :: (l ++ x :: r) := by simp
  obtain ⟨⟨f, hfl, hf⟩, -⟩ := Ring.links h (p := head) (List.mem_cons_self ..)
  obtain ⟨⟨y, hyl, hy⟩, -⟩ := Ring.links h hxl
  obtain ⟨m1, h1, hn1, hp1, hk1⟩ := setNext_kept hlist (some f)
  obtain ⟨m2, h2, hn2, hp2, hk2⟩ := setPrev_kept ((hk1.mem f).mpr (h.mem hfl)) (some list)
  have hk12 : ∀ q, q ∈ m2 ↔ q ∈ m := fun q => (hk2.mem q).trans (hk1.mem q)
  obtain ⟨m3, h3, hn3, hp3, hk3⟩ := setPrev_kept ((hk12 list).mpr hlist) (some x)
  have hk13 : ∀ q, q ∈ m3 ↔ q ∈ m := fun q => (hk3.mem q).trans (hk12 q)
  obtain ⟨m4, h4, hn4, hp4, hk4⟩ := setNext_kept ((hk13 x).mpr (h.mem hxl)) (some list)
  have hk14 : ∀ q, q ∈ m4 ↔ q ∈ m := fun q => (hk4.mem q).trans (hk13 q)
  obtain ⟨m5, h5, hn5, hp5, hk5⟩ := setNext_kept ((hk14 head).mpr (h.mem (List.mem_cons_self ..))) (some y)
  have hk15 : ∀ q, q ∈ m5 ↔ q ∈ m := fun q => (hk5.mem q).trans (hk14 q)
  obtain ⟨m6, h6, hn6, hp6, hk6⟩ := setPrev_kept ((hk15 y).mpr (h.mem hyl)) (some head)
  obtain ⟨hcut, hrest⟩ := Ring.cut h hnew hf hy
  refine ⟨m6, by simp [xlistCutBetween, hy, hf, h1, h2, h3, h4, h5, h6], ?_, ?_, ?_⟩
  · rw [IsXlist, hn6, hn5, hn4, hn3, hn2, hn1, hp6, hp5, hp4, hp3, hp2, hp1]
    exact hcut
  · rw [IsXlist, hn6, hn5, hn4, hn3, hn2, hn1, hp6, hp5, hp4, hp3, hp2, hp1]
    exact hrest
  · have hin : ∀ q, q ∈ head :: (l ++ x :: r) → [q] ⊆ list :: head :: (l ++ x :: r) := fun q hq q' hq' => by
      obtain rfl : q' = q := by simpa using hq'
      exact List.mem_cons_of_mem _ hq
    have hlistin : [list] ⊆ list :: head :: (l ++ x :: r) := by simp
    exact (((((hk1.mono hlistin).trans (hk2.mono (hin f hfl))).trans (hk3.mono hlistin)).trans
      (hk4.mono (hin x hxl))).trans (hk5.mono (hin head (List.mem_cons_self ..)))).trans (hk6.mono (hin y hyl))

theorem xlistCutPosition_spec (h : IsXlist m head (l ++ x :: r)) (hlist : list ∈ m)
    (hnew : list ∉ head :: (l ++ x :: r)) :
    ∃ m', xlistCutPosition m list head x = some m' ∧ IsXlist m' list (l ++ [x]) ∧ IsXlist m' head r ∧
      Kept m m' (list :: head :: (l ++ x :: r)) := by
  obtain ⟨m', hcut, hspec⟩ := cutBetween_spec h hlist hnew
  have hempty : xlistEmpty m head = some false := by rw [xlistEmpty_spec h]; simp
  have hxh : x ≠ head := fun heq => (List.nodup_cons.mp h.nodup).1 (by simp [heq])
  -- the only entry of a list is its first
  have hguard : ((l ++ x :: r).length == 1 && (nextOf m head != some x && head != x)) = false := by
    rw [Ring.next_head h]
    cases l with
    | nil => simp
    | cons y l => simp
  refine ⟨m', ?_, hspec⟩
  simp only [xlistCutPosition, hempty, xlistIsSingular_spec h, hguard, hxh, hcut, Option.bind_eq_bind, Option.bind_some,
    Bool.false_eq_true, if_false]

/-! ## Two lists joined -/

theorem spliceFirst_spec {y : π} (h : IsXlist m head l) (h' : IsXlist m list (y :: k))
    (hdis : (head :: l).Disjoint (list :: y :: k)) :
    ∃ x m', nextOf m head = some x ∧ xlistSpliceBetween m list head x = some m' ∧
      IsXlist m' head ((y :: k) ++ l) ∧
      Kept m m' (head :: ((y :: k) ++ l)) := by
  obtain ⟨x, hx⟩ : ∃ x, (l ++ [head]).head? = some x := Option.isSome_iff_exists.mp (by simp)
  obtain ⟨m', hm', hring, hkept⟩ := spliceBetween_spec (l := []) h h'
    (fun q hq hmem => hdis hq (List.mem_cons_of_mem _ hmem)) hx (prev_first h hx)
  exact ⟨x, m', (Ring.next_head h).trans hx, hm', hring, hkept⟩

theorem spliceLast_spec {y : π} (h : IsXlist m head l) (h' : IsXlist m list (y :: k))
    (hdis : (head :: l).Disjoint (list :: y :: k)) :
    ∃ p m', prevOf m head = some p ∧ xlistSpliceBetween m list p head = some m' ∧
      IsXlist m' head (l ++ y :: k) ∧
      Kept m m' (head :: (l ++ y :: k)) := by
  obtain ⟨-, p, -, hp⟩ := Ring.links h (p := head) (List.mem_cons_self ..)
  rw [← List.append_nil l] at h hdis
  obtain ⟨m', hm', hring, hkept⟩ := spliceBetween_spec h h'
    (fun q hq hmem => hdis hq (List.mem_cons_of_mem _ hmem)) rfl hp
  rw [List.append_nil] at hring hkept
  exact ⟨p, m', hp, hm', hring, hkept⟩

theorem init_joined {m₁ : Links π} (hring : IsXlist m₁ head l) (hkept : Kept m m₁ (head :: l))
    (hlist : list ∈ m)
    (hnew : list ∉ head :: l) :
    ∃ m', xlistInit m₁ list = some m' ∧ IsXlist m' head l ∧ IsXlist m' list [] ∧
      Kept m m' (list :: head :: l) := by
  obtain ⟨m', hinit, hnil, hself⟩ := xlistInit_spec ((hkept.mem list).mpr hlist)
  refine ⟨m', hinit, hself.xlist hring ?_, hnil,
    (hkept.mono (List.subset_cons_self ..)).trans (hself.mono (by simp))⟩
  exact List.disjoint_singleton.mpr hnew

theorem xlistSplice_spec (h : IsXlist m head l) (h' : IsXlist m list k) (hdis : (head :: l).Disjoint (list :: k)) :
    ∃ m', xlistSplice m list head = some m' ∧ IsXlist m' head (k ++ l) ∧ Kept m m' (head :: (k ++ l)) := by
  have hempty := xlistEmpty_spec h'
  cases k with
  | nil => exact ⟨m, by simp [xlistSplice, hempty], h, .refl m _⟩
  | cons y k =>
    obtain ⟨x, m', hx, hm', hspec⟩ := spliceFirst_spec h h' hdis
    exact ⟨m', by simp [xlistSplice, hempty, hx, hm'], hspec⟩

theorem xlistSpliceTail_spec (h : IsXlist m head l) (h' : IsXlist m list k) (hdis : (head :: l).Disjoint (list :: k)) :
    ∃ m', xlistSpliceTail m list head = some m' ∧ IsXlist m' head (l ++ k) ∧ Kept m m' (head :: (l ++ k)) := by
  have hempty := xlistEmpty_spec h'
  cases k with
  | nil => exact ⟨m, by simp [xlistSpliceTail, hempty], by simpa using h, .refl m _⟩
  | cons y k =>
    obtain ⟨p, m', hp, hm', hspec⟩ := spliceLast_spec h h' hdis
    exact ⟨m', by simp [xlistSpliceTail, hempty, hp, hm'], hspec⟩

theorem head_notMem (h' : IsXlist m list k) (hdis : (head :: l).Disjoint (list :: k)) (hsub : r ⊆ k ++ l) :
    list ∉ head :: r := by
  intro hmem
  have hl : list ∉ head :: l := fun hq => hdis hq (List.mem_cons_self ..)
  rcases List.mem_cons.mp hmem with rfl | hmem
  · exact hl (List.mem_cons_self ..)
  · rcases List.mem_append.mp (hsub hmem) with hk | hq
    · exact (List.nodup_cons.mp h'.nodup).1 hk
    · exact hl (List.mem_cons_of_mem _ hq)

theorem xlistSpliceInit_spec (h : IsXlist m head l) (h' : IsXlist m list k) (hdis : (head :: l).Disjoint (list :: k)) :
    ∃ m', xlistSpliceInit m list head = some m' ∧ IsXlist m' head (k ++ l) ∧ IsXlist m' list [] ∧
      Kept m m' (list :: head :: (k ++ l)) := by
  have hempty := xlistEmpty_spec h'
  cases k with
  | nil => exact ⟨m, by simp [xlistSpliceInit, hempty], h, h', .refl m _⟩
  | cons y k =>
    obtain ⟨x, m₁, hx, hm₁, hring, hkept⟩ := spliceFirst_spec h h' hdis
    obtain ⟨m', hinit, hspec⟩ := init_joined hring hkept (h'.mem (List.mem_cons_self ..))
      (head_notMem h' hdis (List.Subset.refl _))
    exact ⟨m', by simp [xlistSpliceInit, hempty, hx, hm₁, hinit], hspec⟩

theorem xlistSpliceTailInit_spec (h : IsXlist m head l) (h' : IsXlist m list k)
    (hdis : (head :: l).Disjoint (list :: k)) :
    ∃ m', xlistSpliceTailInit m list head = some m' ∧ IsXlist m' head (l ++ k) ∧ IsXlist m' list [] ∧
      Kept m m' (list :: head :: (l ++ k)) := by
  have hempty := xlistEmpty_spec h'
  cases k with
  | nil => exact ⟨m, by simp [xlistSpliceTailInit, hempty], by simpa using h, h', .refl m _⟩
  | cons y k =>
    obtain ⟨p, m₁, hp, hm₁, hring, hkept⟩ := spliceLast_spec h h' hdis
    obtain ⟨m', hinit, hspec⟩ := init_joined hring hkept (h'.mem (List.mem_cons_self ..))
      (head_notMem h' hdis List.perm_append_comm.subset)
    exact ⟨m', by simp [xlistSpliceTailInit, hempty, hp, hm₁, hinit], hspec⟩

/-- **Two lists joined.** Which list is behind `head` afterwards, and whose links are touched. -/
theorem xlist_splice_lists (h : IsXlist m head l) (h' : IsXlist m list k) (hdis : (head :: l).Disjoint (list :: k)) :
    (∃ m', xlistSplice m list head = some m' ∧ IsXlist m' head (k ++ l) ∧ Kept m m' (head :: (k ++ l))) ∧
    (∃ m', xlistSpliceTail m list head = some m' ∧ IsXlist m' head (l ++ k) ∧ Kept m m' (head :: (l ++ k))) ∧
    (∃ m', xlistSpliceInit m list head = some m' ∧ IsXlist m' head (k ++ l) ∧ IsXlist m' list [] ∧
      Kept m m' (list :: head :: (k ++ l))) ∧
    ∃ m', xlistSpliceTailInit m list head = some m' ∧ IsXlist m' head (l ++ k) ∧ IsXlist m' list [] ∧
      Kept m m' (list :: head :: (l ++ k)) :=
  ⟨xlistSplice_spec h h' hdis, xlistSpliceTail_spec h h' hdis, xlistSpliceInit_spec h h' hdis,
    xlistSpliceTailInit_spec h h' hdis⟩

/-- Two lists and a head that belongs to neither. -/
def twoXlists : Links Nat where
  entries := [⟨0, some 1, some 2⟩, ⟨1, some 2, some 0⟩, ⟨2, some 0, some 1⟩, ⟨3, some 4, some 4⟩,
    ⟨4, some 3, some 3⟩,
    ⟨5, none, none⟩]
  nodupKeys := (by decide : [0, 1, 2, 3, 4, 5].Nodup)

theorem twoXlists_zero : IsXlist twoXlists 0 [1, 2] := ⟨⟨⟨rfl, rfl⟩, ⟨rfl, rfl⟩, rfl, rfl⟩, by decide⟩

theorem twoXlists_three : IsXlist twoXlists 3 [4] := ⟨⟨⟨rfl, rfl⟩, rfl, rfl⟩, by decide⟩

theorem xlist_splice_lists_two :
    (∃ m', xlistSplice twoXlists 3 0 = some m' ∧ IsXlist m' 0 [4, 1, 2] ∧ Kept twoXlists m' [0, 4, 1, 2]) ∧
    (∃ m', xlistSpliceTail twoXlists 3 0 = some m' ∧ IsXlist m' 0 [1, 2, 4] ∧ Kept twoXlists m' [0, 1, 2, 4]) ∧
    (∃ m', xlistSpliceInit twoXlists 3 0 = some m' ∧ IsXlist m' 0 [4, 1, 2] ∧ IsXlist m' 3 [] ∧
      Kept twoXlists m' [3, 0, 4, 1, 2]) ∧
    ∃ m', xlistSpliceTailInit twoXlists 3 0 = some m' ∧ IsXlist m' 0 [1, 2, 4] ∧ IsXlist m' 3 [] ∧
      Kept twoXlists m' [3, 0, 1, 2, 4] :=
  xlist_splice_lists twoXlists_zero twoXlists_three (by simp)

/-- **What was cut can be put back.** The front of a list is moved to `list` and joined to the rest again: in front of
it everything is as before but for the links of `list`, behind it the list is turned. -/
theorem xlist_cut_splice (h : IsXlist m head (l ++ x :: r)) (hlist : list ∈ m)
    (hnew : list ∉ head :: (l ++ x :: r)) :
    ∃ m₁, xlistCutPosition m list head x = some m₁ ∧ IsXlist m₁ list (l ++ [x]) ∧ IsXlist m₁ head r ∧
      (∃ m₂, xlistSpliceInit m₁ list head = some m₂ ∧ IsXlist m₂ head (l ++ x :: r) ∧
        IsXlist m₂ list [] ∧
        Kept m m₂ [list]) ∧
      ∃ m₃, xlistSpliceTailInit m₁ list head = some m₃ ∧ IsXlist m₃ head (r ++ (l ++ [x])) ∧
        IsXlist m₃ list [] ∧
        Kept m m₃ (list :: head :: (l ++ x :: r)) := by
  obtain ⟨m₁, hcut, hfront, hrest, hkept⟩ := xlistCutPosition_spec h hlist hnew
  have hperm : (head :: (l ++ x :: r)).Perm ((head :: r) ++ (l ++ [x])) := by
    rw [List.append_cons, List.cons_append]
    exact List.perm_append_comm.cons head
  have hnd := List.nodup_append'.mp (hperm.nodup h.nodup)
  have hdis : (head :: r).Disjoint (list :: (l ++ [x])) := by
    refine List.disjoint_cons_right.mpr ⟨fun hmem => hnew ?_, hnd.2.2⟩
    exact hperm.mem_iff.mpr (List.mem_append_left _ hmem)
  obtain ⟨m₂, hm₂, hring₂, hnil₂, hkept₂⟩ := xlistSpliceInit_spec hrest hfront hdis
  obtain ⟨m₃, hm₃, hring₃, hnil₃, hkept₃⟩ := xlistSpliceTailInit_spec hrest hfront hdis
  rw [List.append_assoc, List.singleton_append] at hring₂ hkept₂
  refine ⟨m₁, hcut, hfront, hrest, ⟨m₂, hm₂, hring₂, hnil₂, ?_⟩, m₃, hm₃, hring₃, hnil₃,
    hkept.trans (hkept₃.mono ?_)⟩
  · -- the places of the list have the links they had
    have hall := hkept.trans hkept₂
    have hsame : ∀ q ∉ [list], nextOf m₂ q = nextOf m q ∧ prevOf m₂ q = prevOf m q := by
      intro q hq
      by_cases hmem : q ∈ head :: (l ++ x :: r)
      · exact Ring.links_eq h hring₂ hmem
      · have hout : q ∉ list :: head :: (l ++ x :: r) := fun hq' => (List.mem_cons.mp hq').elim
          (fun heq => hq (by simp [heq])) hmem
        exact ⟨hall.next q hout, hall.prev q hout⟩
    exact ⟨hall.mem, fun q hq => (hsame q hq).1, fun q hq => (hsame q hq).2⟩
  · exact List.cons_subset_cons _ hperm.symm.subset

theorem xlist_cut_splice_two :
    ∃ m₁, xlistCutPosition twoXlists 5 0 1 = some m₁ ∧ IsXlist m₁ 5 [1] ∧ IsXlist m₁ 0 [2] ∧
      (∃ m₂, xlistSpliceInit m₁ 5 0 = some m₂ ∧ IsXlist m₂ 0 [1, 2] ∧ IsXlist m₂ 5 [] ∧
        Kept twoXlists m₂ [5]) ∧
      ∃ m₃, xlistSpliceTailInit m₁ 5 0 = some m₃ ∧ IsXlist m₃ 0 [2, 1] ∧ IsXlist m₃ 5 [] ∧
        Kept twoXlists m₃ [5, 0, 1, 2] :=
  xlist_cut_splice (l := []) twoXlists_zero (by decide) (by decide)

end Xqueue
end Xlibc
