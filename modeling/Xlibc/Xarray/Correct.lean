import Mathlib.Data.List.InsertIdx
import Xlibc.Base.Run
import Xlibc.Xarray.Ops

/-!
# Xlibc.Xarray.Correct

The array refines a list. `listOp` is the abstract array: a list, bounded by a fixed capacity when
the array may not grow. `Rep` ties the two, `arrayOp_spec` is the simulation of one call, and
`xarray_refines_list` lifts it to every run from `xarray_create`.
-/

namespace Xlibc
namespace Xarray

variable {α : Type}

inductive ArrayOp (α : Type) where
  | set (p : α)
  | vset (ps : List α)
  | fset (i : Nat) (p : α)
  | remove
  | removeIndex (i : Nat)
  | removeData (key : α)

inductive ArrayRet (α : Type) where
  | code (r : Int)
  | ptr (p : Option α)

/-! ## The list -/

/-- The arguments that still fit: all of them, or as many as there is room for. -/
def fitting (cap : Option Nat) (l ps : List α) : List α :=
  match cap with
  | none => ps
  | some c => ps.take (c - l.length)

def listOp (cap : Option Nat) (cmp : Option (α → α → Int)) (l : List α) :
    ArrayOp α → ArrayRet α × List α
  | .set p => if cap = some l.length then (.code (-1), l) else (.code 0, l ++ [p])
  | .vset ps => (.code (fitting cap l ps).length, l ++ fitting cap l ps)
  | .fset i p => (.code 0, l.set i p)
  | .remove => (.ptr l.getLast?, l.dropLast)
  | .removeIndex i => (.ptr l[i]?, l.eraseIdx i)
  | .removeData key =>
    match cmp with
    | none => (.code (-1), l)
    | some c =>
      match l.findIdx? (fun x => c x key == 0) with
      | none => (.code (-1), l)
      | some i => (.code 0, l.eraseIdx i)

def ListStep (cap : Option Nat) (cmp : Option (α → α → Int)) (l : List α) (e : ArrayOp α × ArrayRet α)
    (l' : List α) : Prop :=
  listOp cap cmp l e.1 = (e.2, l')

/-! ## The array -/

/-- `cmp_f` reads through its first argument, which must not be `NULL`. -/
def onSlots (c : α → α → Int) (slot : Option α) (key : α) : Option Int := slot.map (c · key)

def arrayOp (cmp : Option (α → α → Int)) (freeF : Bool) (a : XArray α) :
    ArrayOp α → Option (ArrayRet α × XArray α)
  | .set p => (xarraySet granting a (some p)).map fun (r, a') => (.code r, a')
  | .vset ps => (xarrayVset granting a (ps.map some ++ [none])).map fun (r, a') => (.code r, a')
  | .fset i p => (xarrayFsetIndex granting a i (some p)).map fun (r, a') => (.code r, a')
  | .remove => (xarrayRemove granting a).map fun (p, a') => (.ptr p, a')
  | .removeIndex i => (xarrayRemoveIndex granting a i).map fun (p, a') => (.ptr p, a')
  | .removeData key =>
    (xarrayRemoveData granting (cmp.map onSlots) freeF a (some key)).map fun (r, _, a') => (.code r, a')

/-- Every array that storing `ps` goes through has fewer than `2^30` slots. -/
def Fits (a : XArray α) : List α → Prop
  | [] => a.size < 2 ^ 30
  | p :: ps => a.size < 2 ^ 30 ∧ ∀ a', xarraySet granting a (some p) = some (0, a') → Fits a' ps

/-- What a caller keeps to: indices below the count, and sizes below `2^30`. -/
def Allowed (a : XArray α) : ArrayOp α → Prop
  | .vset ps => Fits a ps
  | .fset i _ | .removeIndex i => a.size < 2 ^ 30 ∧ i < a.count
  | _ => a.size < 2 ^ 30

def ArrayStep (cmp : Option (α → α → Int)) (freeF : Bool) (a : XArray α)
    (e : ArrayOp α × ArrayRet α) (a' : XArray α) : Prop :=
  Allowed a e.1 ∧ arrayOp cmp freeF a e.1 = some (e.2, a')

/-! ## The simulation -/

/-- The capacity an array keeps when it may not grow. -/
def capOf (en : Bool) (size : Nat) : Option Nat := if en then none else some size

structure Rep (en : Bool) (size : Nat) (a : XArray α) (l : List α) : Prop where
  holds : Holds a (l.map some)
  enable : a.appendEnable = en
  fixed : en = false → a.size = size

theorem Rep.count {en : Bool} {size : Nat} {a : XArray α} {l : List α} (h : Rep en size a l) :
    a.count = l.length := by
  rw [h.holds.count, List.length_map]

theorem set_spec {en : Bool} {size : Nat} {a : XArray α} {l : List α} (h : Rep en size a l)
    (hs : a.size < 2 ^ 30) (p : α) :
    (capOf en size = some l.length ∧ xarraySet granting a (some p) = some (-1, a)) ∨
    (∃ a', capOf en size ≠ some l.length ∧ xarraySet granting a (some p) = some (0, a') ∧
      Rep en size a' (l ++ [p])) := by
  have hlen : (l.map some : List (Option α)).length = l.length := List.length_map _
  rcases xarraySet_spec h.holds (fun _ => hs) (some p) with ⟨hen, hfull, hset⟩ | ⟨a', hroom, hset, hh, hen, hsz⟩
  · left
    have he : en = false := by rw [← h.enable, hen]
    refine ⟨?_, hset⟩
    rw [capOf, he, ← h.fixed he, ← hfull, hlen]
    rfl
  · right
    refine ⟨a', ?_, hset, by rw [List.map_append]; exact hh, by rw [hen, h.enable], fun he => ?_⟩
    · intro hcap
      cases en with
      | true => cases hcap
      | false =>
        have := hroom h.enable
        rw [h.fixed rfl] at this
        cases hcap
        omega
    · rw [hsz, if_pos (hroom (by rw [h.enable, he])), h.fixed he]

/-- As many arguments are appended as fit, and their number is returned. -/
theorem vset_spec {en : Bool} {size : Nat} : ∀ (ps : List α) (n : Int) (a : XArray α) (l : List α),
    Rep en size a l → Fits a ps →
    ∃ a', vsetLoop granting n a (ps.map some ++ [none]) =
        some (n + (fitting (capOf en size) l ps).length, a') ∧
      Rep en size a' (l ++ fitting (capOf en size) l ps) := by
  intro ps
  induction ps with
  | nil =>
    intro n a l h _
    have hnil : fitting (capOf en size) l ([] : List α) = [] := by
      unfold fitting; cases capOf en size <;> simp
    exact ⟨a, by simp [vsetLoop, hnil], by rw [hnil, List.append_nil]; exact h⟩
  | cons p ps ih =>
    intro n a l h hfit
    rcases set_spec h hfit.1 p with ⟨hcap, hset⟩ | ⟨a1, hcap, hset, h1⟩
    · have hnil : fitting (capOf en size) l (p :: ps) = [] := by
        rw [hcap, fitting, Nat.sub_self, List.take_zero]
      exact ⟨a, by simp [vsetLoop, hset, hnil], by rw [hnil, List.append_nil]; exact h⟩
    · obtain ⟨a', hloop, h'⟩ := ih (n + 1) a1 (l ++ [p]) h1 (hfit.2 a1 hset)
      have hcons : fitting (capOf en size) l (p :: ps) =
          p :: fitting (capOf en size) (l ++ [p]) ps := by
        cases hc : capOf en size with
        | none => rfl
        | some c =>
          rw [hc] at hcap
          have hlen : a1.count = l.length + 1 := by rw [h1.count, List.length_append]; rfl
          have hle := h1.holds.le
          rw [List.length_map, List.length_append, List.length_singleton] at hle
          have hsz : a1.size = c := by
            cases en with
            | true => cases hc
            | false => rw [h1.fixed rfl]; cases hc; rfl
          have hsub : c - l.length = (c - (l.length + 1)) + 1 := by omega
          simp [fitting, hsub]
      refine ⟨a', ?_, ?_⟩
      · rw [hcons, List.length_cons]
        simp only [List.map_cons, List.cons_append, vsetLoop, hset, Option.bind_eq_bind,
          Option.bind_some, ne_eq, not_true_eq_false, if_false, hloop]
        congr 2
        omega
      · rw [hcons]
        rw [List.append_assoc] at h'
        exact h'

theorem removeData_spec {en : Bool} {size : Nat} {a : XArray α} {l : List α} (h : Rep en size a l)
    (hs : a.size < 2 ^ 30) (cmp : Option (α → α → Int)) (freeF : Bool) (key : α) :
    ∃ a', arrayOp cmp freeF a (.removeData key) =
        some ((listOp (capOf en size) cmp l (.removeData key)).1, a') ∧
      Rep en size a' (listOp (capOf en size) cmp l (.removeData key)).2 := by
  have hpos : ¬ 0 ≥ a.size := by have := h.holds.pos; omega
  have hle := h.holds.le
  rw [List.length_map] at hle
  cases cmp with
  | none => exact ⟨a, by simp [arrayOp, xarrayRemoveData, hpos, listOp], h⟩
  | some c =>
    -- the scan reads elements only, and stops at the first match
    have hscan : findInt (fun i => do
        let slot ← a.data[i]?
        let r ← onSlots c slot key
        some (r == 0)) 0 a.count = some (l.findIdx? (fun x => c x key == 0)) := by
      have hmax : 0 + l.length ≤ intMax := by unfold intMax; omega
      rw [h.count, findInt_list (q := fun x => c x key == 0) l 0 hmax]
      · simp
      · intro j x hx
        have hj : j < l.length := (List.getElem?_eq_some_iff.mp hx).1
        have hget : a.data[j]? = some (some x) := by
          rw [h.holds.get (by rw [List.length_map]; exact hj), List.getElem?_map, hx]
          rfl
        simp [hget, onSlots]
    cases hfind : l.findIdx? (fun x => c x key == 0) with
    | none =>
      rw [hfind] at hscan
      refine ⟨a, ?_, by simpa [listOp, hfind] using h⟩
      simp only [arrayOp, xarrayRemoveData, hpos, if_false, Option.map_some, hscan, listOp, hfind]
      rfl
    | some i =>
      rw [hfind] at hscan
      have hi : i < l.length := (List.findIdx?_eq_some_iff_getElem.mp hfind).1
      obtain ⟨a', hgap, hh, hen, hsz⟩ := closeGap_spec h.holds (i := i)
        (by rw [List.length_map]; exact hi)
      have hget : a.data[i]? = some (some l[i]) := by
        rw [h.holds.get (by rw [List.length_map]; exact hi), List.getElem?_map,
          List.getElem?_eq_getElem hi]
        rfl
      rw [List.eraseIdx_map] at hh
      refine ⟨a', ?_, ?_⟩
      · simp only [arrayOp, xarrayRemoveData, hpos, if_false, Option.map_some, hscan, listOp, hfind]
        simp [hget, hgap]
      · simp only [listOp, hfind]
        exact ⟨hh, by rw [hen, h.enable], fun he => by rw [hsz (by rw [h.enable, he]), h.fixed he]⟩

/-- One allowed call: the array answers what the list answers, and still represents it. -/
theorem arrayOp_spec {en : Bool} {size : Nat} {a : XArray α} {l : List α} (h : Rep en size a l)
    (cmp : Option (α → α → Int)) (freeF : Bool) {op : ArrayOp α} (hop : Allowed a op) :
    ∃ a', arrayOp cmp freeF a op = some ((listOp (capOf en size) cmp l op).1, a') ∧
      Rep en size a' (listOp (capOf en size) cmp l op).2 := by
  cases op with
  | set p =>
    rcases set_spec h hop p with ⟨hcap, hset⟩ | ⟨a', hcap, hset, h'⟩
    · exact ⟨a, by simp [arrayOp, hset, listOp, hcap], by simpa [listOp, hcap] using h⟩
    · exact ⟨a', by simp [arrayOp, hset, listOp, hcap], by simpa [listOp, hcap] using h'⟩
  | vset ps =>
    obtain ⟨a', hloop, h'⟩ := vset_spec ps 0 a l h hop
    exact ⟨a', by simp [arrayOp, xarrayVset, hloop, listOp], h'⟩
  | fset i p =>
    obtain ⟨hs, hi⟩ := hop
    rw [h.holds.count] at hi
    obtain ⟨a', hset, hh, hsz, hen⟩ := xarrayFsetIndex_spec h.holds hi (some p)
    rw [← List.map_set] at hh
    exact ⟨a', by simp [arrayOp, hset, listOp], hh, by rw [hen, h.enable],
      fun he => by rw [hsz, h.fixed he]⟩
  | remove =>
    rcases xarrayRemove_spec h.holds with ⟨hnil, hrem⟩ | ⟨p, a', hlast, hrem, hh, hen, hsz⟩
    · rw [List.map_eq_nil_iff] at hnil
      subst hnil
      exact ⟨a, by simp [arrayOp, hrem, listOp], h⟩
    · rw [List.getLast?_map] at hlast
      rw [← List.map_dropLast] at hh
      obtain ⟨x, hx, rfl⟩ := Option.map_eq_some_iff.mp hlast
      exact ⟨a', by simp [arrayOp, hrem, listOp, hx], hh, by rw [hen, h.enable],
        fun he => by rw [hsz (by rw [h.enable, he]), h.fixed he]⟩
  | removeIndex i =>
    obtain ⟨hs, hi⟩ := hop
    rw [h.holds.count] at hi
    obtain ⟨a', hrem, hh, hen, hsz⟩ := xarrayRemoveIndex_spec h.holds hi
    rw [List.eraseIdx_map] at hh
    rw [List.length_map] at hi
    refine ⟨a', ?_, hh, by rw [hen, h.enable], fun he => by rw [hsz (by rw [h.enable, he]), h.fixed he]⟩
    simp [arrayOp, hrem, listOp, hi]
  | removeData key => exact removeData_spec h hop cmp freeF key

/-- **The array is a list.** After every run from `xarray_create` in which the caller keeps to the
count and sizes stay below `2^30`, the answers are those of the list operations and the first
`count` slots are the list; the block has `size >= 1` slots, `count` of them in use and the rest
`NULL`; an append to a full array that may not grow fails and changes nothing; and no allowed call
faults. -/
theorem xarray_refines_list {size : Nat} {en : Bool} {a₀ a : XArray α} {cmp : Option (α → α → Int)}
    {freeF : Bool} {es : List (ArrayOp α × ArrayRet α)} (h1 : 1 ≤ size) (h2 : size < 2 ^ 30)
    (hc : xarrayCreate size en = some a₀) (hr : Run (ArrayStep cmp freeF) a₀ es a) :
    ∃ l : List α, Run (ListStep (capOf en size) cmp) [] es l ∧
      a.count = l.length ∧ a.data.take a.count = l.map some ∧
      a.count ≤ a.size ∧ 1 ≤ a.size ∧ a.data.length = a.size ∧
      (∀ i, a.count ≤ i → i < a.size → a.data[i]? = some none) ∧
      (en = false → a.count = a.size → a.size < 2 ^ 30 →
        ∀ p, xarraySet granting a (some p) = some (-1, a)) ∧
      (∀ op, Allowed a op → ∃ ret a', arrayOp cmp freeF a op = some (ret, a')) := by
  obtain ⟨a₀', hc', hh, hsz, hen⟩ := xarrayCreate_holds h1 (by omega) en (α := α)
  rw [hc] at hc'
  cases hc'
  have h0 : Rep en size a₀ [] := ⟨hh, hen, fun _ => hsz⟩
  have hstep : ∀ t t' b e, Rep en size t b → ArrayStep cmp freeF t e t' →
      ∃ b', ListStep (capOf en size) cmp b e b' ∧ Rep en size t' b' := by
    intro t t' b e hR hs
    obtain ⟨t1, hrun, hR'⟩ := arrayOp_spec hR cmp freeF hs.1
    obtain ⟨hret, rfl⟩ := Prod.mk.inj (Option.some.inj (hrun.symm.trans hs.2))
    exact ⟨_, Prod.ext hret rfl, hR'⟩
  obtain ⟨l, hl, hrep⟩ := Run.simulates h0 hstep hr
  have hle := hrep.holds.le
  rw [List.length_map] at hle
  refine ⟨l, hl, hrep.count, ?_, by rw [hrep.count]; exact hle, hrep.holds.pos, hrep.holds.length, ?_,
    ?_, ?_⟩
  · rw [hrep.holds.count, hrep.holds.data, List.take_left]
  · intro i hi hlt
    exact hrep.holds.get_null (by rw [← hrep.holds.count]; exact hi) hlt
  · intro he hfull hs p
    rcases set_spec hrep hs p with ⟨-, hset⟩ | ⟨a', hcap, -⟩
    · exact hset
    · rw [capOf, he, ← hrep.fixed he, ← hfull, hrep.count] at hcap
      exact absurd rfl hcap
  · intro op hop
    obtain ⟨a', hrun, -⟩ := arrayOp_spec hrep cmp freeF hop
    exact ⟨_, a', hrun⟩

/-- The block of one slot is doubled for the second element, and the removal shrinks it again. -/
theorem xarray_refines_list_doubled :
    ∃ l : List Nat, Run (ListStep none none) []
        [(.set 7, .code 0), (.set 8, .code 0), (.removeIndex 0, .ptr (some 7))] l ∧
      l.map some = [some 8] := by
  have s1 : ArrayStep none false (⟨1, true, 0, [none]⟩ : XArray Nat) (.set 7, .code 0)
      ⟨1, true, 1, [some 7]⟩ := ⟨show 1 < 2 ^ 30 by decide, rfl⟩
  have s2 : ArrayStep none false (⟨1, true, 1, [some 7]⟩ : XArray Nat) (.set 8, .code 0)
      ⟨2, true, 2, [some 7, some 8]⟩ := ⟨show 1 < 2 ^ 30 by decide, rfl⟩
  have s3 : ArrayStep none false (⟨2, true, 2, [some 7, some 8]⟩ : XArray Nat)
      (.removeIndex 0, .ptr (some 7)) ⟨1, true, 1, [some 8]⟩ := ⟨⟨by decide, by decide⟩, rfl⟩
  have hrun := ((Run.single s1).snoc s2).snoc s3
  obtain ⟨l, hl, -, hdata, -⟩ :=
    xarray_refines_list (by decide) (by decide) (rfl : xarrayCreate 1 true = _) hrun
  exact ⟨l, hl, hdata.symm⟩

end Xarray
end Xlibc
