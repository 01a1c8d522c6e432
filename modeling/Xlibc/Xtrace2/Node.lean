import Mathlib.Data.List.Perm.Basic
import Xlibc.Xtrace2.Model

/-!
# Xlibc.Xtrace2.Node

One node: its call site and the pairs of addresses and sizes in its two arrays.

* `scanAddr_spec`, `scanAddr_overflow` : the search for an address, and where it has no result.
* `allocNodeRemoveAddr_spec` : removing with the last entry swapped in takes out one pair.
* `grow_spec`                : inserting appends one pair.
* `nodeSite_newNode`, `nodePairs_newNode` : a new node has the site and the pair it was made with.
-/

namespace Xlibc
namespace Xtrace2

open Xhash

/-- A call site: file base name, function and line. -/
abbrev Site := List Byte × List Byte × Int

instance : DecidableEq Site := inferInstanceAs (DecidableEq (List Byte × List Byte × Int))

def nodeSite (node : AllocNode) : Option Site := do
  let file ← cstr node.file
  let func ← cstr node.func
  some (file, func, node.line)

/-- The recorded addresses with their sizes. -/
def nodePairs (node : AllocNode) : List (Nat × Nat) :=
  ((node.addrArray.getD []).take node.count).zip ((node.sizeArray.getD []).take node.count)

structure Sound (node : AllocNode) : Prop where
  pos : 1 ≤ node.count
  site : ∃ site, nodeSite node = some site
  arrays : ∃ as ss, node.addrArray = some as ∧ node.sizeArray = some ss ∧ node.count ≤ as.length ∧
    node.count ≤ ss.length

variable {node : AllocNode} {addr : Nat}

theorem Sound.length (h : Sound node) : (nodePairs node).length = node.count := by
  obtain ⟨as, ss, ha, hs, hla, hls⟩ := h.arrays
  simp [nodePairs, ha, hs]
  omega

/-- Reading `addr_array` below the count reads the first component of a pair. -/
theorem Sound.read (h : Sound node) {i : Nat} {e : Nat × Nat} (he : (nodePairs node)[i]? = some e) :
    ∃ as, node.addrArray = some as ∧ as[i]? = some e.1 := by
  obtain ⟨as, ss, ha, hs, hla, hls⟩ := h.arrays
  refine ⟨as, ha, ?_⟩
  have hi : i < node.count := by
    rw [← h.length]
    exact (List.getElem?_eq_some_iff.mp he).1
  simp only [nodePairs, ha, hs, Option.getD_some, List.zip, List.getElem?_zipWith,
    List.getElem?_take_of_lt hi] at he
  cases hx : as[i]? with
  | none => simp [hx] at he
  | some x =>
    cases hy : ss[i]? with
    | none => simp [hx, hy] at he
    | some y =>
      simp only [hx, hy, Option.some.injEq] at he
      rw [← he]

/-! ## Searching -/

theorem scanAddr_spec (addr : Nat) (h : Sound node) (hmax : node.count ≤ intMax) :
    scanAddr node addr = some ((nodePairs node).findIdx? fun e => e.1 == addr) := by
  have hlist := findInt_list (p := fun i => do
      let addrs ← node.addrArray
      let a ← addrs[i]?
      some (a == addr)) (q := fun e : Nat × Nat => e.1 == addr) (nodePairs node) 0
    (by rw [h.length]; omega) fun j e he => by
      obtain ⟨as, ha, hj⟩ := h.read he
      simp [ha, hj]
  rw [h.length] at hlist
  simpa [scanAddr] using hlist

theorem scanAddr_overflow (h : Sound node) (hmax : intMax < node.count)
    (hno : addr ∉ (nodePairs node).map Prod.fst) : scanAddr node addr = none := by
  refine findInt_overflow (fun j hj hfound => ?_) (Nat.zero_le _) (by omega)
  have hlt : j < (nodePairs node).length := by rw [h.length]; omega
  obtain ⟨as, ha, hread⟩ := h.read (List.getElem?_eq_getElem hlt)
  simp only [ha, hread, Option.bind_eq_bind, Option.bind_some, Option.some.injEq, beq_iff_eq] at hfound
  exact hno (hfound ▸ List.mem_map_of_mem (List.getElem_mem hlt))

/-! ## Removing -/

/-- The last entry takes the place of the one that goes. -/
theorem swap_remove_perm {α : Type} {l : List α} {i n : Nat} (hn : l.length = n + 1) (hi : i < n) :
    l.Perm (l[i] :: (l.set i l[n]).take n) := by
  have hsplit : l = l.take n ++ [l[n]] := by
    have hlast := List.take_append_getElem (show n < l.length by omega)
    rw [hlast, List.take_of_length_le (by omega)]
  have hlen : (l.take n).length = n := by rw [List.length_take]; omega
  have hget : (l.take n)[i] = l[i] := by simp
  have hset : (l.set i l[n]).take n = (l.take n).set i l[n] := List.take_set
  calc l.Perm (l[n] :: l.take n) := by
        rw [List.perm_comm]
        conv_rhs => rw [hsplit]
        exact (List.perm_append_singleton _ _).symm
    _ |>.Perm (l[n] :: l[i] :: (l.take n).eraseIdx i) := by
        rw [← hget]
        exact (List.getElem_cons_eraseIdx_perm (by omega)).symm.cons _
    _ |>.Perm (l[i] :: l[n] :: (l.take n).eraseIdx i) := List.Perm.swap _ _ _
    _ |>.Perm (l[i] :: (l.set i l[n]).take n) := by
        rw [hset]
        exact (List.set_perm_cons_eraseIdx (by omega) _).symm.cons _

theorem zip_set {α β : Type} : ∀ (as : List α) (bs : List β) (i : Nat) (x : α) (y : β),
    (as.set i x).zip (bs.set i y) = (as.zip bs).set i (x, y)
  | [], _, _, _, _ => by simp
  | _ :: _, [], _, _, _ => by simp
  | _ :: _, _ :: _, 0, _, _ => rfl
  | a :: as, b :: bs, i + 1, x, y => by simp [zip_set as bs i x y]

theorem take_zip_take {α β : Type} (as : List α) (bs : List β) (n : Nat) :
    ((as.take (n + 1)).zip (bs.take (n + 1))).take n = (as.take n).zip (bs.take n) := by
  simp [List.zip, List.take_zipWith, List.take_take]

theorem copyEntry_spec {xs : List Nat} {i j : Nat} (hi : i < xs.length) (hj : j < xs.length) :
    copyEntry (some xs) i j = some (some (xs.set i xs[j])) := by
  simp [copyEntry, hi, hj]

/-- Dropping an entry takes out its pair and leaves the site. -/
theorem dropEntry_spec (h : Sound node) {i : Nat} (hi : i < (nodePairs node).length) :
    ∃ node', dropEntry node i = some node' ∧ node'.count + 1 = node.count ∧
      nodeSite node' = nodeSite node ∧
      (nodePairs node).Perm ((nodePairs node)[i] :: nodePairs node') ∧
      (node'.count ≠ 0 → Sound node') := by
  obtain ⟨as, ss, ha, hs, hla, hls⟩ := h.arrays
  obtain ⟨n, hn⟩ : ∃ n, node.count = n + 1 := ⟨node.count - 1, by have := h.pos; omega⟩
  have hlen : (nodePairs node).length = n + 1 := by rw [h.length, hn]
  have hpairs : nodePairs node = (as.take (n + 1)).zip (ss.take (n + 1)) := by
    simp [nodePairs, ha, hs, hn]
  have hna : n < as.length := by omega
  have hns : n < ss.length := by omega
  by_cases hin : i = n
  · -- the last entry: nothing is moved
    subst hin
    have hperm : (nodePairs node).Perm ((nodePairs node)[i] :: (as.take i).zip (ss.take i)) := by
      rw [← take_zip_take, ← hpairs]
      conv_lhs => rw [← List.take_of_length_le (Nat.le_of_eq hlen), ← List.take_append_getElem hi]
      exact List.perm_append_singleton _ _
    by_cases h0 : i = 0
    · subst h0
      refine ⟨{ node with count := 0, addrArray := none, sizeArray := none },
        by simp [dropEntry, hn], by rw [hn], rfl, ?_, fun hne => absurd rfl hne⟩
      simpa [nodePairs] using hperm
    · refine ⟨{ node with count := i }, by simp [dropEntry, hn, h0], hn.symm, rfl, ?_, fun hne =>
        ⟨Nat.pos_of_ne_zero hne, h.site, as, ss, ha, hs, hna.le, hns.le⟩⟩
      simpa [nodePairs, ha, hs] using hperm
  · have hlt : i < n := by omega
    have h0 : n ≠ 0 := by omega
    have hia : i < as.length := by omega
    have his : i < ss.length := by omega
    refine ⟨{ node with count := n, addrArray := some (as.set i as[n]), sizeArray := some (ss.set i ss[n]) },
      ?_, hn.symm, rfl, ?_, fun _ => ⟨Nat.pos_of_ne_zero h0, h.site, _, _, rfl, rfl, by simp; omega,
        by simp; omega⟩⟩
    · simp [dropEntry, hn, h0, hin, ha, hs, copyEntry_spec hia hna, copyEntry_spec his hns]
    · have hswap := swap_remove_perm hlen hlt
      have hmoved : ((nodePairs node).set i (nodePairs node)[n]).take n =
          ((as.set i as[n]).take n).zip ((ss.set i ss[n]).take n) := by
        have hlast : (nodePairs node)[n] = (as[n], ss[n]) := by simp [hpairs]
        rw [hlast, hpairs, ← zip_set, ← List.take_set, ← List.take_set, take_zip_take]
      rw [hmoved] at hswap
      exact hswap

theorem findIdx_addr (hmem : addr ∈ (nodePairs node).map Prod.fst) :
    ∃ i, (nodePairs node).findIdx? (fun e => e.1 == addr) = some i := by
  obtain ⟨e, he, rfl⟩ := List.mem_map.mp hmem
  exact Option.isSome_iff_exists.mp (List.findIdx?_isSome.trans (List.any_eq_true.mpr ⟨e, he, by simp⟩))

theorem findIdx_no_addr (hno : addr ∉ (nodePairs node).map Prod.fst) :
    (nodePairs node).findIdx? (fun e => e.1 == addr) = none := by
  refine List.findIdx?_eq_none_iff.mpr fun e he => ?_
  have hne : e.1 ≠ addr := fun heq => hno (heq ▸ List.mem_map_of_mem he)
  simpa using hne

/-- Removing a recorded address takes out one of its pairs, where the search for it ends. -/
theorem allocNodeRemoveAddr_spec (h : Sound node)
    (hscan : scanAddr node addr = some ((nodePairs node).findIdx? fun e => e.1 == addr))
    (hmem : addr ∈ (nodePairs node).map Prod.fst) :
    ∃ node' size, allocNodeRemoveAddr node addr = some node' ∧ node'.count + 1 = node.count ∧
      nodeSite node' = nodeSite node ∧ (nodePairs node).Perm ((addr, size) :: nodePairs node') ∧
      (node'.count ≠ 0 → Sound node') := by
  obtain ⟨i, hfind⟩ := findIdx_addr hmem
  obtain ⟨hi, haddr, -⟩ := List.findIdx?_eq_some_iff_getElem.mp hfind
  rw [hfind] at hscan
  obtain ⟨node', hdrop, hcount, hsite, hperm, hsound⟩ := dropEntry_spec h hi
  have hpos : node.count > 0 := h.pos
  have hfst : (nodePairs node)[i] = (addr, ((nodePairs node)[i]).2) :=
    Prod.ext (by simpa using haddr) rfl
  rw [hfst] at hperm
  exact ⟨node', _, by simp [allocNodeRemoveAddr, hpos, hscan, hdrop], hcount, hsite, hperm, hsound⟩

theorem allocNodeFindByaddr_spec {nodes : Store AllocNode} {p : Nat} (hp : nodes.lookup p = some node)
    (h : Sound node) (hmax : node.count ≤ intMax) :
    allocNodeFindByaddr nodes addr p =
      some (if addr ∈ (nodePairs node).map Prod.fst then some p else none) := by
  have hpos : node.count > 0 := h.pos
  simp only [allocNodeFindByaddr, hp, hpos, if_true, scanAddr_spec addr h hmax, Option.bind_eq_bind,
    Option.bind_some, Option.some.injEq]
  by_cases hmem : addr ∈ (nodePairs node).map Prod.fst
  · obtain ⟨i, hi⟩ := findIdx_addr hmem
    rw [hi, if_pos hmem]
    rfl
  · rw [findIdx_no_addr hmem, if_neg hmem]
    rfl

/-! ## Inserting -/

theorem growEntry_spec {xs : List Nat} {n : Nat} (hn : n ≤ xs.length) (x : Nat) :
    growEntry (some xs) (n + 1) x = some (some (xs.take n ++ [x])) := by
  have hlen : (xs.take n).length = n := by rw [List.length_take]; omega
  -- the slot to write is the last old one, or the one just added
  have hblock : (xs.take (n + 1) ++ List.replicate (n + 1 - xs.length) 0).set n x = xs.take n ++ [x] := by
    rcases Nat.lt_or_ge n xs.length with hlt | hge
    · rw [Nat.sub_eq_zero_of_le hlt, List.replicate_zero, List.append_nil, ← List.take_append_getElem hlt,
        List.set_append_right _ _ (by omega), hlen, Nat.sub_self]
      rfl
    · obtain rfl : n = xs.length := by omega
      rw [List.take_of_length_le (by omega), List.take_of_length_le (by omega),
        show xs.length + 1 - xs.length = 1 by omega, List.set_append_right _ _ (by omega), Nat.sub_self]
      rfl
  rw [growEntry, if_neg (by omega)]
  exact congrArg (fun l => some (some l)) hblock

/-- The node after an insertion at its site. -/
theorem grow_spec (addr size : Nat) (h : Sound node) (hlt : node.count + 1 < 2 ^ 32) :
    ∃ addrs sizes, growEntry node.addrArray (u32 (node.count + 1)) addr = some addrs ∧
      growEntry node.sizeArray (u32 (node.count + 1)) size = some sizes ∧
      Sound { node with count := node.count + 1, addrArray := addrs, sizeArray := sizes } ∧
      nodePairs { node with count := node.count + 1, addrArray := addrs, sizeArray := sizes } =
        nodePairs node ++ [(addr, size)] := by
  obtain ⟨as, ss, ha, hs, hla, hls⟩ := h.arrays
  have hta : (as.take node.count).length = node.count := by rw [List.length_take]; omega
  have hts : (ss.take node.count).length = node.count := by rw [List.length_take]; omega
  rw [u32_of_lt hlt, ha, hs]
  refine ⟨_, _, growEntry_spec hla addr, growEntry_spec hls size, ⟨by simp, h.site, _, _, rfl, rfl,
    by simp [hta], by simp [hts]⟩, ?_⟩
  have hca : (as.take node.count ++ [addr]).length = node.count + 1 := by simp [hta]
  have hcs : (ss.take node.count ++ [size]).length = node.count + 1 := by simp [hts]
  simp only [nodePairs, Option.getD_some, ha, hs]
  rw [List.take_of_length_le (Nat.le_of_eq hca), List.take_of_length_le (Nat.le_of_eq hcs),
    List.zip_append (by rw [hta, hts])]
  rfl

/-- The call site named by the arguments of `alloc_node_insert2`. -/
def allocSite (a : Alloc) : Site :=
  ((a.file.map fun s => filenameGet s.val).getD [], (a.func.map fun s => s.val).getD [], a.line)

/-- The names fit the arrays of a node. -/
def NamesFit (a : Alloc) : Prop :=
  (∀ s ∈ a.file, (filenameGet s.val).length < 64) ∧ ∀ s ∈ a.func, s.val.length < 32

def newNode (a : Alloc) : AllocNode := allocNodeNew a.file a.func a.line a.addr a.size a.atype

theorem cstr_copyName {name : Option (List Byte)} {n : Nat} (hn : 0 < n)
    (hname : ∀ s ∈ name, (0 : Byte) ∉ s ∧ s.length < n) : cstr (copyName name n) = some (name.getD []) := by
  cases name with
  | none =>
    have hzero : copyName none n = strncpy [] n := by simp [copyName, strncpy]
    rw [hzero]
    exact cstr_strncpy (by simp) (by simpa using hn)
  | some s =>
    obtain ⟨hs, hlen⟩ := hname s rfl
    exact cstr_strncpy hs hlen

theorem nodeSite_newNode {a : Alloc} (h : NamesFit a) : nodeSite (newNode a) = some (allocSite a) := by
  have hfile : cstr (newNode a).file = some ((a.file.map fun s => filenameGet s.val).getD []) := by
    refine cstr_copyName (by decide) fun s hs => ?_
    obtain ⟨f, hf, rfl⟩ := Option.map_eq_some_iff.mp hs
    exact ⟨zero_notMem_rindexAfter f.property, h.1 f hf⟩
  have hfunc : cstr (newNode a).func = some ((a.func.map fun s => s.val).getD []) := by
    refine cstr_copyName (by decide) fun s hs => ?_
    obtain ⟨f, hf, rfl⟩ := Option.map_eq_some_iff.mp hs
    exact ⟨f.property, h.2 f hf⟩
  simp only [nodeSite, hfile, hfunc, Option.bind_eq_bind, Option.bind_some]
  rfl

theorem newNode_sound {a : Alloc} (h : NamesFit a) : Sound (newNode a) :=
  ⟨Nat.le_refl 1, ⟨_, nodeSite_newNode h⟩, _, _, rfl, rfl, Nat.le_refl 1, Nat.le_refl 1⟩

theorem nodePairs_newNode (a : Alloc) : nodePairs (newNode a) = [(a.addr, u32OfInt a.size)] := rfl

end Xtrace2
end Xlibc
