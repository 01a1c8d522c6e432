import Mathlib.Data.Setoid.Basic
import Xlibc.Xhash.Table

/-!
# Xlibc.Xhash.Ops

One specification for each operation of the table: `Holds` ties the table to a map from key classes
to data, and every operation acts on that map.

* `unlinkBucket_spec` : a bucket goes, whether it is the head of its chain or further down.
* `hashGet_spec`, `hashSet_new`, `hashSet_old`, `hashDelete_spec`, `hashRelease_spec`, `hashClean_spec`
* `hashTraverse_spec`, `hashIterate_spec`, `hashFind_spec` : walks over the whole table.
-/

namespace Xlibc
namespace Xhash

variable {δ : Type}

structure Holds (k : δ → Nat) (s : Setoid δ) (live : δ → Prop) (h : Hash δ)
    (cs : List (List (Cell δ))) (m : ClassMap s) : Prop where
  table : Table k h cs
  enum : m.Enumerates (stored cs)
  live : ∀ x ∈ stored cs, live x

/-- The data of one chain. -/
def chainData (c : List (Cell δ)) : List δ := c.map (·.2.2)

theorem stored_middle (C₁ C₂ : List (List (Cell δ))) (c : List (Cell δ)) :
    stored (C₁ ++ c :: C₂) = stored C₁ ++ (chainData c ++ stored C₂) := by
  simp [stored, chainData]

theorem stored_cell (C₁ C₂ : List (List (Cell δ))) (l₁ l₂ : List (Cell δ)) (a : Nat) (x : Nat × δ) :
    stored (C₁ ++ (l₁ ++ (a, x) :: l₂) :: C₂) =
      (stored C₁ ++ chainData l₁) ++ x.2 :: (chainData l₂ ++ stored C₂) := by
  simp [stored, chainData]

theorem stored_cut (C₁ C₂ : List (List (Cell δ))) (l₁ l₂ : List (Cell δ)) :
    stored (C₁ ++ (l₁ ++ l₂) :: C₂) = (stored C₁ ++ chainData l₁) ++ (chainData l₂ ++ stored C₂) := by
  simp [stored, chainData]

/-! ## Changing one chain -/

section Change

variable {k : δ → Nat} {h : Hash δ} {i : Nat} {I₁ I₂ : List (Option Nat)} {head : Option Nat}
  {C₁ C₂ : List (List (Cell δ))} {c l₁ l₂ : List (Cell δ)} {a : Nat} {x : Nat × δ} {b : HashBucket δ}

theorem Focus.set_index (hf : Focus h i I₁ head I₂ C₁ c C₂) (v : Option Nat) :
    h.index.set i v = I₁ ++ v :: I₂ := by
  rw [hf.index, List.set_append_right _ _ (by rw [hf.left_length]), hf.left_length, Nat.sub_self,
    List.set_cons_zero]

theorem Focus.place (hf : Focus h i I₁ head I₂ C₁ c C₂) (ht : Table k h (C₁ ++ c :: C₂)) :
    ∀ x ∈ c, x.2.1 = k x.2.2 ∧ x.2.1 % h.size = i :=
  ht.place i c (by
    rw [List.getElem?_append_right (by rw [hf.length]), hf.length, Nat.sub_self,
      List.getElem?_cons_zero])

/-- A bucket of the table: its address occurs once, in its own chain. -/
theorem Table.once (ht : Table k h (C₁ ++ (l₁ ++ (a, x) :: l₂) :: C₂)) :
    (addrs (l₁ ++ (a, x) :: l₂)).Nodup ∧ a ∉ addrs l₁ ∧ a ∉ addrs l₂ ∧ a ∉ addrs C₁.flatten ∧
      a ∉ addrs C₂.flatten ∧ (∀ q ∈ addrs l₁, q ∉ addrs C₁.flatten ∧ q ∉ addrs C₂.flatten) := by
  have hnd := ht.nodup
  simp only [List.flatten_append, List.flatten_cons, addrs_append, addrs_cons] at hnd ⊢
  simp only [List.nodup_append, List.nodup_cons, List.mem_append, List.mem_cons] at hnd ⊢
  refine ⟨hnd.2.1.1, ?_, hnd.2.1.1.2.1.1, ?_, ?_, ?_⟩
  · exact fun hmem => hnd.2.1.1.2.2 a hmem a (.inl rfl) rfl
  · exact fun hmem => hnd.2.2 a hmem a (.inl (.inr (.inl rfl))) rfl
  · exact fun hmem => hnd.2.1.2.2 a (.inr (.inl rfl)) a hmem rfl
  · exact fun q hq => ⟨fun hmem => hnd.2.2 q hmem q (.inl (.inl hq)) rfl,
      fun hmem => hnd.2.1.2.2 q (.inl hq) q hmem rfl⟩

theorem Table.keys_cell (ht : Table k h (C₁ ++ (l₁ ++ (a, x) :: l₂) :: C₂)) :
    h.buckets.keys.Perm (a :: addrs (C₁ ++ (l₁ ++ l₂) :: C₂).flatten) := by
  refine ht.keys.symm.trans ?_
  simp only [List.flatten_append, List.flatten_cons, addrs_append, addrs_cons, List.append_assoc,
    List.cons_append]
  rw [← List.append_assoc, ← List.append_assoc (addrs C₁.flatten)]
  exact List.perm_middle

theorem unlinkBucket_spec (ht : Table k h (C₁ ++ (l₁ ++ (a, x) :: l₂) :: C₂))
    (hf : Focus h i I₁ head I₂ C₁ (l₁ ++ (a, x) :: l₂) C₂) (hb : h.buckets.lookup a = some b) :
    ∃ h', unlinkBucket h i (lastAddr head l₁) a b = some h' ∧ h'.size = h.size ∧
      Table k h' (C₁ ++ (l₁ ++ l₂) :: C₂) := by
  obtain ⟨hnd, -, hal₂, haC₁, haC₂, hq⟩ := ht.once
  have hal₁ := ht.once.2.1
  have hplace : ∀ y ∈ l₁ ++ l₂, y.2.1 = k y.2.2 ∧ y.2.1 % h.size = i := fun y hy =>
    hf.place ht y (by simp only [List.mem_append, List.mem_cons] at hy ⊢; tauto)
  have hcount : h.count - 1 = (C₁ ++ (l₁ ++ l₂) :: C₂).flatten.length := by
    rw [ht.count]; simp; omega
  have hkeys := ht.keys_cell
  rcases l₁.eq_nil_or_concat' with rfl | ⟨l₁', ⟨q, y⟩, rfl⟩
  · -- the bucket is the head of its chain
    obtain ⟨hhead, b', hb', -, hl₂⟩ := hf.chain
    obtain rfl : b = b' := Option.some.inj (hb.symm.trans hb')
    refine ⟨_, if_pos hhead.symm, rfl, ht.update hf (hf.set_index _) rfl
      (hl₂.frame_erase hal₂) (fun p hp => AList.lookup_erase_ne ?_) (keys_erase_perm hkeys).symm hplace
      hcount⟩
    rintro rfl
    exact hp.elim haC₁ haC₂
  · -- the bucket before it is made to point past it
    have hlast : lastAddr head (l₁' ++ [(q, y)]) = some q := by simp [lastAddr]
    have hqa : ¬ some a = some q := by
      rintro h
      exact hal₁ (by simp [Option.some.inj h])
    have hchain := hf.chain
    rw [List.append_assoc] at hchain hnd
    obtain ⟨bq, hbq, -⟩ := hchain.cell
    have hby := Chain.bypass { bq with next := b.next } hbq hb rfl rfl hnd hchain
    have hcut : a ∉ addrs (l₁' ++ (q, y) :: l₂) := by simp_all
    rw [show l₁' ++ (q, y) :: l₂ = (l₁' ++ [(q, y)]) ++ l₂ by simp] at hby hcut
    have hrun : unlinkBucket h i (lastAddr head (l₁' ++ [(q, y)])) a b = some { h with
        buckets := (h.buckets.insert q { bq with next := b.next }).erase a, count := h.count - 1 } := by
      simp [unlinkBucket, hlast, hqa, hbq]
    refine ⟨_, hrun, rfl, ht.update hf hf.index rfl (hby.frame_erase hcut) (fun p hp => ?_) ?_ hplace
      hcount⟩
    · have hpa : p ≠ a := by rintro rfl; exact hp.elim haC₁ haC₂
      have hpq : p ≠ q := by rintro rfl; exact hp.elim (hq p (by simp)).1 (hq p (by simp)).2
      show (AList.erase _ _).lookup p = _
      rw [AList.lookup_erase_ne hpa, AList.lookup_insert_ne hpq]
    · exact (keys_erase_perm ((keys_insert_perm hbq).trans hkeys)).symm

/-- A new bucket at the head of its chain. -/
theorem Table.push {key fresh : Nat} {d : δ} (ht : Table k h (C₁ ++ c :: C₂))
    (hf : Focus h i I₁ head I₂ C₁ c C₂) (hfresh : h.buckets.lookup fresh = none)
    (hkey : key = k d ∧ key % h.size = i) :
    Table k { h with index := h.index.set i (some fresh),
                     buckets := h.buckets.insert fresh { next := head, key := key, data := d },
                     count := h.count + 1 } (C₁ ++ ((fresh, key, d) :: c) :: C₂) := by
  have hnew : fresh ∉ addrs (C₁ ++ c :: C₂).flatten := fun hmem =>
    AList.lookup_eq_none.mp hfresh (ht.keys.mem_iff.mp hmem)
  have hout : fresh ∉ addrs c := fun hmem => hnew (by simp [hmem])
  refine ht.update hf (hf.set_index _) rfl (hf.chain.push hout rfl) (fun p hp => ?_) ?_ ?_ ?_
  · refine AList.lookup_insert_ne ?_
    rintro rfl
    exact hnew (by rcases hp with hp | hp <;> simp [hp])
  · rw [keys_insert_fresh hfresh]
    refine List.Perm.trans ?_ (ht.keys.cons fresh)
    simp only [List.flatten_append, List.flatten_cons, addrs_append, addrs_cons, List.cons_append]
    exact List.perm_middle
  · intro x hx
    rcases List.mem_cons.mp hx with rfl | hx
    · exact hkey
    · exact hf.place ht x hx
  · show h.count + 1 = _
    rw [ht.count]
    simp
    omega

/-- A datum of the same key takes the place of another. -/
theorem Table.swap {d : δ} (ht : Table k h (C₁ ++ (l₁ ++ (a, x) :: l₂) :: C₂))
    (hf : Focus h i I₁ head I₂ C₁ (l₁ ++ (a, x) :: l₂) C₂) (hb : h.buckets.lookup a = some b)
    (hx : bucketVal b = x) (hkey : k d = k x.2) :
    Table k { h with buckets := h.buckets.insert a { b with data := d } }
      (C₁ ++ (l₁ ++ (a, b.key, d) :: l₂) :: C₂) := by
  obtain ⟨hnd, -, -, haC₁, haC₂, -⟩ := ht.once
  have hchain := hf.chain.overwrite { b with data := d } hb rfl hnd
  refine ht.update hf hf.index rfl hchain (fun p hp => ?_) ?_ ?_ ?_
  · refine AList.lookup_insert_ne ?_
    rintro rfl
    exact hp.elim haC₁ haC₂
  · refine List.Perm.trans ?_ (ht.keys.trans (keys_insert_perm hb).symm)
    simp
  · intro y hy
    have hax := hf.place ht (a, x) (by simp)
    rcases List.mem_append.mp hy with hy | hy
    · exact hf.place ht y (by simp [hy])
    · rcases List.mem_cons.mp hy with rfl | hy
      · subst hx
        exact ⟨by rw [hkey]; exact hax.1, hax.2⟩
      · exact hf.place ht y (by simp [hy])
  · show h.count = _
    rw [ht.count]
    simp

end Change

/-! ## The operations on one class -/

section Class

variable {cb : Callbacks δ} {k : δ → Nat} {s : Setoid δ} {live : δ → Prop} {h : Hash δ}
  {cs : List (List (Cell δ))} {m : ClassMap s} {d : δ}

theorem hashGet_spec (hr : Reads cb k s live) (hh : Holds k s live h cs m) (hd : live d) :
    hashGet cb h d = some (m.find (Quotient.mk s d)) := by
  obtain ⟨I₁, head, I₂, C₁, c, C₂, rfl, hf, hchain, hcase⟩ := hh.table.locate hr hh.live hd
  rcases hcase with ⟨hno, hrun⟩ | ⟨l₁, a, x, l₂, b, rfl, hs, hb, rfl, hrun⟩
  · rw [hh.enum.find_none hno]
    simp [hashGet, hr.key d hd, hchain, hrun]
  · have hx : b.data ∈ stored (C₁ ++ (l₁ ++ (a, bucketVal b) :: l₂) :: C₂) := by
      rw [stored_cell]; simp [bucketVal]
    rw [hh.enum.find_some hx hs]
    simp [hashGet, hr.key d hd, hchain, hrun]

/-- Removing the bucket of `d`'s class, as `hash_delete` and `hash_release` do. -/
theorem remove_spec (hr : Reads cb k s live) (hh : Holds k s live h cs m) (hd : live d) :
    ∃ head, chainOf h (k d) = some (k d % h.size, head) ∧
      ((m.find (Quotient.mk s d) = none ∧
        searchChain cb h.buckets (k d) d h.buckets.entries.length head head = some none) ∨
       (∃ prev p b h' cs', m.find (Quotient.mk s d) = some b.data ∧
        searchChain cb h.buckets (k d) d h.buckets.entries.length head head = some (some (prev, p, b)) ∧
        unlinkBucket h (k d % h.size) prev p b = some h' ∧ h'.size = h.size ∧
        Holds k s live h' cs' (m.drop (Quotient.mk s d)) ∧
        (stored cs).Perm (b.data :: stored cs'))) := by
  obtain ⟨I₁, head, I₂, C₁, c, C₂, rfl, hf, hchain, hcase⟩ := hh.table.locate hr hh.live hd
  refine ⟨head, hchain, ?_⟩
  rcases hcase with ⟨hno, hrun⟩ | ⟨l₁, a, x, l₂, b, rfl, hs, hb, rfl, hrun⟩
  · exact .inl ⟨hh.enum.find_none hno, hrun⟩
  · obtain ⟨h', hunlink, hsize, ht'⟩ := unlinkBucket_spec hh.table hf hb
    have hst := stored_cell C₁ C₂ l₁ l₂ a (bucketVal b)
    refine .inr ⟨_, a, b, h', _, ?_, hrun, hunlink, hsize, ⟨ht', ?_, ?_⟩, ?_⟩
    · exact hh.enum.find_some (by rw [hst]; simp [bucketVal]) hs
    · have henum := hh.enum
      rw [hst] at henum
      rw [stored_cut]
      exact henum.remove hs
    · intro x hx
      refine hh.live x ?_
      rw [stored_cut] at hx
      rw [hst]
      simp only [List.mem_append, List.mem_cons] at hx ⊢
      tauto
    · rw [hst, stored_cut]
      exact List.perm_middle

theorem hashDelete_spec (hr : Reads cb k s live) (hh : Holds k s live h cs m) (hd : live d)
    (hfree : cb.hashFreeData = true) :
    (m.find (Quotient.mk s d) = none ∧ hashDelete cb h d = some (-1, [], h)) ∨
    (∃ x h' cs', m.find (Quotient.mk s d) = some x ∧ hashDelete cb h d = some (0, [x], h') ∧
      h'.size = h.size ∧ Holds k s live h' cs' (m.drop (Quotient.mk s d)) ∧
      (stored cs).Perm (x :: stored cs')) := by
  obtain ⟨head, hchain, ⟨hno, hrun⟩ | ⟨prev, p, b, h', cs', hfind, hrun, hunlink, hrest⟩⟩ :=
    remove_spec hr hh hd
  · exact .inl ⟨hno, by simp [hashDelete, hfree, hr.key d hd, hchain, hrun]⟩
  · exact .inr ⟨b.data, h', cs', hfind,
      by simp [hashDelete, hfree, hr.key d hd, hchain, hrun, hunlink], hrest⟩

theorem hashRelease_spec (hr : Reads cb k s live) (hh : Holds k s live h cs m) (hd : live d) :
    (m.find (Quotient.mk s d) = none ∧ hashRelease cb h d = some (none, h)) ∨
    (∃ x h' cs', m.find (Quotient.mk s d) = some x ∧ hashRelease cb h d = some (some x, h') ∧
      h'.size = h.size ∧ Holds k s live h' cs' (m.drop (Quotient.mk s d)) ∧
      (stored cs).Perm (x :: stored cs')) := by
  obtain ⟨head, hchain, ⟨hno, hrun⟩ | ⟨prev, p, b, h', cs', hfind, hrun, hunlink, hrest⟩⟩ :=
    remove_spec hr hh hd
  · exact .inl ⟨hno, by simp [hashRelease, hr.key d hd, hchain, hrun]⟩
  · exact .inr ⟨b.data, h', cs', hfind, by simp [hashRelease, hr.key d hd, hchain, hrun, hunlink],
      hrest⟩

/-- `hash_set` on a class that is not there adds a bucket. -/
theorem hashSet_new {fresh : Nat} (hr : Reads cb k s live) (hh : Holds k s live h cs m) (hd : live d)
    (hfresh : h.buckets.lookup fresh = none) (hno : m.find (Quotient.mk s d) = none) :
    ∃ h' cs', hashSet cb fresh h (some d) = some (some d, [], h') ∧ h'.size = h.size ∧
      Holds k s live h' cs' (m.put d) ∧ (stored cs').Perm (d :: stored cs) := by
  obtain ⟨I₁, head, I₂, C₁, c, C₂, rfl, hf, hchain, hcase⟩ := hh.table.locate hr hh.live hd
  rcases hcase with ⟨hnone, hrun⟩ | ⟨l₁, a, x, l₂, b, rfl, hs, hb, rfl, hrun⟩
  · have hperm : (stored (C₁ ++ ((fresh, k d, d) :: c) :: C₂)).Perm (d :: stored (C₁ ++ c :: C₂)) := by
      rw [stored_middle, stored_middle]
      simp only [chainData, List.map_cons, List.cons_append]
      exact List.perm_middle
    refine ⟨_, _, ?_, ?_, ⟨hh.table.push hf hfresh ⟨rfl, rfl⟩, (hh.enum.cons hnone).perm hperm.symm,
      ?_⟩, hperm⟩
    · simp [hashSet, hr.key d hd, hchain, hrun]
    · rfl
    · intro x hx
      rcases List.mem_cons.mp (hperm.mem_iff.mp hx) with rfl | hx
      · exact hd
      · exact hh.live x hx
  · have hx := hh.enum.find_some (by rw [stored_cell]; simp [bucketVal] : b.data ∈ _) hs
    rw [hno] at hx
    cases hx

/-- `hash_set` on a class that is there keeps its datum or replaces it. -/
theorem hashSet_old (fresh : Nat) {x : δ} {r : Int} (hr : Reads cb k s live)
    (hh : Holds k s live h cs m) (hd : live d) (hfree : cb.hashFreeData = true)
    (hfind : m.find (Quotient.mk s d) = some x) (hother : cb.hashCmpOther x d = some r) :
    (r ≠ 0 ∧ hashSet cb fresh h (some d) = some (some x, [d], h)) ∨
    (r = 0 ∧ ∃ h' cs', hashSet cb fresh h (some d) = some (some d, [x], h') ∧ h'.size = h.size ∧
      Holds k s live h' cs' (m.put d)) := by
  obtain ⟨I₁, head, I₂, C₁, c, C₂, rfl, hf, hchain, hcase⟩ := hh.table.locate hr hh.live hd
  rcases hcase with ⟨hnone, hrun⟩ | ⟨l₁, a, x', l₂, b, rfl, hs, hb, rfl, hrun⟩
  · rw [hh.enum.find_none hnone] at hfind
    cases hfind
  · have hst := stored_cell C₁ C₂ l₁ l₂ a (bucketVal b)
    have hmem : b.data ∈ stored (C₁ ++ (l₁ ++ (a, bucketVal b) :: l₂) :: C₂) := by
      rw [hst]; simp [bucketVal]
    obtain rfl : b.data = x := Option.some.inj ((hh.enum.find_some hmem hs).symm.trans hfind)
    by_cases hz : r = 0
    · subst hz
      have hswap := hh.table.swap (d := d) hf hb rfl (hr.resp _ _ hs).symm
      have hst' := stored_cell C₁ C₂ l₁ l₂ a (b.key, d)
      refine .inr ⟨rfl, _, _, ?_, ?_, hswap, ?_, ?_⟩
      · simp [hashSet, hr.key d hd, hchain, hrun, hother, hfree]
      · rfl
      · have henum := hh.enum
        rw [hst] at henum
        rw [hst']
        exact henum.replace hs
      · intro y hy
        rw [hst'] at hy
        rcases List.mem_append.mp hy with hy | hy
        · exact hh.live y (by rw [hst]; exact List.mem_append_left _ hy)
        · rcases List.mem_cons.mp hy with rfl | hy
          · exact hd
          · exact hh.live y (by rw [hst]; exact List.mem_append_right _ (List.mem_cons_of_mem _ hy))
    · exact .inl ⟨hz, by simp [hashSet, hr.key d hd, hchain, hrun, hother, hfree, hz]⟩

end Class

/-! ## Data with an identity

Pointers are told apart by what is found at them: `ident` is what the callbacks compare, and `key` is
its hash. -/

section Identity

variable {ι : Type} {ident : δ → Option ι} {key : ι → Nat} {cb : Callbacks δ} {h : Hash δ}
  {cs : List (List (Cell δ))}

def keyBy (ident : δ → Option ι) (key : ι → Nat) (d : δ) : Nat := ((ident d).map key).getD 0

/-- There is something to compare. -/
def Points (ident : δ → Option ι) (d : δ) : Prop := ∃ x, ident d = some x

theorem reads_ident (hkey : ∀ d x, ident d = some x → cb.hashKey d = some (key x))
    (hcmp : ∀ a b x y, ident a = some x → ident b = some y →
      ∃ r, cb.hashCmpKey a b = some r ∧ (r ≠ 0 ↔ x = y)) :
    Reads cb (keyBy ident key) (Setoid.ker ident) (Points ident) where
  key d hd := by
    obtain ⟨x, hx⟩ := hd
    rw [hkey d x hx, keyBy, hx]
    rfl
  cmp a b ha hb := by
    obtain ⟨x, hx⟩ := ha
    obtain ⟨y, hy⟩ := hb
    obtain ⟨r, hr, hxy⟩ := hcmp a b x y hx hy
    refine ⟨r, hr, ?_⟩
    rw [hxy, Setoid.ker_def, hx, hy, Option.some.injEq]
  resp a b hab := by
    have hident : ident a = ident b := hab
    rw [keyBy, keyBy, hident]

/-- A table with no identity twice, as a map from identities. -/
theorem Table.holds_ident (ht : Table (keyBy ident key) h cs)
    (hpw : (stored cs).Pairwise fun a b => ident a ≠ ident b) (hlive : ∀ d ∈ stored cs, Points ident d) :
    ∃ m, Holds (keyBy ident key) (Setoid.ker ident) (Points ident) h cs m := by
  obtain ⟨m, hm⟩ := ClassMap.Enumerates.exists_of_pairwise (s := Setoid.ker ident) hpw
  exact ⟨m, ht, hm, hlive⟩

end Identity

end Xhash
end Xlibc
