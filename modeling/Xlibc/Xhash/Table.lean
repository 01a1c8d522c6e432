import Xlibc.Base.ClassMap
import Xlibc.Xhash.Model

/-!
# Xlibc.Xhash.Table

The representation invariant of the hash table and the search through one chain. `k` and `s` are
what the callbacks compute on live data: the key, and which data have the same key.

* `Table h cs`         : `cs` are the chains of `h`, place by place; together they hold every bucket.
* `Table.update`       : a table stays one when a single chain changes.
* `searchChain_first`  : the walk stops at the first bucket that the callbacks accept.
* `searchChain_spec`   : that is the first bucket of the class, or there is none.
* `Table.locate`       : where a datum's class is kept, if it is kept at all.
-/

namespace Xlibc
namespace Xhash

variable {δ : Type}

/-- What a bucket holds beside its link. -/
def bucketVal (b : HashBucket δ) : Nat × δ := (b.key, b.data)

/-- A bucket of a chain: its address, key and datum. -/
abbrev Cell (δ : Type) := Nat × Nat × δ

abbrev BucketChain (m : Store (HashBucket δ)) (p : Option Nat) (l : List (Cell δ)) : Prop :=
  Chain HashBucket.next bucketVal m p l

/-- The data in the chains. -/
def stored (cs : List (List (Cell δ))) : List δ := cs.flatten.map (·.2.2)

/-- The callbacks on live data: `k` is the key, `s` is having the same key, and data with the same
key have the same hash. -/
structure Reads (cb : Callbacks δ) (k : δ → Nat) (s : Setoid δ) (live : δ → Prop) : Prop where
  key : ∀ d, live d → cb.hashKey d = some (k d)
  cmp : ∀ a b, live a → live b → ∃ r, cb.hashCmpKey a b = some r ∧ (r ≠ 0 ↔ s a b)
  resp : ∀ a b, s a b → k a = k b

structure Table (k : δ → Nat) (h : Hash δ) (cs : List (List (Cell δ))) : Prop where
  chains : List.Forall₂ (BucketChain h.buckets) h.index cs
  size : cs.length = h.size
  pos : 1 ≤ h.size
  keys : (addrs cs.flatten).Perm h.buckets.keys
  place : ∀ i c, cs[i]? = some c → ∀ x ∈ c, x.2.1 = k x.2.2 ∧ x.2.1 % h.size = i
  count : h.count = cs.flatten.length

theorem hashCreateSize_table (k : δ → Nat) {size : Nat} (h1 : 1 ≤ size) :
    Table k (hashCreateSize size : Hash δ) (List.replicate size []) where
  chains := by
    show List.Forall₂ _ (List.replicate size none) _
    clear h1
    induction size with
    | zero => exact .nil
    | succ n ih => exact .cons rfl ih
  size := List.length_replicate
  pos := h1
  keys := by simp [hashCreateSize]
  place i c hc x hx := by
    have : c = [] := List.eq_of_mem_replicate (List.mem_of_getElem? hc)
    rw [this] at hx
    cases hx
  count := by simp [hashCreateSize]

/-! ## One chain among the others -/

/-- Chain `i` of a table, and the chains before and behind it. -/
structure Focus (h : Hash δ) (i : Nat) (I₁ : List (Option Nat)) (head : Option Nat)
    (I₂ : List (Option Nat)) (C₁ : List (List (Cell δ))) (c : List (Cell δ))
    (C₂ : List (List (Cell δ))) : Prop where
  index : h.index = I₁ ++ head :: I₂
  left_length : I₁.length = i
  length : C₁.length = i
  left : List.Forall₂ (BucketChain h.buckets) I₁ C₁
  chain : BucketChain h.buckets head c
  right : List.Forall₂ (BucketChain h.buckets) I₂ C₂

namespace Table

variable {k : δ → Nat} {h h' : Hash δ} {cs : List (List (Cell δ))}

theorem focus (ht : Table k h cs) {i : Nat} (hi : i < h.size) :
    ∃ I₁ head I₂ C₁ c C₂, cs = C₁ ++ c :: C₂ ∧ Focus h i I₁ head I₂ C₁ c C₂ := by
  obtain ⟨I₁, head, I₂, C₁, c, C₂, h1, rfl, h3, h4, h5, h6, h7⟩ :=
    forall₂_at ht.chains (i := i) (by rw [ht.size]; exact hi)
  exact ⟨I₁, head, I₂, C₁, c, C₂, rfl, h1, h3, h4, h5, h6, h7⟩

theorem nodup (ht : Table k h cs) : (addrs cs.flatten).Nodup :=
  ht.keys.nodup_iff.mpr h.buckets.keys_nodup

theorem mem_keys (ht : Table k h cs) {a : Nat} : a ∈ h.buckets.keys ↔ a ∈ addrs cs.flatten :=
  ht.keys.mem_iff.symm

/-- `k` has to be right about the data in the chains only. -/
theorem congr {k' : δ → Nat} (ht : Table k h cs) (hk : ∀ d ∈ stored cs, k' d = k d) : Table k' h cs where
  chains := ht.chains
  size := ht.size
  pos := ht.pos
  keys := ht.keys
  place i c hc x hx := by
    have hmem : x.2.2 ∈ stored cs := by
      refine List.mem_map.mpr ⟨x, ?_, rfl⟩
      exact List.mem_flatten.mpr ⟨c, List.mem_of_getElem? hc, hx⟩
    rw [hk _ hmem]
    exact ht.place i c hc x hx
  count := ht.count

variable {i : Nat} {I₁ I₂ : List (Option Nat)} {head head' : Option Nat} {C₁ C₂ : List (List (Cell δ))}
  {c c' : List (Cell δ)}

/-- Fuel for a walk along one chain. -/
theorem chain_length (ht : Table k h (C₁ ++ c :: C₂)) : c.length ≤ h.buckets.entries.length := by
  have hnd := ht.nodup
  have hperm := ht.keys
  simp only [List.flatten_append, List.flatten_cons, addrs_append] at hnd hperm
  have hc : (addrs c).Nodup := (List.nodup_append.mp (List.nodup_append.mp hnd).2.1).1
  exact chain_length_le hc fun a ha => hperm.mem_iff.mp (by simp [ha])

/-- Only chain `i` changes, the store keeps the cells of the others. -/
theorem update (ht : Table k h (C₁ ++ c :: C₂)) (hf : Focus h i I₁ head I₂ C₁ c C₂)
    (hindex : h'.index = I₁ ++ head' :: I₂) (hsize : h'.size = h.size)
    (hchain : BucketChain h'.buckets head' c')
    (hframe : ∀ a, a ∈ addrs C₁.flatten ∨ a ∈ addrs C₂.flatten →
      h'.buckets.lookup a = h.buckets.lookup a)
    (hkeys : (addrs (C₁ ++ c' :: C₂).flatten).Perm h'.buckets.keys)
    (hplace : ∀ x ∈ c', x.2.1 = k x.2.2 ∧ x.2.1 % h.size = i)
    (hcount : h'.count = (C₁ ++ c' :: C₂).flatten.length) : Table k h' (C₁ ++ c' :: C₂) where
  chains := by
    have keep : ∀ {I C}, (∀ a, a ∈ addrs (List.flatten C) →
        h'.buckets.lookup a = h.buckets.lookup a) →
        List.Forall₂ (BucketChain h.buckets) I C → List.Forall₂ (BucketChain h'.buckets) I C := by
      intro I C hC hR
      induction hR with
      | nil => exact .nil
      | cons hac _ ih =>
        exact .cons (hac.frame fun a ha => hC a (by simp [ha])) (ih fun a ha => hC a (by simp [ha]))
    rw [hindex]
    exact forall₂_join (keep (fun a ha => hframe a (.inl ha)) hf.left) hchain
      (keep (fun a ha => hframe a (.inr ha)) hf.right)
  size := by rw [hsize, ← ht.size]; simp
  pos := by rw [hsize]; exact ht.pos
  keys := hkeys
  place j d hd x hx := by
    rw [hsize]
    rcases Nat.lt_trichotomy j C₁.length with hlt | heq | hgt
    · rw [List.getElem?_append_left hlt] at hd
      exact ht.place j d (by rw [List.getElem?_append_left hlt]; exact hd) x hx
    · subst heq
      rw [List.getElem?_append_right (Nat.le_refl _), Nat.sub_self, List.getElem?_cons_zero] at hd
      cases hd
      rw [hf.length]
      exact hplace x hx
    · obtain ⟨n, hn⟩ : ∃ n, j - C₁.length = n + 1 := ⟨j - C₁.length - 1, by omega⟩
      rw [List.getElem?_append_right (by omega), hn, List.getElem?_cons_succ] at hd
      exact ht.place j d (by
        rw [List.getElem?_append_right (by omega), hn, List.getElem?_cons_succ]; exact hd) x hx
  count := hcount

end Table

/-! ## Searching -/

/-- The trailing pointer of a walk that has passed `l`. -/
def lastAddr (prev : Option Nat) (l : List (Cell δ)) : Option Nat := l.foldl (fun _ x => some x.1) prev

/-- The walk stops at the first bucket that answers `q`, whatever the callbacks make `q` be. -/
theorem searchChain_first (cb : Callbacks δ) {m : Store (HashBucket δ)} (key : Nat) (d : δ)
    (q : Nat × δ → Bool) {l : List (Cell δ)} :
    ∀ {p : Option Nat} {fuel : Nat} (prev : Option Nat), BucketChain m p l → l.length ≤ fuel →
      (∀ x ∈ l, (if x.2.1 = key then (cb.hashCmpKey x.2.2 d).map (· != 0) else some false) = some (q x.2)) →
      ((∀ x ∈ l, q x.2 = false) ∧ searchChain cb m key d fuel prev p = some none) ∨
      (∃ l₁ a x l₂ b, l = l₁ ++ (a, x) :: l₂ ∧ q x = true ∧ m.lookup a = some b ∧ bucketVal b = x ∧
        searchChain cb m key d fuel prev p = some (some (lastAddr prev l₁, a, b))) := by
  induction l with
  | nil =>
    intro p fuel prev hp _ _
    cases hp
    exact .inl ⟨by simp, by cases fuel <;> rfl⟩
  | cons x l ih =>
    intro p fuel prev hp hfuel hq
    obtain ⟨rfl, b, hb, hv, hl⟩ := hp
    obtain ⟨fuel, rfl⟩ : ∃ f, fuel = f + 1 := ⟨fuel - 1, by simp at hfuel; omega⟩
    obtain ⟨a, x⟩ := x
    obtain rfl : bucketVal b = x := hv
    have hhit : (if b.key = key then (cb.hashCmpKey b.data d).map (· != 0) else some false) =
        some (q (bucketVal b)) := hq (a, bucketVal b) (by simp)
    have hstep : searchChain cb m key d (fuel + 1) prev (some a) =
        if q (bucketVal b) = true then some (some (prev, a, b))
        else searchChain cb m key d fuel (some a) b.next := by
      by_cases hk : b.key = key
      · rw [if_pos hk] at hhit
        simp [searchChain, hb, hk, hhit]
      · rw [if_neg hk] at hhit
        simp [searchChain, hb, hk, ← Option.some.inj hhit]
    rw [hstep]
    cases hqb : q (bucketVal b) with
    | true => exact .inr ⟨[], a, bucketVal b, l, b, rfl, hqb, hb, rfl, rfl⟩
    | false =>
      rw [if_neg Bool.false_ne_true]
      cases ih (some a) hl (by simpa using hfuel) fun y hy => hq y (by simp [hy]) with
      | inl hnone =>
        refine .inl ⟨?_, hnone.2⟩
        intro y hy
        cases hy with
        | head => exact hqb
        | tail _ hy => exact hnone.1 y hy
      | inr hsome =>
        obtain ⟨l₁, a', x', l₂, b', rfl, hrest⟩ := hsome
        exact .inr ⟨(a, bucketVal b) :: l₁, a', x', l₂, b', rfl, hrest⟩

open Classical in
theorem searchChain_spec {cb : Callbacks δ} {k : δ → Nat} {s : Setoid δ} {live : δ → Prop}
    (hr : Reads cb k s live) {m : Store (HashBucket δ)} {d : δ} (hd : live d) {l : List (Cell δ)}
    {p : Option Nat} {fuel : Nat} (prev : Option Nat) (hp : BucketChain m p l) (hfuel : l.length ≤ fuel)
    (hkey : ∀ x ∈ l, x.2.1 = k x.2.2) (hlive : ∀ x ∈ l, live x.2.2) :
    ((∀ x ∈ l, ¬ s x.2.2 d) ∧ searchChain cb m (k d) d fuel prev p = some none) ∨
    (∃ l₁ a x l₂ b, l = l₁ ++ (a, x) :: l₂ ∧ s x.2 d ∧ m.lookup a = some b ∧ bucketVal b = x ∧
      searchChain cb m (k d) d fuel prev p = some (some (lastAddr prev l₁, a, b))) := by
  have hhit : ∀ x ∈ l, (if x.2.1 = k d then (cb.hashCmpKey x.2.2 d).map (· != 0) else some false) =
      some (decide (s x.2.2 d)) := by
    intro x hx
    obtain ⟨r, hcmp, hs⟩ := hr.cmp x.2.2 d (hlive x hx) hd
    by_cases hit : s x.2.2 d
    · rw [hkey x hx, if_pos (hr.resp _ _ hit), hcmp]
      simp [hit, hs.mpr hit]
    · have hz : r = 0 := by
        by_contra hne
        exact hit (hs.mp hne)
      split <;> simp [hcmp, hz, hit]
  simpa using searchChain_first cb (k d) d (fun x => decide (s x.2 d)) prev hp hfuel hhit

/-- The chain of a key, and its head. -/
theorem Table.chainOf_focus {k : δ → Nat} {h : Hash δ} {cs : List (List (Cell δ))} (ht : Table k h cs)
    (key : Nat) :
    ∃ I₁ head I₂ C₁ c C₂, cs = C₁ ++ c :: C₂ ∧ Focus h (key % h.size) I₁ head I₂ C₁ c C₂ ∧
      chainOf h key = some (key % h.size, head) ∧ cs[key % h.size]? = some c := by
  have hpos := ht.pos
  have hi : key % h.size < h.size := Nat.mod_lt _ (by omega)
  obtain ⟨I₁, head, I₂, C₁, c, C₂, rfl, hf⟩ := ht.focus hi
  have hget : h.index[key % h.size]? = some head := by
    rw [hf.index, List.getElem?_append_right (by rw [hf.left_length]), hf.left_length, Nat.sub_self,
      List.getElem?_cons_zero]
  have hc : (C₁ ++ c :: C₂)[key % h.size]? = some c := by
    rw [List.getElem?_append_right (by rw [hf.length]), hf.length, Nat.sub_self,
      List.getElem?_cons_zero]
  have hz : h.size ≠ 0 := by omega
  exact ⟨I₁, head, I₂, C₁, c, C₂, rfl, hf, by simp [chainOf, hz, hget], hc⟩

/-- The class of `d` is kept in chain `k d % size` or nowhere, and the walk tells which. -/
theorem Table.locate {cb : Callbacks δ} {k : δ → Nat} {s : Setoid δ} {live : δ → Prop} {h : Hash δ}
    {cs : List (List (Cell δ))} (ht : Table k h cs) (hr : Reads cb k s live)
    (hlive : ∀ x ∈ stored cs, live x) {d : δ} (hd : live d) :
    ∃ I₁ head I₂ C₁ c C₂, cs = C₁ ++ c :: C₂ ∧ Focus h (k d % h.size) I₁ head I₂ C₁ c C₂ ∧
      chainOf h (k d) = some (k d % h.size, head) ∧
      (((∀ x ∈ stored cs, ¬ s x d) ∧
        searchChain cb h.buckets (k d) d h.buckets.entries.length head head = some none) ∨
       (∃ l₁ a x l₂ b, c = l₁ ++ (a, x) :: l₂ ∧ s x.2 d ∧ h.buckets.lookup a = some b ∧
        bucketVal b = x ∧ searchChain cb h.buckets (k d) d h.buckets.entries.length head head =
          some (some (lastAddr head l₁, a, b)))) := by
  obtain ⟨I₁, head, I₂, C₁, c, C₂, rfl, hf, hchain, hc⟩ := ht.chainOf_focus (k d)
  refine ⟨I₁, head, I₂, C₁, c, C₂, rfl, hf, hchain, ?_⟩
  have hmem : ∀ x ∈ c, x.2.2 ∈ stored (C₁ ++ c :: C₂) := by
    intro x hx
    simp only [stored, List.mem_map]
    exact ⟨x, by simp [hx], rfl⟩
  cases searchChain_spec hr hd head hf.chain ht.chain_length (fun x hx => (ht.place _ _ hc x hx).1)
    (fun x hx => hlive _ (hmem x hx)) with
  | inl hnone =>
    refine .inl ⟨?_, hnone.2⟩
    intro x hx hxd
    -- a datum of the class hashes to this very chain
    obtain ⟨y, hy, rfl⟩ := List.mem_map.mp hx
    obtain ⟨c', hc', hyc'⟩ := List.mem_flatten.mp hy
    obtain ⟨j, hj⟩ := List.getElem?_of_mem hc'
    obtain ⟨hyk, hyj⟩ := ht.place j c' hj y hyc'
    have hji : j = k d % h.size := by rw [← hyj, hyk, hr.resp _ _ hxd]
    rw [hji, hc] at hj
    cases hj
    exact hnone.1 y hyc' hxd
  | inr hfound => exact .inr hfound

end Xhash
end Xlibc
