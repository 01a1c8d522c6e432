import Xlibc.Xhash.Ops

/-!
# Xlibc.Xhash.Walk

The walks over a whole table. Their counter is an `int`, so they are specified for tables whose size
is an `int`; past that they have no result.

* `hashIterate_spec`, `hashTraverse_spec` : every bucket, every datum, in the order of the chains.
* `hashFind_eq`, `hashFind_spec` : the first datum the callback answers for.
* `hashClean_spec`  : every datum is freed and the table is empty.
* `hashTraverse_overflow` : no result on a larger table.
-/

namespace Xlibc
namespace Xhash

variable {δ ρ : Type} {k : δ → Nat} {h : Hash δ} {cs : List (List (Cell δ))}

/-- Buckets with the keys and data of some cells have their data. -/
theorem data_of_vals {bs : List (HashBucket δ)} {l : List (Cell δ)}
    (h : bs.map bucketVal = l.map Prod.snd) : bs.map (·.data) = l.map (·.2.2) := by
  have hsnd := congrArg (List.map Prod.snd) h
  rw [List.map_map, List.map_map] at hsnd
  exact hsnd

theorem walkChain_spec {m : Store (HashBucket δ)} {l : List (Cell δ)} :
    ∀ {p : Option Nat} {fuel : Nat}, BucketChain m p l → l.length ≤ fuel →
      ∃ bs, walkChain m fuel p = some bs ∧ bs.map bucketVal = l.map Prod.snd := by
  induction l with
  | nil =>
    rintro p fuel rfl -
    exact ⟨[], by cases fuel <;> rfl, rfl⟩
  | cons x l ih =>
    rintro p fuel ⟨rfl, b, hb, hv, hl⟩ hfuel
    obtain ⟨fuel, rfl⟩ : ∃ f, fuel = f + 1 := ⟨fuel - 1, by simp at hfuel; omega⟩
    obtain ⟨bs, hrun, hbs⟩ := ih hl (by simpa using hfuel)
    exact ⟨b :: bs, by simp [walkChain, hb, hrun], by rw [List.map_cons, List.map_cons, hv, hbs]⟩

/-- The chain at a place, with fuel to walk it. -/
theorem Table.chain_at (ht : Table k h cs) {i : Nat} (hi : i < h.size) :
    ∃ head c, h.index[i]? = some head ∧ cs[i]? = some c ∧ BucketChain h.buckets head c ∧
      c.length ≤ h.buckets.entries.length := by
  obtain ⟨I₁, head, I₂, C₁, c, C₂, rfl, hf⟩ := ht.focus hi
  refine ⟨head, c, ?_, ?_, hf.chain, ht.chain_length⟩
  · rw [hf.index, List.getElem?_append_right (by rw [hf.left_length]), hf.left_length, Nat.sub_self,
      List.getElem?_cons_zero]
  · rw [List.getElem?_append_right (by rw [hf.length]), hf.length, Nat.sub_self,
      List.getElem?_cons_zero]

theorem take_succ_flatten {i : Nat} {c : List (Cell δ)} (hc : cs[i]? = some c) :
    (cs.take (i + 1)).flatten = (cs.take i).flatten ++ c := by
  simp [List.take_add_one, hc]

theorem hashIterate_spec (ht : Table k h cs) (hsize : h.size ≤ intMax) :
    ∃ bs, hashIterate h = some bs ∧ bs.map bucketVal = cs.flatten.map Prod.snd := by
  obtain ⟨bs, hrun, hbs⟩ := forInt_invariant
    (fun i seen => do
      let head ← h.index[i]?
      let bs ← walkChain h.buckets h.buckets.entries.length head
      some (seen ++ bs))
    (fun i bs => bs.map bucketVal = (cs.take i).flatten.map Prod.snd) 0 h.size (s := [])
    (by omega) (by simp) fun i seen _ hi hseen => by
        obtain ⟨head, c, hget, hc, hchain, hlen⟩ := ht.chain_at (i := i) (by omega)
        obtain ⟨bs, hrun, hbs⟩ := walkChain_spec hchain hlen
        exact ⟨seen ++ bs, by simp [hget, hrun], by
          rw [take_succ_flatten hc, List.map_append, List.map_append, hseen, hbs]⟩
  refine ⟨bs, hrun, ?_⟩
  rw [hbs, Nat.zero_add, ← ht.size, List.take_length]

theorem hashTraverse_spec {cb : Callbacks δ} (ht : Table k h cs) (hsize : h.size ≤ intMax)
    (hcb : cb.hashTraverse = true) : hashTraverse cb h = some (stored cs) := by
  obtain ⟨ds, hrun, hds⟩ := forInt_invariant
    (fun i seen => do
      let head ← h.index[i]?
      let bs ← walkChain h.buckets h.buckets.entries.length head
      some (seen ++ bs.map (·.data)))
    (fun i ds => ds = stored (cs.take i)) 0 h.size (s := [])
    (by omega) (by simp [stored]) fun i seen _ hi hseen => by
        obtain ⟨head, c, hget, hc, hchain, hlen⟩ := ht.chain_at (i := i) (by omega)
        obtain ⟨bs, hrun, hbs⟩ := walkChain_spec hchain hlen
        have hdata : bs.map (·.data) = chainData c := data_of_vals hbs
        exact ⟨seen ++ bs.map (·.data), by simp [hget, hrun], by
          rw [hseen, hdata, stored, stored, take_succ_flatten hc, List.map_append, chainData]⟩
  rw [Nat.zero_add, ← ht.size, List.take_length] at hds
  rw [hashTraverse, hcb, if_neg (by simp), hrun, hds]

theorem hashTraverse_overflow {cb : Callbacks δ} (hcb : cb.hashTraverse = true)
    (hsize : intMax < h.size) : hashTraverse cb h = none := by
  rw [hashTraverse, hcb, if_neg (by simp)]
  exact forInt_overflow (Nat.zero_le _) (by omega)

/-! ## hash_find -/

/-- The first answer of a callback along a list. -/
def firstAnswer {α : Type} (f : α → Option (Option ρ)) : List α → Option (Option ρ)
  | [] => some none
  | x :: l => do
    match ← f x with
    | some r => some (some r)
    | none => firstAnswer f l

theorem firstAnswer_total {α : Type} {f : α → Option (Option ρ)} {g : α → Option ρ} {l : List α}
    (hf : ∀ x ∈ l, f x = some (g x)) : firstAnswer f l = some (l.findSome? g) := by
  induction l with
  | nil => rfl
  | cons x l ih =>
    have hx := hf x (by simp)
    have hl := ih fun y hy => hf y (by simp [hy])
    cases hg : g x with
    | some r => simp [firstAnswer, hx, hg]
    | none => simp [firstAnswer, hx, hg, hl]

theorem firstAnswer_fault {α : Type} {f : α → Option (Option ρ)} {l : List α} (hne : l ≠ [])
    (hf : ∀ x ∈ l, f x = none) : firstAnswer f l = none := by
  cases l with
  | nil => exact absurd rfl hne
  | cons x l => simp [firstAnswer, hf x (by simp)]

theorem firstAnswer_some {α : Type} {f : α → Option (Option ρ)} {l : List α} {r : Option ρ}
    (h : firstAnswer f l = some r) :
    (r = none ∧ ∀ x ∈ l, f x = some none) ∨ ∃ x ∈ l, ∃ v, r = some v ∧ f x = some (some v) := by
  induction l with
  | nil =>
    cases h
    exact .inl ⟨rfl, by simp⟩
  | cons x l ih =>
    cases hx : f x with
    | none => simp [firstAnswer, hx] at h
    | some a =>
      cases a with
      | some v =>
        have hr : some v = r := by simpa [firstAnswer, hx] using h
        exact .inr ⟨x, by simp, v, hr.symm, hx⟩
      | none =>
        have hrest : firstAnswer f l = some r := by simpa [firstAnswer, hx] using h
        rcases ih hrest with ⟨hr, hall⟩ | ⟨y, hy, v, hr, hv⟩
        · refine .inl ⟨hr, ?_⟩
          intro y hy
          rcases List.mem_cons.mp hy with rfl | hy
          · exact hx
          · exact hall y hy
        · exact .inr ⟨y, List.mem_cons_of_mem x hy, v, hr, hv⟩

theorem firstAnswer_append {α : Type} (f : α → Option (Option ρ)) (l l' : List α) :
    firstAnswer f (l ++ l') = (firstAnswer f l).bind fun r =>
      match r with
      | some r => some (some r)
      | none => firstAnswer f l' := by
  induction l with
  | nil => rfl
  | cons x l ih =>
    cases hx : f x with
    | none => simp [firstAnswer, hx]
    | some r =>
      cases r with
      | some r => simp [firstAnswer, hx]
      | none => simpa [firstAnswer, hx] using ih

theorem findChain_spec (f : δ → Option (Option ρ)) {m : Store (HashBucket δ)} {l : List (Cell δ)} :
    ∀ {p : Option Nat} {fuel : Nat}, BucketChain m p l → l.length ≤ fuel →
      findChain f m fuel p = firstAnswer f (chainData l) := by
  induction l with
  | nil =>
    rintro p fuel rfl -
    cases fuel <;> rfl
  | cons x l ih =>
    rintro p fuel ⟨rfl, b, hb, hv, hl⟩ hfuel
    obtain ⟨fuel, rfl⟩ : ∃ n, fuel = n + 1 := ⟨fuel - 1, by simp at hfuel; omega⟩
    obtain ⟨a, x⟩ := x
    obtain rfl : bucketVal b = x := hv
    have hrest := ih hl (by simpa using hfuel)
    have hcd : chainData ((a, bucketVal b) :: l) = b.data :: chainData l := rfl
    rw [hcd]
    cases hf : f b.data with
    | none => simp [findChain, firstAnswer, hb, hf]
    | some r =>
      cases r with
      | some r => simp [findChain, firstAnswer, hb, hf]
      | none => simpa [findChain, firstAnswer, hb, hf] using hrest

/-- A loop below `INT_MAX` that looks at the places of a list in turn. -/
theorem returnInt_list {α : Type} {body : Nat → Option (Option ρ)} {f : α → Option (Option ρ)} :
    ∀ (l : List α) (i : Nat), i + l.length ≤ intMax →
      (∀ j x, l[j]? = some x → body (i + j) = f x) → returnInt body i l.length = firstAnswer f l := by
  intro l
  induction l with
  | nil => intro i _ _; rfl
  | cons x l ih =>
    intro i hmax hbody
    have hx : body i = f x := hbody 0 x rfl
    rw [List.length_cons] at hmax
    have hi : i ≠ intMax := by omega
    have hrest := ih (i + 1) (by omega) fun j y hy => by
      rw [show i + 1 + j = i + (j + 1) by omega]; exact hbody (j + 1) y hy
    cases hf : f x with
    | none => simp [returnInt, firstAnswer, hx, hf]
    | some r =>
      cases r with
      | some r => simp [returnInt, firstAnswer, hx, hf]
      | none => simpa [returnInt, firstAnswer, hx, hf, hi] using hrest

theorem firstAnswer_flatten (f : δ → Option (Option ρ)) (cs : List (List (Cell δ))) :
    firstAnswer (fun c => firstAnswer f (chainData c)) cs = firstAnswer f (stored cs) := by
  induction cs with
  | nil => rfl
  | cons c cs ih =>
    have hst : stored (c :: cs) = chainData c ++ stored cs := by simp [stored, chainData]
    rw [hst, firstAnswer_append, ← ih]
    rfl

theorem hashFind_eq (f : δ → Option (Option ρ)) (ht : Table k h cs) (hsize : h.size ≤ intMax) :
    hashFind (some f) h = firstAnswer f (stored cs) := by
  rw [hashFind, ← ht.size, ← firstAnswer_flatten]
  refine returnInt_list cs 0 (by rw [ht.size]; omega) fun i c hc => ?_
  have hi : i < h.size := by
    rw [← ht.size]
    exact (List.getElem?_eq_some_iff.mp hc).1
  obtain ⟨head, c', hget, hc', hchain, hlen⟩ := ht.chain_at hi
  obtain rfl : c = c' := Option.some.inj (hc.symm.trans hc')
  rw [Nat.zero_add, hget]
  exact findChain_spec f hchain hlen

theorem hashFind_spec {f : δ → Option (Option ρ)} {g : δ → Option ρ} (ht : Table k h cs)
    (hsize : h.size ≤ intMax) (hf : ∀ x ∈ stored cs, f x = some (g x)) :
    hashFind (some f) h = some ((stored cs).findSome? g) := by
  rw [hashFind_eq f ht hsize, firstAnswer_total hf]

/-! ## hash_clean -/

theorem cleanChain_spec {l : List (Cell δ)} :
    ∀ {p : Option Nat} {fuel : Nat} (freed : List δ) {h : Hash δ} {rest : List Nat},
      BucketChain h.buckets p l → (addrs l).Nodup → h.buckets.keys.Perm (addrs l ++ rest) →
      l.length ≤ fuel →
      ∃ h', cleanChain fuel p (freed, h) = some (freed ++ chainData l, h') ∧ h'.index = h.index ∧
        h'.size = h.size ∧ h'.count = h.count - l.length ∧ h'.buckets.keys.Perm rest ∧
        ∀ a, a ∉ addrs l → h'.buckets.lookup a = h.buckets.lookup a := by
  induction l with
  | nil =>
    rintro p fuel freed h rest rfl - hperm -
    exact ⟨h, by cases fuel <;> simp [cleanChain, chainData], rfl, rfl, rfl, hperm, fun _ _ => rfl⟩
  | cons x l ih =>
    rintro p fuel freed h rest ⟨rfl, b, hb, hv, hl⟩ hnd hperm hfuel
    obtain ⟨fuel, rfl⟩ : ∃ n, fuel = n + 1 := ⟨fuel - 1, by simp at hfuel; omega⟩
    obtain ⟨a, x⟩ := x
    obtain rfl : bucketVal b = x := hv
    obtain ⟨hal, hnd'⟩ := List.nodup_cons.mp hnd
    obtain ⟨h', hrun, hidx, hsz, hct, hkeys, hframe⟩ := ih (p := b.next) (freed ++ [b.data])
      (h := { h with buckets := h.buckets.erase a, count := h.count - 1 })
      (hl.frame_erase hal) hnd' (keys_erase_perm hperm) (by simpa using hfuel)
    refine ⟨h', ?_, hidx, hsz, ?_, hkeys, fun q hq => ?_⟩
    · simp only [cleanChain, hb, Option.bind_eq_bind, Option.bind_some, hrun]
      simp [chainData, bucketVal]
    · rw [hct, List.length_cons]
      show h.count - 1 - l.length = _
      omega
    · rw [addrs_cons, List.mem_cons, not_or] at hq
      rw [hframe q hq.2]
      exact AList.lookup_erase_ne hq.1

/-- One round of `hash_clean`: chain `i` is the first of those left, and goes. -/
theorem cleanRound_spec (freed : List δ) {i : Nat} (hi : i < cs.length)
    (ht : Table k h (List.replicate i [] ++ cs.drop i)) :
    ∃ head h', h.index[i]? = some head ∧
      cleanChain h.buckets.entries.length head (freed, h) = some (freed ++ chainData cs[i], h') ∧
      h'.size = h.size ∧
      Table k { h' with index := h'.index.set i none } (List.replicate (i + 1) [] ++ cs.drop (i + 1)) := by
  rw [List.drop_eq_getElem_cons hi] at ht
  have hsz : i < h.size := by
    rw [← ht.size]
    simp
    omega
  obtain ⟨I₁, head, I₂, C₁, c, C₂, heq, hf⟩ := ht.focus hsz
  obtain ⟨rfl, htail⟩ := List.append_inj heq (by rw [List.length_replicate, hf.length])
  obtain ⟨rfl, rfl⟩ := List.cons.inj htail
  have hflat : ∀ c : List (Cell δ), (List.replicate i [] ++ c :: cs.drop (i + 1)).flatten =
      c ++ (cs.drop (i + 1)).flatten := by simp
  have hnd := ht.nodup
  have hkeys := ht.keys.symm
  rw [hflat, addrs_append] at hnd hkeys
  obtain ⟨hnd1, -, hdisj⟩ := List.nodup_append.mp hnd
  obtain ⟨h', hrun, hidx, hsz', hct, hkeys', hframe⟩ := cleanChain_spec freed hf.chain hnd1
    hkeys ht.chain_length
  refine ⟨head, h', ?_, hrun, hsz', ?_⟩
  · rw [hf.index, List.getElem?_append_right (by rw [hf.left_length]), hf.left_length, Nat.sub_self,
      List.getElem?_cons_zero]
  · have hother : ∀ q, q ∈ addrs (List.replicate i ([] : List (Cell δ))).flatten ∨
        q ∈ addrs (cs.drop (i + 1)).flatten → h'.buckets.lookup q = h.buckets.lookup q := by
      intro q hq
      rcases hq with hq | hq
      · simp at hq
      · exact hframe q fun hmem => hdisj q hmem q hq rfl
    have hcount : h'.count = (List.replicate i [] ++ ([] : List (Cell δ)) :: cs.drop (i + 1)).flatten.length := by
      rw [hct, ht.count, hflat, hflat]
      simp
    have hidx' : h'.index.set i none = I₁ ++ none :: I₂ := by rw [hidx]; exact hf.set_index none
    have htab : Table k { h' with index := h'.index.set i none }
        (List.replicate i [] ++ [] :: cs.drop (i + 1)) :=
          ht.update hf hidx' hsz' rfl hother (by rw [hflat]; exact hkeys'.symm) (by simp) hcount
    rw [List.replicate_succ', List.append_assoc]
    exact htab

theorem hashClean_spec (cb : Callbacks δ) (ht : Table k h cs) (hsize : h.size ≤ intMax)
    (hcb : cb.hashFreeData = true) :
    ∃ h', hashClean cb h = some (stored cs, h') ∧ h'.size = h.size ∧
      Table k h' (List.replicate h.size []) := by
  -- after `i` rounds the first `i` chains are empty and their data freed
  obtain ⟨⟨freed, h'⟩, hrun, hfreed, hsz, ht'⟩ := forInt_invariant
    (fun i s => (s.2.index[i]?).bind fun head =>
      (cleanChain s.2.buckets.entries.length head s).bind fun s =>
        some (s.1, { s.2 with index := s.2.index.set i none }))
    (fun i (s : List δ × Hash δ) => s.1 = stored (cs.take i) ∧ s.2.size = h.size ∧
      Table k s.2 (List.replicate i [] ++ cs.drop i)) 0 h.size (s := ([], h))
    (by omega) ⟨by simp [stored], rfl, by simpa using ht⟩ (by
      rintro i ⟨freed, h1⟩ - hi ⟨rfl, hsz, ht1⟩
      have hic : i < cs.length := by rw [ht.size]; omega
      obtain ⟨head, h2, hget, hrun, hsz2, ht2⟩ := cleanRound_spec (stored (cs.take i)) hic ht1
      refine ⟨_, by simp [hget, hrun]; rfl, ?_, hsz2.trans hsz, ht2⟩
      simp [stored, chainData, take_succ_flatten (List.getElem?_eq_getElem hic)])
  rw [Nat.zero_add] at hfreed ht'
  rw [← ht.size, List.take_length] at hfreed
  rw [← ht.size, List.drop_length, List.append_nil] at ht'
  obtain rfl : freed = stored cs := hfreed
  refine ⟨h', ?_, hsz, by rw [← ht.size]; exact ht'⟩
  rw [hashClean, hcb, if_neg (by simp)]
  exact hrun

end Xhash
end Xlibc
