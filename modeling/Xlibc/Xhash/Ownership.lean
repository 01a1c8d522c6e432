import Xlibc.Xhash.Correct

/-!
# Xlibc.Xhash.Ownership

Who owns the pointers that are given to `hash_set`. Nothing is assumed of the callbacks but that they
return: what they answer may differ from call to call, and `hash_cmp_key` need not be an equivalence.

* `seek` : the bucket that a call finds, if it finds one.
* `set_parts`, `remove_parts` : what a call does to the data in the buckets.
* `hash_owns_iff` : in every run the data in the buckets, the data freed and the data handed back
  together are the data given, each exactly once.
-/

namespace Xlibc
namespace Xhash

variable {δ : Type}

inductive OwnOp (δ : Type) where
  | set (d : δ)
  | delete (d : δ)
  | release (d : δ)
  | clean
  | destroy

/-- A call, with what the callbacks answer during it. -/
structure OwnCall (δ : Type) where
  op : OwnOp δ
  key : δ → Nat
  cmpKey : δ → δ → Int
  cmpOther : δ → δ → Int

def OwnCall.callbacks (e : OwnCall δ) : Callbacks δ := given e.key e.cmpKey e.cmpOther

@[simp] theorem OwnCall.hashKey (e : OwnCall δ) (d : δ) : e.callbacks.hashKey d = some (e.key d) := rfl

@[simp] theorem OwnCall.hashCmpKey (e : OwnCall δ) (a b : δ) :
    e.callbacks.hashCmpKey a b = some (e.cmpKey a b) := rfl

@[simp] theorem OwnCall.hashCmpOther (e : OwnCall δ) (a b : δ) :
    e.callbacks.hashCmpOther a b = some (e.cmpOther a b) := rfl

@[simp] theorem OwnCall.hashFreeData (e : OwnCall δ) : e.callbacks.hashFreeData = true := rfl

/-- The table until it is destroyed, and the pointers given to `hash_set`, passed to `hash_free_data`
and handed back by `hash_release` so far. -/
structure Owner (δ : Type) where
  table : Option (Hash δ)
  given : List δ
  freed : List δ
  handed : List δ

namespace Owner

def create (size : Nat) : Owner δ :=
  { table := some (hashCreateSize size), given := [], freed := [], handed := [] }

/-- The data in the buckets. -/
def stored (s : Owner δ) : List δ :=
  match s.table with
  | none => []
  | some h => h.buckets.entries.map fun e => e.2.data

/-- A pointer is given once, and there is no call after `hash_destroy`. -/
def Permitted (s : Owner δ) (e : OwnCall δ) : Prop :=
  s.table.isSome ∧ ∀ d, e.op = .set d → d ∉ s.given

def call (fresh : Nat) (s : Owner δ) (e : OwnCall δ) : Option (Owner δ) := do
  let h ← s.table
  match e.op with
  | .set d => do
    let (_, freed, h') ← hashSet e.callbacks fresh h (some d)
    some { s with table := some h', given := s.given ++ [d], freed := s.freed ++ freed }
  | .delete d => do
    let (_, freed, h') ← hashDelete e.callbacks h d
    some { s with table := some h', freed := s.freed ++ freed }
  | .release d => do
    let (r, h') ← hashRelease e.callbacks h d
    some { s with table := some h', handed := s.handed ++ r.toList }
  | .clean => do
    let (freed, h') ← hashClean e.callbacks h
    some { s with table := some h', freed := s.freed ++ freed }
  | .destroy => do
    let freed ← hashDestroy e.callbacks h
    some { s with table := none, freed := s.freed ++ freed }

/-- `malloc` returns an address that is not in use. -/
def Fresh (s : Owner δ) (fresh : Nat) : Prop := ∀ h, s.table = some h → h.buckets.lookup fresh = none

def Step (s : Owner δ) (e : OwnCall δ) (s' : Owner δ) : Prop :=
  s.Permitted e ∧ ∃ fresh, s.Fresh fresh ∧ s.call fresh e = some s'

end Owner

/-- Every pointer given is stored in one bucket, or freed once, or handed back. -/
structure Owned (s : Owner δ) : Prop where
  once : s.given.Nodup
  parts : (s.stored ++ s.freed ++ s.handed).Perm s.given

/-- In every run the pointers are owned, and no call faults. -/
def Owns (δ : Type) (size : Nat) : Prop :=
  ∀ (es : List (OwnCall δ)) (s : Owner δ), Run Owner.Step (Owner.create size) es s →
    Owned s ∧ ∀ e fresh, s.Permitted e → s.Fresh fresh → ∃ s', s.call fresh e = some s'

/-! ## One call -/

section Call

variable {k : δ → Nat} {h : Hash δ} {cs : List (List (Cell δ))}

theorem Table.lookup_cell (ht : Table k h cs) {x : Cell δ} (hx : x ∈ cs.flatten) :
    ∃ b, h.buckets.lookup x.1 = some b ∧ bucketVal b = x.2 := by
  have hkey : x.1 ∈ h.buckets.keys := ht.mem_keys.mpr (List.mem_map.mpr ⟨x, hx, rfl⟩)
  obtain ⟨b, hb⟩ := Option.isSome_iff_exists.mp (AList.lookup_isSome.mpr hkey)
  have hcell : (x.1, bucketVal b) = x :=
    List.inj_on_of_nodup_map ht.nodup (ht.cell_of_lookup hb) hx rfl
  exact ⟨b, hb, congrArg Prod.snd hcell⟩

/-- The buckets hold the data of the chains. -/
theorem Table.stored_perm (ht : Table k h cs) :
    (h.buckets.entries.map fun e => e.2.data).Perm (stored cs) := by
  have hentries : (h.buckets.entries.map fun e => e.2.data) =
      h.buckets.keys.filterMap fun a => (h.buckets.lookup a).map (·.data) := by
    rw [AList.keys, List.keys, List.filterMap_map, ← List.filterMap_eq_map]
    refine List.filterMap_congr ?_
    intro e he
    have hlook : h.buckets.lookup e.1 = some e.2 := List.mem_dlookup h.buckets.nodupKeys he
    simp [hlook]
  have hcells : stored cs = (addrs cs.flatten).filterMap fun a => (h.buckets.lookup a).map (·.data) := by
    rw [stored, addrs, List.filterMap_map, ← List.filterMap_eq_map]
    refine List.filterMap_congr ?_
    intro x hx
    obtain ⟨b, hb, hv⟩ := ht.lookup_cell hx
    simp [hb, ← hv, bucketVal]
  rw [hentries, hcells]
  exact ht.keys.symm.filterMap _

/-- The chain that a call walks, and the bucket at which it stops. -/
theorem Table.seek (ht : Table k h cs) (key : Nat) (d : δ) (e : OwnCall δ) :
    ∃ I₁ head I₂ C₁ c C₂, cs = C₁ ++ c :: C₂ ∧ Focus h (key % h.size) I₁ head I₂ C₁ c C₂ ∧
      chainOf h key = some (key % h.size, head) ∧
      (searchChain e.callbacks h.buckets key d h.buckets.entries.length head head = some none ∨
       ∃ l₁ a x l₂ b, c = l₁ ++ (a, x) :: l₂ ∧ x.1 = key ∧ h.buckets.lookup a = some b ∧
        bucketVal b = x ∧
        searchChain e.callbacks h.buckets key d h.buckets.entries.length head head =
          some (some (lastAddr head l₁, a, b))) := by
  obtain ⟨I₁, head, I₂, C₁, c, C₂, rfl, hf, hchain, -⟩ := ht.chainOf_focus key
  refine ⟨I₁, head, I₂, C₁, c, C₂, rfl, hf, hchain, ?_⟩
  have hhit : ∀ x ∈ c, (if x.2.1 = key then (e.callbacks.hashCmpKey x.2.2 d).map (· != 0) else some false) =
      some (decide (x.2.1 = key) && (e.cmpKey x.2.2 d != 0)) := by
    intro x _
    by_cases hk : x.2.1 = key <;> simp [hk]
  cases searchChain_first e.callbacks key d (fun x => decide (x.1 = key) && (e.cmpKey x.2 d != 0)) head
    hf.chain ht.chain_length hhit with
  | inl hnone => exact .inl hnone.2
  | inr hsome =>
    obtain ⟨l₁, a, x, l₂, b, hc, hq, hb, hx, hrun⟩ := hsome
    have hkey : x.1 = key := by
      rw [Bool.and_eq_true, decide_eq_true_eq] at hq
      exact hq.1
    exact .inr ⟨l₁, a, x, l₂, b, hc, hkey, hb, hx, hrun⟩

/-- `hash_set` of a new pointer: it is stored or freed, and so is the datum in whose place it comes. -/
theorem set_parts (ht : Table k h cs) (e : OwnCall δ) {fresh : Nat}
    (hfresh : h.buckets.lookup fresh = none) {d : δ} (hd : d ∉ stored cs) :
    ∃ r freed h' k' cs', hashSet e.callbacks fresh h (some d) = some (r, freed, h') ∧
      h'.size = h.size ∧ Table k' h' cs' ∧ (stored cs' ++ freed).Perm (d :: stored cs) := by
  classical
  -- the key of `d` is what `hash_key` answers now
  have ht' : Table (Function.update k d (e.key d)) h cs := by
    refine ht.congr ?_
    intro x hx
    have hne : x ≠ d := fun heq => hd (by rw [← heq]; exact hx)
    exact Function.update_of_ne hne _ _
  have hkey : Function.update k d (e.key d) d = e.key d := Function.update_self _ _ _
  obtain ⟨I₁, head, I₂, C₁, c, C₂, rfl, hf, hchain, hcase⟩ := ht'.seek (e.key d) d e
  cases hcase with
  | inl hrun =>
    have htab := ht'.push hf hfresh (d := d) ⟨hkey.symm, rfl⟩
    refine ⟨some d, [], _, _, _, ?_, ?_, htab, ?_⟩
    · simp [hashSet, hchain, hrun]
    · rfl
    · rw [stored_middle, stored_middle, List.append_nil]
      exact List.perm_middle
  | inr hfound =>
    obtain ⟨l₁, a, x, l₂, b, rfl, hxk, hb, rfl, hrun⟩ := hfound
    by_cases hother : e.cmpOther b.data d = 0
    · have hcell := hf.place ht' (a, bucketVal b) (by simp)
      have hsame : Function.update k d (e.key d) d = Function.update k d (e.key d) (bucketVal b).2 := by
        rw [hkey, ← hcell.1]
        exact hxk.symm
      have htab := ht'.swap hf hb rfl hsame
      refine ⟨some d, [b.data], _, _, _, ?_, ?_, htab, ?_⟩
      · simp [hashSet, hchain, hrun, hother]
      · rfl
      · rw [stored_cell, stored_cell, List.append_assoc, List.cons_append]
        refine List.perm_middle.trans (List.Perm.cons d ?_)
        rw [← List.append_assoc]
        exact (List.perm_append_singleton _ _).trans List.perm_middle.symm
    · exact ⟨some b.data, [d], h, _, _, by simp [hashSet, hchain, hrun, hother], rfl, ht',
        List.perm_append_singleton _ _⟩

/-- Taking a bucket out of its chain: its datum is stored no more. -/
theorem remove_parts (ht : Table k h cs) (e : OwnCall δ) (d : δ) :
    ∃ head, chainOf h (e.key d) = some (e.key d % h.size, head) ∧
      (searchChain e.callbacks h.buckets (e.key d) d h.buckets.entries.length head head = some none ∨
       ∃ prev p b h' cs',
        searchChain e.callbacks h.buckets (e.key d) d h.buckets.entries.length head head =
          some (some (prev, p, b)) ∧
        unlinkBucket h (e.key d % h.size) prev p b = some h' ∧ h'.size = h.size ∧ Table k h' cs' ∧
        (stored cs).Perm (b.data :: stored cs')) := by
  obtain ⟨I₁, head, I₂, C₁, c, C₂, rfl, hf, hchain, hcase⟩ := ht.seek (e.key d) d e
  refine ⟨head, hchain, ?_⟩
  cases hcase with
  | inl hrun => exact .inl hrun
  | inr hfound =>
    obtain ⟨l₁, a, x, l₂, b, rfl, -, hb, rfl, hrun⟩ := hfound
    obtain ⟨h', hunlink, hsize, ht'⟩ := unlinkBucket_spec ht hf hb
    refine .inr ⟨_, a, b, h', _, hrun, hunlink, hsize, ht', ?_⟩
    rw [stored_cell, stored_cut]
    exact List.perm_middle

end Call

/-! ## Runs -/

/-- What a call moves out of the table goes to the end of a log. -/
theorem perm_moved {st freed handed given : List δ} (st' f r new : List δ)
    (hcall : (st' ++ f ++ r).Perm (new ++ st)) (h : (st ++ freed ++ handed).Perm given) :
    (st' ++ (freed ++ f) ++ (handed ++ r)).Perm (given ++ new) := by
  classical
  rw [List.perm_iff_count] at hcall h ⊢
  intro a
  have h1 := hcall a
  have h2 := h a
  simp only [List.count_append] at h1 h2 ⊢
  omega

/-- The invariant: the data in the chains, and the two logs, are the pointers given. -/
structure OwnInv (size : Nat) (s : Owner δ) : Prop where
  once : s.given.Nodup
  parts : ∀ h, s.table = some h → h.size = size ∧
    ∃ k cs, Table k h cs ∧ (stored cs ++ s.freed ++ s.handed).Perm s.given
  gone : s.table = none → (s.freed ++ s.handed).Perm s.given

theorem OwnInv.of_table {size : Nat} {s : Owner δ} {k : δ → Nat} {h : Hash δ} {cs : List (List (Cell δ))}
    (htab : s.table = some h) (hsize : h.size = size) (ht : Table k h cs) (honce : s.given.Nodup)
    (hperm : (Xhash.stored cs ++ s.freed ++ s.handed).Perm s.given) : OwnInv size s where
  once := honce
  parts h' hh := by
    rw [htab] at hh
    cases hh
    exact ⟨hsize, k, cs, ht, hperm⟩
  gone hnone := by
    rw [htab] at hnone
    cases hnone

theorem create_inv {size : Nat} (h1 : 1 ≤ size) : OwnInv size (Owner.create size : Owner δ) :=
  .of_table rfl rfl (hashCreateSize_table (fun _ => 0) h1) List.nodup_nil (by simp [Owner.create, stored])

theorem OwnInv.owned {size : Nat} {s : Owner δ} (h : OwnInv size s) : Owned s := by
  refine ⟨h.once, ?_⟩
  cases htab : s.table with
  | none =>
    rw [Owner.stored, htab]
    exact h.gone htab
  | some t =>
    obtain ⟨-, k, cs, ht, hperm⟩ := h.parts t htab
    rw [Owner.stored, htab]
    exact ((ht.stored_perm.append_right _).append_right _).trans hperm

/-- Every permitted call on a table whose size is an `int` returns, and keeps the invariant. -/
theorem call_inv {size : Nat} (hsize : size ≤ intMax) {s : Owner δ} (h : OwnInv size s) {e : OwnCall δ}
    {fresh : Nat} (hp : s.Permitted e) (hf : s.Fresh fresh) :
    ∃ s', s.call fresh e = some s' ∧ OwnInv size s' := by
  obtain ⟨t, htab⟩ := Option.isSome_iff_exists.mp hp.1
  obtain ⟨htsize, k, cs, ht, hperm⟩ := h.parts t htab
  cases hop : e.op with
  | set d =>
    have hnew : d ∉ s.given := hp.2 d hop
    have hd : d ∉ stored cs := fun hmem => hnew (hperm.mem_iff.mp (by simp [hmem]))
    obtain ⟨r, freed, t', k', cs', hrun, hsz, ht', hmove⟩ := set_parts ht e (hf t htab) hd
    have honce : (s.given ++ [d]).Nodup := h.once.append (List.nodup_singleton d) (by simpa using hnew)
    have hmoved := perm_moved _ _ [] [d] (by simpa using hmove) hperm
    refine ⟨_, by simp [Owner.call, htab, hop, hrun]; rfl, ?_⟩
    exact .of_table rfl (hsz.trans htsize) ht' honce (by simpa using hmoved)
  | delete d =>
    obtain ⟨head, hchain, hcase⟩ := remove_parts ht e d
    cases hcase with
    | inl hrun =>
      refine ⟨_, by simp [Owner.call, htab, hop, hashDelete, hchain, hrun]; rfl, ?_⟩
      exact .of_table rfl htsize ht h.once (by simpa using hperm)
    | inr hfound =>
      obtain ⟨prev, p, b, t', cs', hrun, hunlink, hsz, ht', hmove⟩ := hfound
      have hmoved := perm_moved _ [b.data] [] []
        (by simpa using (List.perm_append_singleton _ _).trans hmove.symm) hperm
      refine ⟨_, by simp [Owner.call, htab, hop, hashDelete, hchain, hrun, hunlink]; rfl, ?_⟩
      exact .of_table rfl (hsz.trans htsize) ht' h.once (by simpa using hmoved)
  | release d =>
    obtain ⟨head, hchain, hcase⟩ := remove_parts ht e d
    cases hcase with
    | inl hrun =>
      refine ⟨_, by simp [Owner.call, htab, hop, hashRelease, hchain, hrun]; rfl, ?_⟩
      exact .of_table rfl htsize ht h.once (by simpa using hperm)
    | inr hfound =>
      obtain ⟨prev, p, b, t', cs', hrun, hunlink, hsz, ht', hmove⟩ := hfound
      have hmoved := perm_moved _ [] [b.data] []
        (by simpa using (List.perm_append_singleton _ _).trans hmove.symm) hperm
      refine ⟨_, by simp [Owner.call, htab, hop, hashRelease, hchain, hrun, hunlink]; rfl, ?_⟩
      exact .of_table rfl (hsz.trans htsize) ht' h.once (by simpa using hmoved)
  | clean =>
    obtain ⟨t', hrun, hsz, ht'⟩ := hashClean_spec e.callbacks ht (by omega) rfl
    have hnil : stored (List.replicate t.size ([] : List (Cell δ))) = [] := by simp [stored]
    have hmoved := perm_moved [] (stored cs) [] [] (by simp) hperm
    refine ⟨_, by simp [Owner.call, htab, hop, hrun]; rfl, ?_⟩
    exact .of_table rfl (hsz.trans htsize) ht' h.once (by simpa [hnil] using hmoved)
  | destroy =>
    obtain ⟨t', hrun, -, -⟩ := hashClean_spec e.callbacks ht (by omega) rfl
    have hmoved := perm_moved [] (stored cs) [] [] (by simp) hperm
    refine ⟨_, by simp [Owner.call, htab, hop, hashDestroy, hrun]; rfl, ?_⟩
    refine ⟨h.once, ?_, ?_⟩
    · intro _ hsome
      cases hsome
    · intro _
      simpa using hmoved

theorem run_inv {size : Nat} (h1 : 1 ≤ size) (hsize : size ≤ intMax) {es : List (OwnCall δ)}
    {s : Owner δ} (hr : Run Owner.Step (Owner.create size) es s) : OwnInv size s := by
  induction hr with
  | nil => exact create_inv h1
  | snoc _ hs ih =>
    obtain ⟨hp, fresh, hf, hcall⟩ := hs
    obtain ⟨s', hcall', hinv⟩ := call_inv hsize ih hp hf
    rw [hcall] at hcall'
    cases hcall'
    exact hinv

/-- `hash_clean` counts the places with an `int`. -/
theorem hashClean_overflow {h : Hash δ} (cb : Callbacks δ) (hcb : cb.hashFreeData = true)
    (hsize : intMax < h.size) : hashClean cb h = none := by
  rw [hashClean, hcb, if_neg (by simp)]
  exact forInt_overflow (Nat.zero_le _) (by omega)

theorem not_owns {size : Nat} (hsize : intMax < size) : ¬ Owns δ size := by
  intro howns
  obtain ⟨-, hcalls⟩ := howns [] _ .nil
  have hclean : Owner.Permitted (Owner.create size : Owner δ)
      ⟨.clean, fun _ => 0, fun _ _ => 0, fun _ _ => 0⟩ := ⟨rfl, fun d hd => (nomatch hd)⟩
  obtain ⟨s', hs'⟩ := hcalls _ 0 hclean fun h hh => by cases hh; rfl
  have hnone := hashClean_overflow (h := (hashCreateSize size : Hash δ))
    (given (fun _ => 0) (fun _ _ => 0) fun _ _ => 0) rfl hsize
  simp [Owner.call, Owner.create, OwnCall.callbacks, hnone] at hs'

/-- A table without places cannot take a datum: `key % hash->size` divides by zero. -/
theorem not_owns_zero (d : δ) : ¬ Owns δ 0 := by
  intro howns
  obtain ⟨-, hcalls⟩ := howns [] _ .nil
  have hset : Owner.Permitted (Owner.create 0 : Owner δ)
      ⟨.set d, fun _ => 0, fun _ _ => 0, fun _ _ => 0⟩ := ⟨rfl, fun _ _ => List.not_mem_nil⟩
  obtain ⟨s', hs'⟩ := hcalls _ 0 hset fun h hh => by cases hh; rfl
  simp [Owner.call, Owner.create, hashSet, chainOf, hashCreateSize] at hs'

/-- **Every pointer has one owner.** In every run of a table of `size` places each pointer given to
`hash_set` is in one bucket, or freed once, or handed back, and every call returns, exactly when there
are places and their number is an `int`. -/
theorem hash_owns_iff [Nonempty δ] {size : Nat} : Owns δ size ↔ 1 ≤ size ∧ size < 2 ^ 31 := by
  constructor
  · intro howns
    constructor
    · by_contra hzero
      obtain rfl : size = 0 := by omega
      obtain ⟨d⟩ := ‹Nonempty δ›
      exact not_owns_zero d howns
    · by_contra hlarge
      exact not_owns (by unfold intMax; omega) howns
  · intro hbound es s hr
    have hsize : size ≤ intMax := by unfold intMax; omega
    have hinv := run_inv hbound.1 hsize hr
    refine ⟨hinv.owned, ?_⟩
    intro e fresh hp hf
    obtain ⟨s', hcall, -⟩ := call_inv hsize hinv hp hf
    exact ⟨s', hcall⟩

theorem hash_owns_32 : Owns Nat 32 :=
  hash_owns_iff.mpr (by decide)

/-- A table of `2^31 + 1` places is created, and `hash_clean` overflows its counter. -/
theorem hash_not_owns_large : 2 ^ 31 + 1 < 2 ^ 32 ∧ ¬ Owns Nat (2 ^ 31 + 1) :=
  ⟨by decide, not_owns (by unfold intMax; omega)⟩

end Xhash
end Xlibc
