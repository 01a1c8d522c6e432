import Mathlib.Data.Setoid.Basic
import Mathlib.Order.CompletePartialOrder
import Xlibc.Base.Run
import Xlibc.Xhash.Walk

/-!
# Xlibc.Xhash.Correct

The table is a finite map from key classes to data. `MapStep` says what the operations do to the map,
`hashOp_spec` simulates one call, and `hash_refines_map` lifts it to every run from
`hash_create_size`, with the exact bound on the size: the walks over the table count the places with
an `int`.
-/

namespace Xlibc
namespace Xhash

variable {δ : Type}

inductive HashOp (δ : Type) where
  | set (d : δ)
  | get (d : δ)
  | delete (d : δ)
  | release (d : δ)
  | clean

inductive HashRet (δ : Type) where
  | datum (d : Option δ)
  | code (r : Int)
  | done

/-- A call, what it returns, and the data it hands to `hash_free_data`. -/
abbrev HashEvent (δ : Type) := HashOp δ × HashRet δ × List δ

/-! ## The map -/

inductive MapStep {s : Setoid δ} (cmpOther : δ → δ → Int) :
    ClassMap s → HashEvent δ → ClassMap s → Prop where
  | get (m : ClassMap s) (d : δ) : MapStep cmpOther m (.get d, .datum (m.find (Quotient.mk s d)), []) m
  | setNew {m : ClassMap s} {d : δ} (h : m.find (Quotient.mk s d) = none) :
      MapStep cmpOther m (.set d, .datum (some d), []) (m.put d)
  | setKeep {m : ClassMap s} {d old : δ} (h : m.find (Quotient.mk s d) = some old)
      (ho : cmpOther old d ≠ 0) : MapStep cmpOther m (.set d, .datum (some old), [d]) m
  | setReplace {m : ClassMap s} {d old : δ} (h : m.find (Quotient.mk s d) = some old)
      (ho : cmpOther old d = 0) : MapStep cmpOther m (.set d, .datum (some d), [old]) (m.put d)
  | delete {m : ClassMap s} {d old : δ} (h : m.find (Quotient.mk s d) = some old) :
      MapStep cmpOther m (.delete d, .code 0, [old]) (m.drop (Quotient.mk s d))
  | deleteAbsent {m : ClassMap s} {d : δ} (h : m.find (Quotient.mk s d) = none) :
      MapStep cmpOther m (.delete d, .code (-1), []) m
  | release {m : ClassMap s} {d old : δ} (h : m.find (Quotient.mk s d) = some old) :
      MapStep cmpOther m (.release d, .datum (some old), []) (m.drop (Quotient.mk s d))
  | releaseAbsent {m : ClassMap s} {d : δ} (h : m.find (Quotient.mk s d) = none) :
      MapStep cmpOther m (.release d, .datum none, []) m
  | clean {m : ClassMap s} {l : List δ} (h : m.Enumerates l) :
      MapStep cmpOther m (.clean, .done, l) ClassMap.empty

/-! ## The table -/

/-- Callbacks that are all given and that always return. -/
def given (key : δ → Nat) (cmpKey cmpOther : δ → δ → Int) : Callbacks δ where
  hashKey d := some (key d)
  hashCmpKey a b := some (cmpKey a b)
  hashCmpOther a b := some (cmpOther a b)
  hashFreeData := true
  hashTraverse := true

def hashOp (cb : Callbacks δ) (fresh : Nat) (h : Hash δ) :
    HashOp δ → Option (HashRet δ × List δ × Hash δ)
  | .set d => (hashSet cb fresh h (some d)).map fun (r, freed, h') => (.datum r, freed, h')
  | .get d => (hashGet cb h d).map fun r => (.datum r, [], h)
  | .delete d => (hashDelete cb h d).map fun (r, freed, h') => (.code r, freed, h')
  | .release d => (hashRelease cb h d).map fun (r, h') => (.datum r, [], h')
  | .clean => (hashClean cb h).map fun (freed, h') => (.done, freed, h')

/-- One call, with some free address for `malloc` to return. -/
def HashStep (cb : Callbacks δ) (h : Hash δ) (e : HashEvent δ) (h' : Hash δ) : Prop :=
  ∃ fresh, h.buckets.lookup fresh = none ∧ hashOp cb fresh h e.1 = some (e.2.1, e.2.2, h')

/-- The shape of a table that represents `m`. -/
structure WellFormed (cb : Callbacks δ) (key : δ → Nat) {s : Setoid δ} (h : Hash δ) (m : ClassMap s) :
    Prop where
  place : ∃ cs, List.Forall₂ (BucketChain h.buckets) h.index cs ∧
    (addrs cs.flatten).Perm h.buckets.keys ∧
    ∀ i c, cs[i]? = some c → ∀ x ∈ c, x.2.1 = key x.2.2 ∧ x.2.1 % h.size = i
  unique : ∀ p q b b', h.buckets.lookup p = some b → h.buckets.lookup q = some b' →
    s b.data b'.data → p = q
  count : h.count = h.buckets.keys.length
  traverse : ∃ ds, hashTraverse cb h = some ds ∧ m.Enumerates ds
  iterate : ∃ bs, hashIterate h = some bs ∧ m.Enumerates (bs.map (·.data))

/-- In every run from `hash_create_size`, the calls do what they do to a map, the table stays well
formed, and no call faults. -/
def Refines (s : Setoid δ) (key : δ → Nat) (cmpKey cmpOther : δ → δ → Int) (size : Nat) : Prop :=
  ∀ es h, Run (HashStep (given key cmpKey cmpOther)) (hashCreateSize size) es h →
    ∃ m : ClassMap s, Run (MapStep cmpOther) ClassMap.empty es m ∧
      WellFormed (given key cmpKey cmpOther) key h m ∧
      ∀ op fresh, h.buckets.lookup fresh = none →
        ∃ r, hashOp (given key cmpKey cmpOther) fresh h op = some r

/-! ## The simulation -/

section Simulation

variable {s : Setoid δ} {key : δ → Nat} {cmpKey : δ → δ → Int} (cmpOther : δ → δ → Int)

theorem given_reads (hs : ∀ a b, cmpKey a b ≠ 0 ↔ s a b) (hkey : ∀ a b, s a b → key a = key b) :
    Reads (given key cmpKey cmpOther) key s fun _ => True where
  key _ _ := rfl
  cmp a b _ _ := ⟨_, rfl, hs a b⟩
  resp := hkey

theorem Table.cell_of_lookup {k : δ → Nat} {h : Hash δ} {cs : List (List (Cell δ))}
    (ht : Table k h cs) {p : Nat} {b : HashBucket δ} (hb : h.buckets.lookup p = some b) :
    (p, bucketVal b) ∈ cs.flatten := by
  have hp : p ∈ addrs cs.flatten := ht.keys.mem_iff.mpr (AList.lookup_isSome.mp (by rw [hb]; rfl))
  obtain ⟨⟨p', x⟩, hx, rfl⟩ := List.mem_map.mp hp
  obtain ⟨c, hc, hxc⟩ := List.mem_flatten.mp hx
  obtain ⟨i, hi⟩ := List.getElem?_of_mem hc
  obtain ⟨l₁, l₂, rfl⟩ := List.append_of_mem hxc
  obtain ⟨head, c', -, hc', hchain, -⟩ := ht.chain_at (i := i)
    (by rw [← ht.size]; exact (List.getElem?_eq_some_iff.mp hi).1)
  obtain rfl := Option.some.inj (hi.symm.trans hc')
  obtain ⟨b', hb', hv, -⟩ := hchain.cell
  obtain rfl : b = b' := Option.some.inj (hb.symm.trans hb')
  rw [hv]
  exact hx

theorem Holds.wellFormed {h : Hash δ} {cs : List (List (Cell δ))} {m : ClassMap s} {live : δ → Prop}
    (hh : Holds key s live h cs m) (hsize : h.size ≤ intMax) :
    WellFormed (given key cmpKey cmpOther) key h m where
  place := ⟨cs, hh.table.chains, hh.table.keys, hh.table.place⟩
  unique p q b b' hb hb' hs := by
    by_contra hne
    have hpw : cs.flatten.Pairwise fun x y => ¬ s x.2.2 y.2.2 := List.pairwise_map.mp hh.enum.pairwise
    have hsymm : Std.Symm fun x y : Cell δ => ¬ s x.2.2 y.2.2 := ⟨fun x y hxy hyx => hxy (s.symm hyx)⟩
    exact hpw.forall (hh.table.cell_of_lookup hb) (hh.table.cell_of_lookup hb')
      (fun heq => hne (congrArg Prod.fst heq)) hs
  count := by
    rw [hh.table.count, ← hh.table.keys.length_eq, addrs, List.length_map]
  traverse := ⟨_, hashTraverse_spec hh.table hsize rfl, hh.enum⟩
  iterate := by
    obtain ⟨bs, hrun, hbs⟩ := hashIterate_spec hh.table hsize
    refine ⟨bs, hrun, ?_⟩
    have hdata : bs.map (·.data) = stored cs := data_of_vals hbs
    rw [hdata]
    exact hh.enum

/-- The tables of `size` places that represent a map. -/
def Represents (key : δ → Nat) (size : Nat) (h : Hash δ) (m : ClassMap s) : Prop :=
  h.size = size ∧ ∃ cs, Holds key s (fun _ => True) h cs m

/-- One call acts on the represented map, whatever address `malloc` returns. -/
theorem hashOp_spec (hs : ∀ a b, cmpKey a b ≠ 0 ↔ s a b) (hkey : ∀ a b, s a b → key a = key b)
    {size : Nat} (hsize : size ≤ intMax) {h : Hash δ} {m : ClassMap s} (hR : Represents key size h m)
    {fresh : Nat} (hfresh : h.buckets.lookup fresh = none) (op : HashOp δ) :
    ∃ ret freed h' m', hashOp (given key cmpKey cmpOther) fresh h op = some (ret, freed, h') ∧
      MapStep cmpOther m (op, ret, freed) m' ∧ Represents key size h' m' := by
  obtain ⟨rfl, cs, hh⟩ := hR
  have hr := given_reads cmpOther hs hkey
  cases op with
  | set d =>
    cases hfind : m.find (Quotient.mk s d) with
    | none =>
      obtain ⟨h', cs', hrun, hsz, hh', -⟩ := hashSet_new hr hh trivial hfresh hfind
      exact ⟨_, _, h', _, by simp [hashOp, hrun], .setNew hfind, hsz, cs', hh'⟩
    | some old =>
      rcases hashSet_old fresh hr hh trivial rfl hfind (rfl : _ = some (cmpOther old d))
        with ⟨hne, hrun⟩ | ⟨hz, h', cs', hrun, hsz, hh'⟩
      · exact ⟨_, _, h, m, by simp [hashOp, hrun], .setKeep hfind hne, rfl, cs, hh⟩
      · exact ⟨_, _, h', _, by simp [hashOp, hrun], .setReplace hfind hz, hsz, cs', hh'⟩
  | get d =>
    have hrun := hashGet_spec hr hh (d := d) trivial
    exact ⟨_, _, h, m, by simp [hashOp, hrun], .get m d, rfl, cs, hh⟩
  | delete d =>
    rcases hashDelete_spec hr hh (d := d) trivial rfl with
      ⟨hfind, hrun⟩ | ⟨x, h', cs', hfind, hrun, hsz, hh', -⟩
    · exact ⟨_, _, h, m, by simp [hashOp, hrun], .deleteAbsent hfind, rfl, cs, hh⟩
    · exact ⟨_, _, h', _, by simp [hashOp, hrun], .delete hfind, hsz, cs', hh'⟩
  | release d =>
    rcases hashRelease_spec hr hh (d := d) trivial with
      ⟨hfind, hrun⟩ | ⟨x, h', cs', hfind, hrun, hsz, hh', -⟩
    · exact ⟨_, _, h, m, by simp [hashOp, hrun], .releaseAbsent hfind, rfl, cs, hh⟩
    · exact ⟨_, _, h', _, by simp [hashOp, hrun], .release hfind, hsz, cs', hh'⟩
  | clean =>
    obtain ⟨h', hrun, hsz, ht'⟩ := hashClean_spec (given key cmpKey cmpOther) hh.table hsize rfl
    have hnil : stored (List.replicate h.size ([] : List (Cell δ))) = [] := by simp [stored]
    refine ⟨_, _, h', _, by simp [hashOp, hrun], .clean hh.enum, hsz, _, ht', ?_, ?_⟩
    · rw [hnil]
      exact .nil
    · rw [hnil]
      simp

/-- A table that is too large cannot be walked, even when it is empty. -/
theorem not_refines {size : Nat} (hsize : intMax < size) : ¬ Refines s key cmpKey cmpOther size := by
  intro href
  obtain ⟨m, -, hwf, -⟩ := href [] _ .nil
  obtain ⟨ds, hrun, -⟩ := hwf.traverse
  rw [hashTraverse_overflow rfl hsize] at hrun
  cases hrun

end Simulation

/-- **The table is a map from key classes.** A table of `size` places refines the finite map from the
classes of `hash_cmp_key` to data in every run, exactly when its size is an `int`. -/
theorem hash_refines_map {s : Setoid δ} {key : δ → Nat} {cmpKey : δ → δ → Int}
    (hs : ∀ a b, cmpKey a b ≠ 0 ↔ s a b) (hkey : ∀ a b, s a b → key a = key b)
    (cmpOther : δ → δ → Int) {size : Nat} (h1 : 1 ≤ size) :
    Refines s key cmpKey cmpOther size ↔ size < 2 ^ 31 := by
  constructor
  · intro href
    by_contra hlarge
    exact not_refines _ (by unfold intMax; omega) href
  · intro hlt es h hrun
    have hmax : size ≤ intMax := by unfold intMax; omega
    have h0 : Represents (s := s) key size (hashCreateSize size) ClassMap.empty := by
      refine ⟨rfl, _, hashCreateSize_table key h1, ?_, by simp⟩
      have hnil : stored (List.replicate size ([] : List (Cell δ))) = [] := by simp [stored]
      rw [hnil]
      exact .nil
    have hstep : ∀ t t' m e, Represents (s := s) key size t m →
        HashStep (given key cmpKey cmpOther) t e t' →
        ∃ m', MapStep cmpOther m e m' ∧ Represents key size t' m' := by
      rintro t t' m ⟨op, ret, freed⟩ hR ⟨fresh, hfresh, hop⟩
      obtain ⟨ret', freed', h', m', hop', hmap, hR'⟩ := hashOp_spec cmpOther hs hkey hmax hR
        hfresh op
      obtain ⟨rfl, hrest⟩ := Prod.mk.inj (Option.some.inj (hop.symm.trans hop'))
      obtain ⟨rfl, rfl⟩ := Prod.mk.inj hrest
      exact ⟨m', hmap, hR'⟩
    obtain ⟨m, hm, hR⟩ := Run.simulates h0 hstep hrun
    refine ⟨m, hm, ?_, fun op fresh hfresh => ?_⟩
    · obtain ⟨hsz, cs, hh⟩ := hR
      exact hh.wellFormed _ (by rw [hsz]; exact hmax)
    · obtain ⟨ret, freed, h', -, hop, -⟩ := hashOp_spec cmpOther hs hkey hmax hR hfresh op
      exact ⟨_, hop⟩

/-- Equality of numbers, as a key comparison. -/
def natCmp (a b : Nat) : Int := if a = b then 1 else 0

theorem natCmp_iff (a b : Nat) : natCmp a b ≠ 0 ↔ (⊥ : Setoid Nat) a b := by
  rw [Setoid.bot_def, natCmp]
  split <;> simp_all

/-- Three places, and 1 and 4 in the same one. -/
theorem hash_refines_map_three : Refines (⊥ : Setoid Nat) (fun d => d) natCmp natCmp 3 :=
  (hash_refines_map natCmp_iff (fun _ _ h => h) natCmp (by decide)).mpr (by decide)

/-- A table of `2^31 + 1` places is created, and walking it overflows the counter. -/
theorem hash_not_refines_large :
    1 ≤ 2 ^ 31 + 1 ∧ 2 ^ 31 + 1 < 2 ^ 32 ∧ (∀ a b, natCmp a b ≠ 0 ↔ (⊥ : Setoid Nat) a b) ∧
      ¬ Refines (⊥ : Setoid Nat) (fun d => d) natCmp natCmp (2 ^ 31 + 1) :=
  ⟨by decide, by decide, natCmp_iff, not_refines _ (by unfold intMax; omega)⟩

end Xhash
end Xlibc
