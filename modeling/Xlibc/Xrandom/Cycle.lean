import Mathlib.Data.Finite.Prod
import Mathlib.Dynamics.PeriodicPts.Lemmas
import Mathlib.Logic.Equiv.Basic
import Xlibc.Xrandom.Range

/-!
# Xlibc.Xrandom.Cycle

Many calls of `xrand_rc4`, one after the other.

* `rc4Byte_swap` : the table is the one of before with two entries swapped.
* `xrandRc4s_table` : what the numbers consist of, for good.
* `rc4Back_rc4Byte` : the state of before can be computed from the state behind.
* `xrandRc4s_cycle` : after some number of calls the generator starts again.
-/

namespace Xlibc
namespace Xrandom

/-- One call for each of the seeds, and the numbers they return. -/
def xrandRc4s (e : ByteOrder) : List Seed → Rc4 → Rc4 × List (BitVec 32)
  | [], s => (s, [])
  | seed :: seeds, s =>
    let (s, r) := xrandRc4 e seed s
    let (s, rs) := xrandRc4s e seeds s
    (s, r :: rs)

/-! ## The table -/

theorem rc4Byte_swap (s : Rc4) : (rc4Byte s).1.sbox = s.sbox ∘ Equiv.swap (rc4Byte s).1.j (rc4Byte s).1.i := by
  rw [Equiv.comp_swap_eq_update]
  rfl

/-- `t` has the entries of the table of `s`, in some order. -/
def Shuffled (s t : Rc4) : Prop := ∃ σ : Equiv.Perm Byte, t.sbox = s.sbox ∘ σ

theorem Shuffled.trans {s t u : Rc4} (h : Shuffled s t) (h' : Shuffled t u) : Shuffled s u := by
  obtain ⟨σ, hσ⟩ := h
  obtain ⟨τ, hτ⟩ := h'
  exact ⟨τ.trans σ, by rw [hτ, hσ]; rfl⟩

theorem Shuffled.entry {s t : Rc4} (h : Shuffled s t) (k : Byte) : ∃ k', t.sbox k = s.sbox k' := by
  obtain ⟨σ, hσ⟩ := h
  exact ⟨σ k, by rw [hσ]; rfl⟩

theorem rc4Byte_spec (s : Rc4) : (rc4Byte s).1.seeded = s.seeded ∧ Shuffled s (rc4Byte s).1 ∧
    ∃ k, (rc4Byte s).2 = s.sbox k := by
  have hshuffled : Shuffled s (rc4Byte s).1 := ⟨_, rc4Byte_swap s⟩
  exact ⟨rfl, hshuffled, hshuffled.entry _⟩

/-- The table of the first byte, when the first call has filled it. -/
def Rc4.seed (s : Rc4) (seed : Seed) : Rc4 := if s.seeded = false then xrandRc4Init seed s else s

/-- A number of four entries of the table. -/
def Made (e : ByteOrder) (s : Rc4) (r : BitVec 32) : Prop := ∃ k0 k1 k2 k3,
  r = wordOfBytes e (s.sbox k0).toBitVec (s.sbox k1).toBitVec (s.sbox k2).toBitVec (s.sbox k3).toBitVec

theorem seed_seeded (s : Rc4) (seed : Seed) : (s.seed seed).seeded = true := by
  unfold Rc4.seed
  split
  · rfl
  · next h => simpa using h

theorem xrandRc4_spec (e : ByteOrder) (seed : Seed) (s : Rc4) : (xrandRc4 e seed s).1.seeded = true ∧
    Shuffled (s.seed seed) (xrandRc4 e seed s).1 ∧ Made e (s.seed seed) (xrandRc4 e seed s).2 := by
  obtain ⟨hs0, h0, k0, hk0⟩ := rc4Byte_spec (s.seed seed)
  obtain ⟨hs1, h1, k1, hk1⟩ := rc4Byte_spec (rc4Byte (s.seed seed)).1
  obtain ⟨hs2, h2, k2, hk2⟩ := rc4Byte_spec (rc4Byte (rc4Byte (s.seed seed)).1).1
  obtain ⟨hs3, h3, k3, hk3⟩ := rc4Byte_spec (rc4Byte (rc4Byte (rc4Byte (s.seed seed)).1).1).1
  obtain ⟨k1', hk1'⟩ := h0.entry k1
  obtain ⟨k2', hk2'⟩ := (h0.trans h1).entry k2
  obtain ⟨k3', hk3'⟩ := ((h0.trans h1).trans h2).entry k3
  refine ⟨?_, ((h0.trans h1).trans h2).trans h3, k0, k1', k2', k3', ?_⟩
  · exact hs3.trans (hs2.trans (hs1.trans (hs0.trans (seed_seeded s seed))))
  · rw [← hk0, ← hk1', ← hk1, ← hk2', ← hk2, ← hk3', ← hk3]
    rfl

theorem seed_of_seeded {s : Rc4} (h : s.seeded = true) (seed : Seed) : s.seed seed = s := by
  simp [Rc4.seed, h]

theorem Made.shuffled {e : ByteOrder} {s t : Rc4} {r : BitVec 32} (h : Made e t r) (hst : Shuffled s t) :
    Made e s r := by
  obtain ⟨k0, k1, k2, k3, rfl⟩ := h
  obtain ⟨k0', h0⟩ := hst.entry k0
  obtain ⟨k1', h1⟩ := hst.entry k1
  obtain ⟨k2', h2⟩ := hst.entry k2
  obtain ⟨k3', h3⟩ := hst.entry k3
  exact ⟨k0', k1', k2', k3', by rw [h0, h1, h2, h3]⟩

theorem xrandRc4s_shuffled (e : ByteOrder) {s : Rc4} (h : s.seeded = true) (seeds : List Seed) :
    Shuffled s (xrandRc4s e seeds s).1 ∧ ∀ r ∈ (xrandRc4s e seeds s).2, Made e s r := by
  induction seeds generalizing s with
  | nil => exact ⟨⟨Equiv.refl _, rfl⟩, by simp [xrandRc4s]⟩
  | cons seed seeds ih =>
    obtain ⟨hseeded, hshuffled, hmade⟩ := xrandRc4_spec e seed s
    rw [seed_of_seeded h] at hshuffled hmade
    obtain ⟨hrest, hmades⟩ := ih hseeded
    refine ⟨hshuffled.trans hrest, fun r hr => ?_⟩
    rcases List.mem_cons.mp hr with rfl | hr
    · exact hmade
    · exact (hmades r hr).shuffled hshuffled

/-- **However often `xrand_rc4` is called, its table has the entries it was first filled with**, in another order, and
every byte of every number is one of them. -/
theorem xrandRc4s_table (e : ByteOrder) (seed : Seed) (seeds : List Seed) (s : Rc4) :
    Shuffled (s.seed seed) (xrandRc4s e (seed :: seeds) s).1 ∧
      ∀ r ∈ (xrandRc4s e (seed :: seeds) s).2, Made e (s.seed seed) r := by
  obtain ⟨hseeded, hshuffled, hmade⟩ := xrandRc4_spec e seed s
  obtain ⟨hrest, hmades⟩ := xrandRc4s_shuffled e hseeded seeds
  refine ⟨hshuffled.trans hrest, fun r hr => ?_⟩
  rcases List.mem_cons.mp hr with rfl | hr
  · exact hmade
  · exact (hmades r hr).shuffled hshuffled

/-! ## The cycle -/

/-- The state before a byte, from the state behind. -/
def rc4Back (t : Rc4) : Rc4 :=
  let si := t.sbox t.j
  let sj := t.sbox t.i
  { t with sbox := Function.update (Function.update t.sbox t.j sj) t.i si, i := t.i - 1, j := t.j - si }

theorem rc4Back_rc4Byte (s : Rc4) : rc4Back (rc4Byte s).1 = s := by
  have hj : (rc4Byte s).1.sbox (rc4Byte s).1.j = s.sbox (s.i + 1) := by simp [rc4Byte]
  have hi : (rc4Byte s).1.sbox (rc4Byte s).1.i = s.sbox (rc4Byte s).1.j := by
    rw [rc4Byte_swap]
    simp
  have hsbox : (rc4Back (rc4Byte s).1).sbox = s.sbox := by
    have hback : (rc4Back (rc4Byte s).1).sbox =
        (rc4Byte s).1.sbox ∘ Equiv.swap (rc4Byte s).1.i (rc4Byte s).1.j := by
      rw [Equiv.comp_swap_eq_update]
      rfl
    rw [hback, rc4Byte_swap, Function.comp_assoc, Equiv.swap_comm]
    funext k
    simp
  cases s with
  | mk sbox seeded i j =>
    have hi' : (rc4Back (rc4Byte ⟨sbox, seeded, i, j⟩).1).i = i := by simp [rc4Back, rc4Byte]
    have hj' : (rc4Back (rc4Byte ⟨sbox, seeded, i, j⟩).1).j = j := by
      simp only [rc4Back, hj]
      simp [rc4Byte]
    exact congr (congr (congr (congrArg Rc4.mk hsbox) rfl) hi') hj'

/-- The state behind a call, once the table is filled. -/
def rc4Next (s : Rc4) : Rc4 := (rc4Byte (rc4Byte (rc4Byte (rc4Byte s).1).1).1).1

theorem rc4Next_injective : Function.Injective rc4Next := by
  have hbyte : Function.Injective fun s => (rc4Byte s).1 := Function.LeftInverse.injective rc4Back_rc4Byte
  exact (hbyte.comp hbyte).comp (hbyte.comp hbyte)

instance : Finite Rc4 := by
  have : Finite Byte := Finite.of_injective UInt8.toFin fun a b h => UInt8.toFin_inj.mp h
  refine Finite.of_injective (fun s : Rc4 => (s.sbox, s.seeded, s.i, s.j)) fun s t h => ?_
  simp only [Prod.mk.injEq] at h
  cases s
  cases t
  simpa using h

theorem xrandRc4_next (e : ByteOrder) {s : Rc4} (h : s.seeded = true) (seed : Seed) :
    (xrandRc4 e seed s).1 = rc4Next s := by
  have hcall : (xrandRc4 e seed s).1 = rc4Next (s.seed seed) := rfl
  rw [hcall, seed_of_seeded h]

theorem xrandRc4s_next (e : ByteOrder) {s : Rc4} (h : s.seeded = true) (seeds : List Seed) :
    (xrandRc4s e seeds s).1 = rc4Next^[seeds.length] s := by
  induction seeds generalizing s with
  | nil => rfl
  | cons seed seeds ih =>
    rw [List.length_cons, Function.iterate_succ_apply, ← xrandRc4_next e h seed]
    exact ih (xrandRc4_spec e seed s).1

theorem xrandRc4s_append (e : ByteOrder) (seeds seeds' : List Seed) (s : Rc4) :
    (xrandRc4s e (seeds ++ seeds') s).2 =
      (xrandRc4s e seeds s).2 ++ (xrandRc4s e seeds' (xrandRc4s e seeds s).1).2 := by
  induction seeds generalizing s with
  | nil => rfl
  | cons seed seeds ih => simp only [List.cons_append, xrandRc4s, ih]

/-- **The generator never gets into a cycle that leaves out its start**: from the table it was filled with, it
comes back to it, and the numbers repeat from there on. -/
theorem xrandRc4s_cycle (e : ByteOrder) (seed : Seed) (s : Rc4) :
    ∃ n, 0 < n ∧ ∀ seeds seeds', seeds.length = n →
      (xrandRc4s e seeds (s.seed seed)).1 = s.seed seed ∧
        (xrandRc4s e (seeds ++ seeds') (s.seed seed)).2 =
          (xrandRc4s e seeds (s.seed seed)).2 ++ (xrandRc4s e seeds' (s.seed seed)).2 := by
  obtain ⟨n, hn, hperiodic⟩ := rc4Next_injective.mem_periodicPts (s.seed seed)
  refine ⟨n, hn, fun seeds seeds' hlen => ?_⟩
  have hback : (xrandRc4s e seeds (s.seed seed)).1 = s.seed seed := by
    rw [xrandRc4s_next e (seed_seeded s seed), hlen]
    exact hperiodic
  exact ⟨hback, by rw [xrandRc4s_append, hback]⟩

end Xrandom
end Xlibc
