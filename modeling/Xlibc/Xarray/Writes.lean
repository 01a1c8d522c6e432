import Xlibc.Xarray.Join

/-!
# Xlibc.Xarray.Writes

What `xarray2str` writes, and when all of it is inside its blocks. The block is made larger when it has
no room for a string, and not when it has no room for the two bytes behind it.

* `joinWrites`, `xarray2strWrites` : the writes of a call, each with the block that it goes to.
* `BlockSize`  : the sizes that blocks can have for some strings.
* `Clears`     : no string ends where a block can end.
* `writes_inside`, `writes_clear` : the loop, from either side.
* `xarray2str_inside` : every write is inside if the strings are clear, and where the blocks are only
  doubled, only if they are.
-/

namespace Xlibc
namespace Xarray

/-! ## The writes of a call -/

/-- `count` bytes at `offset` of a block of `size` bytes. -/
structure Write where
  offset : Nat
  count : Nat
  size : Nat

def Write.Inside (w : Write) : Prop := w.offset + w.count ≤ w.size

instance : DecidablePred Write.Inside := fun _ => inferInstanceAs (Decidable (_ ≤ _))

/-- What `sprintf` writes for a slot: the string, the split character and the terminator. -/
def slotWrites (grant : Nat → Bool) (fill : Byte) (st : JoinState) : Option CString → List Write
  | none => []
  | some tmp =>
    if i32OfNat tmp.val.length = 0 then []
    else match joinGrow grant fill (i32OfNat tmp.val.length) st with
      | some (some st) => [⟨st.offset, tmp.val.length + 2, st.size⟩]
      | _ => []

/-- The writes from slot `i` on. A fault, a refused request or the counter at `INT_MAX` ends them; behind
the last slot the last split character is overwritten. -/
def joinWrites (grant : Nat → Bool) (fill split : Byte) : Nat → List (Option CString) → JoinState → List Write
  | _, [], st => if st.offset ≠ 0 then [⟨st.offset - 1, 1, st.size⟩] else []
  | i, slot :: slots, st =>
    slotWrites grant fill st slot ++
      match joinSlot grant fill split st slot with
      | some (some st') => if i = intMax then [] else joinWrites grant fill split (i + 1) slots st'
      | _ => []

/-- The writes of `xarray2str` behind its `memset`. -/
def xarray2strWrites (grant : Nat → Bool) (fill split : Byte) (a : XArray CString) : List Write :=
  if grant 256 = false then []
  else joinWrites grant fill split 0 (a.data.take a.count)
    { str := List.replicate 256 0, size := 256, offset := 0 }

/-- Every write is inside its block, whatever `malloc` and `realloc` grant. -/
def WritesInside (split : Byte) (a : XArray CString) : Prop :=
  ∀ grant fill, ∀ w ∈ xarray2strWrites grant fill split a, w.Inside

/-! ## Strings and blocks -/

/-- The lengths of the strings that are not skipped, in the slots that an `int` counts. -/
def stringLens (xs : List (Option CString)) : List Nat :=
  ((xs.take (intMax + 1)).map slotLen).filter fun n => ¬ 2 ^ 32 ∣ n

/-- Strings, each with a split character behind it. -/
def joinedLen (lens : List Nat) : Nat := (lens.map (· + 1)).sum

/-- A first string of more than 256 bytes gets a block of its own. -/
def firstBlock : List Nat → Nat
  | [] => 256
  | len :: _ => if len ≤ 256 then 256 else 256 + len + 1

/-- The sizes that blocks can have: the first one, doubled any number of times, or made larger by a string
that is longer than the block, and so than all strings before it. -/
inductive BlockSize (lens : List Nat) : Nat → Prop where
  | first : BlockSize lens (firstBlock lens)
  | double {c : Nat} : BlockSize lens c → BlockSize lens (2 * c)
  | longer {c len : Nat} {p : List Nat} : BlockSize lens c → p ++ [len] <+: lens → p ≠ [] →
      joinedLen p < len → c < len → BlockSize lens (c + len + 1)

/-- The strings have an `int` for their length, and no string ends, with its split character, where a
block can end or one byte behind. -/
structure Clears (lens : List Nat) : Prop where
  int : ∀ len ∈ lens, len < 2 ^ 31
  ends : ∀ p c, p <+: lens → BlockSize lens c → c ≤ intMax → joinedLen p ≠ c ∧ joinedLen p ≠ c + 1

/-- Behind the first, no string is longer than 256 bytes and than all strings before it. -/
structure Gradual (lens : List Nat) : Prop where
  int : ∀ len ∈ lens, len < 2 ^ 31
  short : ∀ p len, p ++ [len] <+: lens → p ≠ [] → len ≤ 256 ∨ len ≤ joinedLen p

theorem joinedLen_append (p q : List Nat) : joinedLen (p ++ q) = joinedLen p + joinedLen q := by
  simp [joinedLen]

theorem joinedLen_singleton (len : Nat) : joinedLen [len] = len + 1 := by
  simp [joinedLen]

variable {lens p : List Nat} {c len n : Nat}

theorem firstBlock_le (lens : List Nat) : 256 ≤ firstBlock lens := by
  cases lens with
  | nil => exact Nat.le_refl 256
  | cons len lens =>
    rw [firstBlock]
    split <;> omega

theorem BlockSize.le (h : BlockSize lens c) : 256 ≤ c := by
  induction h with
  | first => exact firstBlock_le lens
  | double _ ih | longer _ _ _ _ _ ih => omega

/-- The block behind the first string. -/
theorem grown_first (len : Nat) (lens : List Nat) : grown 256 0 len = firstBlock (len :: lens) := by
  rw [grown, firstBlock]
  by_cases hle : len ≤ 256
  · rw [if_pos (by omega), if_pos hle]
  · rw [if_neg (by omega), if_pos (by omega), if_neg hle]

/-- The blocks behind the others. -/
theorem BlockSize.grown (h : BlockSize lens n) (hp : p ++ [len] <+: lens) (hne : p ≠ [])
    (hlt : joinedLen p < n) : BlockSize lens (grown n (joinedLen p) len) := by
  unfold Xarray.grown
  by_cases hroom : len ≤ n - joinedLen p
  · rw [if_pos hroom]
    exact h
  rw [if_neg hroom]
  by_cases hlong : n < len
  · rw [if_pos hlong]
    exact h.longer hp hne (by omega) hlong
  · rw [if_neg hlong, Nat.mul_comm]
    exact h.double

/-- A string ends where its block ends, or one byte behind, if it misses the block. -/
theorem misses_iff {offset : Nat} (hlt : offset < n) (hpos : 0 < len) :
    Misses n offset len ↔
      offset + len + 1 = grown n offset len ∨ offset + len + 1 = grown n offset len + 1 := by
  have hroom := grown_room hlt hpos
  have hle : offset + len ≤ grown n offset len := by
    unfold grown
    split
    · omega
    · split <;> omega
  constructor
  · intro hmiss
    have hno : ¬ offset + (len + 2) ≤ grown n offset len := fun hfit => hroom.mp hfit hmiss
    omega
  · intro hend
    by_contra hmiss
    have hfit := hroom.mpr hmiss
    omega

/-! ## One string -/

section Loop

variable {grant : Nat → Bool} {fill split : Byte} {ws : List (List Byte)} {st : JoinState}

/-- A string that is not skipped is written into a block that is large enough for its length, or not at
all. -/
theorem slotWrites_cases (h : Joined split ws n st) (grant : Nat → Bool) (fill : Byte) {s : CString}
    (hlen : i32OfNat s.val.length ≠ 0) (hint : s.val.length < 2 ^ 31) {g : Nat}
    (hg : grown n (joined split ws).length s.val.length = g) :
    (slotWrites grant fill st (some s) = [] ∧ (g ≤ intMax → grant g = false) ∧
      ∀ st', joinSlot grant fill split st (some s) ≠ some (some st')) ∨
    (g ≤ intMax ∧ slotWrites grant fill st (some s) =
        [⟨(joined split ws).length, s.val.length + 2, g⟩] ∧
      (¬ Misses n (joined split ws).length s.val.length → ∃ st',
        joinSlot grant fill split st (some s) = some (some st') ∧ Joined split (ws ++ [s.val]) g st')) := by
  have hg' : grown n (joined split ws).length (i32OfNat s.val.length).toNat = g := by
    rw [i32OfNat_of_lt hint, Int.toNat_natCast, hg]
  have hslot := joinSlot_cases h grant fill hlen hg'
  rw [slotWrites, if_neg hlen]
  rcases joinGrow_cases h grant fill hg' with ⟨hmax, hrun⟩ | ⟨hmax, hgrant, hrun⟩ |
    ⟨hmax, hgrant, st1, hrun, h1⟩
  · refine .inl ⟨by rw [hrun], fun hle => absurd hle hmax, fun st' hst' => ?_⟩
    rcases hslot with ⟨-, hs⟩ | ⟨hle, -⟩ | ⟨hle, -⟩
    · rw [hs] at hst'
      cases hst'
    · exact hmax hle
    · exact hmax hle
  · have hno : grant g = false := Bool.eq_false_iff.mpr fun htrue => hgrant fun _ => htrue
    refine .inl ⟨by rw [hrun], fun _ => hno, fun st' hst' => ?_⟩
    rcases hslot with ⟨-, hs⟩ | ⟨-, -, hs⟩ | ⟨-, hgranted, -⟩
    · rw [hs] at hst'
      cases hst'
    · rw [hs] at hst'
      cases hst'
    · exact hgrant hgranted
  · refine .inr ⟨hmax, by rw [hrun, ← h1.offset, ← h1.size], fun hfits => ?_⟩
    rcases hslot with ⟨hno, -⟩ | ⟨-, hno, -⟩ | ⟨-, -, -, st', hs, h'⟩
    · exact absurd ⟨hmax, fun _ => ⟨hint, hfits⟩⟩ hno
    · exact absurd hgrant hno
    · exact ⟨st', hs, h'⟩

theorem joinWrites_stop {i : Nat} {slot : Option CString} {slots : List (Option CString)}
    (hno : ∀ st', joinSlot grant fill split st slot ≠ some (some st')) :
    joinWrites grant fill split i (slot :: slots) st = slotWrites grant fill st slot := by
  rw [joinWrites]
  split
  · next st' hst' => exact absurd hst' (hno st')
  · rw [List.append_nil]

theorem joinWrites_step {i : Nat} {slot : Option CString} {slots : List (Option CString)} {st' : JoinState}
    (hs : joinSlot grant fill split st slot = some (some st')) :
    joinWrites grant fill split i (slot :: slots) st = slotWrites grant fill st slot ++
      if i = intMax then [] else joinWrites grant fill split (i + 1) slots st' := by
  rw [joinWrites, hs]

theorem slotWrites_skip {slot : Option CString} (hskip : i32OfNat (slotLen slot) = 0) :
    slotWrites grant fill st slot = [] := by
  cases slot with
  | none => rfl
  | some s => exact if_pos hskip

/-- The strings in the slots from `i` on. -/
def lensFrom (i : Nat) (slots : List (Option CString)) : List Nat :=
  ((slots.take (intMax + 1 - i)).map slotLen).filter fun n => ¬ 2 ^ 32 ∣ n

theorem lensFrom_cons {i : Nat} (hi : i ≤ intMax) (slot : Option CString) (slots : List (Option CString)) :
    lensFrom i (slot :: slots) = if i32OfNat (slotLen slot) = 0 then lensFrom (i + 1) slots
      else slotLen slot :: lensFrom (i + 1) slots := by
  have hsucc : intMax + 1 - i = intMax + 1 - (i + 1) + 1 := by omega
  have hdvd : i32OfNat (slotLen slot) = 0 ↔ 2 ^ 32 ∣ slotLen slot := by
    unfold i32OfNat
    split <;> omega
  rw [lensFrom, hsucc, List.take_succ_cons, List.map_cons, List.filter_cons]
  by_cases hskip : 2 ^ 32 ∣ slotLen slot
  · rw [if_neg (by simpa using hskip), if_pos (hdvd.mpr hskip)]
    rfl
  · rw [if_pos (by simpa using hskip), if_neg (fun h0 => hskip (hdvd.mp h0))]
    rfl

theorem lensFrom_last (slots : List (Option CString)) : lensFrom (intMax + 1) slots = [] := by
  simp [lensFrom]

/-! ## The loop -/

/-- Between two rounds: `p` are the lengths of the strings in front. -/
structure Between (split : Byte) (lens p : List Nat) (ws : List (List Byte)) (n : Nat) (st : JoinState) : Prop where
  joined : Joined split ws n st
  length : (Xarray.joined split ws).length = joinedLen p
  block : p = [] ∧ n = 256 ∨ p ≠ [] ∧ BlockSize lens n

variable {i : Nat}

theorem Between.grown (h : Between split lens p ws n st) {rest : List Nat} (hlens : lens = p ++ len :: rest) :
    BlockSize lens (grown n (joinedLen p) len) := by
  have hroom := h.joined.room
  rw [h.length] at hroom
  rcases h.block with ⟨hp, hn⟩ | ⟨hp, hblock⟩
  · have hnil : joinedLen p = 0 := by rw [hp]; rfl
    rw [hn, hnil, hlens, hp, List.nil_append, grown_first len rest]
    exact .first
  · exact hblock.grown ⟨rest, by rw [hlens, List.append_assoc]; rfl⟩ hp hroom

theorem Between.next (h : Between split lens p ws n st) {s : CString} {g : Nat} {st' : JoinState}
    (hg : BlockSize lens g) (h' : Joined split (ws ++ [s.val]) g st') :
    Between split lens (p ++ [s.val.length]) (ws ++ [s.val]) g st' := by
  refine ⟨h', ?_, .inr ⟨List.append_ne_nil_of_right_ne_nil _ (List.cons_ne_nil _ _), hg⟩⟩
  rw [joined_append, List.length_append, h.length, joinedLen_append, joinedLen_singleton, List.length_append,
    List.length_singleton]

theorem writes_end (h : Joined split ws n st) : ∀ w ∈ joinWrites grant fill split i [] st, w.Inside := by
  intro w hw
  have hroom := h.room
  rw [joinWrites] at hw
  split at hw
  · obtain rfl := List.mem_singleton.mp hw
    simp only [Write.Inside, h.offset, h.size]
    omega
  · cases hw

/-- The strings are clear: by induction on the slots, each is written inside its block. -/
theorem writes_inside (hclear : Clears lens) (slots : List (Option CString)) :
    ∀ {i n : Nat} {p : List Nat} {ws : List (List Byte)} {st : JoinState}, i ≤ intMax →
      Between split lens p ws n st → lens = p ++ lensFrom i slots →
      ∀ w ∈ joinWrites grant fill split i slots st, w.Inside := by
  induction slots with
  | nil => exact fun _ h _ => writes_end h.joined
  | cons slot slots ih =>
    intro i n p ws st hi h hlens
    rw [lensFrom_cons hi] at hlens
    by_cases hskip : i32OfNat (slotLen slot) = 0
    · rw [if_pos hskip] at hlens
      rw [joinWrites_step (joinSlot_skip hskip), slotWrites_skip hskip, List.nil_append]
      by_cases hlast : i = intMax
      · rw [if_pos hlast]
        exact fun w hw => (nomatch hw)
      · rw [if_neg hlast]
        exact ih (by omega) h hlens
    · rw [if_neg hskip] at hlens
      cases slot with
      | none => exact absurd rfl hskip
      | some s =>
        rw [slotLen] at hlens hskip
        have hblock := h.grown hlens
        have hroom := h.joined.room
        have hint := hclear.int s.val.length (by rw [hlens]; simp)
        have hpos : 0 < s.val.length := by
          rw [i32OfNat_of_lt hint] at hskip
          omega
        rcases slotWrites_cases h.joined grant fill hskip hint rfl with ⟨hnone, -, hstop⟩ | ⟨hmax, hone, hnext⟩
        · rw [joinWrites_stop hstop, hnone]
          exact fun w hw => (nomatch hw)
        rw [h.length] at hmax hnext hone hroom
        -- the string does not end where its block does
        have hends := hclear.ends (p ++ [s.val.length]) _ ⟨lensFrom (i + 1) slots, by rw [hlens]; simp⟩ hblock hmax
        rw [joinedLen_append, joinedLen_singleton, ← Nat.add_assoc] at hends
        have hfits : ¬ Misses n (joinedLen p) s.val.length := fun hmiss =>
          ((misses_iff hroom hpos).mp hmiss).elim hends.1 hends.2
        obtain ⟨st', hs, h'⟩ := hnext hfits
        rw [joinWrites_step hs, hone]
        intro w hw
        rcases List.mem_cons.mp hw with rfl | hw
        · exact (grown_room hroom hpos).mpr hfits
        · by_cases hlast : i = intMax
          · rw [if_pos hlast] at hw
            cases hw
          · rw [if_neg hlast] at hw
            exact ih (by omega) (h.next hblock h') (by rw [hlens]; simp) w hw

/-! ## The other direction -/

theorem two_mul_le {j m c : Nat} (h : 2 ^ j * c < 2 ^ m * c) : 2 * (2 ^ j * c) ≤ 2 ^ m * c := by
  have hjm : j < m := by
    by_contra hle
    exact absurd h (Nat.not_lt.mpr (Nat.mul_le_mul_right c (Nat.pow_le_pow_right (by decide) (by omega))))
  calc 2 * (2 ^ j * c) = 2 ^ (j + 1) * c := by rw [Nat.pow_succ', Nat.mul_assoc]
    _ ≤ 2 ^ m * c := Nat.mul_le_mul_right c (Nat.pow_le_pow_right (by decide) hjm)

theorem Gradual.doubled (hg : Gradual lens) (h : BlockSize lens c) : ∃ m, c = 2 ^ m * firstBlock lens := by
  induction h with
  | first => exact ⟨0, (Nat.one_mul _).symm⟩
  | double _ ih =>
    obtain ⟨m, rfl⟩ := ih
    exact ⟨m + 1, by rw [Nat.pow_succ', Nat.mul_assoc]⟩
  | longer h hp hne hlong hlt ih =>
    have hle := h.le
    rcases hg.short _ _ hp hne with h256 | hfront <;> omega

theorem Gradual.two_mul_le (hg : Gradual lens) {c c' : Nat} (h : BlockSize lens c) (h' : BlockSize lens c')
    (hlt : c < c') : 2 * c ≤ c' := by
  obtain ⟨j, rfl⟩ := hg.doubled h
  obtain ⟨m, rfl⟩ := hg.doubled h'
  exact Xarray.two_mul_le hlt

theorem Gradual.first_le (hg : Gradual lens) (h : BlockSize lens c) : firstBlock lens ≤ c := by
  obtain ⟨m, rfl⟩ := hg.doubled h
  exact Nat.le_mul_of_pos_left _ (Nat.two_pow_pos m)

/-- The block is the first one, or half of it had no room for what has been written. -/
def Needed (lens p : List Nat) (n : Nat) : Prop :=
  p = [] ∨ n = firstBlock lens ∨ n + 4 ≤ 2 * joinedLen p

/-- No block ends where the strings written so far do. -/
theorem Between.ends (hg : Gradual lens) (h : Between split lens p ws n st) (hneed : Needed lens p n)
    (hc : BlockSize lens c) : joinedLen p ≠ c ∧ joinedLen p ≠ c + 1 := by
  have hle := hc.le
  have hroom := h.joined.room
  rw [h.length] at hroom
  rcases h.block with ⟨hp, -⟩ | ⟨hp, hblock⟩
  · have hnil : joinedLen p = 0 := by rw [hp]; rfl
    omega
  · have hfirst := hg.first_le hc
    rcases Nat.lt_or_ge c n with hlt | hge
    · have htwo := hg.two_mul_le hc hblock hlt
      rcases hneed.resolve_left hp with hn | hn <;> omega
    · omega

/-- A block is made larger only for a string that it has no room for. -/
theorem Between.needed (hg : Gradual lens) (h : Between split lens p ws n st) (hneed : Needed lens p n)
    {rest : List Nat} (hlens : lens = p ++ len :: rest) :
    Needed lens (p ++ [len]) (Xarray.grown n (joinedLen p) len) ∧
      (p ≠ [] → n < Xarray.grown n (joinedLen p) len →
        Xarray.grown n (joinedLen p) len = 2 * n ∧ n < joinedLen p + len) := by
  have hroom := h.joined.room
  rw [h.length] at hroom
  have hnext : joinedLen (p ++ [len]) = joinedLen p + len + 1 := by
    rw [joinedLen_append, joinedLen_singleton, Nat.add_assoc]
  rcases h.block with ⟨hp, hn⟩ | ⟨hp, hblock⟩
  · refine ⟨.inr (.inl ?_), fun hne => absurd hp hne⟩
    have hnil : joinedLen p = 0 := by rw [hp]; rfl
    rw [hn, hnil, hlens, hp, List.nil_append, grown_first len rest]
  · have hle := hblock.le
    have hshort : len ≤ n := by
      rcases hg.short p len ⟨rest, by rw [hlens]; simp⟩ hp with h256 | hfront <;> omega
    unfold Needed Xarray.grown
    rw [hnext]
    by_cases hfits : len ≤ n - joinedLen p
    · rw [if_pos hfits]
      refine ⟨.inr ?_, fun _ hlt => absurd hlt (Nat.lt_irrefl n)⟩
      exact (hneed.resolve_left hp).imp_right fun hn => by omega
    · rw [if_neg hfits, if_neg (by omega)]
      exact ⟨.inr (.inr (by omega)), fun _ _ => by omega⟩

/-- Every request is granted and every write inside its block: by induction on the slots, the strings
are clear. -/
theorem writes_clear (hg : Gradual lens) (slots : List (Option CString)) :
    ∀ {i n : Nat} {p : List Nat} {ws : List (List Byte)} {st : JoinState}, i ≤ intMax →
      Between split lens p ws n st → Needed lens p n → lens = p ++ lensFrom i slots →
      (∀ w ∈ joinWrites granting fill split i slots st, w.Inside) →
      ∀ q c, q <+: lensFrom i slots → BlockSize lens c → c ≤ intMax →
        joinedLen (p ++ q) ≠ c ∧ joinedLen (p ++ q) ≠ c + 1 := by
  induction slots with
  | nil =>
    intro i n p ws st _ h hneed _ _ q c hq hc _
    have hnil : lensFrom i [] = [] := by simp [lensFrom]
    rw [hnil, List.prefix_nil] at hq
    rw [hq, List.append_nil]
    exact h.ends hg hneed hc
  | cons slot slots ih =>
    intro i n p ws st hi h hneed hlens hinside q c hq hc hmaxc
    rw [lensFrom_cons hi] at hlens hq
    by_cases hskip : i32OfNat (slotLen slot) = 0
    · rw [if_pos hskip] at hlens hq
      rw [joinWrites_step (joinSlot_skip hskip), slotWrites_skip hskip, List.nil_append] at hinside
      by_cases hlast : i = intMax
      · rw [hlast, lensFrom_last, List.prefix_nil] at hq
        rw [hq, List.append_nil]
        exact h.ends hg hneed hc
      · rw [if_neg hlast] at hinside
        exact ih (by omega) h hneed hlens hinside q c hq hc hmaxc
    · rw [if_neg hskip] at hlens hq
      cases slot with
      | none => exact absurd rfl hskip
      | some s =>
        rw [slotLen] at hlens hskip hq
        rcases List.prefix_cons_iff.mp hq with rfl | ⟨q', rfl, hq'⟩
        · rw [List.append_nil]
          exact h.ends hg hneed hc
        have hblock := h.grown hlens
        have hroom := h.joined.room
        have hint := hg.int s.val.length (by rw [hlens]; simp)
        have hpos : 0 < s.val.length := by
          rw [i32OfNat_of_lt hint] at hskip
          omega
        obtain ⟨hneed', hdouble⟩ := h.needed hg hneed hlens
        rw [List.append_cons]
        rcases slotWrites_cases h.joined granting fill hskip hint rfl with ⟨-, hno, -⟩ | ⟨-, hone, hnext⟩
        · -- the size of the block would not be an `int`
          rw [h.length] at hno hroom
          have hmax : intMax < Xarray.grown n (joinedLen p) s.val.length := by
            by_contra hle
            cases hno (by omega)
          rw [joinedLen_append, joinedLen_append, joinedLen_singleton]
          rcases h.block with ⟨hp, hn⟩ | ⟨hp, hn⟩
          · have hfirst := hg.first_le hc
            have hnil : joinedLen p = 0 := by rw [hp]; rfl
            rw [hn, hnil, grown_first _ (lensFrom (i + 1) slots), ← List.nil_append (_ :: _), ← hp,
              ← hlens] at hmax
            omega
          · have hint := h.joined.int
            obtain ⟨htwo, hlong⟩ := hdouble hp (by omega)
            have hcn : c ≤ n := by
              by_contra hlt
              have := hg.two_mul_le hn hc (by omega)
              omega
            omega
        · rw [h.length] at hone hnext hroom
          have hfirst : Write.Inside
            ⟨joinedLen p, s.val.length + 2, Xarray.grown n (joinedLen p) s.val.length⟩ := by
            refine hinside _ ?_
            rw [joinWrites, hone]
            exact List.mem_cons_self
          obtain ⟨st', hs, h'⟩ := hnext ((grown_room hroom hpos).mp hfirst)
          rw [joinWrites_step hs, hone] at hinside
          have hbetween := h.next hblock h'
          by_cases hlast : i = intMax
          · rw [hlast, lensFrom_last, List.prefix_nil] at hq'
            rw [hq', List.append_nil]
            exact hbetween.ends hg hneed' hc
          · rw [if_neg hlast] at hinside
            exact ih (by omega) hbetween hneed' (by rw [hlens]; simp)
              (fun w hw => hinside w (List.mem_cons_of_mem _ hw)) q' c hq' hc hmaxc

end Loop

/-! ## xarray2str -/

section

variable {a : XArray CString} {xs : List (Option CString)}

theorem between_init (split : Byte) (lens : List Nat) :
    Between split lens [] [] 256 { str := List.replicate 256 0, size := 256, offset := 0 } :=
  ⟨joined_init split, rfl, .inl ⟨rfl, rfl⟩⟩

theorem xarray2strWrites_eq (h : Slots a xs) {grant : Nat → Bool} (hgrant : grant 256 = true) (fill split : Byte) :
    xarray2strWrites grant fill split a =
      joinWrites grant fill split 0 xs { str := List.replicate 256 0, size := 256, offset := 0 } := by
  rw [xarray2strWrites, if_neg (by simp [hgrant]), h.data, h.count, List.take_left]

end

theorem stringLens_letters {n : Nat} (hpos : 0 < n) (hlt : n < 2 ^ 31) : stringLens [some (letters n)] = [n] := by
  have hdvd : ¬ 2 ^ 32 ∣ n := fun hd => by
    have := Nat.le_of_dvd hpos hd
    omega
  rw [stringLens, List.take_succ_cons, List.take_nil, List.map_singleton, slotLen_letters,
    List.filter_cons_of_pos (by simpa using hdvd), List.filter_nil]

theorem gradual_singleton {n : Nat} (hlt : n < 2 ^ 31) : Gradual [n] := by
  refine ⟨by simpa using hlt, fun p len hp hne => ?_⟩
  have hlen := hp.length_le
  rw [List.length_append, List.length_singleton, List.length_singleton] at hlen
  exact absurd (List.length_eq_zero_iff.mp (by omega)) hne

end Xarray
end Xlibc
