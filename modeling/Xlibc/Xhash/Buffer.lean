import Xlibc.Xhash.Walk

/-!
# Xlibc.Xhash.Buffer

`hash_buffer` puts what its callback gives for each datum behind each other. The block grows by one
step of `xmallocStep` bytes when a record does not fit, however long the record is.

* `outputs`        : the records, in the order of the chains.
* `capacity`, `Fits` : the size of the block behind `u` bytes, and the records that fit it in turn.
* `extendBuffer_room`, `bufferDatum_fits`, `bufferDatum_overrun` : one record.
* `foldlM_bufferDatum` : all of them.
* `hash_buffer_iff` : when the result is what it should be.
-/

namespace Xlibc
namespace Xhash

variable {δ : Type} {k : Option δ → Nat} {h : Hash (Option δ)} {cs : List (List (Cell (Option δ)))}
  {buf : δ → BufferRecord} {fill : Byte}

/-- What the callback gives for these data, where it gives something. -/
def outputs (buf : δ → BufferRecord) (ds : List (Option δ)) : List (List Byte) :=
  ((ds.filterMap id).map fun d => (buf d).bytes).filter (· ≠ [])

/-- The outputs behind each other are at the start of the block, and their length is returned; if there
is none, the block has been released and `-1` is returned. -/
def BuffersAll (onHeap : Bool) (buf : δ → BufferRecord) (fill : Byte) (h : Hash (Option δ))
    (ds : List (Option δ)) : Prop :=
  ∃ out, hashBuffer onHeap (some buf) fill h = some out ∧
    ((outputs buf ds).flatten ≠ [] → out.ret = (outputs buf ds).flatten.length ∧
      ∃ block, out.block = some block ∧
        block.take (outputs buf ds).flatten.length = (outputs buf ds).flatten) ∧
    ((outputs buf ds).flatten = [] → out.ret = -1 ∧ out.block = none)

/-- `u` bytes in full steps, one at least. -/
def capacity (u : Nat) : Nat := xmallocStep * max 1 ((u + (xmallocStep - 1)) / xmallocStep)

/-- Behind `u` bytes, each record ends at most one step behind the capacity that is there already. -/
def Fits : Nat → List Nat → Prop
  | _, [] => True
  | u, len :: lens => u + len ≤ capacity u + xmallocStep ∧ Fits (u + len) lens

/-- The largest total, in full steps, that is an `int`. -/
def maxBuffer : Nat := intMax - (xmallocStep - 1)

theorem outputs_cons_none (ds : List (Option δ)) : outputs buf (none :: ds) = outputs buf ds := rfl

theorem outputs_cons_some (d : δ) (ds : List (Option δ)) :
    outputs buf (some d :: ds) =
      if (buf d).len > 0 then (buf d).bytes :: outputs buf ds else outputs buf ds := by
  have hlen := (buf d).length_eq
  split
  · next hpos =>
    have hne : (buf d).bytes ≠ [] := fun hnil => by
      rw [hnil, List.length_nil] at hlen
      omega
    simp [outputs, hne]
  · next hpos =>
    have hnil : (buf d).bytes = [] := List.eq_nil_of_length_eq_zero (by omega)
    simp [outputs, hnil]

/-! ## One record -/

/-- The variables of the loop when `content` has been copied. -/
structure Filled (content : List Byte) (st : BufferState) : Prop where
  used : st.usedLen = content.length
  length : st.block.length = capacity content.length
  empty : st.emptyLen = capacity content.length - content.length
  blocks : xmallocStep * st.blocks = capacity content.length + xmallocStep
  take : st.block.take content.length = content
  int : capacity content.length ≤ intMax

theorem le_capacity (u : Nat) : u ≤ capacity u := by
  unfold capacity xmallocStep
  omega

/-- Full steps that are an `int` are at most `maxBuffer`. -/
theorem capacity_int (u : Nat) : capacity u ≤ intMax ↔ u ≤ maxBuffer := by
  unfold capacity maxBuffer xmallocStep intMax
  omega

theorem capacity_add {u len : Nat} (h1 : 1 ≤ len) (h : u + len ≤ capacity u + xmallocStep) :
    capacity (u + len) = if len > capacity u - u then capacity u + xmallocStep else capacity u := by
  unfold capacity xmallocStep at *
  split <;> omega

variable {content : List Byte} {st : BufferState} {d : δ}

/-- The same, with a block of `n` bytes. -/
structure Room (content : List Byte) (n : Nat) (st : BufferState) : Prop where
  used : st.usedLen = content.length
  length : st.block.length = n
  empty : st.emptyLen = n - content.length
  blocks : xmallocStep * st.blocks = n + xmallocStep
  take : st.block.take content.length = content

/-- One step more if the record does not fit, unless the size is no `int`. -/
theorem extendBuffer_room (hf : Filled content st) (fill : Byte) {len n : Nat}
    (hn : (if len > capacity content.length - content.length then capacity content.length + xmallocStep
      else capacity content.length) = n) :
    (n ≤ intMax → ∃ st', extendBuffer fill len st = some st' ∧ Room content n st') ∧
      (¬ n ≤ intMax → extendBuffer fill len st = none) := by
  have hcap := le_capacity content.length
  have hlength := hf.length
  have hblocks := hf.blocks
  rw [← hf.empty] at hn
  by_cases hmore : len > st.emptyLen
  · rw [if_pos hmore] at hn
    rw [extendBuffer, if_pos hmore, hblocks, hn]
    refine ⟨fun hint => ⟨_, if_neg (by omega), hf.used, ?_, ?_, ?_, ?_⟩, fun hint => if_pos (by omega)⟩
    · show (reallocBytes fill st.block n).length = n
      rw [reallocBytes, List.length_append, List.length_replicate, hlength]
      omega
    · show st.emptyLen + xmallocStep = n - content.length
      rw [hf.empty]
      omega
    · show xmallocStep * (st.blocks + 1) = n + xmallocStep
      rw [Nat.mul_succ, hblocks, hn]
    · show (reallocBytes fill st.block n).take content.length = content
      rw [reallocBytes, List.take_append_of_le_length (by omega), hf.take]
  · rw [if_neg hmore] at hn
    subst hn
    rw [extendBuffer, if_neg hmore]
    exact ⟨fun _ => ⟨st, rfl, hf.used, hlength, hf.empty, hblocks, hf.take⟩, fun hint => absurd hf.int hint⟩

/-- A record that ends in the block. -/
theorem Room.write {n : Nat} (hr : Room content n st) (r : BufferRecord)
    (hfit : content.length + r.bytes.length ≤ n) :
    ∃ block, storeBytes st.block st.usedLen r.bytes = some block ∧
      Room (content ++ r.bytes) n { st with
        block := block
        usedLen := st.usedLen + r.len.toNat
        emptyLen := st.emptyLen - r.len.toNat } := by
  have hlen := r.length_eq
  obtain ⟨block, hstore⟩ : ∃ block, storeBytes st.block st.usedLen r.bytes = some block :=
    storeBytes_some r.bytes (by rw [hr.used, hr.length]; exact hfit)
  have htake := take_storeBytes hstore
  rw [hr.used, hr.take] at htake
  refine ⟨block, hstore, ?_, (storeBytes_length hstore).trans hr.length, ?_, hr.blocks, ?_⟩
  · show st.usedLen + r.len.toNat = _
    rw [List.length_append, hlen, hr.used]
  · show st.emptyLen - r.len.toNat = _
    rw [List.length_append, hlen, hr.empty]
    omega
  · show block.take _ = _
    rw [List.length_append, htake]

/-- A record that fits, possibly with one step more. -/
theorem bufferDatum_fits (fill : Byte) (hf : Filled content st) (hpos : (buf d).len > 0)
    (hfit : content.length + (buf d).bytes.length ≤ capacity content.length + xmallocStep)
    (hmax : content.length + (buf d).bytes.length ≤ maxBuffer) :
    ∃ st', bufferDatum buf fill st (some d) = some st' ∧ Filled (content ++ (buf d).bytes) st' := by
  have hlen := (buf d).length_eq
  have hint := (capacity_int _).mpr hmax
  have hnext := capacity_add (by omega) hfit
  rw [hlen] at hnext
  obtain ⟨st1, hext, hr⟩ := (extendBuffer_room hf fill hnext.symm).1 (by rw [← hlen]; exact hint)
  rw [← hlen] at hr
  obtain ⟨block, hstore, hr'⟩ := hr.write (buf d) (le_capacity _)
  refine ⟨_, ?_, hr'.used, ?_, ?_, ?_, hr'.take, ?_⟩
  · rw [bufferDatum, if_pos hpos, hext, Option.bind_eq_bind, Option.bind_some, hstore,
      Option.bind_eq_bind, Option.bind_some]
  · rw [hr'.length, List.length_append]
  · rw [hr'.empty, List.length_append]
  · rw [hr'.blocks, List.length_append]
  · rw [List.length_append]
    exact hint

/-- A record that is longer than what is left and one step, or for which the size of the block is no
`int`. -/
theorem bufferDatum_overrun (fill : Byte) (hf : Filled content st) (hpos : (buf d).len > 0)
    (hover : ¬ (content.length + (buf d).bytes.length ≤ capacity content.length + xmallocStep ∧
      content.length + (buf d).bytes.length ≤ maxBuffer)) :
    bufferDatum buf fill st (some d) = none := by
  have hlen := (buf d).length_eq
  obtain ⟨n, hn⟩ : ∃ n, (if (buf d).len.toNat > capacity content.length - content.length then
      capacity content.length + xmallocStep else capacity content.length) = n := ⟨_, rfl⟩
  obtain ⟨hyes, hno⟩ := extendBuffer_room hf fill hn
  rw [bufferDatum, if_pos hpos]
  by_cases hint : n ≤ intMax
  · obtain ⟨st1, hext, hr⟩ := hyes hint
    have hlong : ¬ content.length + (buf d).bytes.length ≤ n := by
      intro hle
      have hstep : n ≤ capacity content.length + xmallocStep := by
        rw [← hn]
        split <;> omega
      refine hover ⟨by omega, (capacity_int _).mp ?_⟩
      rw [capacity_add (by omega) (by omega), hlen, hn]
      exact hint
    rw [hext, Option.bind_eq_bind, Option.bind_some, storeBytes, if_neg (by rw [hr.used, hr.length]; exact hlong)]
    rfl
  · rw [hno hint]
    rfl

/-! ## All of them -/

/-- The records behind `content`, by induction on the data. -/
theorem foldlM_bufferDatum (buf : δ → BufferRecord) (fill : Byte) (ds : List (Option δ)) : ∀ {content : List Byte}
    {st : BufferState},
    Filled content st →
    (Fits content.length ((outputs buf ds).map List.length) ∧
        content.length + (outputs buf ds).flatten.length ≤ maxBuffer →
      ∃ st', ds.foldlM (bufferDatum buf fill) st = some st' ∧
        Filled (content ++ (outputs buf ds).flatten) st') ∧
    (¬ (Fits content.length ((outputs buf ds).map List.length) ∧
        content.length + (outputs buf ds).flatten.length ≤ maxBuffer) →
      ds.foldlM (bufferDatum buf fill) st = none) := by
  induction ds with
  | nil =>
    intro content st hf
    refine ⟨fun _ => ⟨st, rfl, by simpa [outputs] using hf⟩, fun hno => absurd ⟨trivial, ?_⟩ hno⟩
    simpa [outputs] using (capacity_int _).mp hf.int
  | cons x ds ih =>
    intro content st hf
    cases x with
    | none =>
      rw [outputs_cons_none]
      exact ih hf
    | some d =>
      rw [outputs_cons_some, List.foldlM_cons]
      by_cases hpos : (buf d).len > 0
      · rw [if_pos hpos, List.map_cons, List.flatten_cons, List.length_append, Fits]
        by_cases hfit : content.length + (buf d).bytes.length ≤ capacity content.length + xmallocStep ∧
            content.length + (buf d).bytes.length ≤ maxBuffer
        · obtain ⟨st1, hstep, hf1⟩ := bufferDatum_fits fill hf hpos hfit.1 hfit.2
          obtain ⟨hyes, hno⟩ := ih hf1
          rw [List.length_append, Nat.add_assoc] at hyes hno
          rw [hstep, Option.bind_eq_bind, Option.bind_some, ← List.append_assoc]
          exact ⟨fun hall => hyes ⟨hall.1.2, hall.2⟩, fun hnot => hno fun hall => hnot
            ⟨⟨hfit.1, hall.1⟩, hall.2⟩⟩
        · have hnone := bufferDatum_overrun fill hf hpos hfit
          rw [hnone]
          exact ⟨fun hall => absurd ⟨hall.1.1, by omega⟩ hfit, fun _ => rfl⟩
      · have hskip : bufferDatum buf fill st (some d) = some st := by rw [bufferDatum, if_neg hpos]
        rw [if_neg hpos, hskip, Option.bind_eq_bind, Option.bind_some]
        exact ih hf

/-- The loops over the table are one fold over its data. -/
theorem hashBuffer_loops (buf : δ → BufferRecord) (fill : Byte) (ht : Table k h cs)
    (hsize : h.size ≤ intMax) (st : BufferState) :
    forInt (fun i st => do
      let head ← h.index[i]?
      let bs ← walkChain h.buckets h.buckets.entries.length head
      (bs.map (·.data)).foldlM (bufferDatum buf fill) st) 0 h.size st =
      (stored cs).foldlM (bufferDatum buf fill) st := by
  have hlen : (cs.map chainData).length = h.size := by rw [List.length_map, ht.size]
  have hflat : (cs.map chainData).flatten = stored cs := by
    rw [stored, List.map_flatten]
    rfl
  rw [← hlen, ← hflat]
  refine forInt_foldlM (cs.map chainData) 0 st (by omega) fun i l hl st => ?_
  obtain ⟨hi, -⟩ := List.getElem?_eq_some_iff.mp hl
  obtain ⟨head, c, hget, hc, hchain, hfuel⟩ := ht.chain_at (i := i) (by omega)
  obtain ⟨bs, hrun, hbs⟩ := walkChain_spec hchain hfuel
  have hdata : bs.map (·.data) = chainData c := data_of_vals hbs
  obtain rfl : chainData c = l := by
    rw [List.getElem?_map, hc] at hl
    exact Option.some.inj hl
  rw [Nat.zero_add, hget]
  simp only [Option.bind_eq_bind, Option.bind_some, hrun, hdata]

theorem filled_init (fill : Byte) :
    Filled [] { block := List.replicate xmallocStep fill, usedLen := 0, emptyLen := xmallocStep, blocks := 2 } where
  used := rfl
  length := List.length_replicate
  empty := rfl
  blocks := rfl
  take := rfl
  int := by decide

/-- **The buffer of a table.** `hash_buffer` does as it should exactly when its counter can pass over the
table, the callback gives something at all, each record ends at most one step behind the capacity that
is there already, and the whole is at most `maxBuffer` bytes. When the callback gives nothing it frees
the caller's pointer instead of the block. -/
theorem hash_buffer_iff (ht : Table k h cs) (onHeap : Bool) (buf : δ → BufferRecord) (fill : Byte) :
    BuffersAll onHeap buf fill h (stored cs) ↔
      h.size ≤ intMax ∧ (outputs buf (stored cs)).flatten ≠ [] ∧
        Fits 0 ((outputs buf (stored cs)).map List.length) ∧
        (outputs buf (stored cs)).flatten.length ≤ maxBuffer := by
  rcases Nat.lt_or_ge intMax h.size with hlarge | hsize
  · refine iff_of_false ?_ fun hall => by omega
    rintro ⟨out, hrun, -⟩
    rw [hashBuffer, forInt_overflow (Nat.zero_le _) (by omega)] at hrun
    cases hrun
  · obtain ⟨hyes, hno⟩ := foldlM_bufferDatum buf fill (stored cs) (filled_init fill)
    have hloops := hashBuffer_loops buf fill ht hsize
    rw [List.length_nil, Nat.zero_add, List.nil_append] at hyes
    rw [List.length_nil, Nat.zero_add] at hno
    constructor
    · rintro ⟨out, hrun, -, hempty⟩
      rw [hashBuffer, hloops] at hrun
      have hfit := not_imp_comm.mp hno fun hnone => by
        rw [hnone] at hrun
        cases hrun
      refine ⟨hsize, fun hnil => ?_, hfit⟩
      -- nothing has been copied: the block is still there, or `free` has faulted
      obtain ⟨st, hfold, hf⟩ := hyes hfit
      have hused : st.usedLen = 0 := by rw [hf.used, hnil]; rfl
      rw [hfold, Option.bind_eq_bind, Option.bind_some, if_pos hused] at hrun
      cases onHeap with
      | false => cases hrun
      | true =>
        cases hrun
        cases (hempty hnil).2
    · rintro ⟨-, hne, hfit⟩
      obtain ⟨st, hfold, hf⟩ := hyes hfit
      have hused : ¬ st.usedLen = 0 := by
        rw [hf.used]
        exact fun h0 => hne (List.eq_nil_of_length_eq_zero h0)
      refine ⟨⟨st.usedLen, some st.block, false⟩, ?_, fun _ => ⟨?_, st.block, rfl, hf.take⟩,
        fun hnil => absurd hnil hne⟩
      · rw [hashBuffer, hloops, hfold, Option.bind_eq_bind, Option.bind_some, if_neg hused]
      · show (st.usedLen : Int) = _
        rw [hf.used]

/-! ## A table of one datum -/

/-- One place and one datum in it. -/
def oneDatum (d : Option δ) : Hash (Option δ) :=
  { index := [some 0], size := 1, count := 1,
    buckets := (∅ : Store (HashBucket (Option δ))).insert 0 { next := none, key := 0, data := d } }

theorem oneDatum_table (d : Option δ) : Table (fun _ => 0) (oneDatum d) [[(0, 0, d)]] := by
  have hnew : Table (fun _ => 0) (hashCreateSize 1 : Hash (Option δ)) [[]] :=
    hashCreateSize_table _ (by omega)
  have hfocus : Focus (hashCreateSize 1 : Hash (Option δ)) 0 [] none [] [] [] [] :=
    ⟨rfl, rfl, rfl, .nil, rfl, .nil⟩
  exact Table.push hnew hfocus rfl ⟨rfl, rfl⟩

/-- The callback that gives as many bytes as its datum says. -/
def zeros (n : Nat) : BufferRecord where
  len := min n intMax
  bytes := List.replicate (min n intMax) 0
  length_eq := by
    rw [List.length_replicate]
    omega
  len_le := by omega

/-- A record of 200 bytes: the block is extended once. -/
theorem hash_buffer_200 : BuffersAll false zeros 0 (oneDatum (some 200)) (stored [[(0, 0, some 200)]]) :=
  (hash_buffer_iff (oneDatum_table (some 200)) false zeros 0).mpr
    ⟨by decide, by decide +kernel, ⟨by decide +kernel, trivial⟩, by decide +kernel⟩

/-- A record of 300 bytes: the block has 128 bytes, and the one step that it is extended by gives
it 256. -/
theorem hash_buffer_overrun :
    Table (fun _ => 0) (oneDatum (some 300)) [[(0, 0, some 300)]] ∧
      ¬ BuffersAll false zeros 0 (oneDatum (some 300)) (stored [[(0, 0, some 300)]]) := by
  refine ⟨oneDatum_table (some 300), ?_⟩
  have hnone : hashBuffer false (some zeros) 0 (oneDatum (some 300)) = none := by decide +kernel
  rintro ⟨out, hrun, -⟩
  rw [hnone] at hrun
  cases hrun

end Xhash
end Xlibc
