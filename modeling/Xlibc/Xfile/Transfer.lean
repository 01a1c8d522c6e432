import Xlibc.Base.Bytes
import Xlibc.Base.Transfer

/-!
# Xlibc.Xfile.Transfer

`xwrite` and `xread`, on a kernel that may transfer less than it is asked for, be interrupted, or fail.

* `Sent`, `Filled`  : what a transfer has done to the two sides.
* `xwrite_result`, `xread_result` : every call has made the transfer that it returns.
* `xwrite_returns`, `xread_returns` : on a schedule that is long enough they do return.
* `xwrite_xread_exact` : the bytes of a pipe, whatever the two schedules are.
-/

namespace Xlibc
namespace Xfile

/-! ## The code -/

/-- An object has less than half of the address space. -/
structure Buffer (w : Nat) where
  bytes : List Byte
  bound : bytes.length < 2 ^ (w - 1)

/-- `write(fd, buf + off, count)`, on what the kernel has accepted so far. -/
def write (buf : List Byte) : Call (List Byte) := fun accepted off count outcome =>
  if buf.length < off + count then none
  else match outcome with
    | .count n => some ((min n count : Nat), 0, accepted ++ (buf.drop off).take (min n count))
    | .fail errno => some (-1, errno, accepted)

/-- `read(fd, buf + off, count)`, on the buffer and what has not been read yet. The count 0 is the end of the
file. -/
def read : Call (List Byte × List Byte) := fun (buf, stream) off count outcome =>
  if buf.length < off + count then none
  else match outcome with
    | .count n => do
      let bs := stream.take (min n count)
      let buf ← storeBytes buf off bs
      some (bs.length, 0, buf, stream.drop bs.length)
    | .fail errno => some (-1, errno, buf, stream)

/-- `__xwrite` -/
def xwriteOnce (buf : List Byte) : List Byte → Nat → Nat → List Outcome →
    Option (Int × List Byte × List Outcome) :=
  retry (write buf)

/-- `__xread` -/
def xreadOnce : List Byte × List Byte → Nat → Nat → List Outcome →
    Option (Int × (List Byte × List Byte) × List Outcome) :=
  retry read

/-- What is returned, what the kernel has accepted, and the outcomes left. -/
def xwrite (w : Nat) (buf : Buffer w) (len : Nat) (accepted : List Byte) (schedule : List Outcome) :
    Option (Int × List Byte × List Outcome) :=
  drain (xwriteOnce buf.bytes) w false schedule.length accepted 0 len 0 schedule

/-- What is returned, the buffer and the rest of the stream, and the outcomes left. -/
def xread (w : Nat) (buf : Buffer w) (len : Nat) (stream : List Byte) (schedule : List Outcome) :
    Option (Int × (List Byte × List Byte) × List Outcome) :=
  drain xreadOnce w true schedule.length (buf.bytes, stream) 0 len 0 schedule

/-! ## Transfers -/

/-- `n` bytes from `buf + off` on have been accepted. -/
structure Sent (buf : List Byte) (off n : Nat) (accepted accepted' : List Byte) : Prop where
  bound : n = 0 ∨ off + n ≤ buf.length
  accepted : accepted' = accepted ++ (buf.drop off).take n

/-- `n` bytes of the stream have been put to `buf + off`, in a buffer and a stream that go together. -/
structure Filled (off n : Nat) (s s' : List Byte × List Byte) : Prop where
  available : n ≤ s.2.length
  length : s'.1.length = s.1.length
  taken : s'.1.take (off + n) = s.1.take off ++ s.2.take n
  behind : s'.1.drop (off + n) = s.1.drop (off + n)
  left : s'.2 = s.2.drop n

theorem Sent.zero (buf : List Byte) (off : Nat) (accepted : List Byte) : Sent buf off 0 accepted accepted :=
  ⟨.inl rfl, by rw [List.take_zero, List.append_nil]⟩

theorem Sent.trans {buf a a' a'' : List Byte} {off m n : Nat} (h : Sent buf off m a a')
    (h' : Sent buf (off + m) n a' a'') : Sent buf off (m + n) a a'' where
  bound := by
    have hm := h.bound
    have hn := h'.bound
    omega
  accepted := by
    rw [h'.accepted, h.accepted, List.append_assoc, ← List.drop_drop, ← List.take_add]

theorem Filled.zero (off : Nat) (s : List Byte × List Byte) : Filled off 0 s s where
  available := Nat.zero_le _
  length := rfl
  taken := by rw [List.take_zero, List.append_nil]; rfl
  behind := rfl
  left := rfl

theorem Filled.trans {off m n : Nat} {s s' s'' : List Byte × List Byte} (h : Filled off m s s')
    (h' : Filled (off + m) n s' s'') : Filled off (m + n) s s'' where
  available := by
    have hm := h.available
    have hn := h'.available
    rw [h.left, List.length_drop] at hn
    omega
  length := h'.length.trans h.length
  taken := by
    rw [← Nat.add_assoc, h'.taken, h.taken, h.left, List.append_assoc, ← List.take_add]
  behind := by
    have hdrop := congrArg (List.drop n) h.behind
    rw [List.drop_drop, List.drop_drop] at hdrop
    rw [← Nat.add_assoc, h'.behind, hdrop]
  left := by rw [h'.left, h.left, List.drop_drop]

/-! ## Calls -/

theorem write_parts (buf : List Byte) : Parts (write buf) (fun _ => buf.length) (Sent buf) where
  zero := Sent.zero buf
  trans := Sent.trans
  kept _ := rfl
  result := by
    intro accepted off count outcome n errno accepted' h
    unfold write at h
    split at h
    · cases h
    · next hroom =>
      refine ⟨by omega, ?_⟩
      split at h
      · next k =>
        cases h
        exact .inr ⟨min k count, Nat.min_le_right k count, rfl, ⟨.inr (by omega), rfl⟩⟩
      · cases h
        exact .inl ⟨rfl, rfl⟩

theorem write_answers (buf : List Byte) : Answers (write buf) (fun _ => buf.length) false where
  fail hroom := if_neg (Nat.not_lt_of_le hroom)
  count hroom hcount := ⟨_, _, if_neg (Nat.not_lt_of_le hroom), fun hn => .inl (by omega)⟩

theorem read_parts : Parts read (fun s => s.1.length) Filled where
  zero := Filled.zero
  trans := Filled.trans
  kept h := h.length
  result := by
    rintro ⟨buf, stream⟩ off count outcome n errno s' h
    unfold read at h
    dsimp only at h
    split at h
    · cases h
    · next hroom =>
      refine ⟨by dsimp only; omega, ?_⟩
      split at h
      · next k =>
        rw [Option.bind_eq_bind, Option.bind_eq_some_iff] at h
        obtain ⟨buf1, hstore, h⟩ := h
        cases h
        -- the stream may end before the count does
        have hlen : (stream.take (min k count)).length ≤ count := by
          rw [List.length_take]
          omega
        have hbs : stream.take (stream.take (min k count)).length = stream.take (min k count) := by
          rw [List.take_eq_take_iff, List.length_take]
          omega
        refine .inr ⟨(stream.take (min k count)).length, hlen, rfl, ?_⟩
        exact {
          available := by rw [List.length_take]; dsimp only; omega
          length := storeBytes_length hstore
          taken := by rw [take_storeBytes hstore, hbs]
          behind := drop_storeBytes hstore (Nat.le_refl _)
          left := rfl }
      · cases h
        exact .inl ⟨rfl, rfl⟩

theorem read_answers : Answers read (fun s => s.1.length) true where
  fail hroom := if_neg (Nat.not_lt_of_le hroom)
  count := by
    rintro ⟨buf, stream⟩ off count k hroom -
    dsimp only at hroom
    have hlen : (stream.take (min k count)).length ≤ count := by
      rw [List.length_take]
      omega
    obtain ⟨buf', hstore⟩ := storeBytes_some (stream.take (min k count)) (show off + _ ≤ buf.length by omega)
    refine ⟨(stream.take (min k count)).length, (buf', stream.drop (stream.take (min k count)).length), ?_,
      fun _ => .inr rfl⟩
    rw [read, if_neg (by omega)]
    simp only [hstore, Option.bind_eq_bind, Option.bind_some]

section Results

variable {w : Nat} {buf : Buffer w} {len : Nat} {schedule schedule' : List Outcome} {n : Int}

/-- What `n = xwrite(fd, buf, len)` says. -/
structure WriteExact (buf : List Byte) (len : Nat) (n : Int) (accepted accepted' : List Byte) : Prop where
  result : n = -1 ∨ 0 ≤ n
  done : 0 ≤ n → n ≤ len ∧ n ≤ buf.length ∧ accepted' = accepted ++ buf.take n.toNat
  failed : n = -1 → accepted' = accepted

/-- What `n = xread(fd, buf, len)` says. The buffer behind the first `n` bytes is not written. -/
structure ReadExact (buf : List Byte) (len : Nat) (n : Int) (stream buf' stream' : List Byte) : Prop where
  result : n = -1 ∨ 0 ≤ n
  done : 0 ≤ n → n ≤ len ∧ n ≤ stream.length ∧ buf'.length = buf.length ∧
    buf'.take n.toNat = stream.take n.toNat ∧ buf'.drop n.toNat = buf.drop n.toNat ∧
    stream' = stream.drop n.toNat
  failed : n = -1 → buf' = buf ∧ stream' = stream

theorem xwrite_result {accepted accepted' : List Byte}
    (h : xwrite w buf len accepted schedule = some (n, accepted', schedule')) :
    WriteExact buf.bytes len n accepted accepted' := by
  obtain ⟨rfl, -, hsent⟩ | ⟨m, hm, rfl, hsent⟩ := drain_result (write_parts buf.bytes) buf.bound h
  · refine ⟨.inl rfl, fun h0 => absurd h0 (by omega), fun _ => ?_⟩
    rw [hsent.accepted, List.take_zero, List.append_nil]
  · rw [Nat.zero_add]
    refine ⟨.inr (by omega), fun _ => ⟨by omega, ?_, ?_⟩, fun hneg => absurd hneg (by omega)⟩
    · have hbound := hsent.bound
      omega
    · rw [hsent.accepted, List.drop_zero, Int.toNat_natCast]

theorem xread_result {stream buf' stream' : List Byte}
    (h : xread w buf len stream schedule = some (n, (buf', stream'), schedule')) :
    ReadExact buf.bytes len n stream buf' stream' := by
  obtain ⟨rfl, -, hfilled⟩ | ⟨m, hm, rfl, hfilled⟩ := drain_result read_parts buf.bound h
  · refine ⟨.inl rfl, fun h0 => absurd h0 (by omega), fun _ => ?_⟩
    exact ⟨hfilled.behind, hfilled.left⟩
  · have htaken := hfilled.taken
    have hbehind := hfilled.behind
    have havail : m ≤ stream.length := hfilled.available
    rw [Nat.zero_add] at htaken hbehind
    rw [List.take_zero, List.nil_append] at htaken
    rw [Nat.zero_add]
    exact ⟨.inr (by omega), fun _ => ⟨by omega, by omega, hfilled.length, htaken, hbehind, hfilled.left⟩,
      fun hneg => absurd hneg (by omega)⟩

/-- Enough outcomes that do not interrupt, and the call returns. -/
theorem xwrite_returns (hlen : len ≤ buf.bytes.length) (accepted : List Byte)
    (h : len ≤ schedule.countP Outcome.proceeds) : ∃ r, xwrite w buf len accepted schedule = some r :=
  drain_returns (write_parts buf.bytes) (write_answers buf.bytes) (by omega) 0 (Nat.le_refl _) h

theorem xread_returns (hlen : len ≤ buf.bytes.length) (stream : List Byte)
    (h : len ≤ schedule.countP Outcome.proceeds) : ∃ r, xread w buf len stream schedule = some r :=
  drain_returns read_parts read_answers (by dsimp only; omega) 0 (Nat.le_refl _) h

end Results

/-! ## A pipe -/

section Pipe

variable {w : Nat}

/-- Calls of `xwrite`, one after the other, each with its buffer and length. -/
def xwrites (w : Nat) : List (Buffer w × Nat) → List Byte → List Outcome →
    Option (List Int × List Byte × List Outcome)
  | [], accepted, schedule => some ([], accepted, schedule)
  | (buf, len) :: calls, accepted, schedule => do
    let (n, accepted, schedule) ← xwrite w buf len accepted schedule
    let (ns, accepted, schedule) ← xwrites w calls accepted schedule
    some (n :: ns, accepted, schedule)

/-- Calls of `xread`: what each returns and leaves in its buffer, and the rest of the stream. -/
def xreads (w : Nat) : List (Buffer w × Nat) → List Byte → List Outcome →
    Option (List (Int × List Byte) × List Byte × List Outcome)
  | [], stream, schedule => some ([], stream, schedule)
  | (buf, len) :: calls, stream, schedule => do
    let (n, (buf, stream), schedule) ← xread w buf len stream schedule
    let (rs, stream, schedule) ← xreads w calls stream schedule
    some ((n, buf) :: rs, stream, schedule)

/-- The bytes that calls of `xwrite` report as written. -/
def written (calls : List (Buffer w × Nat)) (ns : List Int) : List Byte :=
  ((calls.zip ns).map fun c => c.1.1.bytes.take c.2.toNat).flatten

def received (rs : List (Int × List Byte)) : List Byte := (rs.map fun r => r.2.take r.1.toNat).flatten

theorem WriteExact.accepted {buf accepted accepted' : List Byte} {len : Nat} {n : Int}
    (h : WriteExact buf len n accepted accepted') : accepted' = accepted ++ buf.take n.toNat := by
  obtain rfl | h0 := h.result
  · rw [h.failed rfl]
    exact (List.append_nil _).symm
  · exact (h.done h0).2.2

theorem ReadExact.stream {buf buf' stream stream' : List Byte} {len : Nat} {n : Int}
    (h : ReadExact buf len n stream buf' stream') : stream = buf'.take n.toNat ++ stream' := by
  obtain rfl | h0 := h.result
  · exact (h.failed rfl).2.symm
  · obtain ⟨-, -, -, htake, -, hdrop⟩ := h.done h0
    rw [htake, hdrop, List.take_append_drop]

/-- The kernel has accepted what the calls report, in their order. -/
theorem xwrites_accepted {calls : List (Buffer w × Nat)} {accepted accepted' : List Byte}
    {schedule schedule' : List Outcome} {ns : List Int}
    (h : xwrites w calls accepted schedule = some (ns, accepted', schedule')) :
    accepted' = accepted ++ written calls ns := by
  induction calls generalizing accepted schedule ns with
  | nil =>
    cases h
    exact (List.append_nil _).symm
  | cons call calls ih =>
    obtain ⟨buf, len⟩ := call
    rw [xwrites, Option.bind_eq_bind, Option.bind_eq_some_iff] at h
    obtain ⟨⟨n, accepted1, schedule1⟩, hcall, h⟩ := h
    rw [Option.bind_eq_bind, Option.bind_eq_some_iff] at h
    obtain ⟨⟨ns1, accepted2, schedule2⟩, hcalls, h⟩ := h
    cases h
    rw [ih hcalls, (xwrite_result hcall).accepted, List.append_assoc]
    rfl

/-- The calls have read the stream up to where it is left. -/
theorem xreads_stream {calls : List (Buffer w × Nat)} {stream stream' : List Byte}
    {schedule schedule' : List Outcome} {rs : List (Int × List Byte)}
    (h : xreads w calls stream schedule = some (rs, stream', schedule')) : stream = received rs ++ stream' := by
  induction calls generalizing stream schedule rs with
  | nil =>
    cases h
    rfl
  | cons call calls ih =>
    obtain ⟨buf, len⟩ := call
    rw [xreads, Option.bind_eq_bind, Option.bind_eq_some_iff] at h
    obtain ⟨⟨n, ⟨buf', stream1⟩, schedule1⟩, hcall, h⟩ := h
    rw [Option.bind_eq_bind, Option.bind_eq_some_iff] at h
    obtain ⟨⟨rs1, stream2, schedule2⟩, hcalls, h⟩ := h
    cases h
    rw [(xread_result hcall).stream, ih hcalls, ← List.append_assoc]
    rfl

/-- **Whole transfers.** `xwrite` and `xread` report what they have transferred, for any schedule. In a pipe,
whose reader gets what the writer's kernel has accepted, what is read is what was written, and what has not been
read is left. -/
theorem xwrite_xread_exact (w : Nat) :
    (∀ (buf : Buffer w) len accepted schedule n accepted' schedule',
      xwrite w buf len accepted schedule = some (n, accepted', schedule') →
      WriteExact buf.bytes len n accepted accepted') ∧
    (∀ (buf : Buffer w) len stream schedule n buf' stream' schedule',
      xread w buf len stream schedule = some (n, (buf', stream'), schedule') →
      ReadExact buf.bytes len n stream buf' stream') ∧
    ∀ (calls calls' : List (Buffer w × Nat)) writes reads ns rs accepted left schedule schedule',
      xwrites w calls [] writes = some (ns, accepted, schedule) →
      xreads w calls' accepted reads = some (rs, left, schedule') →
      written calls ns = received rs ++ left := by
  refine ⟨fun _ _ _ _ _ _ _ h => xwrite_result h, fun _ _ _ _ _ _ _ _ h => xread_result h, ?_⟩
  intro calls calls' writes reads ns rs accepted left schedule schedule' hwrite hread
  have hsent := xwrites_accepted hwrite
  rw [List.nil_append] at hsent
  rw [← hsent]
  exact xreads_stream hread

/-- A failure behind two bytes, and the rest in a second call; on the other side an interrupted `read` and
a count of one. -/
theorem xwrite_xread_exact_short : ∃ accepted left,
    xwrites 32 [(⟨[1, 2, 3], by decide⟩, 3), (⟨[3], by decide⟩, 1)] [] [.count 2, .fail 5, .count 1] =
      some ([2, 1], accepted, []) ∧
    xreads 32 [(⟨[0, 0, 0], by decide⟩, 3)] accepted [.fail EINTR, .count 1, .count 9] =
      some ([(3, [1, 2, 3])], left, []) ∧
    [1, 2] ++ [3] = [1, 2, 3] ++ left := by
  have hwrite : xwrites 32 [(⟨[1, 2, 3], by decide⟩, 3), (⟨[3], by decide⟩, 1)] []
      [.count 2, .fail 5, .count 1] = some ([2, 1], [1, 2, 3], []) := rfl
  have hread : xreads 32 [(⟨[0, 0, 0], by decide⟩, 3)] [1, 2, 3] [.fail EINTR, .count 1, .count 9] =
      some ([(3, [1, 2, 3])], [], []) := rfl
  exact ⟨_, _, hwrite, hread, (xwrite_xread_exact 32).2.2 _ _ _ _ _ _ _ _ _ _ hwrite hread⟩

end Pipe

end Xfile
end Xlibc
