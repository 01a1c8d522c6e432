import Xlibc.Base.Run
import Xlibc.Xipcmsg.Recv

/-!
# Xlibc.Xipcmsg.Close

The end of a stream. A call of `ipcmsg_tcp_recv` returns 0 when the peer has closed, but also for an
empty payload, and for a payload that the peer has not finished.

* `RecvStep`           : a receiver that goes on while it is given messages.
* `EndsRight`          : 0 is returned at the end of the stream, at a frame boundary, and only there.
* `tcp_ends_right_iff` : when a stream that is cut anywhere ends so.
-/

namespace Xlibc
namespace Xipcmsg

/-- The buffer and the connection. -/
abbrev Receiver : Type := List Byte × Conn

/-- A call that returns a message. -/
def RecvStep (T : Transport) (bufflen : Nat) (s : Receiver) (n : Int) (s' : Receiver) : Prop :=
  ipcmsgTcpRecv T.recv s.2 s.1 bufflen = some (n, s'.1, s'.2) ∧ 0 < n

/-- So many bytes are whole frames. -/
def AtFrameEnd (ps : List (List Byte)) (k : Nat) : Prop := ∃ qs, qs <+: ps ∧ k = framesLength qs

/-- The next call returns 0 if and only if the stream has ended, and at a frame boundary. -/
def ZeroRight (T : Transport) (bufflen : Nat) (boundary : Prop) (s : Receiver) : Prop :=
  ∃ n buffer c, ipcmsgTcpRecv T.recv s.2 s.1 bufflen = some (n, buffer, c) ∧
    (n = 0 ↔ s.2.rest = [] ∧ boundary)

/-- So does every call from here on. -/
def AllRight (T : Transport) (bufflen : Nat) (boundary : Prop) (s : Receiver) : Prop :=
  ∀ ns t, Run (RecvStep T bufflen) s ns t → ZeroRight T bufflen boundary t

/-- The calls on the first `k` bytes of a stream. -/
def EndsRight (T : Transport) (ps : List (List Byte)) (stream : List Byte) (k : Nat) (buffer : List Byte)
    (bufflen : Nat) : Prop :=
  AllRight T bufflen (AtFrameEnd ps k) (buffer, ⟨0, stream.take k⟩)

/-- Whole frames, none of them empty or too long for an `int`, and at most a part of a header. -/
def CutClean (ps : List (List Byte)) (k : Nat) : Prop :=
  ∃ qs rs, ps = qs ++ rs ∧ (∀ q ∈ qs, 1 ≤ q.length ∧ q.length < 2 ^ 31) ∧
    framesLength qs ≤ k ∧ (rs = [] ∨ k < framesLength qs + tcpHdrLen)

/-! ## Where a stream is cut -/

theorem cutClean_nil (k : Nat) : CutClean [] k :=
  ⟨[], [], rfl, fun _ hq => absurd hq List.not_mem_nil, Nat.zero_le k, .inl rfl⟩

theorem cutClean_cons (p : List Byte) (ps : List (List Byte)) (k : Nat) :
    CutClean (p :: ps) k ↔ k < tcpHdrLen ∨ ((1 ≤ p.length ∧ p.length < 2 ^ 31) ∧
      tcpHdrLen + p.length ≤ k ∧ CutClean ps (k - (tcpHdrLen + p.length))) := by
  constructor
  · rintro ⟨qs, rs, hsplit, hqs, hle, hrs⟩
    cases qs with
    | nil =>
      rcases hrs with rfl | hlt
      · cases hsplit
      · exact .inl (by rw [← Nat.zero_add tcpHdrLen]; exact hlt)
    | cons q qs =>
      cases hsplit
      rw [framesLength_cons] at hle hrs
      rw [List.forall_mem_cons] at hqs
      refine .inr ⟨hqs.1, by omega, qs, rs, rfl, hqs.2, by omega, ?_⟩
      rcases hrs with hnil | hlt
      · exact .inl hnil
      · exact .inr (by omega)
  · rintro (hlt | ⟨hp, hle, qs, rs, rfl, hqs, hle', hrs⟩)
    · exact ⟨[], p :: ps, rfl, fun _ hq => absurd hq List.not_mem_nil, Nat.zero_le k,
        .inr (by show k < 0 + tcpHdrLen; omega)⟩
    · refine ⟨p :: qs, rs, rfl, List.forall_mem_cons.mpr ⟨hp, hqs⟩, by rw [framesLength_cons]; omega, ?_⟩
      rw [framesLength_cons]
      rcases hrs with hnil | hlt
      · exact .inl hnil
      · exact .inr (by omega)

theorem atFrameEnd_zero (ps : List (List Byte)) : AtFrameEnd ps 0 := ⟨[], List.nil_prefix, rfl⟩

theorem atFrameEnd_cons {p : List Byte} {ps : List (List Byte)} {k : Nat} (hk : tcpHdrLen + p.length ≤ k) :
    AtFrameEnd (p :: ps) k ↔ AtFrameEnd ps (k - (tcpHdrLen + p.length)) := by
  constructor
  · rintro ⟨qs, hpre, rfl⟩
    cases qs with
    | nil =>
      have hzero : framesLength [] = 0 := rfl
      have hhdr : 0 < tcpHdrLen := by decide
      omega
    | cons q qs =>
      obtain ⟨rfl, hrest⟩ := List.cons_prefix_cons.mp hpre
      refine ⟨qs, hrest, ?_⟩
      rw [framesLength_cons]
      omega
  · rintro ⟨qs, hpre, hk'⟩
    refine ⟨p :: qs, List.cons_prefix_cons.mpr ⟨rfl, hpre⟩, ?_⟩
    rw [framesLength_cons, ← hk']
    omega

/-! ## The call at a cut -/

section Cut

variable {T : Transport} {off bufflen : Nat} {buffer : List Byte}

/-- The stream has ended. -/
theorem recv_ended (T : Transport) (off : Nat) (buffer : List Byte) (bufflen : Nat) :
    ∃ c, ipcmsgTcpRecv T.recv ⟨off, []⟩ buffer bufflen = some (0, buffer, c) := by
  simp only [ipcmsgTcpRecv, Transport.recv, List.take_nil]
  exact ⟨_, rfl⟩

/-- Only a part of a header has come. -/
theorem recv_part_header {rest : List Byte} (hpos : rest ≠ []) (hlt : rest.length < tcpHdrLen) :
    ∃ c, ipcmsgTcpRecv T.recv ⟨off, rest⟩ buffer bufflen = some (-1, buffer, c) := by
  have hk := T.pos off tcpHdrLen (by decide)
  obtain ⟨b, bs, hbs⟩ : ∃ b bs, rest.take (T.deliver off tcpHdrLen) = b :: bs := by
    refine List.exists_cons_of_length_pos ?_
    have := List.length_pos_iff.mpr hpos
    rw [List.length_take]
    omega
  have hlen : (b :: bs).length ≠ tcpHdrLen := by
    rw [← hbs, List.length_take]
    omega
  simp only [ipcmsgTcpRecv, Transport.recv, hbs]
  rw [if_pos hlen]
  exact ⟨_, rfl⟩

/-- The payload ends before it is complete. -/
theorem tcpRecvLoop_ended : ∀ (fuel nleft off nread : Nat) (rest buffer : List Byte), nleft ≤ fuel →
    rest.length < nleft → nread + nleft ≤ buffer.length →
    ∃ buffer' c, tcpRecvLoop T.recv fuel ⟨off, rest⟩ buffer nread nleft = some (0, buffer', c) := by
  intro fuel
  induction fuel with
  | zero =>
    intro nleft off nread rest buffer hfuel hrest _
    omega
  | succ fuel ih =>
    intro nleft off nread rest buffer hfuel hrest hbuf
    have hint : (nleft : Int) > 0 := by omega
    have hk := T.pos off nleft (by omega)
    cases hbs : rest.take (T.deliver off nleft) with
    | nil =>
      rw [tcpRecvLoop, if_pos hint]
      simp only [Int.toNat_natCast, Transport.recv, hbs]
      exact ⟨_, _, rfl⟩
    | cons b bs =>
      have hlen : (b :: bs).length ≤ rest.length := by
        rw [← hbs, List.length_take]
        omega
      have hdrop : (rest.drop (T.deliver off nleft)).length + (b :: bs).length = rest.length := by
        rw [← hbs, List.length_drop, List.length_take]
        omega
      rw [List.length_cons] at hlen hdrop
      obtain ⟨block, hstore⟩ := storeBytes_some (b :: bs)
        (show nread + (b :: bs).length ≤ buffer.length by rw [List.length_cons]; omega)
      have hblock := storeBytes_length hstore
      obtain ⟨buffer', c, hrun⟩ := ih (nleft - (b :: bs).length) (off + (b :: bs).length)
        (nread + (b :: bs).length) (rest.drop (T.deliver off nleft)) block (by rw [List.length_cons]; omega)
        (by rw [List.length_cons]; omega) (by rw [hblock, List.length_cons]; omega)
      have hsub : (nleft : Int) - (b :: bs).length = ((nleft - (b :: bs).length : Nat) : Int) := by
        rw [List.length_cons]
        omega
      refine ⟨buffer', c, ?_⟩
      rw [tcpRecvLoop, if_pos hint]
      simp only [Int.toNat_natCast, Transport.recv, hbs, hstore, Option.bind_eq_bind, Option.bind_some, hsub]
      exact hrun

/-- A payload of which not all has come. -/
theorem recv_part_payload {len : Nat} (body : List Byte) (hd : T.deliver off tcpHdrLen = tcpHdrLen)
    (hlen : len < 2 ^ 31) (hle : len ≤ bufflen) (hbuf : buffer.length = bufflen) (hbody : body.length < len) :
    ∃ buffer' c, ipcmsgTcpRecv T.recv ⟨off, tcpHdr len ++ body⟩ buffer bufflen = some (0, buffer', c) := by
  rw [ipcmsgTcpRecv_header hd (by omega) hle, i32OfNat_of_lt hlen, Int.toNat_natCast]
  exact tcpRecvLoop_ended len len (off + tcpHdrLen) 0 body buffer (Nat.le_refl _) hbody (by omega)

/-- A header that announces nothing, or more than an `int` counts. -/
theorem recv_no_payload {len : Nat} (body : List Byte) (hd : T.deliver off tcpHdrLen = tcpHdrLen)
    (hlen : len < 2 ^ 32) (hle : len ≤ bufflen) (hnone : len = 0 ∨ 2 ^ 31 ≤ len) :
    ∃ c, ipcmsgTcpRecv T.recv ⟨off, tcpHdr len ++ body⟩ buffer bufflen = some (0, buffer, c) := by
  have hneg : ¬ i32OfNat len > 0 := by
    unfold i32OfNat
    split <;> omega
  rw [ipcmsgTcpRecv_header hd hlen hle, tcpRecvLoop.eq_def]
  simp only [hneg, if_false]
  exact ⟨_, rfl⟩

/-- A call that returns no message is the last one. -/
theorem allRight_last {boundary : Prop} {rest buffer' : List Byte} {n : Int} {c : Conn} (hn : n ≤ 0)
    (hrun : ipcmsgTcpRecv T.recv ⟨off, rest⟩ buffer bufflen = some (n, buffer', c)) :
    AllRight T bufflen boundary (buffer, ⟨off, rest⟩) ↔ (n = 0 ↔ rest = [] ∧ boundary) := by
  unfold AllRight
  rw [Run.forall_iff]
  constructor
  · rintro ⟨⟨m, b, c', hcall, hiff⟩, -⟩
    rw [hrun] at hcall
    cases hcall
    exact hiff
  · intro hiff
    refine ⟨⟨n, buffer', c, hrun, hiff⟩, ?_⟩
    rintro m s ⟨hcall, hpos⟩
    rw [hrun] at hcall
    cases hcall
    omega

/-- Behind a call that returns a message. -/
theorem allRight_message {boundary : Prop} {rest buffer' : List Byte} {n : Int} {c : Conn} (hn : 0 < n)
    (hne : rest ≠ []) (hrun : ipcmsgTcpRecv T.recv ⟨off, rest⟩ buffer bufflen = some (n, buffer', c)) :
    AllRight T bufflen boundary (buffer, ⟨off, rest⟩) ↔ AllRight T bufflen boundary (buffer', c) := by
  unfold AllRight
  rw [Run.forall_iff]
  constructor
  · rintro ⟨-, hnext⟩
    exact hnext n (buffer', c) ⟨hrun, hn⟩
  · intro hnext
    refine ⟨⟨n, buffer', c, hrun, iff_of_false (by omega) fun hend => hne hend.1⟩, ?_⟩
    rintro m s ⟨hcall, -⟩
    rw [hrun] at hcall
    cases hcall
    exact hnext

/-- A call that returns 0 with something left to read. -/
theorem not_allRight {boundary : Prop} {rest buffer' : List Byte} {c : Conn} (hne : rest ≠ [])
    (hrun : ipcmsgTcpRecv T.recv ⟨off, rest⟩ buffer bufflen = some (0, buffer', c)) :
    ¬ AllRight T bufflen boundary (buffer, ⟨off, rest⟩) := by
  rw [allRight_last (Int.le_refl 0) hrun]
  exact fun hiff => hne (hiff.mp rfl).1

end Cut

/-- A stream that ends in front of a frame, or in its header. -/
theorem allRight_header {T : Transport} {off bufflen k : Nat} {buffer : List Byte} (n : Nat) (rest : List Byte)
    (ps : List (List Byte)) (hlt : k < tcpHdrLen) :
    AllRight T bufflen (AtFrameEnd ps k) (buffer, ⟨off, (tcpHdr n ++ rest).take k⟩) := by
  have hhdr : (tcpHdr n).length = tcpHdrLen := tcpHdr_length _
  rw [List.take_append_of_le_length (by omega)]
  have hlen : ((tcpHdr n).take k).length = k := by
    rw [List.length_take]
    omega
  rcases Nat.eq_zero_or_pos k with rfl | hpos
  · obtain ⟨c, hrun⟩ := recv_ended T off buffer bufflen
    rw [List.take_zero, allRight_last (Int.le_refl 0) hrun]
    exact iff_of_true rfl ⟨rfl, atFrameEnd_zero _⟩
  · have hne : (tcpHdr n).take k ≠ [] := List.ne_nil_of_length_pos (by omega)
    obtain ⟨c, hrun⟩ := recv_part_header hne (by omega)
    rw [allRight_last (by omega) hrun]
    exact iff_of_false (by omega) fun hend => hne hend.1

/-- The calls behind `off`, whatever the buffer holds before each. -/
theorem allRight_iff {T : Transport} {bufflen : Nat} (hb : bufflen < 2 ^ 32) :
    ∀ (ps : List (List Byte)) (off k : Nat) (buffer stream : List Byte), buffer.length = bufflen →
      (∀ p ∈ ps, p.length ≤ bufflen) → sendAll ps = some stream → HeadersWhole T off ps →
      k ≤ stream.length →
      (AllRight T bufflen (AtFrameEnd ps k) (buffer, ⟨off, stream.take k⟩) ↔ CutClean ps k) := by
  intro ps
  induction ps with
  | nil =>
    intro off k buffer stream _ _ hsend _ hk
    cases hsend
    obtain rfl : k = 0 := by simpa using hk
    obtain ⟨c, hrun⟩ := recv_ended T off buffer bufflen
    rw [List.take_nil, allRight_last (Int.le_refl 0) hrun]
    exact iff_of_true (iff_of_true rfl ⟨rfl, atFrameEnd_zero []⟩) (cutClean_nil 0)
  | cons p ps ih =>
    intro off k buffer stream hbuf hps hsend hwhole hk
    obtain ⟨hple, hrests⟩ := List.forall_mem_cons.mp hps
    obtain ⟨rest, hrest, rfl⟩ := sendAll_cons (by omega) hsend
    have hhdr : (tcpHdr p.length).length = tcpHdrLen := tcpHdr_length _
    rw [cutClean_cons]
    rcases Nat.lt_or_ge k tcpHdrLen with hlt | hge
    · exact iff_of_true (allRight_header _ _ _ hlt) (.inl hlt)
    · have htake : (tcpHdr p.length ++ (p ++ rest)).take k =
          tcpHdr p.length ++ (p ++ rest).take (k - tcpHdrLen) := by
        rw [List.take_append, hhdr, List.take_of_length_le (by omega)]
      have hne : ∀ body, tcpHdr p.length ++ body ≠ [] := fun body => nofun
      rw [htake]
      by_cases hint : 1 ≤ p.length ∧ p.length < 2 ^ 31
      · rcases Nat.lt_or_ge k (tcpHdrLen + p.length) with hcut | hall
        · -- the stream ends in the payload
          obtain ⟨buffer', c, hrun⟩ := recv_part_payload ((p ++ rest).take (k - tcpHdrLen))
            hwhole.1 hint.2 hple hbuf (by rw [List.length_take]; omega)
          exact iff_of_false (not_allRight (hne _) hrun) (by omega)
        · -- the payload comes out, and the next call starts behind it
          have hbody : (p ++ rest).take (k - tcpHdrLen) = p ++ rest.take (k - (tcpHdrLen + p.length)) := by
            rw [List.take_append, List.take_of_length_le (by omega)]
            congr 2
            omega
          obtain ⟨buffer', hrun, hlen', -⟩ := ipcmsgTcpRecv_whole (rest.take (k - (tcpHdrLen + p.length)))
            hwhole.1 hint.2 hple hbuf
          rw [List.length_append, List.length_append, hhdr] at hk
          rw [hbody, allRight_message (by omega) (hne _) hrun, atFrameEnd_cons hall,
            ih _ _ buffer' rest hlen' hrests hrest hwhole.2 (by omega)]
          constructor
          · intro hclean
            exact .inr ⟨hint, hall, hclean⟩
          · rintro (hlt | ⟨-, -, hclean⟩)
            · omega
            · exact hclean
      · obtain ⟨c, hrun⟩ := recv_no_payload ((p ++ rest).take (k - tcpHdrLen)) hwhole.1 (by omega) hple (by omega)
        exact iff_of_false (not_allRight (hne _) hrun) (by omega)

/-- **The end of a stream.** A stream of frames that is cut anywhere ends with a 0 at a frame boundary, and
shows no 0 otherwise, if and only if none of its whole frames is empty or too long for an `int`, and it
is not cut behind a header. -/
theorem tcp_ends_right_iff {T : Transport} {ps : List (List Byte)} {stream buffer : List Byte}
    {bufflen k : Nat} (hb : bufflen < 2 ^ 32) (hbuf : buffer.length = bufflen)
    (hps : ∀ p ∈ ps, p.length ≤ bufflen) (hsend : sendAll ps = some stream) (hwhole : HeadersWhole T 0 ps)
    (hk : k ≤ stream.length) : EndsRight T ps stream k buffer bufflen ↔ CutClean ps k :=
  allRight_iff hb ps 0 k buffer stream hbuf hps hsend hwhole hk

/-- One frame of two bytes, cut at its end. -/
theorem tcp_ends_right_one :
    EndsRight (segments 4096 (by decide)) [[7, 8]] (tcpHdr 2 ++ [7, 8]) 10 [0, 0] 2 := by
  have hwhole : HeadersWhole (segments 4096 (by decide)) 0 [[7, 8]] := ⟨rfl, trivial⟩
  exact (tcp_ends_right_iff (show 2 < 2 ^ 32 by omega) rfl (by decide) rfl hwhole (by decide)).mpr
    ⟨[[7, 8]], [], rfl, by decide, by decide, .inl rfl⟩

/-- An empty payload is taken for the end of the stream. -/
theorem tcp_empty_payload : ¬ ∀ (T : Transport) ps stream k buffer bufflen, bufflen < 2 ^ 32 →
    buffer.length = bufflen → (∀ p ∈ ps, p.length ≤ bufflen) → sendAll ps = some stream →
    HeadersWhole T 0 ps → k ≤ stream.length → EndsRight T ps stream k buffer bufflen := by
  intro h
  have hends := h (segments 4096 (by decide)) [[]] (tcpHdr 0) 8 [] 0 (by omega) rfl (by decide) rfl
    ⟨rfl, trivial⟩ (by decide)
  obtain ⟨n, buffer, c, hrun, hiff⟩ := hends [] _ .nil
  have hzero : ipcmsgTcpRecv (segments 4096 (by decide)).recv ⟨0, tcpHdr 0⟩ [] 0 = some (0, [], ⟨8, []⟩) := rfl
  have hcall : ipcmsgTcpRecv (segments 4096 (by decide)).recv ⟨0, tcpHdr 0⟩ [] 0 = some (n, buffer, c) := hrun
  rw [hzero] at hcall
  cases hcall
  exact nomatch (hiff.mp rfl).1

end Xipcmsg
end Xlibc
