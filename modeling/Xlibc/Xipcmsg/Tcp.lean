import Xlibc.Xipcmsg.Model

/-!
# Xlibc.Xipcmsg.Tcp

Framing on the stream. A transport may return any part of what is asked for at each offset.

* `tcpRecvLoop_spec`      : the loop over the payload reads through every segmentation.
* `ipcmsgTcpRecv_cut`, `ipcmsgTcpRecv_long` : the header has no loop, and a long payload is not read.
* `tcp_delivered_iff`     : when the payloads come out as they were sent.
-/

namespace Xlibc
namespace Xipcmsg

/-- The bytes that reach the stream when the payloads are sent in turn and every `send` accepts its
whole frame. -/
def sendAll : List (List Byte) → Option (List Byte)
  | [] => some []
  | p :: ps => do
    let (_, frame) ← ipcmsgTcpSend id p p.length
    let rest ← sendAll ps
    some (frame ++ rest)

/-! ## The transport -/

/-- `n` calls in a row, each with the same buffer: their return values, with the bytes each caller
finds in the buffer. -/
def receiveAll {σ : Type} (recv : σ → Nat → Option (List Byte) × σ) (buffer : List Byte)
    (bufflen : Nat) : Nat → σ → Option (List (Int × List Byte))
  | 0, _ => some []
  | n + 1, s => do
    let (ret, buffer', s') ← ipcmsgTcpRecv recv s buffer bufflen
    let rest ← receiveAll recv buffer' bufflen n s'
    some ((ret, buffer'.take ret.toNat) :: rest)

/-- How a transport delivers a stream: at each offset, how many of the requested bytes one `recv`
returns. -/
structure Transport where
  deliver : Nat → Nat → Nat
  pos : ∀ off n, 1 ≤ n → 1 ≤ deliver off n
  le : ∀ off n, deliver off n ≤ n

/-- A connection: the offset of the next byte and the bytes still to come. -/
structure Conn where
  off : Nat
  rest : List Byte

def Transport.recv (T : Transport) (c : Conn) (n : Nat) : Option (List Byte) × Conn :=
  (some (c.rest.take (T.deliver c.off n)),
    ⟨c.off + (c.rest.take (T.deliver c.off n)).length, c.rest.drop (T.deliver c.off n)⟩)

/-- The payloads come out in order and complete, one for each call. -/
def Delivered (T : Transport) (ps : List (List Byte)) (buffer : List Byte) (bufflen : Nat) : Prop :=
  ∃ stream, sendAll ps = some stream ∧
    receiveAll T.recv buffer bufflen ps.length ⟨0, stream⟩ =
      some (ps.map fun p => ((p.length : Int), p))

/-- Each header, the first at `off`, is returned by one `recv`. -/
def HeadersWhole (T : Transport) : Nat → List (List Byte) → Prop
  | _, [] => True
  | off, p :: ps => T.deliver off tcpHdrLen = tcpHdrLen ∧ HeadersWhole T (off + tcpHdrLen + p.length) ps

/-! ## Sending -/

theorem tcpHdr_length (len : Nat) : (tcpHdr len).length = tcpHdrLen := rfl

/-- A frame is the header and the payload. -/
theorem ipcmsgTcpSend_spec {p : List Byte} (h : p.length + tcpHdrLen < 2 ^ 32) :
    ipcmsgTcpSend id p p.length = some (i32OfNat p.length, tcpHdr p.length ++ p) := by
  have hsize : u32 (p.length + tcpHdrLen) = p.length + tcpHdrLen := u32_of_lt h
  have hhdr : storeBytes (List.replicate (p.length + tcpHdrLen) 0) 0 (tcpHdr p.length) =
      some (tcpHdr p.length ++ List.replicate p.length 0) := by
    rw [storeBytes, if_pos (by simp [tcpHdr_length])]
    simp [tcpHdr_length]
  have hpay : storeBytes (tcpHdr p.length ++ List.replicate p.length 0) tcpHdrLen p =
      some (tcpHdr p.length ++ p) := by
    rw [storeBytes, if_pos (by simp [tcpHdr_length]), ← tcpHdr_length p.length, List.take_left,
      List.drop_of_length_le (by simp)]
    simp
  have hret : u32OfInt (i32OfNat (p.length + tcpHdrLen)) = p.length + tcpHdrLen := by
    unfold u32OfInt i32OfNat
    split <;> omega
  simp only [ipcmsgTcpSend, hsize, hhdr, Option.bind_eq_bind, Option.bind_some, List.take_length, id,
    Nat.lt_irrefl, if_false, hpay, hret, ne_eq, not_true_eq_false]
  rw [List.take_of_length_le (by simp [tcpHdr_length]; omega)]

/-- A frame of `2^32` bytes or more does not fit the block that is allocated for it. -/
theorem ipcmsgTcpSend_overflow {p : List Byte} (h : p.length < 2 ^ 32)
    (hbig : 2 ^ 32 ≤ p.length + tcpHdrLen) : ipcmsgTcpSend id p p.length = none := by
  have hsize : u32 (p.length + tcpHdrLen) < tcpHdrLen := by unfold u32 tcpHdrLen at *; omega
  have hhdr : storeBytes (List.replicate (u32 (p.length + tcpHdrLen)) 0) 0 (tcpHdr p.length) = none := by
    rw [storeBytes, if_neg (by rw [List.length_replicate, tcpHdr_length]; omega)]
  simp [ipcmsgTcpSend, hhdr]

theorem sendAll_cons {p : List Byte} {ps : List (List Byte)} {stream : List Byte}
    (hp : p.length < 2 ^ 32) (h : sendAll (p :: ps) = some stream) :
    ∃ rest, sendAll ps = some rest ∧ stream = tcpHdr p.length ++ (p ++ rest) := by
  rcases Nat.lt_or_ge (p.length + tcpHdrLen) (2 ^ 32) with hlt | hge
  · cases hr : sendAll ps with
    | none => simp [sendAll, ipcmsgTcpSend_spec hlt, hr] at h
    | some rest =>
      simp only [sendAll, ipcmsgTcpSend_spec hlt, hr, Option.bind_eq_bind, Option.bind_some,
        Option.some.injEq] at h
      exact ⟨rest, rfl, by rw [← h, List.append_assoc]⟩
  · simp [sendAll, ipcmsgTcpSend_overflow hp hge] at h

theorem sendAll_some {ps : List (List Byte)} (h : ∀ p ∈ ps, p.length < 2 ^ 31) :
    ∃ stream, sendAll ps = some stream := by
  induction ps with
  | nil => exact ⟨[], rfl⟩
  | cons p ps ih =>
    obtain ⟨rest, hrest⟩ := ih fun q hq => h q (by simp [hq])
    have hp := h p (by simp)
    exact ⟨_, by simp only [sendAll, ipcmsgTcpSend_spec (show p.length + tcpHdrLen < 2 ^ 32 by
      unfold tcpHdrLen; omega), hrest, Option.bind_eq_bind, Option.bind_some]; rfl⟩

/-! ## Receiving -/

section Deliver

variable {T : Transport} {off bufflen : Nat} {p rest buffer : List Byte}

theorem recv_rest (off : Nat) (rest : List Byte) {n : Nat} (h : n ≤ rest.length) :
    T.recv ⟨off, rest⟩ n =
      (some (rest.take (T.deliver off n)), ⟨off + T.deliver off n, rest.drop (T.deliver off n)⟩) := by
  have := T.le off n
  have hlen : (rest.take (T.deliver off n)).length = T.deliver off n := by
    rw [List.length_take]
    omega
  rw [Transport.recv, hlen]

/-- However the bytes are split up, the loop fills the buffer with the next `nleft` of them. -/
theorem tcpRecvLoop_spec : ∀ (fuel nleft off nread : Nat) (rest buffer : List Byte), nleft ≤ fuel →
    nleft ≤ rest.length → nread + nleft ≤ buffer.length →
    ∃ buffer', tcpRecvLoop T.recv fuel ⟨off, rest⟩ buffer nread nleft =
        some (((nread + nleft : Nat) : Int), buffer', ⟨off + nleft, rest.drop nleft⟩) ∧
      buffer'.length = buffer.length ∧ buffer'.take (nread + nleft) = buffer.take nread ++ rest.take nleft := by
  intro fuel
  induction fuel with
  | zero =>
    intro nleft off nread rest buffer hfuel _ _
    obtain rfl : nleft = 0 := by omega
    exact ⟨buffer, by simp [tcpRecvLoop], rfl, by simp⟩
  | succ fuel ih =>
    intro nleft off nread rest buffer hfuel hrest hbuf
    rcases Nat.eq_zero_or_pos nleft with rfl | hpos
    · exact ⟨buffer, by simp [tcpRecvLoop], rfl, by simp⟩
    · have hk1 := T.pos off nleft hpos
      have hk2 := T.le off nleft
      generalize hk : T.deliver off nleft = k at hk1 hk2
      have hlen : (rest.take k).length = k := by rw [List.length_take]; omega
      have hrecv := recv_rest (T := T) off rest hrest
      rw [hk] at hrecv
      obtain ⟨b, bs, hbs⟩ : ∃ b bs, rest.take k = b :: bs :=
        List.exists_cons_of_length_pos (by omega)
      obtain ⟨block, hstore⟩ : ∃ block, storeBytes buffer nread (rest.take k) = some block :=
        ⟨_, if_pos (by omega)⟩
      have hblen := storeBytes_length hstore
      have hbtake := take_storeBytes hstore
      rw [hlen] at hbtake
      obtain ⟨buffer', hrun, hlen', htake'⟩ := ih (nleft - k) (off + k) (nread + k) (rest.drop k) block
        (by omega) (by rw [List.length_drop]; omega) (by omega)
      have hint : (nleft : Int) > 0 := by omega
      have hsub : (nleft : Int) - k = ((nleft - k : Nat) : Int) := by omega
      refine ⟨buffer', ?_, by rw [hlen', hblen], ?_⟩
      · rw [tcpRecvLoop]
        simp only [hint, if_true, Int.toNat_natCast, hrecv]
        rw [hbs] at hlen hstore ⊢
        simp only [hstore, hlen, Option.bind_eq_bind, Option.bind_some, hsub, hrun, List.drop_drop]
        congr 3
        · omega
        · congr 1
          · omega
          · congr 1
            omega
      · have hsum : nread + k + (nleft - k) = nread + nleft := by omega
        rw [hsum, hbtake] at htake'
        rw [htake', List.append_assoc, ← List.take_add, show k + (nleft - k) = nleft by omega]

theorem tcpHdr_decode {len : Nat} (h : len < 2 ^ 32) :
    ofBe32 (tcpHdr len) = capMsgMagic ∧ ofBe32 ((tcpHdr len).drop 4) = len := by
  refine ⟨ofBe32_be32 (by decide) _, ?_⟩
  have hdrop : (tcpHdr len).drop 4 = be32 len ++ [] := rfl
  rw [hdrop, ofBe32_be32 h]

/-- One call behind a header that arrives in one piece. -/
theorem ipcmsgTcpRecv_header {len : Nat} {body : List Byte} (hd : T.deliver off tcpHdrLen = tcpHdrLen)
    (hp : len < 2 ^ 32) (hle : len ≤ bufflen) :
    ipcmsgTcpRecv T.recv ⟨off, tcpHdr len ++ body⟩ buffer bufflen =
      tcpRecvLoop T.recv (i32OfNat len).toNat ⟨off + tcpHdrLen, body⟩ buffer 0 (i32OfNat len) := by
  have hrecv := recv_rest (T := T) off (tcpHdr len ++ body) (n := tcpHdrLen)
    (by rw [List.length_append, tcpHdr_length]; omega)
  rw [hd, List.take_left' (tcpHdr_length _), List.drop_left' (tcpHdr_length _)] at hrecv
  obtain ⟨hmagic, hlen⟩ := tcpHdr_decode hp
  have hcons : ∃ b bs, tcpHdr len = b :: bs := ⟨_, _, rfl⟩
  have hnot : ¬ len > bufflen := by omega
  have hhdr := tcpHdr_length len
  obtain ⟨b, bs, hbs⟩ := hcons
  rw [hbs] at hmagic hlen hhdr hrecv ⊢
  simp only [ipcmsgTcpRecv, hrecv, hmagic, hlen, hhdr, ne_eq, not_true_eq_false, if_false, hnot]

/-- A payload shorter than `2^31` is delivered whole. -/
theorem ipcmsgTcpRecv_whole (rest : List Byte) (hd : T.deliver off tcpHdrLen = tcpHdrLen) (hp : p.length < 2 ^ 31)
    (hle : p.length ≤ bufflen) (hbuf : buffer.length = bufflen) :
    ∃ buffer', ipcmsgTcpRecv T.recv ⟨off, tcpHdr p.length ++ (p ++ rest)⟩ buffer bufflen =
        some ((p.length : Int), buffer', ⟨off + tcpHdrLen + p.length, rest⟩) ∧
      buffer'.length = bufflen ∧ buffer'.take p.length = p := by
  obtain ⟨buffer', hrun, hlen, htake⟩ := tcpRecvLoop_spec (T := T) p.length p.length (off + tcpHdrLen) 0
    (p ++ rest) buffer (Nat.le_refl _) (by simp) (by omega)
  refine ⟨buffer', ?_, by rw [hlen, hbuf], by simpa using htake⟩
  rw [ipcmsgTcpRecv_header hd (by omega) hle, i32OfNat_of_lt hp, Int.toNat_natCast, hrun,
    List.drop_left, Nat.zero_add]

/-- Past `INT_MAX` the count of bytes left starts negative, and nothing is read. -/
theorem ipcmsgTcpRecv_long (rest buffer : List Byte) (hd : T.deliver off tcpHdrLen = tcpHdrLen) (hp : p.length < 2 ^ 32)
    (hlong : 2 ^ 31 ≤ p.length) (hle : p.length ≤ bufflen) :
    ∃ s', ipcmsgTcpRecv T.recv ⟨off, tcpHdr p.length ++ (p ++ rest)⟩ buffer bufflen =
      some (0, buffer, s') := by
  have hneg : ¬ i32OfNat p.length > 0 := by
    unfold i32OfNat
    split <;> omega
  rw [ipcmsgTcpRecv_header hd hp hle, tcpRecvLoop.eq_def]
  simp only [hneg, if_false]
  exact ⟨_, rfl⟩

/-- A header that arrives in pieces is taken for an incomplete message. -/
theorem ipcmsgTcpRecv_cut (p rest buffer : List Byte) (bufflen : Nat) (hd : T.deliver off tcpHdrLen ≠ tcpHdrLen) :
    ∃ s', ipcmsgTcpRecv T.recv ⟨off, tcpHdr p.length ++ (p ++ rest)⟩ buffer bufflen =
      some (-1, buffer, s') := by
  have hrecv := recv_rest (T := T) off (tcpHdr p.length ++ (p ++ rest)) (n := tcpHdrLen)
    (by rw [List.length_append, tcpHdr_length]; omega)
  have hk1 := T.pos off tcpHdrLen (by decide)
  have hk2 := T.le off tcpHdrLen
  generalize T.deliver off tcpHdrLen = k at hd hk1 hk2 hrecv
  have hlen : ((tcpHdr p.length ++ (p ++ rest)).take k).length = k := by
    rw [List.length_take, List.length_append, tcpHdr_length]
    omega
  obtain ⟨b, bs, hbs⟩ : ∃ b bs, (tcpHdr p.length ++ (p ++ rest)).take k = b :: bs :=
    List.exists_cons_of_length_pos (by omega)
  rw [hbs] at hlen hrecv
  simp only [ipcmsgTcpRecv, hrecv, hlen, ne_eq, hd, not_false_eq_true, if_true]
  exact ⟨_, rfl⟩

end Deliver

/-- The calls behind `off`, whatever the buffer holds before each. -/
theorem receiveAll_iff {T : Transport} {bufflen : Nat} (hb : bufflen < 2 ^ 32) :
    ∀ (ps : List (List Byte)) (off : Nat) (buffer stream : List Byte), buffer.length = bufflen →
      (∀ p ∈ ps, 1 ≤ p.length ∧ p.length ≤ bufflen) → sendAll ps = some stream →
      (receiveAll T.recv buffer bufflen ps.length ⟨off, stream⟩ =
          some (ps.map fun p => ((p.length : Int), p)) ↔
        (∀ p ∈ ps, p.length < 2 ^ 31) ∧ HeadersWhole T off ps) := by
  intro ps
  induction ps with
  | nil => intro off buffer stream _ _ _; simp [receiveAll, HeadersWhole]
  | cons p ps ih =>
    intro off buffer stream hbuf hps hsend
    obtain ⟨hp1, hple⟩ := hps p (by simp)
    obtain ⟨rest, hrest, rfl⟩ := sendAll_cons (by omega) hsend
    by_cases hd : T.deliver off tcpHdrLen = tcpHdrLen
    · rcases Nat.lt_or_ge p.length (2 ^ 31) with hlt | hge
      · -- the payload comes out, and the next call starts at the next header
        obtain ⟨buffer', hrun, hlen', htake⟩ := ipcmsgTcpRecv_whole rest hd hlt hple hbuf
        have htail := ih (off + tcpHdrLen + p.length) buffer' rest hlen'
          (fun q hq => hps q (by simp [hq])) hrest
        simp only [List.length_cons, receiveAll, hrun, Option.bind_eq_bind, Option.bind_some,
          Int.toNat_natCast, htake, HeadersWhole, List.map_cons, List.forall_mem_cons, hlt, hd,
          true_and, ← htail]
        cases receiveAll T.recv buffer' bufflen ps.length ⟨off + tcpHdrLen + p.length, rest⟩ <;> simp
      · obtain ⟨s', hrun⟩ := ipcmsgTcpRecv_long rest buffer hd (by omega) hge hple
        constructor
        · intro h
          have hne : (0 : Int) ≠ p.length := by omega
          simp only [List.length_cons, receiveAll, hrun, Option.bind_eq_bind, Option.bind_some] at h
          cases hr : receiveAll T.recv buffer bufflen ps.length s' with
          | none => simp [hr] at h
          | some l => simp [hr, hne] at h
        · rintro ⟨hall, -⟩
          have := hall p (by simp)
          omega
    · obtain ⟨s', hrun⟩ := ipcmsgTcpRecv_cut p rest buffer bufflen hd
      constructor
      · intro h
        have hne : (-1 : Int) ≠ p.length := by omega
        simp only [List.length_cons, receiveAll, hrun, Option.bind_eq_bind, Option.bind_some] at h
        cases hr : receiveAll T.recv buffer bufflen ps.length s' with
        | none => simp [hr] at h
        | some l => simp [hr, hne] at h
      · rintro ⟨-, hhdr, -⟩
        exact absurd hhdr hd

/-- **Framing.** Sent in turn on one stream, the payloads come out in order and complete exactly when
each is shorter than `2^31` bytes and the transport never splits a header. How it splits the payloads
does not matter. -/
theorem tcp_delivered_iff {T : Transport} {ps : List (List Byte)} {buffer : List Byte} {bufflen : Nat}
    (hb : bufflen < 2 ^ 32) (hbuf : buffer.length = bufflen)
    (hps : ∀ p ∈ ps, 1 ≤ p.length ∧ p.length ≤ bufflen) :
    Delivered T ps buffer bufflen ↔ (∀ p ∈ ps, p.length < 2 ^ 31) ∧ HeadersWhole T 0 ps := by
  constructor
  · rintro ⟨stream, hsend, hrecv⟩
    exact (receiveAll_iff hb ps 0 buffer stream hbuf hps hsend).mp hrecv
  · intro h
    obtain ⟨stream, hsend⟩ := sendAll_some h.1
    exact ⟨stream, hsend, (receiveAll_iff hb ps 0 buffer stream hbuf hps hsend).mpr h⟩

/-- A transport with segments of `n` bytes. -/
def segments (n : Nat) (h : 1 ≤ n) : Transport where
  deliver off m := min m (n - off % n)
  pos off m hm := by have := Nat.mod_lt off h; omega
  le off m := Nat.min_le_left _ _

/-- Segments of ten bytes split the second payload and no header. -/
theorem tcp_delivered_two : Delivered (segments 10 (by decide)) [[1, 2], [3, 4, 5]] [0, 0, 0] 3 :=
  (tcp_delivered_iff (by decide) rfl (by decide)).mpr ⟨by decide, rfl, rfl, trivial⟩

/-- Segments of four bytes split the header of a single payload. -/
theorem tcp_not_delivered_split :
    (∀ p ∈ [[(7 : Byte)]], 1 ≤ p.length ∧ p.length ≤ 1) ∧
      ¬ Delivered (segments 4 (by decide)) [[7]] [0] 1 := by
  refine ⟨by decide, fun ⟨stream, hsend, hrecv⟩ => ?_⟩
  have hframe : sendAll [[7]] = some [0x36, 0xe3, 0x1e, 0xa3, 0, 0, 0, 1, 7] := by decide
  obtain rfl := Option.some.inj (hframe.symm.trans hsend)
  revert hrecv
  decide

end Xipcmsg
end Xlibc
