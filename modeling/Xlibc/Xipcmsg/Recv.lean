import Xlibc.Xipcmsg.Tcp

/-!
# Xlibc.Xipcmsg.Recv

One call of `ipcmsg_tcp_recv`, whatever arrives.

* `tcp_recv_bounded`  : for any peer and any results of `recv` the call ends, writes inside
  `buffer[0..bufflen)`, and a positive result is a frame that has been read to its end and no further.
* `oversize_off_boundary` : a frame that is too long is refused between its header and its payload, so
  the next call takes the payload for a header.
-/

namespace Xlibc
namespace Xipcmsg

variable {σ : Type}

/-- `recv` with a record of all the bytes it has delivered. -/
def logged (recv : σ → Nat → Option (List Byte) × σ) :
    σ × List Byte → Nat → Option (List Byte) × (σ × List Byte) :=
  fun s n => ((recv s.1 n).1, (recv s.1 n).2, s.2 ++ (recv s.1 n).1.getD [])

/-- `recv` never delivers more than it is asked for. -/
def AtMost (recv : σ → Nat → Option (List Byte) × σ) : Prop :=
  ∀ s n bs, (recv s n).1 = some bs → bs.length ≤ n

/-! ## Any peer -/

/-- What a call may do: it writes inside `buffer[0..bufflen)` only, and if it returns a positive `n`, it
has read a header with the length `n` and the `n` bytes in `buffer[0..n)`, and no more than that. -/
structure Bounded (buffer : List Byte) (bufflen : Nat) (ret : Int) (buffer' log : List Byte) : Prop where
  length : buffer'.length = buffer.length
  outside : buffer'.drop bufflen = buffer.drop bufflen
  frame : 0 < ret → ret ≤ bufflen ∧ ∃ header, header.length = tcpHdrLen ∧
    (ofBe32 (header.drop 4) : Int) = ret ∧ log = header ++ buffer'.take ret.toNat

theorem Bounded.refused {buffer : List Byte} {bufflen : Nat} {ret : Int} (log : List Byte)
    (h : ¬ 0 < ret) : Bounded buffer bufflen ret buffer log where
  length := rfl
  outside := rfl
  frame := fun hp => absurd hp h

section Bounded

variable {recv : σ → Nat → Option (List Byte) × σ} {bufflen : Nat}

/-- The loop fills the buffer behind `nread`, up to `bufflen` at most, with what it is delivered. -/
theorem tcpRecvLoop_bounded (hrecv : AtMost recv) : ∀ (fuel nleft nread : Nat) (s : σ)
    (log buffer : List Byte), nleft ≤ fuel → nread + nleft ≤ bufflen → bufflen ≤ buffer.length →
    ∃ ret buffer' s' log', tcpRecvLoop (logged recv) fuel (s, log) buffer nread nleft =
        some (ret, buffer', s', log') ∧
      buffer'.length = buffer.length ∧ buffer'.drop bufflen = buffer.drop bufflen ∧
      (0 < ret → ret = (nread + nleft : Nat) ∧ ∃ bs, bs.length = nleft ∧ log' = log ++ bs ∧
        buffer'.take (nread + nleft) = buffer.take nread ++ bs) := by
  intro fuel
  induction fuel with
  | zero =>
    intro nleft nread s log buffer hfuel _ _
    obtain rfl : nleft = 0 := by omega
    exact ⟨nread, buffer, s, log, by simp [tcpRecvLoop], rfl, rfl,
      fun _ => ⟨rfl, [], rfl, by simp, by simp⟩⟩
  | succ fuel ih =>
    intro nleft nread s log buffer hfuel hroom hbuf
    rcases Nat.eq_zero_or_pos nleft with rfl | hpos
    · exact ⟨nread, buffer, s, log, by simp [tcpRecvLoop], rfl, rfl,
        fun _ => ⟨rfl, [], rfl, by simp, by simp⟩⟩
    · have hint : (nleft : Int) > 0 := by omega
      cases hr : recv s nleft with
      | mk res s1 =>
        cases res with
        | none =>
          refine ⟨-1, buffer, s1, log ++ [], ?_, rfl, rfl, fun h => by omega⟩
          simp [tcpRecvLoop, hpos, logged, hr]
        | some bs =>
          have hle : bs.length ≤ nleft := hrecv s nleft bs (by rw [hr])
          cases bs with
          | nil =>
            refine ⟨0, buffer, s1, log ++ [], ?_, rfl, rfl, fun h => by omega⟩
            simp [tcpRecvLoop, hpos, logged, hr]
          | cons b bs =>
            -- some bytes arrive, and the rest of the frame is left for the rounds to come
            obtain ⟨block, hstore⟩ : ∃ block, storeBytes buffer nread (b :: bs) = some block :=
              storeBytes_some _ (by omega)
            have hblen := storeBytes_length hstore
            have hsub : (nleft : Int) - (b :: bs).length = ((nleft - (b :: bs).length : Nat) : Int) := by
              omega
            obtain ⟨ret, buffer', s', log', hrun, hlen', hdrop', hret⟩ :=
              ih (nleft - (b :: bs).length) (nread + (b :: bs).length) s1 (log ++ b :: bs) block
                (by rw [List.length_cons]; omega) (by omega) (by omega)
            refine ⟨ret, buffer', s', log', ?_, by rw [hlen', hblen], ?_, fun hp => ?_⟩
            · rw [tcpRecvLoop, if_pos hint]
              simp only [logged, Int.toNat_natCast, hr, Option.getD_some, hstore, Option.bind_eq_bind,
                Option.bind_some, hsub]
              exact hrun
            · rw [hdrop', drop_storeBytes hstore (by omega)]
            · obtain ⟨hval, rest, hrest, hlog, htake⟩ := hret hp
              have hsum : nread + (b :: bs).length + (nleft - (b :: bs).length) = nread + nleft := by omega
              rw [hsum] at hval htake
              refine ⟨hval, b :: bs ++ rest, by rw [List.length_append, hrest]; omega, ?_, ?_⟩
              · rw [hlog, List.append_assoc]
              · rw [htake, take_storeBytes hstore, List.append_assoc]

/-- The record changes nothing. -/
theorem tcpRecvLoop_logged : ∀ (fuel : Nat) (s : σ) (log buffer : List Byte) (nread : Nat) (nleft : Int),
    (tcpRecvLoop (logged recv) fuel (s, log) buffer nread nleft).map (fun r => (r.1, r.2.1, r.2.2.1)) =
      tcpRecvLoop recv fuel s buffer nread nleft := by
  intro fuel
  induction fuel with
  | zero =>
    intro s log buffer nread nleft
    rw [tcpRecvLoop, tcpRecvLoop]
    split <;> rfl
  | succ fuel ih =>
    intro s log buffer nread nleft
    rw [tcpRecvLoop, tcpRecvLoop]
    split
    · cases hr : recv s nleft.toNat with
      | mk res s1 =>
        cases res with
        | none => simp [logged, hr]
        | some bs =>
          cases bs with
          | nil => simp [logged, hr]
          | cons b bs =>
            simp only [logged, hr, Option.getD_some]
            cases hs : storeBytes buffer nread (b :: bs) with
            | none => rfl
            | some block => exact ih s1 _ block _ _
    · rfl

theorem ipcmsgTcpRecv_logged (s : σ) (log buffer : List Byte) (bufflen : Nat) :
    (ipcmsgTcpRecv (logged recv) (s, log) buffer bufflen).map (fun r => (r.1, r.2.1, r.2.2.1)) =
      ipcmsgTcpRecv recv s buffer bufflen := by
  unfold ipcmsgTcpRecv
  cases hr : recv s tcpHdrLen with
  | mk res s1 =>
    cases res with
    | none => simp [logged, hr]
    | some bs =>
      cases bs with
      | nil => simp [logged, hr]
      | cons b bs =>
        simp only [logged, hr, Option.getD_some]
        split
        · rfl
        · split
          · rfl
          · split
            · rfl
            · exact tcpRecvLoop_logged _ _ _ _ _ _

theorem ipcmsgTcpRecv_bounded (hrecv : AtMost recv) (s : σ) (buffer : List Byte)
    (hbuf : bufflen ≤ buffer.length) :
    ∃ ret buffer' s' log, ipcmsgTcpRecv (logged recv) (s, []) buffer bufflen =
      some (ret, buffer', s', log) ∧ Bounded buffer bufflen ret buffer' log := by
  unfold ipcmsgTcpRecv
  cases hr : recv s tcpHdrLen with
  | mk res s1 =>
    cases res with
    | none =>
      simp only [logged, hr]
      exact ⟨_, _, _, _, rfl, .refused _ (by omega)⟩
    | some bs =>
      cases bs with
      | nil =>
        simp only [logged, hr]
        exact ⟨_, _, _, _, rfl, .refused _ (by omega)⟩
      | cons b bs =>
        simp only [logged, hr, Option.getD_some, List.nil_append]
        split
        · exact ⟨_, _, _, _, rfl, .refused _ (by omega)⟩
        · next hhdr =>
          split
          · exact ⟨_, _, _, _, rfl, .refused _ (by omega)⟩
          · split
            · exact ⟨_, _, _, _, rfl, .refused _ (by omega)⟩
            · next hlen =>
              generalize hn : ofBe32 ((b :: bs).drop 4) = len at hlen
              rcases Nat.lt_or_ge len (2 ^ 31) with hsmall | hbig
              · rw [i32OfNat_of_lt hsmall, Int.toNat_natCast]
                obtain ⟨ret, buffer', s', log', hrun, hlen', hdrop', hret⟩ :=
                  tcpRecvLoop_bounded hrecv len len 0 s1 (b :: bs) buffer (Nat.le_refl _)
                    (show 0 + len ≤ bufflen by omega) hbuf
                refine ⟨ret, buffer', s', log', hrun, hlen', hdrop', fun hp => ?_⟩
                obtain ⟨hval, payload, -, hlog, htake⟩ := hret hp
                rw [Nat.zero_add] at hval htake
                rw [List.take_zero, List.nil_append] at htake
                refine ⟨by omega, b :: bs, not_not.mp hhdr, by rw [hn, hval], ?_⟩
                rw [hlog, hval, Int.toNat_natCast, htake]
              · -- the length does not fit an `int`: nothing is left to read
                have hneg : ¬ i32OfNat len > 0 := by
                  have hlt := ofBe32_lt ((b :: bs).drop 4)
                  unfold i32OfNat
                  split <;> omega
                rw [tcpRecvLoop.eq_def]
                simp only [hneg, if_false]
                exact ⟨_, _, _, _, rfl, .refused _ (by omega)⟩

/-- **Receiving from any peer.** Whatever the header says and however `recv` delivers, fails or ends, the
call returns, and with a record of what has been read it is `Bounded`. -/
theorem tcp_recv_bounded (hrecv : AtMost recv) (s : σ) (buffer : List Byte)
    (hbuf : bufflen ≤ buffer.length) :
    ∃ ret buffer' s' log, ipcmsgTcpRecv recv s buffer bufflen = some (ret, buffer', s') ∧
      ipcmsgTcpRecv (logged recv) (s, []) buffer bufflen = some (ret, buffer', s', log) ∧
      Bounded buffer bufflen ret buffer' log := by
  obtain ⟨ret, buffer', s', log, hrun, hbounded⟩ := ipcmsgTcpRecv_bounded hrecv s buffer hbuf
  refine ⟨ret, buffer', s', log, ?_, hrun, hbounded⟩
  rw [← ipcmsgTcpRecv_logged s [] buffer bufflen, hrun]
  rfl

theorem Transport.atMost (T : Transport) : AtMost T.recv := by
  intro c n bs h
  cases h
  have := T.le c.off n
  rw [List.length_take]
  omega

/-- One byte arrives behind its header, into a buffer of two. -/
theorem tcp_recv_bounded_two :
    AtMost (segments 4096 (by decide)).recv ∧
      ∃ ret buffer' s' log,
        ipcmsgTcpRecv (segments 4096 (by decide)).recv ⟨0, tcpHdr 1 ++ [7]⟩ [0, 0] 2 =
          some (ret, buffer', s') ∧
        ipcmsgTcpRecv (logged (segments 4096 (by decide)).recv) (⟨0, tcpHdr 1 ++ [7]⟩, []) [0, 0] 2 =
          some (ret, buffer', s', log) ∧ Bounded [0, 0] 2 ret buffer' log :=
  have hrecv := (segments 4096 (by decide)).atMost
  ⟨hrecv, tcp_recv_bounded hrecv _ _ (by decide)⟩

end Bounded

/-! ## A frame that is too long -/

/-- The bytes that these payloads take on the stream. -/
def framesLength (ps : List (List Byte)) : Nat := (ps.map fun p => tcpHdrLen + p.length).sum

/-- The connection stands between two of the frames that were sent. -/
def AtBoundary (ps : List (List Byte)) (c : Conn) : Prop :=
  ∃ qs rs, ps = qs ++ rs ∧ c.off = framesLength qs ∧ sendAll rs = some c.rest

/-- The call refuses a frame and leaves the connection at a frame boundary, so that what a following
call with a large enough buffer returns is a payload that was sent. -/
def Resyncs (T : Transport) (ps : List (List Byte)) (c : Conn) (buffer : List Byte) (bufflen : Nat) : Prop :=
  ∃ buffer' c', ipcmsgTcpRecv T.recv c buffer bufflen = some (-1, buffer', c') ∧ AtBoundary ps c' ∧
    ∀ big n big' c'', (∀ p ∈ ps, p.length ≤ big.length) →
      ipcmsgTcpRecv T.recv c' big big.length = some (n, big', c'') → 0 < n → big'.take n.toNat ∈ ps

theorem framesLength_append (ps qs : List (List Byte)) :
    framesLength (ps ++ qs) = framesLength ps + framesLength qs := by
  simp [framesLength]

theorem framesLength_cons (p : List Byte) (ps : List (List Byte)) :
    framesLength (p :: ps) = tcpHdrLen + p.length + framesLength ps := rfl

variable {T : Transport} {before after : List (List Byte)} {p stream : List Byte}

theorem HeadersWhole.at {off : Nat} (h : HeadersWhole T off (before ++ p :: after)) :
    T.deliver (off + framesLength before) tcpHdrLen = tcpHdrLen := by
  induction before generalizing off with
  | nil => exact h.1
  | cons q before ih =>
    have hrest := ih h.2
    rw [framesLength_cons]
    rwa [Nat.add_assoc off, Nat.add_assoc off] at hrest

/-- Behind the frames of `before` stand the others. -/
theorem sendAll_drop (hp : ∀ q ∈ before, q.length < 2 ^ 32) {ps : List (List Byte)}
    (h : sendAll (before ++ ps) = some stream) : sendAll ps = some (stream.drop (framesLength before)) := by
  induction before generalizing stream with
  | nil => exact h
  | cons q before ih =>
    obtain ⟨rest, hrest, rfl⟩ := sendAll_cons (hp q (by simp)) h
    have htail := ih (fun q hq => hp q (by simp [hq])) hrest
    have hlen : (tcpHdr q.length ++ q).length = tcpHdrLen + q.length := by
      rw [List.length_append, tcpHdr_length]
    rw [framesLength_cons, ← List.drop_drop, ← List.append_assoc, ← hlen, List.drop_left]
    exact htail

/-- Between a header and its payload there is no frame boundary. -/
theorem not_atBoundary (hp : p ≠ []) (rest : List Byte) :
    ¬ AtBoundary (before ++ p :: after) ⟨framesLength before + tcpHdrLen, rest⟩ := by
  rintro ⟨qs, rs, hsplit, hoff, -⟩
  have hpos := List.length_pos_iff.mpr hp
  have hhdr : 0 < tcpHdrLen := by decide
  rcases List.append_eq_append_iff.mp hsplit with ⟨t, rfl, ht⟩ | ⟨t, rfl, -⟩
  · -- the boundary would have to lie behind `p`
    cases t with
    | nil =>
      rw [List.append_nil] at hoff
      simp only at hoff
      omega
    | cons q t =>
      cases ht
      rw [framesLength_append, framesLength_cons] at hoff
      simp only at hoff
      omega
  · rw [framesLength_append] at hoff
    simp only at hoff
    omega

/-- The frame is refused when its header has been read. -/
theorem ipcmsgTcpRecv_oversize {off bufflen : Nat} (buffer rest : List Byte)
    (hd : T.deliver off tcpHdrLen = tcpHdrLen) (hp : p.length < 2 ^ 32) (hover : bufflen < p.length) :
    ipcmsgTcpRecv T.recv ⟨off, tcpHdr p.length ++ (p ++ rest)⟩ buffer bufflen =
      some (-1, buffer, ⟨off + tcpHdrLen, p ++ rest⟩) := by
  have hrecv := recv_rest (T := T) off (tcpHdr p.length ++ (p ++ rest)) (n := tcpHdrLen)
    (by rw [List.length_append, tcpHdr_length]; omega)
  rw [hd, List.take_left' (tcpHdr_length _), List.drop_left' (tcpHdr_length _)] at hrecv
  obtain ⟨hmagic, hlen⟩ := tcpHdr_decode hp
  obtain ⟨b, bs, hbs⟩ : ∃ b bs, tcpHdr p.length = b :: bs := ⟨_, _, rfl⟩
  have hhdr := tcpHdr_length p.length
  rw [hbs] at hmagic hlen hhdr hrecv ⊢
  simp only [ipcmsgTcpRecv, hrecv, hmagic, hlen, hhdr, ne_eq, not_true_eq_false, if_false, hover, if_true]

/-- **An oversize frame.** In every stream of frames and under every delivery that keeps the headers
whole, the call that meets a frame longer than its buffer returns `-1` behind the header and in front
of the payload. That is no frame boundary, and the header of the next call begins with the payload. -/
theorem oversize_off_boundary (hps : ∀ q ∈ before ++ p :: after, q.length < 2 ^ 32)
    (hsend : sendAll (before ++ p :: after) = some stream)
    (hwhole : HeadersWhole T 0 (before ++ p :: after)) {bufflen : Nat} (hover : bufflen < p.length)
    (buffer : List Byte) :
    ¬ Resyncs T (before ++ p :: after) ⟨framesLength before, stream.drop (framesLength before)⟩ buffer
        bufflen ∧
      ∃ rest c', ipcmsgTcpRecv T.recv ⟨framesLength before, stream.drop (framesLength before)⟩ buffer
          bufflen = some (-1, buffer, c') ∧ c'.rest = p ++ rest ∧
        ∃ header, (T.recv c' tcpHdrLen).1 = some header ∧ header.head? = p.head? := by
  have hp : p ≠ [] := fun h => by rw [h] at hover; cases hover
  have hd := hwhole.at
  rw [Nat.zero_add] at hd
  have hrest := sendAll_drop (fun q hq => hps q (by simp [hq])) hsend
  obtain ⟨rest, -, hstream⟩ := sendAll_cons (hps p (by simp)) hrest
  have hcall := ipcmsgTcpRecv_oversize (T := T) buffer rest hd (hps p (by simp)) hover
  rw [hstream]
  refine ⟨?_, rest, _, hcall, rfl, _, rfl, ?_⟩
  · rintro ⟨buffer', c', hrun, hat, -⟩
    rw [hcall] at hrun
    cases hrun
    exact not_atBoundary hp _ hat
  · have hk := T.pos (framesLength before + tcpHdrLen) tcpHdrLen (by decide)
    obtain ⟨b, bs, rfl⟩ := List.exists_cons_of_ne_nil hp
    obtain ⟨k, hk'⟩ : ∃ k, T.deliver (framesLength before + tcpHdrLen) tcpHdrLen = k + 1 :=
      ⟨_, (Nat.sub_add_cancel hk).symm⟩
    rw [hk']
    rfl

/-- A payload that looks like a frame, in a stream of its own. -/
def forged : List Byte := tcpHdr 1 ++ [7]

theorem oversize_off_boundary_forged :
    ¬ Resyncs (segments 4096 (by decide)) [forged] ⟨0, tcpHdr 9 ++ forged⟩ [0, 0, 0, 0] 4 :=
  (@oversize_off_boundary (segments 4096 (by decide)) [] [] forged (tcpHdr 9 ++ forged) (by decide)
    (by decide) ⟨rfl, trivial⟩ 4 (by decide) [0, 0, 0, 0]).1

/-- The next call returns the byte 7, which nobody has sent as a payload. -/
theorem oversize_delivers_forged :
    ∃ c', ipcmsgTcpRecv (segments 4096 (by decide)).recv ⟨0, tcpHdr 9 ++ forged⟩ [0, 0, 0, 0] 4 =
        some (-1, [0, 0, 0, 0], c') ∧
      ipcmsgTcpRecv (segments 4096 (by decide)).recv c' (List.replicate 9 0) 9 =
        some (1, 7 :: List.replicate 8 0, ⟨17, []⟩) ∧
      ¬ Resyncs (segments 4096 (by decide)) [forged] ⟨0, tcpHdr 9 ++ forged⟩ [0, 0, 0, 0] 4 := by
  refine ⟨⟨8, forged⟩, rfl, rfl, ?_⟩
  rintro ⟨buffer', c', hrun, -, hnext⟩
  have hcall : ipcmsgTcpRecv (segments 4096 (by decide)).recv ⟨0, tcpHdr 9 ++ forged⟩ [0, 0, 0, 0] 4 =
      some (-1, [0, 0, 0, 0], ⟨8, forged⟩) := rfl
  rw [hcall] at hrun
  cases hrun
  have hforged := hnext (List.replicate 9 0) 1 (7 :: List.replicate 8 0) ⟨17, []⟩ (by decide) rfl
    (by omega)
  revert hforged
  decide

end Xipcmsg
end Xlibc
