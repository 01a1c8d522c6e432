import Mathlib.Logic.Function.Basic
import Xlibc.Base.Bytes
import Xlibc.Base.CInt

/-!
# Xlibc.Xipcmsg.Model

The messages of `xipcmsg.c`. Blocks are byte lists, and an access outside a block has no result.

* `ipcmsgTcpSend`, `ipcmsgTcpRecv` : the framed stream. A header of eight bytes, the magic number and the
  length in network order, stands before each payload. `send` says how many bytes the kernel accepts;
  `recv` returns the bytes it delivers (none of them when the peer has closed), or `none` for an
  error. `malloc` is granted.
* `Channel.step` : the datagram channel. `ipcmsg_send` is two `sendmsg` calls, the length and then the
  data, `ipcmsg_recv` two `recvfrom` calls, and each call is one step.
-/

namespace Xlibc
namespace Xipcmsg

/-! ## Stream -/

/-- `CAP_MSG_MAGIC` -/
def capMsgMagic : Nat := 0x36e31ea3

/-- `sizeof(ipcmsg_tcp_hdr_t)` -/
def tcpHdrLen : Nat := 8

/-- `ipcmsg_tcp_hdr_t`, both fields through `htonl` -/
def tcpHdr (len : Nat) : List Byte := be32 capMsgMagic ++ be32 len

/-- `ipcmsg_tcp_send`: the return value and the bytes the kernel has accepted. The size of the frame
is an `unsigned`; the count `send` returns is stored in an `int`. -/
def ipcmsgTcpSend (send : Nat → Nat) (buffer : List Byte) (len : Nat) : Option (Int × List Byte) := do
  let size := u32 (len + tcpHdrLen)
  let sendbuff ← storeBytes (List.replicate size 0) 0 (tcpHdr len)
  if buffer.length < len then none
  let sendbuff ← storeBytes sendbuff tcpHdrLen (buffer.take len)
  let ret := i32OfNat (send size)
  some (if u32OfInt ret ≠ size then -1 else i32OfNat len, sendbuff.take (send size))

section Receive

variable {σ : Type} (recv : σ → Nat → Option (List Byte) × σ)

/-- The loop `while (nleft > 0)` of `ipcmsg_tcp_recv`: the return value, the buffer and the socket.
Every round but the last takes a byte, so `fuel` rounds are enough for `nleft <= fuel`. -/
def tcpRecvLoop : Nat → σ → List Byte → Nat → Int → Option (Int × List Byte × σ)
  | fuel, s, buffer, nread, nleft =>
    if nleft > 0 then
      match fuel with
      | 0 => none
      | fuel + 1 =>
        match recv s nleft.toNat with
        | (none, s') => some (-1, buffer, s')
        | (some [], s') => some (0, buffer, s')
        | (some bs, s') => do
          let buffer' ← storeBytes buffer nread bs
          tcpRecvLoop fuel s' buffer' (nread + bs.length) (nleft - bs.length)
    else some ((nread : Int), buffer, s)

/-- `ipcmsg_tcp_recv`: the return value, the buffer and the socket. -/
def ipcmsgTcpRecv (s : σ) (buffer : List Byte) (bufflen : Nat) : Option (Int × List Byte × σ) :=
  match recv s tcpHdrLen with
  | (none, s') => some (-1, buffer, s')
  | (some [], s') => some (0, buffer, s')
  | (some header, s') =>
    if header.length ≠ tcpHdrLen then some (-1, buffer, s')
    else if ofBe32 header ≠ capMsgMagic then some (-1, buffer, s')
    else if ofBe32 (header.drop 4) > bufflen then some (-1, buffer, s')
    else
      let nleft := i32OfNat (ofBe32 (header.drop 4))
      tcpRecvLoop recv nleft.toNat s' buffer 0 nleft

end Receive

/-! ## Datagrams -/

/-- `sizeof(ipcmsg_hdr_t)` -/
def ipcmsgHdrLen : Nat := 4

/-- One server socket and its clients. `sending` is the payload whose header a client has sent,
`queue` what the socket has received, in order, with the sender's address, and `server` the address
and length that `ipcmsg_recv` has read from a header. `sent` and `delivered` are the calls of
`ipcmsg_send` so far, and the payloads and addresses that `ipcmsg_recv` has returned. -/
structure Channel (Addr : Type) where
  sending : Addr → Option (List Byte)
  queue : List (Addr × List Byte)
  server : Option (Addr × Nat)
  sent : List (Addr × List Byte)
  delivered : List (Addr × List Byte)

/-- A call of the kernel. A `sendmsg` may fail, which `ipcmsg_send` reports and ignores; `malloc` in
`ipcmsg_recv` may fail. -/
inductive ChannelEvent (Addr : Type) where
  | sendHdr (a : Addr) (p : List Byte) (ok : Bool)
  | sendData (a : Addr) (ok : Bool)
  | recvHdr (granted : Bool)
  | recvData

namespace Channel

variable {Addr : Type} [DecidableEq Addr]

def init : Channel Addr := { sending := fun _ => none, queue := [], server := none, sent := [], delivered := [] }

/-- The first `sendmsg` of `ipcmsg_send`, which refuses an empty payload. -/
def sendHdr (c : Channel Addr) (a : Addr) (p : List Byte) (ok : Bool) : Option (Channel Addr) :=
  if (c.sending a).isSome ∨ p.length = 0 ∨ 2 ^ 32 ≤ p.length then none
  else some { c with
    sending := Function.update c.sending a (some p)
    queue := if ok then c.queue ++ [(a, be32 p.length)] else c.queue
    sent := c.sent ++ [(a, p)] }

/-- The second `sendmsg`. -/
def sendData (c : Channel Addr) (a : Addr) (ok : Bool) : Option (Channel Addr) := do
  let p ← c.sending a
  some { c with
    sending := Function.update c.sending a none
    queue := if ok then c.queue ++ [(a, p)] else c.queue }

/-- `ipcmsg_recv` up to the second `recvfrom`. A datagram longer than the header is cut, a shorter one
is an error; both are used up. -/
def recvHdr (c : Channel Addr) (granted : Bool) : Option (Channel Addr) :=
  match c.server, c.queue with
  | none, (a, d) :: rest =>
    if (d.take ipcmsgHdrLen).length ≠ ipcmsgHdrLen ∨ granted = false then some { c with queue := rest }
    else some { c with queue := rest, server := some (a, ofBe32 (d.take ipcmsgHdrLen)) }
  | _, _ => none

/-- The second `recvfrom`, which does not ask for the sender. -/
def recvData (c : Channel Addr) : Option (Channel Addr) :=
  match c.server, c.queue with
  | some (a, len), (_, d) :: rest =>
    if (d.take len).length ≠ len then some { c with queue := rest, server := none }
    else some { c with queue := rest, server := none, delivered := c.delivered ++ [(a, d.take len)] }
  | _, _ => none

def step (c : Channel Addr) : ChannelEvent Addr → Option (Channel Addr)
  | .sendHdr a p ok => c.sendHdr a p ok
  | .sendData a ok => c.sendData a ok
  | .recvHdr granted => c.recvHdr granted
  | .recvData => c.recvData

end Channel

end Xipcmsg
end Xlibc
