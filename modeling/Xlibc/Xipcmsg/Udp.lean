import Mathlib.Data.List.Perm.Subperm
import Xlibc.Base.Run
import Xlibc.Xipcmsg.Model

/-!
# Xlibc.Xipcmsg.Udp

Who gets whose datagrams. `ipcmsg_recv` takes the second datagram from anybody, so what it delivers is
right as long as nobody else's datagram stands between a header and its data. `Aligned` says, for each
client, that what the server holds, what is queued and what the client still has to send are whole
messages; `Paired` steps keep it.

* `Aligned.step`       : every kind of call keeps the messages aligned.
* `udp_paired_safe`    : runs whose receives are paired deliver sent payloads, each once.
* `udp_mixed_unsafe`   : four datagrams of two clients that are delivered as none was sent.
-/

namespace Xlibc
namespace Xipcmsg

variable {Addr : Type} [DecidableEq Addr]

/-- What a client contributes to a list of addressed items. -/
def ofClient {β : Type} (a : Addr) (l : List (Addr × β)) : List β :=
  (l.filter fun m => m.1 = a).map Prod.snd

section OfClient

variable {β : Type} {a b : Addr} {l l' : List (Addr × β)} {x : β}

@[simp] theorem ofClient_nil : ofClient a ([] : List (Addr × β)) = [] := rfl

@[simp] theorem ofClient_append : ofClient a (l ++ l') = ofClient a l ++ ofClient a l' := by
  simp [ofClient]

@[simp] theorem ofClient_cons_self : ofClient a ((a, x) :: l) = x :: ofClient a l := by simp [ofClient]

theorem ofClient_cons_ne (h : b ≠ a) : ofClient a ((b, x) :: l) = ofClient a l := by simp [ofClient, h]

theorem count_ofClient [BEq β] [LawfulBEq β] : (ofClient a l).count x = l.count (a, x) := by
  induction l with
  | nil => rfl
  | cons m l ih =>
    obtain ⟨b, y⟩ := m
    by_cases hb : b = a
    · subst hb
      by_cases hy : y = x
      · subst hy
        rw [ofClient_cons_self, List.count_cons_self, List.count_cons_self, ih]
      · rw [ofClient_cons_self, List.count_cons_of_ne hy, ih,
          List.count_cons_of_ne fun h => hy (congrArg Prod.snd h)]
    · rw [ofClient_cons_ne hb, ih, List.count_cons_of_ne (fun h => hb (congrArg Prod.fst h))]

end OfClient

/-- Every delivered payload was passed to `ipcmsg_send` by the client it is attributed to, as often
as it is delivered. -/
def SafeDelivery (c : Channel Addr) : Prop := c.delivered.Subperm c.sent

/-- No datagram is lost. -/
def NoLoss : ChannelEvent Addr → Prop
  | .sendHdr _ _ ok | .sendData _ ok => ok = true
  | _ => True

/-- Memory is granted, and the next datagram comes from the client whose header was read. -/
def Paired (c : Channel Addr) : ChannelEvent Addr → Prop
  | .recvHdr granted => granted = true
  | .recvData => ∀ r ∈ c.server, ∀ m ∈ c.queue.head?, m.1 = r.1
  | _ => True

instance (e : ChannelEvent Addr) : Decidable (NoLoss e) :=
  match e with
  | .sendHdr _ _ ok | .sendData _ ok => inferInstanceAs (Decidable (ok = true))
  | .recvHdr _ | .recvData => isTrue trivial

instance (c : Channel Addr) (e : ChannelEvent Addr) : Decidable (Paired c e) :=
  match e with
  | .recvHdr granted => inferInstanceAs (Decidable (granted = true))
  | .recvData => inferInstanceAs (Decidable (∀ r ∈ c.server, ∀ m ∈ c.queue.head?, m.1 = r.1))
  | .sendHdr _ _ _ | .sendData _ _ => isTrue trivial

/-- The datagrams of one payload. -/
def datagrams (p : List Byte) : List (List Byte) := [be32 p.length, p]

theorem exists_unread {unread : List (List Byte)} (h : unread.flatMap datagrams ≠ []) :
    ∃ p u, unread = p :: u := by
  cases unread with
  | nil => exact absurd rfl h
  | cons p u => exact ⟨p, u, rfl⟩

/-- The header that the server has read from `a`. -/
def held (c : Channel Addr) (a : Addr) : List (List Byte) :=
  match c.server with
  | some (b, len) => if b = a then [be32 len] else []
  | none => []

/-- The data that `a` has still to send. -/
def owed (c : Channel Addr) (a : Addr) : List (List Byte) := (c.sending a).toList

structure Aligned (c : Channel Addr) : Prop where
  server : ∀ a len, c.server = some (a, len) → len < 2 ^ 32
  client : ∀ a, ∃ unread : List (List Byte), ofClient a c.sent = ofClient a c.delivered ++ unread ∧
    (∀ p ∈ unread, p.length < 2 ^ 32) ∧
    held c a ++ ofClient a c.queue ++ owed c a = unread.flatMap datagrams

namespace Aligned

variable {c c' : Channel Addr}

theorem init : Aligned (Channel.init : Channel Addr) where
  server _ _ h := by cases h
  client a := ⟨[], rfl, by simp, rfl⟩

theorem sendHdr {a : Addr} {p : List Byte} (h : Aligned c) (hs : c.sendHdr a p true = some c') :
    Aligned c' := by
  unfold Channel.sendHdr at hs
  split at hs
  · cases hs
  · next hguard =>
    cases hs
    simp only [not_or, Bool.not_eq_true, Option.isSome_eq_false_iff, Option.isNone_iff_eq_none] at hguard
    obtain ⟨hidle, -, hp⟩ := hguard
    refine ⟨h.server, fun b => ?_⟩
    obtain ⟨unread, hsent, hlen, hmsgs⟩ := h.client b
    by_cases hb : b = a
    · subst hb
      -- the new message is the last of its client
      refine ⟨unread ++ [p], by simp [hsent], ?_, ?_⟩
      · intro q hq
        rcases List.mem_append.mp hq with hq | hq
        · exact hlen q hq
        · rw [List.mem_singleton.mp hq]
          omega
      · have howed : owed c b = [] := by simp [owed, hidle]
        rw [howed, List.append_nil] at hmsgs
        simp only [held, owed, Function.update_self, ofClient_append, if_true,
          List.flatMap_append] at hmsgs ⊢
        rw [← hmsgs]
        simp [datagrams]
    · have hab : a ≠ b := fun h => hb h.symm
      refine ⟨unread, by simp [hsent, ofClient_cons_ne hab], hlen, ?_⟩
      rw [← hmsgs]
      simp [held, owed, ofClient_cons_ne hab, Function.update_of_ne hb]

theorem sendData {a : Addr} (h : Aligned c) (hs : c.sendData a true = some c') : Aligned c' := by
  unfold Channel.sendData at hs
  cases hp : c.sending a with
  | none => simp [hp] at hs
  | some p =>
    simp only [hp, Option.bind_eq_bind, Option.bind_some, if_true, Option.some.injEq] at hs
    subst hs
    refine ⟨h.server, fun b => ?_⟩
    obtain ⟨unread, hsent, hlen, hmsgs⟩ := h.client b
    refine ⟨unread, hsent, hlen, ?_⟩
    rw [← hmsgs]
    by_cases hb : b = a
    · subst hb
      simp [held, owed, hp]
    · have hab : a ≠ b := fun h => hb h.symm
      simp [held, owed, ofClient_cons_ne hab, Function.update_of_ne hb]

/-- The first datagram of a client whose header is not held is a header. -/
theorem recvHdr (h : Aligned c) (hs : c.recvHdr true = some c') : Aligned c' := by
  unfold Channel.recvHdr at hs
  split at hs
  · next hidle a d rest hserver hqueue =>
    obtain ⟨unread, hsent, hlen, hmsgs⟩ := h.client a
    have hheld : held c a = [] := by simp [held, hserver]
    rw [hheld, hqueue, ofClient_cons_self] at hmsgs
    obtain ⟨p, unread, rfl⟩ := exists_unread (by rw [← hmsgs]; simp)
    have hp := hlen p (by simp)
    simp only [List.nil_append, List.cons_append, List.flatMap_cons, datagrams, List.cons.injEq] at hmsgs
    obtain ⟨rfl, hrest⟩ := hmsgs
    have hdec : ofBe32 (be32 p.length) = p.length := by simpa using ofBe32_be32 hp []
    have htake : (be32 p.length).take ipcmsgHdrLen = be32 p.length := rfl
    rw [htake, hdec, if_neg (by simp [ipcmsgHdrLen])] at hs
    cases hs
    refine ⟨fun b len hb => ?_, fun b => ?_⟩
    · cases hb
      exact hp
    · by_cases hb : b = a
      · subst hb
        exact ⟨p :: unread, hsent, hlen, by simpa [held, owed, datagrams] using hrest⟩
      · have hab : a ≠ b := fun h => hb h.symm
        obtain ⟨unread', hsent', hlen', hmsgs'⟩ := h.client b
        refine ⟨unread', hsent', hlen', ?_⟩
        rw [← hmsgs']
        simp [held, owed, hserver, hqueue, ofClient_cons_ne hab, hab]
  · cases hs

/-- Behind a held header stands its data. -/
theorem recvData (h : Aligned c) (hpair : Paired c .recvData) (hs : c.recvData = some c') :
    Aligned c' := by
  unfold Channel.recvData at hs
  split at hs
  · next a len b d rest hserver hqueue =>
    obtain rfl : b = a := hpair (a, len) hserver (b, d) (by rw [hqueue]; rfl)
    have hlt := h.server b len hserver
    obtain ⟨unread, hsent, hlen, hmsgs⟩ := h.client b
    have hheld : held c b = [be32 len] := by simp [held, hserver]
    rw [hheld, hqueue, ofClient_cons_self] at hmsgs
    obtain ⟨p, unread, rfl⟩ := exists_unread (by rw [← hmsgs]; simp)
    simp only [List.nil_append, List.cons_append, List.flatMap_cons, datagrams, List.cons.injEq] at hmsgs
    obtain ⟨hhdr, rfl, hrest⟩ := hmsgs
    obtain rfl : len = d.length := be32_inj hlt (hlen d (by simp)) hhdr
    rw [List.take_length, if_neg (by simp)] at hs
    cases hs
    refine ⟨fun a' len' (ha' : none = some (a', len')) => (nomatch ha'), fun a' => ?_⟩
    by_cases ha' : a' = b
    · subst ha'
      exact ⟨unread, by simp [hsent], fun q hq => hlen q (by simp [hq]), by simpa [held, owed] using hrest⟩
    · have hba : b ≠ a' := fun h => ha' h.symm
      obtain ⟨unread', hsent', hlen', hmsgs'⟩ := h.client a'
      refine ⟨unread', by simp [hsent', ofClient_cons_ne hba], hlen', ?_⟩
      rw [← hmsgs']
      simp [held, owed, hserver, hqueue, ofClient_cons_ne hba, hba]
  · cases hs

theorem step {e : ChannelEvent Addr} (h : Aligned c) (hloss : NoLoss e) (hpair : Paired c e)
    (hs : c.step e = some c') : Aligned c' := by
  cases e with
  | sendHdr a p ok => obtain rfl : ok = true := hloss; exact h.sendHdr hs
  | sendData a ok => obtain rfl : ok = true := hloss; exact h.sendData hs
  | recvHdr granted => obtain rfl : granted = true := hpair; exact h.recvHdr hs
  | recvData => exact h.recvData hpair hs

/-- For each client, what is delivered is the beginning of what it has sent. -/
theorem safe (h : Aligned c) : SafeDelivery c := by
  refine List.subperm_ext_iff.mpr fun (a, p) _ => ?_
  obtain ⟨unread, hsent, -⟩ := h.client a
  have := congrArg (List.count p) hsent
  rw [List.count_append, count_ofClient, count_ofClient] at this
  omega

end Aligned

/-- **Paired receives are safe.** In every run without loss in which each receive finds a datagram of
the client whose header it has read, and its memory is granted, every delivered payload was sent by
the client it is attributed to, and none is delivered twice. -/
theorem udp_paired_safe {es : List (ChannelEvent Addr)} {c : Channel Addr}
    (hr : Run (fun c e c' => (NoLoss e ∧ Paired c e) ∧ c.step e = some c') Channel.init es c) :
    SafeDelivery c := by
  have haligned : Aligned c := by
    induction hr with
    | nil => exact .init
    | snoc _ hstep ih => exact ih.step hstep.1.1 hstep.1.2 hstep.2
  exact haligned.safe

/-- Client 1 is received while client 2 has sent its header. -/
theorem udp_paired_safe_two : ∃ c : Channel Nat, c.delivered = [(1, [7])] ∧ c.queue = [(2, be32 2)] ∧
    SafeDelivery c := by
  have hfold : (List.foldlM (fun c e => if NoLoss e ∧ Paired c e then Channel.step c e else none)
      (Channel.init : Channel Nat) [.sendHdr 1 [7] true, .sendData 1 true, .sendHdr 2 [8, 9] true,
        .recvHdr true, .recvData]).map (fun c => (c.delivered, c.queue)) =
      some ([(1, [7])], [(2, be32 2)]) := by decide
  obtain ⟨c, hc, heq⟩ := Option.map_eq_some_iff.mp hfold
  obtain ⟨hd, hq⟩ := Prod.mk.inj heq
  exact ⟨c, hd, hq, udp_paired_safe (Run.ofFold _ _ _ _ hc)⟩

/-- Two clients send four bytes each and both headers arrive first: the first receive takes the
header of client 2 for the data of client 1. -/
theorem udp_mixed_unsafe : ∃ (es : List (ChannelEvent Nat)) (c : Channel Nat),
    Run (fun c e c' => NoLoss e ∧ c.step e = some c') Channel.init es c ∧ ¬ SafeDelivery c := by
  have hfold : (List.foldlM (fun c e => if NoLoss e then Channel.step c e else none)
      (Channel.init : Channel Nat) [.sendHdr 1 [1, 2, 3, 4] true, .sendHdr 2 [5, 6, 7, 8] true,
        .sendData 1 true, .sendData 2 true, .recvHdr true, .recvData]).map
        (fun c => (c.delivered, c.sent)) =
      some ([(1, be32 4)], [(1, [1, 2, 3, 4]), (2, [5, 6, 7, 8])]) := by decide
  obtain ⟨c, hc, heq⟩ := Option.map_eq_some_iff.mp hfold
  obtain ⟨hd, hs⟩ := Prod.mk.inj heq
  refine ⟨_, c, Run.ofFold (fun _ e => NoLoss e) _ _ _ hc, fun hsafe => ?_⟩
  have hmem : (1, be32 4) ∈ c.sent := hsafe.subset (by rw [hd]; exact List.mem_singleton.mpr rfl)
  rw [hs] at hmem
  revert hmem
  decide

end Xipcmsg
end Xlibc
