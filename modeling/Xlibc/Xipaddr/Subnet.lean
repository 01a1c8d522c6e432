import Xlibc.Base.Inet

/-!
# Xlibc.Xipaddr.Subnet

Subnet and host part of an address. The functions take texts and give out texts, which `inet_ntoa` leaves
in its buffer; each has read its own texts before the buffer is written. An `int` is its 32 bits.

* `InSubnet` : what `xip_create` is to make of a subnet and a host.
* `inSubnet_iff` : it does so for a host that has no bit under the mask but those of the address.
* `xipCreate_subnet_iff` : that, and putting an address together from its own parts.
-/

namespace Xlibc
namespace Xipaddr

/-! ## The code -/

/-- Neither pointer is `NULL`. An address that cannot be read leaves `ip_addr` without a value. -/
def xipSubnet (e : ByteOrder) (ip mask : List Byte) : Option (List Byte) := do
  let ipAddr ← inetAton e ip
  let maskAddr ← inetAton e mask
  some (inetNtoa e (ipAddr &&& maskAddr))

/-- In network order. The text is in the buffer of `inet_ntoa`, and never `NULL`. -/
def xipSubnet2 (e : ByteOrder) (ip mask : List Byte) : Option (BitVec 32) := do
  let subnet ← xipSubnet e ip mask
  inetAton e subnet

def xipCreate (e : ByteOrder) (ip mask : List Byte) (hostid : BitVec 32) : Option (List Byte) := do
  let subnet ← xipSubnet2 e ip mask
  some (inetNtoa e (subnet ||| htonl e hostid))

def xipHost (e : ByteOrder) (ip mask : List Byte) : Option (BitVec 32) := do
  let ipAddr ← inetAton e ip
  let maskAddr ← inetAton e mask
  some (ntohl e (ipAddr &&& ~~~ maskAddr))

/-! ## The subnet -/

/-- The address made lies in the subnet of `ip`, and its host part is that of `hostid`. -/
def InSubnet (e : ByteOrder) (ip mask : List Byte) (hostid : BitVec 32) : Prop :=
  ∃ addr maskAddr, xipCreate e ip mask hostid = some addr ∧ inetAton e mask = some maskAddr ∧
    xipSubnet e addr mask = xipSubnet e ip mask ∧
    xipHost e addr mask = some (hostid &&& ~~~ ntohl e maskAddr)

/-- Under the mask the host has no bit that the address does not have. -/
def Fits (addr mask hostid : BitVec 32) : Prop := hostid &&& mask &&& ~~~ addr = 0#32

section Bits

variable {w : Nat} (a m h : BitVec w)

theorem subnet_kept_iff : (a &&& m ||| h) &&& m = a &&& m ↔ h &&& m &&& ~~~ a = 0#w := by
  constructor
  · intro hkept
    apply BitVec.eq_of_getLsbD_eq
    intro i hi
    have hbit := congrArg (·.getLsbD i) hkept
    simp only [BitVec.getLsbD_and, BitVec.getLsbD_or, BitVec.getLsbD_not, BitVec.getLsbD_zero] at hbit ⊢
    revert hbit
    cases a.getLsbD i <;> cases m.getLsbD i <;> cases h.getLsbD i <;> simp
  · intro hzero
    apply BitVec.eq_of_getLsbD_eq
    intro i hi
    have hbit := congrArg (·.getLsbD i) hzero
    simp only [BitVec.getLsbD_and, BitVec.getLsbD_or, BitVec.getLsbD_not, BitVec.getLsbD_zero] at hbit ⊢
    revert hbit
    cases a.getLsbD i <;> cases m.getLsbD i <;> cases h.getLsbD i <;> simp [hi]

theorem host_kept : (a &&& m ||| h) &&& ~~~ m = h &&& ~~~ m := by
  apply BitVec.eq_of_getLsbD_eq
  intro i hi
  simp only [BitVec.getLsbD_and, BitVec.getLsbD_or, BitVec.getLsbD_not]
  cases a.getLsbD i <;> cases m.getLsbD i <;> cases h.getLsbD i <;> simp

theorem parts_joined : a &&& m ||| a &&& ~~~ m = a := by
  apply BitVec.eq_of_getLsbD_eq
  intro i hi
  simp only [BitVec.getLsbD_and, BitVec.getLsbD_or, BitVec.getLsbD_not, hi, decide_true, Bool.true_and]
  cases a.getLsbD i <;> cases m.getLsbD i <;> rfl

end Bits

section Calls

variable {e : ByteOrder} {ip mask : List Byte} {a m : BitVec 32}

theorem xipSubnet_eq (ha : inetAton e ip = some a) (hm : inetAton e mask = some m) :
    xipSubnet e ip mask = some (inetNtoa e (a &&& m)) := by
  rw [xipSubnet, ha, hm]
  rfl

theorem xipSubnet2_eq (ha : inetAton e ip = some a) (hm : inetAton e mask = some m) :
    xipSubnet2 e ip mask = some (a &&& m) := by
  rw [xipSubnet2, xipSubnet_eq ha hm]
  exact inetAton_inetNtoa e (a &&& m)

theorem xipHost_eq (ha : inetAton e ip = some a) (hm : inetAton e mask = some m) :
    xipHost e ip mask = some (ntohl e (a &&& ~~~ m)) := by
  rw [xipHost, ha, hm]
  rfl

theorem xipCreate_eq (ha : inetAton e ip = some a) (hm : inetAton e mask = some m) (hostid : BitVec 32) :
    xipCreate e ip mask hostid = some (inetNtoa e (a &&& m ||| htonl e hostid)) := by
  rw [xipCreate, xipSubnet2_eq ha hm]
  rfl

theorem inetNtoa_inj {x y : BitVec 32} (h : inetNtoa e x = inetNtoa e y) : x = y := by
  have hread := congrArg (inetAton e) h
  rw [inetAton_inetNtoa, inetAton_inetNtoa] at hread
  exact Option.some.inj hread

theorem fits_htonl (hostid : BitVec 32) :
    htonl e hostid &&& m &&& ~~~ a = 0#32 ↔ Fits (ntohl e a) (ntohl e m) hostid := by
  have hzero : htonl e 0#32 = 0#32 := by cases e <;> rfl
  unfold Fits
  constructor
  · intro h
    have h' := congrArg (ntohl e) h
    unfold ntohl at h' ⊢
    rw [htonl_and, htonl_and, htonl_not, hzero] at h'
    rwa [show htonl e (htonl e hostid) = hostid from ntohl_htonl e hostid] at h'
  · intro h
    have h' := congrArg (htonl e) h
    rwa [htonl_and, htonl_and, htonl_not, htonl_ntohl, htonl_ntohl, hzero] at h'

theorem inSubnet_iff (ha : inetAton e ip = some a) (hm : inetAton e mask = some m) (hostid : BitVec 32) :
    InSubnet e ip mask hostid ↔ Fits (ntohl e a) (ntohl e m) hostid := by
  have hcreate := xipCreate_eq ha hm hostid
  have hread := inetAton_inetNtoa e (a &&& m ||| htonl e hostid)
  have hhost : ntohl e (htonl e hostid &&& ~~~ m) = hostid &&& ~~~ ntohl e m := by
    unfold ntohl
    rw [htonl_and, htonl_not, show htonl e (htonl e hostid) = hostid from ntohl_htonl e hostid]
  rw [← fits_htonl, ← subnet_kept_iff]
  constructor
  · rintro ⟨addr, m', hrun, -, hsame, -⟩
    rw [hcreate] at hrun
    cases hrun
    rw [xipSubnet_eq hread hm, xipSubnet_eq ha hm] at hsame
    exact inetNtoa_inj (Option.some.inj hsame)
  · intro hkept
    refine ⟨_, m, hcreate, hm, ?_, ?_⟩
    · rw [xipSubnet_eq hread hm, xipSubnet_eq ha hm, hkept]
    · rw [xipHost_eq hread hm, host_kept, hhost]

theorem xipCreate_host (ha : inetAton e ip = some a) (hm : inetAton e mask = some m) :
    ∃ hostid, xipHost e ip mask = some hostid ∧ xipCreate e ip mask hostid = some (inetNtoa e a) := by
  refine ⟨_, xipHost_eq ha hm, ?_⟩
  rw [xipCreate_eq ha hm, htonl_ntohl, parts_joined]

/-- **Addresses from a subnet and a host.** The address made lies in the subnet exactly if the host fits it;
made from the host of `ip` it is `ip`, in the same words if `ip` is a dotted quad. -/
theorem xipCreate_subnet_iff (ha : inetAton e ip = some a) (hm : inetAton e mask = some m) :
    (∀ hostid, InSubnet e ip mask hostid ↔ Fits (ntohl e a) (ntohl e m) hostid) ∧
    ∃ hostid addr, xipHost e ip mask = some hostid ∧ xipCreate e ip mask hostid = some addr ∧
      inetAton e addr = some a ∧ ∀ b0 b1 b2 b3, ip = dottedQuad b0 b1 b2 b3 → addr = ip := by
  obtain ⟨hostid, hhost, hcreate⟩ := xipCreate_host ha hm
  refine ⟨inSubnet_iff ha hm, hostid, _, hhost, hcreate, inetAton_inetNtoa e a, ?_⟩
  rintro b0 b1 b2 b3 rfl
  rw [inetAton_dottedQuad] at ha
  cases ha
  exact inetNtoa_dottedQuad e b0 b1 b2 b3

/-- Host 256 of `192.168.10.1` under `255.255.255.0` is `192.168.11.0`. -/
theorem xipCreate_leaves : ¬ InSubnet .little (dottedQuad 192 168 10 1) (dottedQuad 255 255 255 0) 256#32 := by
  rw [inSubnet_iff (inetAton_dottedQuad _ _ _ _ _) (inetAton_dottedQuad _ _ _ _ _), ntohl_htonl, ntohl_htonl]
  unfold Fits
  decide

theorem xipCreate_subnet_eleven : InSubnet .little (dottedQuad 192 168 10 1) (dottedQuad 255 255 255 0) 11#32 := by
  refine ((xipCreate_subnet_iff (inetAton_dottedQuad _ _ _ _ _) (inetAton_dottedQuad _ _ _ _ _)).1 11#32).mpr ?_
  rw [ntohl_htonl, ntohl_htonl]
  unfold Fits
  decide

end Calls

end Xipaddr
end Xlibc
