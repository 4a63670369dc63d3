import Mathlib.Data.List.Forall2
import MbBootTv.Net.TftpComplete

/-!
# What a transfer says

Anything may come over the wire, from anybody: what `tftp` itself puts on it is still a conversation
with one server. It sends the request, then the acknowledgements in order, and it never acknowledges a
block that the callback is not given (`tftp_talks`).

The packet in `xmit` is the one that is sent next, and again after a time-out, so the invariant is
about `xmit` between two packets: it holds the request or the acknowledgement of the last block.
-/

namespace MbBootTv

/-- What is said, with the code of the error as the program writes it, least byte first. -/
inductive TftpMsg
  | request
  | refuse
  | ack (k : UInt16)

namespace TftpMsg

def bytes (name : List UInt8) : TftpMsg → List UInt8
  | request => be16 tftpRrq ++ rrqStrings name
  | refuse => be16 tftpError ++ ([8, 0] ++ (ascii "RFC1782 error" ++ [0]))
  | ack k => be16 tftpAck ++ be16 k

/-- The last block that has been received, according to what is said. -/
def block : TftpMsg → Nat
  | request => 0
  | refuse => 0
  | ack k => k.toNat

end TftpMsg

/-! ## One packet -/

/-- The datagram in `xmit`. -/
def Tftp.datagram (t : Tftp) (client server : UInt32) : Datagram :=
  ⟨client, server, t.lport, t.rport, t.xmit.slice 28 (t.xmitlen.toNat - 28)⟩

section Transmit

variable {t t' : Tftp} {s s' : Net} {polls rest : List Poll} {sent : Bool}

/-- **What is in `xmit` leaves** or nothing does; but for the headers it stays there. -/
theorem tftpTransmit_rule (h28 : 28 ≤ t.xmitlen.toNat) (hmtu : t.xmitlen.toNat ≤ ethMaxMtu)
    (h : tftpTransmit t s polls = .ok (sent, t', s', rest)) :
    (∃ xmit : Bytes, t' = { t with xmit } ∧ ∀ i, 28 ≤ i → xmit i = t.xmit i) ∧
      (s'.netmask = s.netmask ∧ ∀ j, (s'.arptable j).ipaddr = (s.arptable j).ipaddr) ∧
      (if sent then ∃ x, s'.ipSent = s.ipSent ++ [x] ∧
        x.Brings (t.datagram s.clientIp (s.arptable arpServer).ipaddr)
      else s'.ipSent = s.ipSent) ∧ rest <:+ polls := by
  unfold tftpTransmit at h
  obtain ⟨⟨sent₁, b₁, s₁, rest₁⟩, hudp, h⟩ := bind_eq_ok.mp h
  cases h
  unfold udpTransmit at hudp
  dsimp only at hudp
  obtain ⟨b, hbuild, hbuilt⟩ := buildUdpHdr_built s.clientIp (s.arptable arpServer).ipaddr t.lport
    t.rport 60 t.xmit h28 hmtu
  rw [show ({ s with sport := t.lport } : Net).clientIp = s.clientIp from rfl, hbuild, ok_bind]
    at hudp
  obtain ⟨⟨sent₂, s₂, rest₂⟩, hip, hudp⟩ := bind_eq_ok.mp hudp
  cases hudp
  refine ⟨⟨_, rfl, hbuilt.payload⟩,
    ipTransmit_addresses (s := { s with sport := t.lport }) hip, ?_, (ipTransmit_rule hip).2⟩
  have hrule := (ipTransmit_rule hip).1
  cases sent₂ with
  | true =>
    obtain ⟨node, -, hsent⟩ := hrule
    exact ⟨_, hsent, hbuilt.brings h28 hmtu node⟩
  | false => exact hrule

end Transmit

/-- Between two packets, `k` blocks have come, and `xmit` says so. -/
structure Talking (name : List UInt8) (k : Nat) (t : Tftp) : Prop where
  blockidx : t.blockidx.toNat = k
  xmitlen_ge : 28 ≤ t.xmitlen.toNat
  xmitlen_le : t.xmitlen.toNat ≤ ethMaxMtu
  msg : ∃ m : TftpMsg, m.block = k ∧ t.xmit.slice 28 (t.xmitlen.toNat - 28) = m.bytes name

section Packet

variable {name : List UInt8} {k : Nat} {t t' : Tftp} {s s' : Net} {request : Option TftpReqInfo}

theorem slice_ack (t : Tftp) :
    t.ack.xmit.slice 28 (t.ack.xmitlen.toNat - 28) = be16 tftpAck ++ be16 t.blockidx := by
  show Bytes.slice ((t.xmit.putLe 28 2 (htons tftpAck).toNat).putLe 30 2
    (htons t.blockidx).toNat) 28 (2 + 2) = _
  rw [← Bytes.slice_append, slice_putLe_htons]
  refine congrArg (· ++ _) ((Bytes.slice_congr fun i hi => ?_).trans
    (slice_putLe_htons t.xmit 28 tftpAck))
  exact Bytes.putLe_of_not_mem (by omega)

/-- The acknowledgement of the block that is the last one now. -/
theorem talking_ack (t : Tftp) (name : List UInt8) : Talking name t.blockidx.toNat t.ack where
  blockidx := rfl
  xmitlen_ge := (by decide : 28 ≤ tftpMinPacket.toNat)
  xmitlen_le := (by decide : tftpMinPacket.toNat ≤ ethMaxMtu)
  msg := ⟨.ack t.blockidx, rfl, slice_ack t⟩

theorem slice_refuse (t : Tftp) : t.refuse.xmit.slice 28 (t.refuse.xmitlen.toNat - 28) =
    be16 tftpError ++ ([8, 0] ++ (ascii "RFC1782 error" ++ [0])) := by
  show Bytes.slice (((t.xmit.putLe 28 2 (htons tftpError).toNat).putLe 30 2 8).copy 32
    (pieceAt (ascii "RFC1782 error" ++ [0])) 14) 28 (2 + (2 + 14)) = _
  rw [← Bytes.slice_append, ← Bytes.slice_append]
  refine congrArg₂ (· ++ ·) ?_ (congrArg₂ (· ++ ·) ?_ ?_)
  · refine (Bytes.slice_congr fun i hi => ?_).trans (slice_putLe_htons t.xmit 28 tftpError)
    rw [Bytes.copy_of_lt (by omega), Bytes.putLe_of_not_mem (by omega)]
  · refine (Bytes.slice_congr fun i hi => Bytes.copy_of_lt (by omega)).trans ?_
    exact slice_putLe_htons (t.xmit.putLe 28 2 (htons tftpError).toNat) 30 0x0800
  · exact slice_copy_piece _ _ (ascii "RFC1782 error" ++ [0])

/-- The error, which is only sent before the first block. -/
theorem talking_refuse (name : List UInt8) (hfirst : t.blockidx = 0) : Talking name 0 t.refuse where
  blockidx := congrArg UInt16.toNat hfirst
  xmitlen_ge := (by decide : 28 ≤ 46)
  xmitlen_le := (by decide : 46 ≤ 1500)
  msg := ⟨.refuse, rfl, slice_refuse t⟩

/-- The request. -/
theorem talking_request {remote : UInt16} (h : tftpRequest ⟨name, remote, 1432⟩ t = .ok t') :
    Talking name 0 t' := by
  have hname := length_le_of_tftpRequest h
  obtain ⟨t₁, hrequest, -, -, hidx, -, -, hxmitlen, htext⟩ := tftpRequest_of_le remote t hname
  have hmtu : ethMaxMtu = 1500 := rfl
  rw [hrequest] at h
  cases h
  exact {
    blockidx := congrArg UInt16.toNat hidx
    xmitlen_ge := by omega
    xmitlen_le := by omega
    msg := ⟨.request, rfl, by
      rw [hxmitlen, show 50 + name.length - 28 = 22 + name.length by omega]
      exact htext⟩ }

/-- What a packet makes of the conversation. -/
def Answered (name : List UInt8) (k : Nat) (t : Tftp) : TftpNext → Prop
  | .abort => True
  | .refuse => Talking name k t
  | .acknowledge none => Talking name k t
  | .acknowledge (some block) => block.block.toNat = k + 1 ∧ Talking name (k + 1) t

theorem tftpOptions_answered {next : TftpNext} (hk : t.blockidx.toNat = k)
    (h : tftpOptions request t s = .ok (next, t', s')) :
    Answered name k t' next ∧ ∃ packet, s' = { s with packet } := by
  have hack : Talking name k t.ack := hk ▸ talking_ack t name
  unfold tftpOptions at h
  dsimp only at h
  split at h
  · cases h
  cases request with
  | none =>
    cases h
    exact ⟨hack, _, rfl⟩
  | some r =>
    dsimp only at h
    split at h
    · cases h
      exact ⟨hack, _, rfl⟩
    case isFalse hfirst =>
      rw [not_not] at hfirst
      obtain rfl : k = 0 := hk.symm.trans (congrArg UInt16.toNat hfirst)
      -- The block size does not matter, be it from the packet or the old one.
      have hsize : ∃ blksize, (if blksize < 512 ∨ r.blksize.toUInt32.toInt32 < blksize then
          Except.ok (TftpNext.refuse, { t with blksize : Tftp }.refuse,
            { s with packet := s.packet.fill (43 + (tftpRecvlen s).toNat) 0 1 })
          else .ok (.acknowledge none, { t with blksize : Tftp }.ack,
            { s with packet := s.packet.fill (43 + (tftpRecvlen s).toNat) 0 1 })) =
          Except.ok (ε := Fault) (next, t', s') := by
        split at h
        · obtain ⟨blksize, -, h⟩ := bind_eq_ok.mp h
          exact ⟨blksize, h⟩
        · exact ⟨t.blksize, h⟩
      obtain ⟨blksize, h⟩ := hsize
      split at h
      · cases h
        exact ⟨talking_refuse (t := { t with blksize }) name hfirst, _, rfl⟩
      · cases h
        exact ⟨hk ▸ talking_ack { t with blksize } name, _, rfl⟩

theorem tftpBlockData_answered {block : Option TftpBlkInfo} (hk : t.blockidx.toNat = k)
    (h : tftpBlockData t s = (block, t')) : Answered name k t' (.acknowledge block) := by
  have hack : Talking name k t.ack := hk ▸ talking_ack t name
  unfold tftpBlockData at h
  dsimp only at h
  split at h
  · cases h
    exact hack
  case isFalse hnext =>
    split at h
    · cases h
      exact hack
    · cases h
      rw [not_not] at hnext
      have hlt := (tftpBlockOf s).toNat_lt
      -- The block after the last one has a number, so this one is not the 65536th.
      have hidx : (t.blockidx + 1).toNat = k + 1 := by
        rw [UInt16.toNat_add, hk]
        exact Nat.mod_eq_of_lt (by
          show k + 1 < 2 ^ 16
          omega)
      refine ⟨(UInt16.toNat_toUInt32 _).trans hidx, ?_⟩
      exact hidx ▸ talking_ack { t with blockidx := t.blockidx + 1, blksize := _ } name

/-- **A packet**, whatever is in it. -/
theorem tftpPacket_answered {next : TftpNext} (hk : t.blockidx.toNat = k)
    (h : tftpPacket request t s = .ok (next, t', s')) :
    Answered name k t' next ∧ ∃ packet, s' = { s with packet } := by
  unfold tftpPacket at h
  dsimp only at h
  split at h
  · obtain ⟨-, -, h⟩ := bind_eq_ok.mp h
    cases h
    exact ⟨trivial, _, rfl⟩
  split at h
  · exact tftpOptions_answered (t := t.heard _) hk h
  split at h
  · cases h
    exact ⟨tftpBlockData_answered (t := t.heard _) hk rfl, _, rfl⟩
  · cases h
    exact ⟨hk ▸ talking_ack (t.heard (udpSrc s.packet ethHlen)) name, _, rfl⟩

end Packet

/-! ## The run -/

/-- What has left since `s₀`, of which the last acknowledgement may be that of block `k`. -/
structure Spoken (name : List UInt8) (s₀ : Net) (k : Nat) (s : Net) : Prop where
  netmask : s.netmask = s₀.netmask
  ipaddr : ∀ j, (s.arptable j).ipaddr = (s₀.arptable j).ipaddr
  said : ∃ xs msgs, s.ipSent = s₀.ipSent ++ xs ∧
    List.Forall₂ (fun x (m : TftpMsg) => ∃ lport rport,
      x.Brings ⟨s₀.clientIp, (s₀.arptable arpServer).ipaddr, lport, rport, m.bytes name⟩) xs msgs ∧
    (msgs.map TftpMsg.block).Pairwise (· ≤ ·) ∧ ∀ m ∈ msgs, m.block ≤ k

section Run

variable {name : List UInt8} {k : Nat} {t t' : Tftp} {s₀ s s' : Net} {polls rest : List Poll}
  {request : Option TftpReqInfo}

theorem Spoken.refl (name : List UInt8) (s : Net) : Spoken name s 0 s where
  netmask := rfl
  ipaddr := fun _ => rfl
  said := ⟨[], [], (List.append_nil _).symm, .nil, .nil, fun _ hm => by cases hm⟩

theorem Spoken.of_kept (h : Spoken name s₀ k s) (hkept : Kept s s') : Spoken name s₀ k s' where
  netmask := hkept.netmask.trans h.netmask
  ipaddr := fun j => by rw [hkept.arptable, h.ipaddr]
  said := by rw [hkept.ipSent]; exact h.said

/-- Nothing that has been said is beyond a later block. -/
theorem Spoken.mono {k' : Nat} (h : Spoken name s₀ k s) (hk : k ≤ k') : Spoken name s₀ k' s where
  netmask := h.netmask
  ipaddr := h.ipaddr
  said := by
    obtain ⟨xs, msgs, hsent, hbrings, hsorted, hle⟩ := h.said
    exact ⟨xs, msgs, hsent, hbrings, hsorted, fun m hm => (hle m hm).trans hk⟩

/-- **One more datagram**, from what is in `xmit`. -/
theorem Spoken.transmit {sent : Bool} (h : Spoken name s₀ k s) (ht : Talking name k t)
    (hsend : tftpTransmit t s polls = .ok (sent, t', s', rest)) :
    Spoken name s₀ k s' ∧ Talking name k t' ∧ rest <:+ polls := by
  obtain ⟨⟨xmit, rfl, hxmit⟩, ⟨hmask, hipaddr⟩, hsent, hsuffix⟩ :=
    tftpTransmit_rule ht.xmitlen_ge ht.xmitlen_le hsend
  obtain ⟨m, hblock, htext⟩ := ht.msg
  have hsame : xmit.slice 28 (t.xmitlen.toNat - 28) = t.xmit.slice 28 (t.xmitlen.toNat - 28) :=
    Bytes.slice_congr fun i _ => hxmit _ (Nat.le_add_right _ _)
  refine ⟨⟨hmask.trans h.netmask, fun j => (hipaddr j).trans (h.ipaddr j), ?_⟩,
    { ht with msg := ⟨m, hblock, hsame.trans htext⟩ }, hsuffix⟩
  cases sent with
  | true =>
    obtain ⟨x, hx, hbrings⟩ := hsent
    obtain ⟨xs, msgs, hold, hall, hsorted, hle⟩ := h.said
    refine ⟨xs ++ [x], msgs ++ [m], by rw [hx, hold, List.append_assoc], ?_, ?_, ?_⟩
    · refine List.rel_append hall (.cons ⟨t.lport, t.rport, ?_⟩ .nil)
      unfold Tftp.datagram Net.clientIp at hbrings
      rwa [h.ipaddr, h.ipaddr, htext] at hbrings
    · rw [List.map_append, List.map_singleton, List.pairwise_append]
      refine ⟨hsorted, List.pairwise_singleton _ _, fun a ha b hb => ?_⟩
      obtain ⟨m', hm', rfl⟩ := List.mem_map.mp ha
      rw [List.mem_singleton.mp hb, hblock]
      exact hle m' hm'
    · intro m' hm'
      rcases List.mem_append.mp hm' with hm' | hm'
      · exact hle m' hm'
      · rw [List.mem_singleton.mp hm', hblock]
  | false => rw [hsent]; exact h.said

theorem Talking.timeout (h : Talking name k t) : Talking name k (tftpTimeout t).2 := by
  unfold tftpTimeout
  split
  · exact { h with }
  · exact { h with }

/-- Where a call of `tftp_block` leaves the conversation. -/
def TftpLeft (name : List UInt8) (s₀ : Net) (k : Nat) (t : Tftp) (s : Net) : Option TftpBlkInfo → Prop
  | none => Spoken name s₀ k s
  | some block => block.block.toNat = k + 1 ∧ Talking name (k + 1) t ∧ Spoken name s₀ (k + 1) s

/-- **The loop of `tftp_block`**, whatever comes. -/
theorem tftpLoop_talks {n : Nat} {block : Option TftpBlkInfo} (ht : Talking name k t)
    (hs : Spoken name s₀ k s) (h : tftpLoop request n t s polls = .ok (block, t', s', rest)) :
    TftpLeft name s₀ k t' s' block ∧ rest <:+ polls := by
  induction n generalizing t s polls with
  | zero => cases h
  | succ n ih =>
    rw [tftpLoop] at h
    obtain ⟨⟨received, s₁, rest₁⟩, hawait, h⟩ := bind_eq_ok.mp h
    obtain ⟨hkept, hsuffix₁⟩ := awaitReply_kept (fun hr => by cases hr; rfl) hawait
    have hs₁ := hs.of_kept hkept
    cases received with
    | true =>
      dsimp only at h
      rw [if_pos rfl] at h
      obtain ⟨⟨next, t₁, s₂⟩, hpacket, h⟩ := bind_eq_ok.mp h
      obtain ⟨hanswered, packet, rfl⟩ := tftpPacket_answered ht.blockidx hpacket
      have hs₂ : Spoken name s₀ k { s₁ with packet } := hs₁.of_kept ⟨rfl, rfl, rfl, rfl⟩
      cases next with
      | abort =>
        cases h
        exact ⟨hs₂, hsuffix₁⟩
      | refuse =>
        obtain ⟨⟨sent, t₂, s₃, rest₂⟩, hsend, h⟩ := bind_eq_ok.mp h
        cases h
        obtain ⟨hs₃, -, hsuffix₂⟩ := hs₂.transmit hanswered hsend
        exact ⟨hs₃, hsuffix₂.trans hsuffix₁⟩
      | acknowledge found =>
        obtain ⟨⟨sent, t₂, s₃, rest₂⟩, hsend, h⟩ := bind_eq_ok.mp h
        cases found with
        | none =>
          obtain ⟨hs₃, ht₂, hsuffix₂⟩ := hs₂.transmit hanswered hsend
          exact (ih ht₂ hs₃ h).imp_right (·.trans (hsuffix₂.trans hsuffix₁))
        | some blk =>
          cases h
          obtain ⟨hblock, htalking⟩ := hanswered
          obtain ⟨hs₃, ht₂, hsuffix₂⟩ := (hs₂.mono (Nat.le_succ k)).transmit htalking hsend
          exact ⟨⟨hblock, ht₂, hs₃⟩, hsuffix₂.trans hsuffix₁⟩
    | false =>
      dsimp only at h
      rw [if_neg Bool.false_ne_true] at h
      split at h
      · obtain ⟨⟨sent, t₂, s₃, rest₂⟩, hsend, h⟩ := bind_eq_ok.mp h
        obtain ⟨hs₃, ht₂, hsuffix₂⟩ := hs₁.transmit ht.timeout hsend
        dsimp only at h
        split at h
        · exact (ih ht₂ hs₃ h).imp_right (·.trans (hsuffix₂.trans hsuffix₁))
        · cases h
          exact ⟨hs₃, hsuffix₂.trans hsuffix₁⟩
      · cases h
        exact ⟨hs₁, hsuffix₁⟩

theorem tftpBlock_none_talks {block : Option TftpBlkInfo} (ht : Talking name k t)
    (hs : Spoken name s₀ k s) (h : tftpBlock none t s polls = .ok (block, t', s', rest)) :
    TftpLeft name s₀ k t' s' block ∧ rest <:+ polls := by
  unfold tftpBlock at h
  dsimp only at h
  split at h
  · cases h
    exact ⟨hs, List.suffix_rfl⟩
  · exact tftpLoop_talks ht hs h

theorem tftpBlock_some_talks {remote : UInt16} {block : Option TftpBlkInfo}
    (h : tftpBlock (some ⟨name, remote, 1432⟩) t s polls = .ok (block, t', s', rest)) :
    TftpLeft name s 0 t' s' block ∧ rest <:+ polls := by
  unfold tftpBlock at h
  dsimp only at h
  obtain ⟨⟨s₁, polls₁⟩, hdrain, h⟩ := bind_eq_ok.mp h
  obtain ⟨t₁, hrequest, h⟩ := bind_eq_ok.mp h
  obtain ⟨⟨sent, t₂, s₂, polls₂⟩, hsend, h⟩ := bind_eq_ok.mp h
  obtain ⟨hkept, hsuffix₁⟩ := rxQdrain_kept hdrain
  have hs₁ := (Spoken.refl name s).of_kept hkept
  obtain ⟨hs₂, ht₂, hsuffix₂⟩ := hs₁.transmit (talking_request hrequest) hsend
  have hsuffix := hsuffix₂.trans hsuffix₁
  dsimp only at h
  split at h
  · split at h
    · cases h
      exact ⟨hs₂, hsuffix⟩
    · exact (tftpLoop_talks ht₂ hs₂ h).imp_right (·.trans hsuffix)
  · cases h
    exact ⟨hs₂, hsuffix⟩

/-- The calls of the callback, from any block on. -/
theorem tftpCalls_talks {fnc : TftpSink} {n : Nat} {rc : Int32} {calls calls' : List TftpCall}
    (hcalls : calls.map (fun call => call.block.toNat) = List.range' 1 calls.length)
    (hlt : calls.length < 2 ^ 16)
    (hblock : ∀ block t' s' rest, tftpBlock request t s polls = .ok (block, t', s', rest) →
      TftpLeft name s₀ calls.length t' s' block ∧ rest <:+ polls)
    (h : tftpCalls fnc n request calls t s polls = .ok (rc, calls', t', s', rest)) :
    (calls'.map (fun call => call.block.toNat) = List.range' 1 calls'.length ∧
      calls'.length < 2 ^ 16 ∧ Spoken name s₀ calls'.length s') ∧ rest <:+ polls := by
  induction n generalizing request calls t s polls with
  | zero => cases h
  | succ n ih =>
    rw [tftpCalls] at h
    obtain ⟨⟨block, t₁, s₁, rest₁⟩, hrun, h⟩ := bind_eq_ok.mp h
    obtain ⟨hleft, hsuffix⟩ := hblock block t₁ s₁ rest₁ hrun
    cases block with
    | none =>
      cases h
      exact ⟨⟨hcalls, hlt, hleft⟩, hsuffix⟩
    | some block =>
      obtain ⟨hnum, ht₁, hs₁⟩ := hleft
      have hlength : (calls ++ [block.call s₁]).length = calls.length + 1 := List.length_append
      have hcalls' : (calls ++ [block.call s₁]).map (fun call => call.block.toNat) =
          List.range' 1 (calls ++ [block.call s₁]).length := by
        rw [List.map_append, hcalls, hlength, List.range'_concat, Nat.mul_comm, Nat.mul_one,
          Nat.add_comm 1]
        exact congrArg (_ ++ [·]) hnum
      have hlt' : (calls ++ [block.call s₁]).length < 2 ^ 16 := by
        rw [hlength, ← ht₁.blockidx]
        exact t₁.blockidx.toNat_lt
      rw [← hlength] at ht₁ hs₁
      dsimp only at h
      split at h
      · cases h
        exact ⟨⟨hcalls', hlt', hs₁⟩, hsuffix⟩
      · exact (ih hcalls' hlt' (fun _ _ _ _ => tftpBlock_none_talks ht₁ hs₁) h).imp_right
          (·.trans hsuffix)

/-- **What a transfer says.** Whatever comes over the wire: the callback is given the blocks 1, 2, 3, …
of less than 65536, and all the datagrams that leave go from this machine to the server and are the
request, the error about the block size, or acknowledgements, which come in order and are for no block
that the callback is not given. -/
theorem tftp_talks {fnc : TftpSink} {rc : Int32} {calls : List TftpCall}
    (h : tftp name fnc t s polls = .ok (rc, calls, t', s', rest)) :
    calls.map (fun call => call.block.toNat) = List.range' 1 calls.length ∧
      calls.length < 2 ^ 16 ∧ Spoken name s calls.length s' :=
  (tftpCalls_talks rfl (by decide) (fun _ _ _ _ => tftpBlock_some_talks) h).1

end Run

theorem tftp_talks_short : ∃ polls calls t' s' rest,
    tftp [97] (fun _ _ => 1) .initial lanNet polls = .ok (0, calls, t', s', rest) ∧
      Spoken [97] lanNet calls.length s' := by
  obtain ⟨polls, hstarting, -, -⟩ := exists_starting_short
    (by decide : [(1 : UInt8), 2, 3].length < 1432)
  obtain ⟨calls, t', s', rest, hrun⟩ := exists_run_short hstarting
  exact ⟨_, calls, t', s', rest, hrun, (tftp_talks hrun).2.2⟩

end MbBootTv
