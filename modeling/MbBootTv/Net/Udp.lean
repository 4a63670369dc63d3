import MbBootTv.Net.Rtl8139

/-!
# What is sent and what is received

The headers that `build_udp_hdr` writes are those that `await_reply` wants to see (`Sound`), and
the payload arrives as it was sent, whatever the buffer held before (`datagram_arrives`). A
datagram in which one word has changed on the way is dropped (`damaged_dropped`). The lengths in a
header are trusted too much: `inspect_faults_iff` says for which frames `await_reply` leaves its
buffer.
-/

namespace MbBootTv

open OnesComplement

/-! ## Byte order -/

theorem bswap16_bswap16 (x : UInt16) : bswap16 (bswap16 x) = x := by
  have hx := x.toNat_lt
  rw [← UInt16.toNat_inj, toNat_bswap16, toNat_bswap16]
  omega

@[simp] theorem ntohs_htons (x : UInt16) : ntohs (htons x) = x := bswap16_bswap16 x

/-! ## Headers -/

/-- The sum that the UDP checksum completes. -/
def udpSum (m : Bytes) (ip : Nat) : Nat :=
  octetSum (pseudoHdr m ip) 0 12 + octetSum m (ip + 20) ((ipLen m ip).toNat - 20)

section Congr

variable {a b : Bytes} {p q n k : Nat}

theorem le16_field_congr (h : ∀ i < n, a (p + i) = b (q + i)) (hk : k + 2 ≤ n) :
    a.le16 (p + k) = b.le16 (q + k) :=
  Bytes.le16_congr fun i hi => by
    rw [Nat.add_assoc, Nat.add_assoc]
    exact h (k + i) (by omega)

theorem le32_field_congr (h : ∀ i < n, a (p + i) = b (q + i)) (hk : k + 4 ≤ n) :
    a.le32 (p + k) = b.le32 (q + k) :=
  Bytes.le32_congr fun i hi => by
    rw [Nat.add_assoc, Nat.add_assoc]
    exact h (k + i) (by omega)

theorem pseudoHdr_congr (h : ∀ i < n, a (p + i) = b (q + i)) (hn : 20 ≤ n) :
    pseudoHdr a p = pseudoHdr b q := by
  have hsrc : ipSrc a p = ipSrc b q := le32_field_congr h (by omega)
  have hdest : ipDest a p = ipDest b q := le32_field_congr h (by omega)
  have hproto : ipProtocol a p = ipProtocol b q := h 9 (by omega)
  have hlen : ipLen a p = ipLen b q := congrArg ntohs (le16_field_congr h (by omega))
  rw [pseudoHdr, pseudoHdr, hsrc, hdest, hproto, hlen]

theorem udpSum_congr (h : ∀ i < n, a (p + i) = b (q + i)) (hn : 20 ≤ n)
    (hlen : (ipLen b q).toNat ≤ n) : udpSum a p = udpSum b q := by
  have hlen' : ipLen a p = ipLen b q := congrArg ntohs (le16_field_congr h (by omega))
  have hdata : octetSum a (p + 20) ((ipLen b q).toNat - 20) =
      octetSum b (q + 20) ((ipLen b q).toNat - 20) :=
    octetSum_congr fun i hi => by
      rw [Nat.add_assoc, Nat.add_assoc]
      exact h (20 + i) (by omega)
  rw [udpSum, udpSum, pseudoHdr_congr h hn, hlen', hdata]

end Congr

theorem octetSum_eq_zero_iff (data : Bytes) (pos n : Nat) :
    octetSum data pos n = 0 ↔ ∀ i < n, data (pos + i) = 0 := by
  induction n with
  | zero => simp [octetSum]
  | succ n ih =>
    have hpow : 256 ^ (n % 2) ≠ 0 := pow_ne_zero _ (by decide)
    rw [octetSum, Nat.add_eq_zero_iff, ih, Nat.mul_eq_zero, or_iff_right hpow,
      Nat.forall_lt_succ_right, ← UInt8.toNat_inj]
    rfl

theorem tcpudpchksum_of_le (m : Bytes) (ip cap : Nat) (h20 : 20 ≤ (ipLen m ip).toNat)
    (hcap : ip + (ipLen m ip).toNat ≤ cap) :
    ∃ c, tcpudpchksum m ip cap = .ok c ∧ (~~~c).toNat = wrap 65535 (udpSum m ip) := by
  have hlt := (ipLen m ip).toNat_lt
  have hlen : (UInt32.ofNat (ipLen m ip).toNat - 20).toNat = (ipLen m ip).toNat - 20 := by
    rw [UInt32.toNat_sub_of_le, UInt32.toNat_ofNat', Nat.mod_eq_of_lt (by omega)]
    · rfl
    · rw [UInt32.le_iff_toNat_le, UInt32.toNat_ofNat', Nat.mod_eq_of_lt (by omega)]
      exact h20
  unfold tcpudpchksum
  dsimp only
  rw [hlen, if_neg (by omega)]
  refine ⟨_, rfl, ?_⟩
  rw [not_addIpchksums, toNat_not_ipchksum, toNat_not_ipchksum]
  show wrap 65535 (_ + 1 * _) = _
  rw [Nat.one_mul, wrap_add_wrap, udpSum]

/-- The protocol is in the pseudo header. -/
theorem udpSum_ne_zero {m : Bytes} {ip : Nat} (h : ipProtocol m ip ≠ 0) : udpSum m ip ≠ 0 := by
  intro hzero
  obtain ⟨hpseudo, -⟩ := Nat.add_eq_zero_iff.mp hzero
  have h9 := (octetSum_eq_zero_iff _ _ _).mp hpseudo 9 (by decide)
  have hproto : pseudoHdr m ip (0 + 9) = ipProtocol m ip := by
    unfold pseudoHdr
    rw [Bytes.putLe_of_not_mem (by omega), Bytes.putLe_of_mem (by omega) (by omega)]
    simp
  exact h (hproto.symm.trans h9)

theorem tcpudpchksum_eq_zero_iff {m : Bytes} {ip cap : Nat} (h20 : 20 ≤ (ipLen m ip).toNat)
    (hcap : ip + (ipLen m ip).toNat ≤ cap) (h : ipProtocol m ip ≠ 0) :
    tcpudpchksum m ip cap = .ok 0 ↔ 65535 ∣ udpSum m ip := by
  obtain ⟨c, hc, hnot⟩ := tcpudpchksum_of_le m ip cap h20 hcap
  have hzero : c = 0 ↔ wrap 65535 (udpSum m ip) = 65535 := by
    rw [← hnot]
    constructor
    · intro h
      rw [h]
      rfl
    · intro h
      have hc' : ~~~c = 65535 := UInt16.toNat_inj.mp h
      rw [← UInt16.not_not (a := c), hc']
      rfl
  rw [hc, Except.ok.injEq, hzero, wrap_eq_self_iff (by decide), and_iff_right (udpSum_ne_zero h)]

/-! ## A datagram that is taken -/

/-- A UDP datagram without IP options that passes every check. -/
structure Sound (m : Bytes) (ip : Nat) : Prop where
  verhdrlen : m ip = 0x45
  chksum : ipchksum m ip 20 = 0
  frags : ipFrags m ip &&& htons 0x3FFF = 0
  len_ge : 28 ≤ (ipLen m ip).toNat
  len_le : (ipLen m ip).toNat ≤ ethMaxMtu
  protocol : ipProtocol m ip = ipUdp
  udpLen_le : (udpLen m ip).toNat + 20 ≤ (ipLen m ip).toNat
  udpChksum : udpChksum m ip = 0 ∨ 65535 ∣ udpSum m ip

/-- The same bytes elsewhere. -/
theorem Sound.congr {a b : Bytes} {p q : Nat} (hb : Sound b q)
    (h : ∀ i < (ipLen b q).toNat, a (p + i) = b (q + i)) : Sound a p := by
  have hge := hb.len_ge
  have hlen : ipLen a p = ipLen b q := congrArg ntohs (le16_field_congr h (by omega))
  have hudp : udpLen a p = udpLen b q := congrArg ntohs (le16_field_congr h (by omega))
  have hver : a p = b q := h 0 (by omega)
  have hproto : ipProtocol a p = ipProtocol b q := h 9 (by omega)
  exact {
    verhdrlen := hver.trans hb.verhdrlen
    chksum := (ipchksum_congr fun i hi => h i (by omega)).trans hb.chksum
    frags := by
      rw [ipFrags, le16_field_congr h (by omega)]
      exact hb.frags
    len_ge := by rw [hlen]; exact hge
    len_le := by rw [hlen]; exact hb.len_le
    protocol := hproto.trans hb.protocol
    udpLen_le := by rw [hlen, hudp]; exact hb.udpLen_le
    udpChksum := by
      rw [MbBootTv.udpChksum, le16_field_congr h (by omega), udpSum_congr h (by omega) le_rfl]
      exact hb.udpChksum }

theorem toNat_sub_header {len : UInt16} {iplen : Nat} (h : iplen ≤ len.toNat) :
    (UInt32.ofNat len.toNat - UInt32.ofNat iplen).toNat = len.toNat - iplen := by
  have hlt := len.toNat_lt
  have hiplen : (UInt32.ofNat iplen).toNat = iplen := UInt32.toNat_ofNat_of_lt' (by
    show iplen < 2 ^ 32
    omega)
  have hlen : (UInt32.ofNat len.toNat).toNat = len.toNat := UInt32.toNat_ofNat_of_lt' (by
    show len.toNat < 2 ^ 32
    omega)
  rw [UInt32.toNat_sub_of_le _ _ (by rwa [UInt32.le_iff_toNat_le, hiplen, hlen]), hiplen, hlen]

/-- The type in the Ethernet header. -/
def etherType (m : Bytes) : UInt16 := (m 12).toUInt16 <<< 8 ||| (m 13).toUInt16

/-- **What passes the checks is offered as a UDP datagram.** -/
theorem inspect_of_sound {s : Net} (h : Sound s.packet ethHlen) (hlen : 42 ≤ s.packetlen)
    (htype : etherType s.packet = ethPIp) : inspect s = .ok (s, some ⟨ethPIp, true, true⟩) := by
  have hge := h.len_ge
  have hle := h.len_le
  have hudp := h.udpLen_le
  have hmtu : ethMaxMtu = 1500 := rfl
  have hhlen : ethHlen = 14 := rfl
  have hframe : ethFrameLen = 1514 := rfl
  have hproto0 : ipProtocol s.packet ethHlen ≠ 0 := by
    rw [h.protocol]
    decide
  unfold inspect
  unfold etherType at htype
  rw [if_neg (by omega), htype, if_pos ⟨rfl, by omega⟩, inspectIp, h.verhdrlen]
  have hiplen : ((0x45 : UInt8) &&& 0xF).toNat * 4 = 20 := by decide
  rw [if_neg (by decide), hiplen, if_neg (not_not.mpr h.chksum), if_neg (not_not.mpr h.frags),
    if_neg (by omega), deleteOptions]
  show inspectUdp s ethPIp 20 = _
  unfold inspectUdp
  rw [if_pos ⟨h.protocol, by omega⟩, toNat_sub_header (by omega), if_neg (by omega)]
  by_cases hoff : udpChksum s.packet ethHlen = 0
  · rw [if_pos hoff]
  · rw [if_neg hoff, (tcpudpchksum_eq_zero_iff (by omega) (by omega) hproto0).mpr
      (h.udpChksum.resolve_left hoff)]
    rfl

/-! ## A datagram that is built -/

section BuildIpHdr

variable (client destip : UInt32) (ttl protocol : UInt8) (len : Nat) (buf : Bytes)

theorem buildIpHdr_of_ge {i : Nat} (h : 20 ≤ i) :
    buildIpHdr client destip ttl protocol 0 len buf i = buf i := by
  unfold buildIpHdr
  simp (disch := omega) only [Bytes.putLe_of_not_mem]

theorem buildIpHdr_verhdrlen : buildIpHdr client destip ttl protocol 0 len buf 0 = 0x45 := by
  unfold buildIpHdr
  simp (disch := omega) only [Bytes.putLe_of_not_mem]
  rw [Bytes.putLe_of_mem (by omega) (by omega)]
  decide

theorem buildIpHdr_len :
    (buildIpHdr client destip ttl protocol 0 len buf).le16 2 = htons (UInt16.ofNat len) := by
  unfold buildIpHdr
  simp (disch := omega) only [Bytes.le16_putLe_of_disjoint, Bytes.le16_putLe]

theorem buildIpHdr_frags : (buildIpHdr client destip ttl protocol 0 len buf).le16 6 = 0 := by
  unfold buildIpHdr
  simp (disch := omega) only [Bytes.le16_putLe_of_disjoint]
  exact Bytes.le16_putLe _ _ 0

theorem buildIpHdr_protocol : buildIpHdr client destip ttl protocol 0 len buf 9 = protocol := by
  unfold buildIpHdr
  simp (disch := omega) only [Bytes.putLe_of_not_mem]
  rw [Bytes.putLe_of_mem (by omega) (by omega)]
  simp

theorem buildIpHdr_src : (buildIpHdr client destip ttl protocol 0 len buf).le32 12 = client := by
  unfold buildIpHdr
  simp (disch := omega) only [Bytes.le32_putLe_of_disjoint, Bytes.le32_putLe]

theorem buildIpHdr_dest : (buildIpHdr client destip ttl protocol 0 len buf).le32 16 = destip := by
  unfold buildIpHdr
  simp (disch := omega) only [Bytes.le32_putLe_of_disjoint, Bytes.le32_putLe]

end BuildIpHdr

/-- A checksum in the place of zeros. -/
theorem octetSum_putLe_chksum {b : Bytes} {n : Nat} {c : UInt16} (pos k : Nat)
    (h : 2 * k + 2 ≤ n) (hzero : b.leNat (pos + 2 * k) 2 = 0) :
    octetSum (b.putLe (pos + 2 * k) 2 c.toNat) pos n = octetSum b pos n + c.toNat := by
  have hsum := octetSum_putLe b pos k n c.toNat h
  rwa [hzero, Nat.add_zero, Nat.mod_eq_of_lt c.toNat_lt] at hsum

/-- **Storing the complement of a sum into it** gives a multiple of the modulus. -/
theorem dvd_add_not {c : UInt16} {sum : Nat} (h : (~~~c).toNat = wrap 65535 sum) :
    65535 ∣ sum + c.toNat := by
  have hc : c.toNat = 65535 - wrap 65535 sum := by
    rw [← h, UInt16.toNat_not]
    have := c.toNat_lt
    show c.toNat = 65535 - (65535 - c.toNat)
    omega
  have hle := wrap_le (by decide : 0 < 65535) sum
  have hmod : wrap 65535 sum ≡ sum [MOD 65535] := wrap_modEq _ _
  unfold Nat.ModEq at hmod
  rw [hc]
  omega

/-- The header checksum makes the header add up. -/
theorem buildIpHdr_chksum (client destip : UInt32) (ttl protocol : UInt8) (len : Nat)
    (buf : Bytes) : ipchksum (buildIpHdr client destip ttl protocol 0 len buf) 0 20 = 0 := by
  have hver := buildIpHdr_verhdrlen client destip ttl protocol len buf
  rw [ipchksum_eq_zero_iff]
  refine ⟨fun hzero => ?_, ?_⟩
  · rw [(octetSum_eq_zero_iff _ _ _).mp hzero 0 (by decide)] at hver
    exact absurd hver (by decide)
  · unfold buildIpHdr
    -- The checksum is computed with zeros in its place.
    rw [octetSum_putLe_chksum 0 5 (by decide)]
    · refine dvd_add_not ?_
      rw [toNat_not_ipchksum]
    · simp (disch := omega) only [Bytes.leNat_putLe_of_disjoint, Bytes.leNat_putLe, Nat.zero_mod]

/-- **A checksum completes a datagram without one.** -/
theorem Sound.complete {b : Bytes} {c : UInt16} {cap : Nat} (h : Sound b 0)
    (hcap : (ipLen b 0).toNat ≤ cap) (hzero : b.leNat 26 2 = 0)
    (hc : tcpudpchksum b 0 cap = .ok c) :
    Sound (b.putLe 26 2 (if c = 0 then (0xFFFF : UInt16) else c).toNat) 0 := by
  obtain ⟨c', hc', hnot⟩ :=
    tcpudpchksum_of_le b 0 cap (by have := h.len_ge; omega) (by omega)
  obtain rfl : c' = c := Except.ok.inj (hc'.symm.trans hc)
  generalize hd : (if c' = 0 then (0xFFFF : UInt16) else c') = d
  have hoff : ∀ i < 26, b.putLe 26 2 d.toNat (0 + i) = b (0 + i) := fun i hi =>
    Bytes.putLe_of_not_mem (by omega)
  have hlen : ipLen (b.putLe 26 2 d.toNat) 0 = ipLen b 0 :=
    congrArg ntohs (le16_field_congr hoff (by omega))
  have hudp : udpLen (b.putLe 26 2 d.toNat) 0 = udpLen b 0 :=
    congrArg ntohs (le16_field_congr hoff (by omega))
  have hge := h.len_ge
  have hsum : udpSum (b.putLe 26 2 d.toNat) 0 = udpSum b 0 + d.toNat := by
    rw [udpSum, udpSum, pseudoHdr_congr hoff (by decide), hlen, Nat.add_assoc]
    congr 1
    exact octetSum_putLe_chksum 20 3 (by omega) hzero
  exact {
    verhdrlen := (hoff 0 (by decide)).trans h.verhdrlen
    chksum := (ipchksum_congr fun i hi => hoff i (by omega)).trans h.chksum
    frags := by
      rw [ipFrags, le16_field_congr hoff (by decide)]
      exact h.frags
    len_ge := by rw [hlen]; exact hge
    len_le := by rw [hlen]; exact h.len_le
    protocol := (hoff 9 (by decide)).trans h.protocol
    udpLen_le := by rw [hlen, hudp]; exact h.udpLen_le
    udpChksum := by
      refine Or.inr ?_
      have hdvd := dvd_add_not hnot
      rw [hsum, ← hd]
      by_cases h0 : c' = 0
      · rw [h0, UInt16.toNat_zero, Nat.add_zero] at hdvd
        rw [if_pos h0]
        exact Nat.dvd_add hdvd (dvd_refl _)
      · rw [if_neg h0]
        exact hdvd }

section PutUdpHdr

variable (srcsock destsock : UInt16) (len : Nat) (buf : Bytes)

theorem putUdpHdr_of_lt {i : Nat} (h : i < 20) : putUdpHdr srcsock destsock len buf i = buf i := by
  unfold putUdpHdr
  simp (disch := omega) only [Bytes.putLe_of_not_mem]

theorem putUdpHdr_of_ge {i : Nat} (h : 28 ≤ i) : putUdpHdr srcsock destsock len buf i = buf i := by
  unfold putUdpHdr
  simp (disch := omega) only [Bytes.putLe_of_not_mem]

theorem putUdpHdr_src : udpSrc (putUdpHdr srcsock destsock len buf) 0 = srcsock := by
  unfold udpSrc putUdpHdr
  simp (disch := omega) only [Bytes.le16_putLe_of_disjoint, Bytes.le16_putLe, ntohs_htons]

theorem putUdpHdr_dest : udpDest (putUdpHdr srcsock destsock len buf) 0 = destsock := by
  unfold udpDest putUdpHdr
  simp (disch := omega) only [Bytes.le16_putLe_of_disjoint, Bytes.le16_putLe, ntohs_htons]

theorem putUdpHdr_len :
    udpLen (putUdpHdr srcsock destsock len buf) 0 = UInt16.ofNat (len - 20) := by
  unfold udpLen putUdpHdr
  simp (disch := omega) only [Bytes.le16_putLe_of_disjoint, Bytes.le16_putLe, ntohs_htons]

theorem putUdpHdr_chksum : (putUdpHdr srcsock destsock len buf).leNat 26 2 = 0 := by
  rw [putUdpHdr, Bytes.leNat_putLe, Nat.zero_mod]

end PutUdpHdr

/-- **What `build_udp_hdr` makes of a buffer.** -/
structure Built (client destip : UInt32) (srcsock destsock : UInt16) (len : Nat) (buf b : Bytes) :
    Prop where
  sound : Sound b 0
  len_eq : (ipLen b 0).toNat = len
  src : ipSrc b 0 = client
  dest : ipDest b 0 = destip
  srcsock_eq : udpSrc b 0 = srcsock
  destsock_eq : udpDest b 0 = destsock
  udpLen_eq : (udpLen b 0).toNat + 20 = len
  payload : ∀ i, 28 ≤ i → b i = buf i

section BuildUdpHdr

variable (client destip : UInt32) (srcsock destsock : UInt16) (ttl : UInt8) {len : Nat}
  (buf : Bytes)

/-- Without its checksum, the datagram is complete as well. -/
theorem built_putUdpHdr (h28 : 28 ≤ len) (hmtu : len ≤ ethMaxMtu) :
    Built client destip srcsock destsock len buf
      (putUdpHdr srcsock destsock len (buildIpHdr client destip ttl ipUdp 0 len buf)) := by
  have hmtu' : ethMaxMtu = 1500 := rfl
  have hlen : (UInt16.ofNat len).toNat = len := UInt16.toNat_ofNat_of_lt' (by
    show len < 2 ^ 16
    omega)
  have hlen' : (UInt16.ofNat (len - 20)).toNat = len - 20 := UInt16.toNat_ofNat_of_lt' (by
    show len - 20 < 2 ^ 16
    omega)
  generalize hhdr : buildIpHdr client destip ttl ipUdp 0 len buf = hdr
  have hlow : ∀ i < 20, putUdpHdr srcsock destsock len hdr (0 + i) = hdr (0 + i) :=
    fun i hi => putUdpHdr_of_lt _ _ _ _ (by omega)
  have hipLen : ipLen (putUdpHdr srcsock destsock len hdr) 0 = UInt16.ofNat len := by
    rw [ipLen, le16_field_congr hlow (by decide), ← hhdr]
    exact (congrArg ntohs (buildIpHdr_len ..)).trans (ntohs_htons _)
  exact {
    sound := {
      verhdrlen := (hlow 0 (by decide)).trans (by rw [← hhdr]; exact buildIpHdr_verhdrlen ..)
      chksum := (ipchksum_congr hlow).trans (by rw [← hhdr]; exact buildIpHdr_chksum ..)
      frags := by
        rw [ipFrags, le16_field_congr hlow (by decide), ← hhdr]
        exact (congrArg (· &&& htons 0x3FFF) (buildIpHdr_frags ..)).trans (by decide)
      len_ge := by rw [hipLen, hlen]; exact h28
      len_le := by rw [hipLen, hlen]; exact hmtu
      protocol := (hlow 9 (by decide)).trans (by rw [← hhdr]; exact buildIpHdr_protocol ..)
      udpLen_le := by rw [hipLen, putUdpHdr_len, hlen, hlen']; omega
      udpChksum := Or.inl (by
        rw [udpChksum, Bytes.le16, Nat.zero_add, putUdpHdr_chksum]
        rfl) }
    len_eq := by rw [hipLen, hlen]
    src := by
      rw [ipSrc, le32_field_congr hlow (by decide), ← hhdr]
      exact buildIpHdr_src ..
    dest := by
      rw [ipDest, le32_field_congr hlow (by decide), ← hhdr]
      exact buildIpHdr_dest ..
    srcsock_eq := putUdpHdr_src ..
    destsock_eq := putUdpHdr_dest ..
    udpLen_eq := by rw [putUdpHdr_len, hlen']; omega
    payload := fun i hi => by
      rw [putUdpHdr_of_ge _ _ _ _ hi, ← hhdr, buildIpHdr_of_ge _ _ _ _ _ _ (by omega)] }

/-- **Every datagram that fits a frame is built.** -/
theorem buildUdpHdr_built (h28 : 28 ≤ len) (hmtu : len ≤ ethMaxMtu) :
    ∃ b, buildUdpHdr client destip srcsock destsock ttl len buf = .ok b ∧
      Built client destip srcsock destsock len buf b := by
  have hb := built_putUdpHdr client destip srcsock destsock ttl buf h28 hmtu
  have hzero := putUdpHdr_chksum srcsock destsock len
    (buildIpHdr client destip ttl ipUdp 0 len buf)
  unfold buildUdpHdr
  dsimp only
  generalize putUdpHdr srcsock destsock len (buildIpHdr client destip ttl ipUdp 0 len buf) = b
    at hb hzero ⊢
  obtain ⟨c, hc, -⟩ := tcpudpchksum_of_le b 0 len (by rw [hb.len_eq]; omega)
    (by rw [hb.len_eq]; omega)
  rw [hc, ok_bind]
  refine ⟨_, rfl, ?_⟩
  have hsound := hb.sound.complete hb.len_eq.le hzero hc
  generalize (if c = 0 then (0xFFFF : UInt16) else c) = d at hsound ⊢
  have hoff : ∀ i < 26, b.putLe 26 2 d.toNat (0 + i) = b (0 + i) := fun i hi =>
    Bytes.putLe_of_not_mem (by omega)
  exact {
    sound := hsound
    len_eq := (congrArg (fun x => (ntohs x).toNat) (le16_field_congr hoff (by decide))).trans
      hb.len_eq
    src := (le32_field_congr hoff (by decide)).trans hb.src
    dest := (le32_field_congr hoff (by decide)).trans hb.dest
    srcsock_eq := (congrArg ntohs (le16_field_congr hoff (by decide))).trans hb.srcsock_eq
    destsock_eq := (congrArg ntohs (le16_field_congr hoff (by decide))).trans hb.destsock_eq
    udpLen_eq := (congrArg (fun x => (ntohs x).toNat + 20)
      (le16_field_congr hoff (by decide))).trans hb.udpLen_eq
    payload := fun i hi => (Bytes.putLe_of_not_mem (by omega)).trans (hb.payload i hi) }

end BuildUdpHdr

/-! ## From one card to another -/

theorem toNat_le16 (m : Bytes) (pos : Nat) :
    (m.le16 pos).toNat = (m pos).toNat + 256 * (m (pos + 1)).toNat := by
  have h0 : (m pos).toNat < 256 := (m pos).toNat_lt
  have h1 : (m (pos + 1)).toNat < 256 := (m (pos + 1)).toNat_lt
  rw [Bytes.le16, UInt16.toNat_ofNat']
  simp only [Bytes.leNat, Nat.mul_zero, Nat.add_zero]
  exact Nat.mod_eq_of_lt (by omega)

/-- The type is a word in network order. -/
theorem etherType_eq (m : Bytes) : etherType m = ntohs (m.le16 12) := by
  have h0 : (m 12).toNat < 256 := (m 12).toNat_lt
  have h1 : (m 13).toNat < 256 := (m 13).toNat_lt
  have hle : (m.le16 12).toNat = (m 12).toNat + 256 * (m 13).toNat := toNat_le16 m 12
  have hhigh : ((m 12).toUInt16 <<< 8).toNat = (m 12).toNat <<< 8 := by
    rw [UInt16.toNat_shiftLeft, UInt8.toNat_toUInt16, Nat.shiftLeft_eq, Nat.shiftLeft_eq]
    exact Nat.mod_eq_of_lt (by
      show (m 12).toNat * 2 ^ 8 < 2 ^ 16
      omega)
  rw [← UInt16.toNat_inj, etherType, UInt16.toNat_or, hhigh, UInt8.toNat_toUInt16,
    ← Nat.shiftLeft_add_eq_or_of_lt (by omega), ntohs, toNat_bswap16, hle,
    Nat.shiftLeft_eq]
  omega

theorem pieceAt_slice {b : Bytes} {pos n i : Nat} (h : i < n) :
    pieceAt (b.slice pos n) i = b (pos + i) := by
  simp [pieceAt, Bytes.slice, List.getD_eq_getElem?_getD, h]

section TxFrame

variable {dest src : Node} {ptype : UInt16} {data : List UInt8}

theorem txFrame_length : (txFrame dest src ptype data).length = max 60 (data.length + ethHlen) :=
  Bytes.slice_length _ _ _

theorem txFrame_data {i : Nat} (h : i < data.length) :
    pieceAt (txFrame dest src ptype data) (ethHlen + i) = pieceAt data i := by
  unfold txFrame
  rw [pieceAt_slice (by omega), Nat.zero_add, Bytes.copy_of_mem (by omega) (by omega),
    Nat.add_sub_cancel_left]

/-- Behind the data there are zeros. -/
theorem txFrame_zero {i : Nat} (h : ethHlen + data.length ≤ i) :
    pieceAt (txFrame dest src ptype data) i = 0 := by
  have hhlen : ethHlen = 14 := rfl
  by_cases hi : i < (txFrame dest src ptype data).length
  · rw [txFrame_length] at hi
    unfold txFrame
    rw [pieceAt_slice (by omega), Nat.zero_add, Bytes.copy_of_ge (by omega),
      Bytes.putLe_of_not_mem (by omega), putNode, putNode, Bytes.copy_of_ge (by omega),
      Bytes.copy_of_ge (by omega)]
  · rw [pieceAt, List.getD_eq_default _ _ (Nat.not_lt.mp hi)]

theorem txFrame_type : (pieceAt (txFrame dest src ptype data)).le16 12 = htons ptype := by
  have hhlen : ethHlen = 14 := rfl
  have hbytes : ∀ i < 2, pieceAt (txFrame dest src ptype data) (12 + i) =
      (putNode (putNode (fun _ => 0) 0 dest) 6 src).putLe 12 2 (htons ptype).toNat (12 + i) :=
    fun i hi => by
      unfold txFrame
      rw [pieceAt_slice (by omega), Nat.zero_add, Bytes.copy_of_lt (by omega)]
  rw [Bytes.le16_congr hbytes, Bytes.le16_putLe]

end TxFrame

/-- A UDP datagram. -/
structure Datagram where
  src : UInt32
  dest : UInt32
  srcsock : UInt16
  destsock : UInt16
  payload : List UInt8

/-- The packet in memory is that datagram. -/
structure Brought (m : Bytes) (d : Datagram) : Prop where
  src : ipSrc m ethHlen = d.src
  dest : ipDest m ethHlen = d.dest
  srcsock : udpSrc m ethHlen = d.srcsock
  destsock : udpDest m ethHlen = d.destsock
  udpLen : (udpLen m ethHlen).toNat = 8 + d.payload.length
  payload : m.slice 42 d.payload.length = d.payload

/-- The frame brings that datagram into any buffer. -/
def Carries (f : EthFrame) (d : Datagram) : Prop :=
  ∀ s : Net, ∃ s', inspect (s.load f) = .ok (s', some ⟨ethPIp, true, true⟩) ∧
    Brought s'.packet d

/-- A datagram that is not too long has a frame. -/
theorem exists_txFrame (dest src : Node) {len : Nat} (b : Bytes) (hmtu : len ≤ ethMaxMtu) :
    ∃ f : EthFrame, f.bytes = txFrame dest src ethPIp (b.slice 0 len) := by
  have hmtu' : ethMaxMtu = 1500 := rfl
  have hhlen : ethHlen = 14 := rfl
  have hframe : ethFrameLen = 1514 := rfl
  have hlength : (txFrame dest src ethPIp (b.slice 0 len)).length ≤ ethFrameLen := by
    rw [txFrame_length, Bytes.slice_length]
    omega
  exact ⟨⟨_, hlength⟩, rfl⟩

section Arrives

variable {len : Nat} {b : Bytes} {dest src : Node} {f : EthFrame}

/-- A datagram of `len` bytes behind the Ethernet header of a frame. -/
theorem load_datagram (hf : f.bytes = txFrame dest src ethPIp (b.slice 0 len)) (s : Net) {i : Nat}
    (hi : i < len) : (s.load f).packet (ethHlen + i) = b (0 + i) := by
  have hlen : f.bytes.length = max 60 (len + ethHlen) := by
    rw [hf, txFrame_length, Bytes.slice_length]
  have hhlen : ethHlen = 14 := rfl
  show s.packet.copy 0 _ _ _ = _
  rw [Bytes.copy_zero_of_lt (by omega), hf, txFrame_data (by rwa [Bytes.slice_length]),
    pieceAt_slice hi]

theorem etherType_load (hf : f.bytes = txFrame dest src ethPIp (b.slice 0 len)) (s : Net) :
    etherType (s.load f).packet = ethPIp := by
  have hlen : f.bytes.length = max 60 (len + ethHlen) := by
    rw [hf, txFrame_length, Bytes.slice_length]
  have hle : (s.load f).packet.le16 12 = (pieceAt f.bytes).le16 12 :=
    Bytes.le16_congr fun i hi => Bytes.copy_zero_of_lt (by omega)
  rw [etherType_eq, hle, hf, txFrame_type, ntohs_htons]

variable {client destip : UInt32} {srcsock destsock : UInt16} {buf : Bytes}

/-- Nothing stops the frame, and nothing is moved. -/
theorem Built.inspect_load (hb : Built client destip srcsock destsock len buf b)
    (hf : f.bytes = txFrame dest src ethPIp (b.slice 0 len)) (s : Net) :
    inspect (s.load f) = .ok (s.load f, some ⟨ethPIp, true, true⟩) := by
  have hload : ∀ i < len, (s.load f).packet (ethHlen + i) = b (0 + i) := fun i hi =>
    load_datagram hf s hi
  have hpacketlen : 42 ≤ (s.load f).packetlen := by
    show 42 ≤ f.bytes.length
    rw [hf, txFrame_length, Bytes.slice_length]
    omega
  exact inspect_of_sound (hb.sound.congr (by rw [hb.len_eq]; exact hload)) hpacketlen
    (etherType_load hf s)

theorem Built.brought (hb : Built client destip srcsock destsock len buf b) (h28 : 28 ≤ len)
    (hf : f.bytes = txFrame dest src ethPIp (b.slice 0 len)) (s : Net) :
    Brought (s.load f).packet ⟨client, destip, srcsock, destsock, buf.slice 28 (len - 28)⟩ := by
  have hload : ∀ i < len, (s.load f).packet (ethHlen + i) = b (0 + i) := fun i hi =>
    load_datagram hf s hi
  exact {
    src := (le32_field_congr hload (by omega)).trans hb.src
    dest := (le32_field_congr hload (by omega)).trans hb.dest
    srcsock := (congrArg ntohs (le16_field_congr hload (by omega))).trans hb.srcsock_eq
    destsock := (congrArg ntohs (le16_field_congr hload (by omega))).trans hb.destsock_eq
    udpLen := by
      have hudp : udpLen (s.load f).packet ethHlen = udpLen b 0 :=
        congrArg ntohs (le16_field_congr hload (by omega))
      have hlen := hb.udpLen_eq
      rw [hudp, Bytes.slice_length]
      omega
    payload := by
      rw [Bytes.slice_length]
      refine Bytes.slice_congr fun i hi => ?_
      rw [show 42 + i = ethHlen + (28 + i) by rw [show ethHlen = 14 from rfl]; omega,
        hload (28 + i) (by omega), Nat.zero_add]
      exact hb.payload (28 + i) (by omega) }

end Arrives

/-- **A datagram arrives as it was sent**: whatever the receiver's buffer held before, the frame
that the sender's driver makes of it passes every check and is offered as a UDP datagram, with the
addresses, the ports and the payload that `udp_transmit` was given. -/
theorem datagram_arrives {len : Nat} (h28 : 28 ≤ len) (hmtu : len ≤ ethMaxMtu)
    (client destip : UInt32) (srcsock destsock : UInt16) (ttl : UInt8) (buf : Bytes)
    (dest src : Node) :
    ∃ b, buildUdpHdr client destip srcsock destsock ttl len buf = .ok b ∧
      ∃ f : EthFrame, f.bytes = txFrame dest src ethPIp (b.slice 0 len) ∧
        Carries f ⟨client, destip, srcsock, destsock, buf.slice 28 (len - 28)⟩ := by
  obtain ⟨b, hbuild, hb⟩ := buildUdpHdr_built client destip srcsock destsock ttl buf h28 hmtu
  obtain ⟨f, hf⟩ := exists_txFrame dest src b hmtu
  exact ⟨b, hbuild, f, hf, fun s => ⟨s.load f, hb.inspect_load hf s, hb.brought h28 hf s⟩⟩

theorem datagram_arrives_short :
    ∃ b, buildUdpHdr 1 2 2000 69 60 30 (fun _ => 7) = .ok b ∧
      ∃ f : EthFrame, f.bytes = txFrame broadcastNode broadcastNode ethPIp (b.slice 0 30) ∧
        Carries f ⟨1, 2, 2000, 69, [7, 7]⟩ :=
  datagram_arrives (by decide) (by decide : 30 ≤ ethMaxMtu) 1 2 2000 69 60 (fun _ => 7)
    broadcastNode broadcastNode

/-! ## A datagram that was damaged -/

/-- The packet with another word in the place of word `k` behind the Ethernet header. -/
def Net.damage (s : Net) (k v : Nat) : Net :=
  { s with packet := s.packet.putLe (ethHlen + 2 * k) 2 v }

section Damage

variable {s : Net} {k v : Nat}

theorem damage_of_not_mem {i : Nat} (h : i < 2 * k ∨ 2 * k + 2 ≤ i) :
    (s.damage k v).packet (ethHlen + i) = s.packet (ethHlen + i) :=
  Bytes.putLe_of_not_mem (by omega)

/-- A multiple of the modulus stays one only with a word that is worth the same. -/
theorem word_modEq_of_dvd {a b old : Nat} (h : a + old = b + v) (ha : 65535 ∣ a) (hb : 65535 ∣ b) :
    old ≡ v [MOD 65535] := by
  have hmod : a + old ≡ b + v [MOD 65535] := by rw [h]
  exact Nat.ModEq.add_left_cancel (((Nat.modEq_zero_iff_dvd.mpr ha).trans
    (Nat.modEq_zero_iff_dvd.mpr hb).symm)) hmod

/-- A word of the header. -/
theorem ipchksum_damage_ne_zero (hsum : ipchksum s.packet ethHlen 20 = 0) (hk : k < 10)
    (hv : v < 65536) (hne : ¬ s.packet.leNat (ethHlen + 2 * k) 2 ≡ v [MOD 65535]) :
    ipchksum (s.damage k v).packet ethHlen 20 ≠ 0 := by
  intro hsum'
  obtain ⟨-, hb⟩ := (ipchksum_eq_zero_iff _ _ _).mp hsum
  obtain ⟨-, ha⟩ := (ipchksum_eq_zero_iff _ _ _).mp hsum'
  have hdiff := octetSum_putLe s.packet ethHlen k 20 v (by omega)
  rw [Nat.mod_eq_of_lt hv] at hdiff
  exact hne (word_modEq_of_dvd hdiff ha hb)

/-- A word behind the header. -/
theorem not_dvd_udpSum_damage (hsum : 65535 ∣ udpSum s.packet ethHlen) (hk : 10 ≤ k)
    (hlen : 2 * k + 2 ≤ (ipLen s.packet ethHlen).toNat) (hv : v < 65536)
    (hne : ¬ s.packet.leNat (ethHlen + 2 * k) 2 ≡ v [MOD 65535]) :
    ¬ 65535 ∣ udpSum (s.damage k v).packet ethHlen := by
  intro hsum'
  have hhdr : ∀ i < 20, (s.damage k v).packet (ethHlen + i) = s.packet (ethHlen + i) :=
    fun i hi => damage_of_not_mem (by omega)
  have hiplen : ipLen (s.damage k v).packet ethHlen = ipLen s.packet ethHlen :=
    congrArg ntohs (le16_field_congr hhdr (by omega))
  have hpos : ethHlen + 2 * k = ethHlen + 20 + 2 * (k - 10) := by omega
  have hdiff : udpSum (s.damage k v).packet ethHlen + s.packet.leNat (ethHlen + 2 * k) 2 =
      udpSum s.packet ethHlen + v := by
    have hdata := octetSum_putLe s.packet (ethHlen + 20) (k - 10)
      ((ipLen s.packet ethHlen).toNat - 20) v (by omega)
    rw [Nat.mod_eq_of_lt hv, ← hpos] at hdata
    rw [udpSum, udpSum, pseudoHdr_congr hhdr le_rfl, hiplen, Nat.add_assoc, Nat.add_assoc]
    exact congrArg _ hdata
  exact hne (word_modEq_of_dvd hdiff hsum' hsum)

theorem packet_damage : (s.damage k v).packet = s.packet.putLe (ethHlen + 2 * k) 2 v := rfl

theorem verhdrlen_damage (h : s.packet ethHlen = 0x45) (hver : k = 0 → v % 256 = 0x45) :
    (s.damage k v).packet ethHlen = 0x45 := by
  by_cases hk : k = 0
  · subst hk
    rw [packet_damage, Bytes.putLe_of_mem (by omega) (by omega), Nat.mul_zero, Nat.add_zero,
      Nat.sub_self, pow_zero, Nat.div_one, ← UInt8.toNat_inj, UInt8.toNat_ofNat']
    exact hver rfl
  · exact (damage_of_not_mem (i := 0) (by omega)).trans h

theorem etherType_damage : etherType (s.damage k v).packet = etherType s.packet := by
  have hhlen : ethHlen = 14 := rfl
  rw [etherType, etherType, packet_damage, Bytes.putLe_of_not_mem (by omega),
    Bytes.putLe_of_not_mem (by omega)]

theorem udpChksum_damage_ne_zero (h : udpChksum s.packet ethHlen ≠ 0) (hv : v < 65536)
    (hoff : k = 13 → v ≠ 0) : udpChksum (s.damage k v).packet ethHlen ≠ 0 := by
  by_cases hk : k = 13
  · subst hk
    have hword : udpChksum (s.damage 13 v).packet ethHlen = UInt16.ofNat v := by
      rw [udpChksum, packet_damage, Bytes.le16, Bytes.leNat_putLe,
        Nat.mod_eq_of_lt (show v < 256 ^ 2 from hv)]
    rw [hword, Ne, ← UInt16.toNat_inj, UInt16.toNat_ofNat', Nat.mod_eq_of_lt hv]
    exact hoff rfl
  · have hsame : udpChksum (s.damage k v).packet ethHlen = udpChksum s.packet ethHlen :=
      Bytes.le16_putLe_of_disjoint (by omega)
    rwa [hsame]

/-- **A changed word is noticed.** A datagram with a checksum that passes every check is dropped
when one of its words arrives as another, unless one zero of ones' complement took the place of the
other. The word may be any but the length of the header and the word that says that there is no
checksum. -/
theorem damaged_dropped (h : Sound s.packet ethHlen) (hlen : 42 ≤ s.packetlen)
    (htype : etherType s.packet = ethPIp) (hchksum : udpChksum s.packet ethHlen ≠ 0)
    (hk : 2 * k + 2 ≤ (ipLen s.packet ethHlen).toNat) (hv : v < 65536)
    (hne : ¬ s.packet.leNat (ethHlen + 2 * k) 2 ≡ v [MOD 65535])
    (hver : k = 0 → v % 256 = 0x45) (hoff : k = 13 → v ≠ 0) :
    inspect (s.damage k v) = .ok (s.damage k v, none) := by
  have hhlen : ethHlen = 14 := rfl
  have htype' := (etherType_damage (s := s) (k := k) (v := v)).trans htype
  unfold etherType at htype'
  have hpacketlen : (s.damage k v).packetlen = s.packetlen := rfl
  have hiplen : ((0x45 : UInt8) &&& 0xF).toNat * 4 = 20 := by decide
  unfold inspect
  rw [hpacketlen, if_neg (by omega), htype', if_pos ⟨rfl, by omega⟩, inspectIp,
    verhdrlen_damage h.verhdrlen hver, if_neg (by decide), hiplen]
  by_cases hk10 : k < 10
  · rw [if_pos (ipchksum_damage_ne_zero h.chksum hk10 hv hne)]
  -- The header is as it was.
  have hhdr : ∀ i < 20, (s.damage k v).packet (ethHlen + i) = s.packet (ethHlen + i) :=
    fun i hi => damage_of_not_mem (by omega)
  have hlen' : ipLen (s.damage k v).packet ethHlen = ipLen s.packet ethHlen :=
    congrArg ntohs (le16_field_congr hhdr (by omega))
  have hfrags : ipFrags (s.damage k v).packet ethHlen = ipFrags s.packet ethHlen :=
    le16_field_congr hhdr (by omega)
  have hproto : ipProtocol (s.damage k v).packet ethHlen = ipUdp :=
    (hhdr 9 (by omega)).trans h.protocol
  have hproto0 : ipProtocol (s.damage k v).packet ethHlen ≠ 0 := by
    rw [hproto]
    decide
  have hle := h.len_le
  rw [ipchksum_congr hhdr, if_neg (not_not.mpr h.chksum), hfrags, if_neg (not_not.mpr h.frags),
    hlen', if_neg (by omega), deleteOptions]
  show inspectUdp (s.damage k v) ethPIp 20 = _
  unfold inspectUdp
  rw [if_pos ⟨hproto, by omega⟩, if_neg (udpChksum_damage_ne_zero hchksum hv hoff)]
  split
  · rfl
  have hmtu : ethMaxMtu = 1500 := rfl
  have hframe : ethFrameLen = 1514 := rfl
  obtain ⟨c, hc, -⟩ := tcpudpchksum_of_le (s.damage k v).packet ethHlen ethFrameLen
    (by rw [hlen']; omega) (by rw [hlen']; omega)
  have hc0 : c ≠ 0 := by
    intro hc0
    rw [hc0, tcpudpchksum_eq_zero_iff (by rw [hlen']; omega) (by rw [hlen']; omega) hproto0] at hc
    exact not_dvd_udpSum_damage (h.udpChksum.resolve_left hchksum) (by omega) hk hv hne hc
  rw [hc]
  show Except.ok (_, if c = 0 then _ else _) = _
  rw [if_neg hc0]

end Damage

/-- A datagram with two bytes of data. -/
def shortDatagram : Net :=
  { blankNet with
    packet := pieceAt (List.replicate 12 0xFF ++ [8, 0, 69, 0, 0, 30, 0, 0, 0, 0, 60, 17, 123, 208,
      1, 0, 0, 0, 2, 0, 0, 0, 7, 208, 0, 69, 0, 10, 237, 190, 7, 7])
    packetlen := 60 }

theorem sound_shortDatagram : Sound shortDatagram.packet ethHlen where
  verhdrlen := by decide
  chksum := by decide
  frags := by decide
  len_ge := by decide
  len_le := by decide
  protocol := by decide
  udpLen_le := by decide
  udpChksum := by decide

theorem damaged_dropped_short :
    inspect (shortDatagram.damage 14 0x0907) = .ok (shortDatagram.damage 14 0x0907, none) :=
  damaged_dropped sound_shortDatagram (by decide) (by decide) (by decide) (by decide) (by decide)
    (by decide) (by decide) (by decide)

/-! ## Lengths that are trusted -/

/-- `iplen`, from the header. -/
def ipHdrLen (m : Bytes) : Nat := (m ethHlen &&& 0xF).toNat * 4

/-- The checks of the IP header are passed. -/
structure IpTaken (s : Net) : Prop where
  packetlen_ge : 34 ≤ s.packetlen
  ptype : etherType s.packet = ethPIp
  verhdrlen_ge : 0x45 ≤ s.packet ethHlen
  verhdrlen_le : s.packet ethHlen ≤ 0x4F
  chksum : ipchksum s.packet ethHlen (ipHdrLen s.packet) = 0
  frags : ipFrags s.packet ethHlen &&& htons 0x3FFF = 0
  len_le : (ipLen s.packet ethHlen).toNat ≤ ethMaxMtu

theorem IpTaken.ipHdrLen_mem {s : Net} (h : IpTaken s) :
    20 ≤ ipHdrLen s.packet ∧ ipHdrLen s.packet ≤ 60 := by
  have hge := UInt8.le_iff_toNat_le.mp h.verhdrlen_ge
  have hle := UInt8.le_iff_toNat_le.mp h.verhdrlen_le
  have hnibble : (s.packet ethHlen &&& 0xF).toNat = (s.packet ethHlen).toNat % 16 := by
    rw [UInt8.toNat_and]
    exact Nat.and_two_pow_sub_one_eq_mod _ 4
  have h45 : (0x45 : UInt8).toNat = 69 := rfl
  have h4F : (0x4F : UInt8).toNat = 79 := rfl
  rw [ipHdrLen, hnibble]
  omega

theorem inspect_of_ipTaken {s : Net} (h : IpTaken s) :
    inspect s = deleteOptions s (ipHdrLen s.packet) >>= fun s' =>
      inspectUdp s' ethPIp (ipHdrLen s.packet) := by
  have hlen := h.packetlen_ge
  have htype := h.ptype
  have hhlen : ethHlen = 14 := rfl
  have hver : ¬(s.packet ethHlen < 0x45 ∨ 0x4F < s.packet ethHlen) :=
    not_or.mpr ⟨UInt8.not_lt.mpr h.verhdrlen_ge, UInt8.not_lt.mpr h.verhdrlen_le⟩
  unfold etherType at htype
  unfold inspect inspectIp
  rw [if_neg (by omega), htype, if_pos ⟨rfl, by omega⟩, if_neg hver]
  show (if ipchksum s.packet ethHlen (ipHdrLen s.packet) ≠ 0 then _ else _) = _
  rw [if_neg (not_not.mpr h.chksum), if_neg (not_not.mpr h.frags),
    if_neg (Nat.not_lt.mpr h.len_le)]
  rfl

theorem inspect_of_not_ipTaken {s : Net} (h : ¬ IpTaken s) :
    ∃ a, inspect s = .ok (s, a) ∧ ∀ x ∈ a, x.udp = false := by
  unfold inspect
  split
  · exact ⟨_, rfl, fun x hx => by cases hx⟩
  dsimp only
  split
  case isFalse => exact ⟨_, rfl, fun x hx => by cases hx; rfl⟩
  case isTrue htype =>
    unfold inspectIp
    dsimp only
    split
    · exact ⟨_, rfl, fun x hx => by cases hx⟩
    split
    · exact ⟨_, rfl, fun x hx => by cases hx⟩
    split
    · exact ⟨_, rfl, fun x hx => by cases hx⟩
    split
    · exact ⟨_, rfl, fun x hx => by cases hx⟩
    case isFalse hver hsum hfrags hmtu =>
      obtain ⟨hge, hle⟩ := not_or.mp hver
      exact absurd {
        packetlen_ge := htype.2
        ptype := htype.1
        verhdrlen_ge := UInt8.not_lt.mp hge
        verhdrlen_le := UInt8.not_lt.mp hle
        chksum := not_not.mp hsum
        frags := not_not.mp hfrags
        len_le := Nat.not_lt.mp hmtu } h

/-- The options are at least as long as the rest, or the frame is too long for the move. -/
theorem deleteOptions_eq {s : Net} {iplen : Nat} (h20 : 20 ≤ iplen) (h60 : iplen ≤ 60)
    (hlen : s.packetlen ≤ ethFrameLen) :
    deleteOptions s iplen =
      if iplen = 20 then .ok s
      else if s.packetlen < iplen - 20 ∨ 1480 < s.packetlen then .error .outOfBounds
      else .ok { s with
        packet := s.packet.copy (ethHlen + 20) (fun i => s.packet (ethHlen + iplen + i))
          (s.packetlen - (iplen - 20))
        packetlen := s.packetlen - (iplen - 20) } := by
  have hframe : ethFrameLen = 1514 := rfl
  have hhlen : ethHlen = 14 := rfl
  have hp : (UInt32.ofNat s.packetlen).toNat = s.packetlen := UInt32.toNat_ofNat_of_lt' (by
    show s.packetlen < 2 ^ 32
    omega)
  have ho : (UInt32.ofNat (iplen - 20)).toNat = iplen - 20 := UInt32.toNat_ofNat_of_lt' (by
    show iplen - 20 < 2 ^ 32
    omega)
  have hlength : (UInt32.ofNat s.packetlen - UInt32.ofNat (iplen - 20)).toNat =
      if s.packetlen < iplen - 20 then 2 ^ 32 + s.packetlen - (iplen - 20)
      else s.packetlen - (iplen - 20) := by
    rw [UInt32.toNat_sub, hp, ho]
    split <;> omega
  unfold deleteOptions
  dsimp only
  rw [hlength]
  by_cases hopt : iplen = 20
  · rw [if_pos (by omega), if_pos hopt]
  · rw [if_neg (by omega), if_neg hopt]
    by_cases hshort : s.packetlen < iplen - 20
    · rw [if_pos hshort, if_pos (by omega), if_pos (Or.inl hshort)]
    · rw [if_neg hshort]
      exact if_congr (by omega) rfl rfl

/-- A length below that of the header is the only one that leads out of the buffer. -/
theorem tcpudpchksum_error_iff {m : Bytes} (hle : (ipLen m ethHlen).toNat ≤ ethMaxMtu) :
    (∃ e, tcpudpchksum m ethHlen ethFrameLen = .error e) ↔ (ipLen m ethHlen).toNat < 20 := by
  have hframe : ethFrameLen = 1514 := rfl
  have hhlen : ethHlen = 14 := rfl
  have hmtu : ethMaxMtu = 1500 := rfl
  constructor
  · intro ⟨e, he⟩
    by_contra hge
    obtain ⟨c, hc, -⟩ := tcpudpchksum_of_le m ethHlen ethFrameLen (by omega) (by omega)
    rw [hc] at he
    cases he
  · intro hlt
    have hlen : (UInt32.ofNat (ipLen m ethHlen).toNat - 20).toNat =
        2 ^ 32 + (ipLen m ethHlen).toNat - 20 := by
      rw [UInt32.toNat_sub, UInt32.toNat_ofNat']
      show (2 ^ 32 - 20 + (ipLen m ethHlen).toNat % 2 ^ 32) % 2 ^ 32 = _
      omega
    unfold tcpudpchksum
    dsimp only
    rw [hlen, if_pos (by omega)]
    exact ⟨_, rfl⟩

theorem inspectUdp_error_iff {s : Net} {ptype : UInt16} {iplen : Nat} (h20 : 20 ≤ iplen)
    (h60 : iplen ≤ 60) (hle : (ipLen s.packet ethHlen).toNat ≤ ethMaxMtu) :
    (∃ e, inspectUdp s ptype iplen = .error e) ↔
      (ipLen s.packet ethHlen).toNat < 20 ∧ ipProtocol s.packet ethHlen = ipUdp ∧
        42 ≤ s.packetlen ∧ udpChksum s.packet ethHlen ≠ 0 := by
  have hhlen : ethHlen = 14 := rfl
  unfold inspectUdp
  constructor
  · rintro ⟨e, he⟩
    split at he
    case isFalse => cases he
    case isTrue hudp =>
      split at he
      · cases he
      split at he
      · cases he
      case isFalse hsum =>
        have herr : ∃ e, tcpudpchksum s.packet ethHlen ethFrameLen = .error e := by
          rcases bind_eq_error.mp he with h | ⟨c, -, h⟩
          · exact ⟨e, h⟩
          · cases h
        exact ⟨(tcpudpchksum_error_iff hle).mp herr, hudp.1, by omega, hsum⟩
  · rintro ⟨hlt, hproto, hlen, hsum⟩
    obtain ⟨e, he⟩ := (tcpudpchksum_error_iff hle).mpr hlt
    -- The room for the UDP header is a huge number then, so that any length passes.
    have hroom : ¬(UInt32.ofNat (ipLen s.packet ethHlen).toNat - UInt32.ofNat iplen).toNat <
        (udpLen s.packet ethHlen).toNat := by
      have hudp := (udpLen s.packet ethHlen).toNat_lt
      rw [UInt32.toNat_sub, UInt32.toNat_ofNat', UInt32.toNat_ofNat']
      omega
    rw [if_pos ⟨hproto, by omega⟩, if_neg hroom, if_neg hsum, he]
    exact ⟨e, rfl⟩

/-- **When the buffer is left.** The headers pass every check, and there are IP options in a frame
of more than 1480 bytes (or in one that is shorter than its options), or the packet claims to be
shorter than an IP header and has a UDP checksum to be computed. -/
theorem inspect_faults_iff {s : Net} (hlen : s.packetlen ≤ ethFrameLen) :
    (∃ e, inspect s = .error e) ↔ IpTaken s ∧
      (20 < ipHdrLen s.packet ∧
          (s.packetlen < ipHdrLen s.packet - 20 ∨ 1480 < s.packetlen) ∨
        (20 < ipHdrLen s.packet → s.packetlen ≤ 1480) ∧
          (ipLen s.packet ethHlen).toNat < 20 ∧ ipProtocol s.packet ethHlen = ipUdp ∧
          22 + ipHdrLen s.packet ≤ s.packetlen ∧
          s.packet.le16 (ethHlen + ipHdrLen s.packet + 6) ≠ 0) := by
  by_cases h : IpTaken s
  case neg =>
    obtain ⟨a, ha, -⟩ := inspect_of_not_ipTaken h
    refine iff_of_false ?_ fun hfault => h hfault.1
    rintro ⟨e, he⟩
    rw [ha] at he
    cases he
  case pos =>
  rw [and_iff_right h, inspect_of_ipTaken h]
  obtain ⟨h20, h60⟩ := h.ipHdrLen_mem
  generalize hiplen : ipHdrLen s.packet = iplen at h20 h60
  rw [deleteOptions_eq h20 h60 hlen]
  by_cases hopt : iplen = 20
  · subst hopt
    rw [if_pos rfl, ok_bind, inspectUdp_error_iff le_rfl h60 h.len_le, udpChksum]
    simp
  rw [if_neg hopt]
  by_cases hmove : s.packetlen < iplen - 20 ∨ 1480 < s.packetlen
  · rw [if_pos hmove]
    exact iff_of_true ⟨_, rfl⟩ (Or.inl ⟨by omega, hmove⟩)
  rw [if_neg hmove, ok_bind]
  generalize hs' : ({ s with
    packet := s.packet.copy (ethHlen + 20) (fun i => s.packet (ethHlen + iplen + i))
      (s.packetlen - (iplen - 20))
    packetlen := s.packetlen - (iplen - 20) } : Net) = s'
  have hpacketlen : s'.packetlen = s.packetlen - (iplen - 20) := by rw [← hs']
  have hpacket : s'.packet = s.packet.copy (ethHlen + 20)
      (fun i => s.packet (ethHlen + iplen + i)) (s.packetlen - (iplen - 20)) := by rw [← hs']
  have hhdr : ∀ i < 20, s'.packet (ethHlen + i) = s.packet (ethHlen + i) := fun i hi => by
    rw [hpacket]
    exact Bytes.copy_of_lt (by omega)
  have hlen' : ipLen s'.packet ethHlen = ipLen s.packet ethHlen :=
    congrArg ntohs (le16_field_congr hhdr (by omega))
  have hproto : ipProtocol s'.packet ethHlen = ipProtocol s.packet ethHlen := hhdr 9 (by omega)
  rw [inspectUdp_error_iff h20 h60 (by rw [hlen']; exact h.len_le), hlen', hproto, hpacketlen]
  -- The checksum has moved with the rest.
  have hchksum (hl : 22 + iplen ≤ s.packetlen) :
      udpChksum s'.packet ethHlen = s.packet.le16 (ethHlen + iplen + 6) :=
    Bytes.le16_congr fun i hi => by
      rw [hpacket, Bytes.copy_of_mem (by omega) (by omega)]
      congr 1
      omega
  constructor
  · rintro ⟨hlt, hudp, hl, hsum⟩
    exact Or.inr ⟨by omega, hlt, hudp, by omega, by rwa [← hchksum (by omega)]⟩
  · rintro (⟨-, hover⟩ | ⟨-, hlt, hudp, hl, hsum⟩)
    · exact absurd hover hmove
    · exact ⟨hlt, hudp, by omega, by rwa [hchksum hl]⟩

/-- A datagram whose IP header says that it has no length. -/
def lengthlessDatagram : Net :=
  { shortDatagram with packet := (shortDatagram.packet.putLe 16 2 0).putLe 24 2 0xEE7B }

theorem inspect_faults_iff_lengthless : ∃ e, inspect lengthlessDatagram = .error e :=
  (inspect_faults_iff (by decide)).mpr ⟨{
    packetlen_ge := by decide
    ptype := by decide
    verhdrlen_ge := by decide
    verhdrlen_le := by decide
    chksum := by decide
    frags := by decide
    len_le := by decide }, by decide⟩

end MbBootTv
