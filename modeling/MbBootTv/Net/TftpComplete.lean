import Mathlib.Data.List.Forall2
import MbBootTv.Net.Resolve
import MbBootTv.Net.TftpFetch

/-!
# A transfer that comes to its end

A server that answers every request, and a network that now and then loses a datagram or brings it
twice. `Coming` says which polls a transfer survives: any number of foreign frames and of blocks that
have come before, and at most 21 time-outs in a row between two blocks. Then `tftp` returns with the
whole file (`tftp_completes`). Before the first block there is less room: the request is sent again
from another port, and once the option has been granted there may be no time-out at all.
-/

namespace MbBootTv

section Polls

variable (file : List UInt8) (b : Nat) (client : UInt32)

/-- The polls that bring the blocks behind the first `n`, when `r` time-outs have passed since the
last packet and the transfer goes on at `port`. -/
inductive Coming (port : UInt16) : Nat → Nat → List Poll → Prop
  | finished {r : Nat} (polls : List Poll) : Coming port (file.length / b + 1) r polls
  | quiet {n r : Nat} {polls : List Poll} : Coming port n r polls →
      Coming port n r (.empty false :: polls)
  | late {n r : Nat} {polls : List Poll} : 0 < n → r ≤ maxTftpRetries →
      Coming port n (r + 1) polls → Coming port n r (.empty true :: polls)
  | foreign {n r : Nat} {polls : List Poll} {f : EthFrame} : Foreign client f →
      Coming port n r polls → Coming port n r (.frame f :: polls)
  | stray {n r : Nat} {polls : List Poll} {f : EthFrame} {d : Datagram} : Carries f d →
      ¬(client = d.dest ∧ d.destsock = port) → Coming port n r polls →
      Coming port n r (.frame f :: polls)
  | option {n r : Nat} {polls : List Poll} {f : EthFrame} {d : Datagram} : Carries f d →
      client = d.dest → d.destsock = port → d.payload = oackMsg b → Padded f d →
      Coming port n 0 polls → Coming port n r (.frame f :: polls)
  | again {n r : Nat} {k : UInt16} {polls : List Poll} {f : EthFrame} {d : Datagram} :
      Carries f d → client = d.dest → d.destsock = port → k.toNat ≤ n →
      d.payload = dataMsg k (chunk file b k.toNat) →
      Coming port n 0 polls → Coming port n r (.frame f :: polls)
  | next {n r : Nat} {k : UInt16} {polls : List Poll} {f : EthFrame} {d : Datagram} :
      Carries f d → client = d.dest → d.destsock = port → k.toNat = n + 1 →
      d.payload = dataMsg k (chunk file b k.toNat) →
      Coming port (n + 1) 0 polls → Coming port n r (.frame f :: polls)

/-- The polls behind a request that has been sent `r + 1` times, the last time from `port`. -/
inductive Starting : UInt16 → Nat → List Poll → Prop
  | direct {port : UInt16} {r : Nat} {polls : List Poll} : b = 512 →
      Coming file b client port 0 r polls → Starting port r polls
  | quiet {port : UInt16} {r : Nat} {polls : List Poll} : Starting port r polls →
      Starting port r (.empty false :: polls)
  | late {port : UInt16} {r : Nat} {polls : List Poll} : r ≤ maxTftpRetries →
      Starting (port + 1) (r + 1) polls → Starting port r (.empty true :: polls)
  | foreign {port : UInt16} {r : Nat} {polls : List Poll} {f : EthFrame} : Foreign client f →
      Starting port r polls → Starting port r (.frame f :: polls)
  | stray {port : UInt16} {r : Nat} {polls : List Poll} {f : EthFrame} {d : Datagram} :
      Carries f d → ¬(client = d.dest ∧ d.destsock = port) → Starting port r polls →
      Starting port r (.frame f :: polls)
  | option {port : UInt16} {r : Nat} {polls : List Poll} {f : EthFrame} {d : Datagram} :
      Carries f d → client = d.dest → d.destsock = port → d.payload = oackMsg b → Padded f d →
      Coming file b client port 0 0 polls → Starting port r (.frame f :: polls)

end Polls

/-! ## Rounds of the loop -/

section Rounds

variable {request : Option TftpReqInfo} {n : Nat} {t t₁ t₂ : Tftp} {s s₁ s₂ : Net}
  {polls rest : List Poll}

/-- A poll that `await_reply` passes over. -/
theorem tftpLoop_skip {p : Poll} (h : awaitReply (awaitTftp t.lport) false (p :: polls) s =
      awaitReply (awaitTftp t.lport) false polls s₁) :
    tftpLoop request (n + 1) t s (p :: polls) = tftpLoop request (n + 1) t s₁ polls := by
  rw [tftpLoop, tftpLoop, h]

/-- A packet that is acknowledged only. -/
theorem tftpLoop_acknowledge {sent : Bool}
    (hawait : awaitReply (awaitTftp t.lport) false polls s = .ok (true, s₁, rest))
    (hpacket : tftpPacket request t s₁ = .ok (.acknowledge none, t₁, s₁))
    (htransmit : tftpTransmit t₁ s₁ rest = .ok (sent, t₂, s₂, rest)) :
    tftpLoop request (n + 1) t s polls = tftpLoop request n t₂ s₂ rest := by
  rw [tftpLoop, hawait, ok_bind]
  dsimp only
  rw [if_pos rfl, hpacket, ok_bind]
  dsimp only
  rw [htransmit, ok_bind]
  rfl

/-- A packet with the next block. -/
theorem tftpLoop_block {block : TftpBlkInfo} {sent : Bool}
    (hawait : awaitReply (awaitTftp t.lport) false polls s = .ok (true, s₁, rest))
    (hpacket : tftpPacket request t s₁ = .ok (.acknowledge (some block), t₁, s₁))
    (htransmit : tftpTransmit t₁ s₁ rest = .ok (sent, t₂, s₂, rest)) :
    tftpLoop request (n + 1) t s polls = .ok (some block, t₂, s₂, rest) := by
  rw [tftpLoop, hawait, ok_bind]
  dsimp only
  rw [if_pos rfl, hpacket, ok_bind]
  dsimp only
  rw [htransmit, ok_bind]
  rfl

/-- A time-out, of which there may be 21. -/
theorem tftpLoop_again (hretry : t.retry.toNat ≤ maxTftpRetries)
    (htransmit : tftpTransmit (tftpTimeout t).2 s polls = .ok (true, t₂, s₂, polls)) :
    tftpLoop request (n + 1) t s (.empty true :: polls) = tftpLoop request n t₂ s₂ polls := by
  have htrue : (tftpTimeout t).1 = true := by
    rw [tftpTimeout, if_neg (by omega)]
  rw [tftpLoop, awaitReply, Bool.or_true, if_pos rfl, ok_bind]
  dsimp only
  rw [if_neg Bool.false_ne_true, if_pos htrue, htransmit, ok_bind]
  rfl

end Rounds

/-! ## The variables between two packets -/

/-- `n` blocks have come, `c` is the block size, and `r` time-outs have passed since. -/
structure Ready (client : UInt32) (port : UInt16) (n r c : Nat) (t : Tftp) (s : Net) : Prop where
  clientIp : s.clientIp = client
  routed : RoutedTo s (s.arptable arpServer).ipaddr
  lport : t.lport = port
  blockidx : t.blockidx.toNat = n
  retry : t.retry.toNat = r
  blksize : t.blksize = Int32.ofNat c
  xmitlen_ge : 28 ≤ t.xmitlen.toNat
  xmitlen_le : t.xmitlen.toNat ≤ ethMaxMtu

section Ready

variable {client : UInt32} {port : UInt16} {n r c : Nat} {t : Tftp} {s s' : Net}

theorem Ready.of_kept (h : Ready client port n r c t s) (hkept : Kept s s') :
    Ready client port n r c t s' :=
  { h with
    clientIp := hkept.clientIp.trans h.clientIp
    routed := by rw [hkept.arptable]; exact h.routed.of_kept hkept }

/-- **What is ready leaves**, and everything is as before, the packet included. -/
theorem Ready.transmit (h : Ready client port n r c t s) (polls : List Poll) :
    ∃ t' s', tftpTransmit t s polls = .ok (true, t', s', polls) ∧
      Ready client port n r c t' s' ∧ s'.packet = s.packet := by
  obtain ⟨b, hbuild, hbuilt⟩ := buildUdpHdr_built s.clientIp (s.arptable arpServer).ipaddr t.lport
    t.rport 60 t.xmit h.xmitlen_ge h.xmitlen_le
  have hrouted : RoutedTo { s with sport := t.lport } (ipDest b 0) := by
    rw [hbuilt.dest]
    exact h.routed.of_eq rfl rfl
  obtain ⟨node, hnode⟩ := ipTransmit_of_routedTo t.xmitlen.toNat polls hrouted
  unfold tftpTransmit udpTransmit
  dsimp only
  rw [show ({ s with sport := t.lport } : Net).clientIp = s.clientIp from rfl, hbuild, ok_bind,
    hnode]
  exact ⟨_, _, rfl, { h with routed := h.routed.of_eq rfl rfl }, rfl⟩

/-- The acknowledgement of a packet. -/
theorem Ready.ack (h : Ready client port n r c t s) (remote : UInt16) :
    Ready client port n 0 c (t.heard remote).ack s :=
  { h with
    retry := rfl
    xmitlen_ge := (by decide : 28 ≤ tftpMinPacket.toNat)
    xmitlen_le := (by decide : tftpMinPacket.toNat ≤ ethMaxMtu) }

/-- With another block size. -/
theorem Ready.resize (h : Ready client port n r c t s) {blksize : Int32} {c' : Nat}
    (hsize : blksize = Int32.ofNat c') : Ready client port n r c' { t with blksize } s :=
  { h with blksize := hsize }

/-- With another block and another block size. -/
theorem Ready.change (h : Ready client port n r c t s) (k : UInt16) {blksize : Int32} {c' : Nat}
    (hsize : blksize = Int32.ofNat c') :
    Ready client port k.toNat r c' { t with blockidx := k, blksize } s :=
  { h with
    blockidx := rfl
    blksize := hsize }

/-- A time-out behind a block. -/
theorem Ready.timeout (h : Ready client port n r c t s) (hn : 0 < n) (hr : r ≤ maxTftpRetries) :
    Ready client port n (r + 1) c (tftpTimeout t).2 s := by
  have hretry := h.retry
  have hidx := h.blockidx
  have hmax : maxTftpRetries = 20 := rfl
  have hne : t.blockidx ≠ 0 := fun h0 => by
    rw [h0] at hidx
    exact absurd hidx (Nat.ne_of_lt hn)
  unfold tftpTimeout
  rw [if_neg (by omega), if_neg hne]
  exact { h with
    retry := by
      show (t.retry + 1).toNat = _
      rw [UInt16.toNat_add, hretry]
      exact Nat.mod_eq_of_lt (by
        show r + 1 < 2 ^ 16
        omega) }

/-- A time-out behind the request: the port changes. -/
theorem Ready.timeout_first (h : Ready client port 0 r c t s) (hr : r ≤ maxTftpRetries) :
    Ready client (port + 1) 0 (r + 1) c (tftpTimeout t).2 s := by
  have hretry := h.retry
  have hmax : maxTftpRetries = 20 := rfl
  have hzero : t.blockidx = 0 := UInt16.toNat_inj.mp h.blockidx
  unfold tftpTimeout
  rw [if_neg (by omega), if_pos hzero]
  exact { h with
    lport := congrArg (· + 1) h.lport
    retry := by
      show (t.retry + 1).toNat = _
      rw [UInt16.toNat_add, hretry]
      exact Nat.mod_eq_of_lt (by
        show r + 1 < 2 ^ 16
        omega) }

end Ready

/-! ## The next block -/

/-- The block `n + 1` is returned, and the polls behind it are those that are left. -/
structure Next (file : List UInt8) (b : Nat) (client : UInt32) (port : UInt16) (n : Nat)
    (polls : List Poll) (block : TftpBlkInfo) (t : Tftp) (s : Net) (rest : List Poll) : Prop where
  coming : Coming file b client port (n + 1) 0 rest
  shorter : rest.length < polls.length
  block_eq : block.block.toNat = n + 1
  bytes : s.packet.slice block.data block.len.toNat = chunk file b (n + 1)
  eof : block.eof = true ↔ n = file.length / b
  ready : Ready client port (n + 1) 0 (if n = file.length / b then 0 else b) t s

theorem Next.cons {file : List UInt8} {b : Nat} {client : UInt32} {port : UInt16} {n : Nat}
    {polls rest : List Poll} {block : TftpBlkInfo} {t : Tftp} {s : Net} (p : Poll)
    (h : Next file b client port n polls block t s rest) :
    Next file b client port n (p :: polls) block t s rest :=
  { h with shorter := h.shorter.trans (by rw [List.length_cons]; exact Nat.lt_succ_self _) }

theorem length_chunk_lt_iff {file : List UInt8} {b n : Nat} (hb : 0 < b)
    (hn : n ≤ file.length / b) :
    (chunk file b (n + 1)).length < b ↔ n = file.length / b := by
  have hle : n * b ≤ file.length := (Nat.le_div_iff_mul_le hb).mp hn
  have hlt : n < file.length / b ↔ (n + 1) * b ≤ file.length := Nat.le_div_iff_mul_le hb
  have hmul : (n + 1) * b = n * b + b := Nat.succ_mul n b
  rw [Progress.length_chunk]
  omega

/-- **The option**, with a zero behind it, when it comes in time or makes no difference. -/
theorem tftpPacket_option {b : Nat} {client : UInt32} {port : UInt16} {n r c : Nat} {t : Tftp}
    {s : Net} {request : Option TftpReqInfo} {d : Datagram} (hb : 512 ≤ b) (hmax : b ≤ 1432)
    (hsize : ∀ q ∈ request, q.blksize = 1432) (hready : Ready client port n r c t s)
    (hpayload : d.payload = oackMsg b) (hbrought : Brought s.packet d)
    (hpad : s.packet (42 + d.payload.length) = 0)
    (hc : request.isSome = true ∧ n = 0 ∨ c = b) :
    ∃ t', tftpPacket request t s = .ok (.acknowledge none, t', s) ∧
      Ready client port n 0 b t' s := by
  have hs := hbrought.toTftp hpayload
  by_cases hlate : request = none ∨ t.blockidx ≠ 0
  · refine ⟨_, tftpPacket_oack_late hs hmax hlate, ?_⟩
    have hcb : c = b := by
      refine hc.resolve_left fun ⟨hsome, hn⟩ => ?_
      rcases hlate with hnone | hidx
      · rw [hnone] at hsome
        cases hsome
      · exact hidx (UInt16.toNat_inj.mp (hready.blockidx.trans hn))
    rw [← hcb]
    exact hready.ack d.srcsock
  · rw [not_or, not_not] at hlate
    obtain ⟨hsome, hfirst⟩ := hlate
    obtain ⟨⟨name, remote, blksize⟩, rfl⟩ := Option.ne_none_iff_exists'.mp hsome
    obtain rfl : blksize = 1432 := hsize _ rfl
    have hlen := length_blksizeOption_le hmax
    have hframe : ethFrameLen = 1514 := rfl
    rw [hpayload, oackMsg, List.length_append, length_be16, ← Nat.add_assoc] at hpad
    have hscan : ∃ z, 44 + (blksizeOption b).length ≤ z ∧ z ≤ 44 + (blksizeOption b).length ∧
        scan (· = 0) s.packet (44 + (blksizeOption b).length)
          (ethFrameLen - (44 + (blksizeOption b).length)) = .ok z :=
      exists_scan le_rfl (by omega) (by rw [hpad]; rfl)
    obtain ⟨z, -, -, hz⟩ := hscan
    have hpacket : tftpPacket (some ⟨name, remote, 1432⟩) t s = _ :=
      tftpPacket_oack hs hb hmax hfirst
    rw [hz, ok_bind] at hpacket
    exact ⟨_, hpacket, (hready.resize rfl).ack d.srcsock⟩

section NextBlock

variable {file : List UInt8} {b : Nat} {client : UInt32} {port : UInt16} {n r m : Nat} {t : Tftp}
  {s : Net} {polls : List Poll} {request : Option TftpReqInfo}

/-- **The loop returns the next block** from such polls. -/
theorem tftpLoop_coming (hb : 512 ≤ b) (hmax : b ≤ 1432)
    (hsize : ∀ q ∈ request, q.blksize = 1432) (hn : n ≤ file.length / b)
    (hcoming : Coming file b client port n r polls) (hready : Ready client port n r b t s)
    (hm : polls.length < m) :
    ∃ block t' s' rest, tftpLoop request m t s polls = .ok (some block, t', s', rest) ∧
      Next file b client port n polls block t' s' rest := by
  induction hcoming generalizing m t s with
  | finished => omega
  | @quiet n r polls _ ih =>
    obtain ⟨m, rfl⟩ : ∃ m', m = m' + 1 := ⟨m - 1, by omega⟩
    rw [tftpLoop_skip (rfl : awaitReply _ false (.empty false :: polls) s =
      awaitReply _ false polls s)]
    obtain ⟨block, t', s', rest, hloop, hnext⟩ := ih hn hready (Nat.lt_of_succ_lt hm)
    exact ⟨block, t', s', rest, hloop, hnext.cons _⟩
  | @late n r polls hpos hr _ ih =>
    obtain ⟨m, rfl⟩ : ∃ m', m = m' + 1 := ⟨m - 1, by omega⟩
    obtain ⟨t₁, s₁, htransmit, hready₁, -⟩ := (hready.timeout hpos hr).transmit polls
    rw [tftpLoop_again (by rw [hready.retry]; exact hr) htransmit]
    obtain ⟨block, t', s', rest, hloop, hnext⟩ := ih hn hready₁ (Nat.lt_of_succ_lt_succ hm)
    exact ⟨block, t', s', rest, hloop, hnext.cons _⟩
  | @foreign n r polls f hf _ ih =>
    obtain ⟨m, rfl⟩ : ∃ m', m = m' + 1 := ⟨m - 1, by omega⟩
    obtain ⟨s₁, hkept, hskip⟩ := awaitReply_foreign hf hready.clientIp
    rw [tftpLoop_skip hskip]
    obtain ⟨block, t', s', rest, hloop, hnext⟩ :=
      ih hn (hready.of_kept hkept) (Nat.lt_of_succ_lt hm)
    exact ⟨block, t', s', rest, hloop, hnext.cons _⟩
  | @stray n r polls f d hf hother _ ih =>
    obtain ⟨m, rfl⟩ : ∃ m', m = m' + 1 := ⟨m - 1, by omega⟩
    rw [← hready.clientIp, ← hready.lport] at hother
    obtain ⟨s₁, hkept, hskip⟩ := awaitReply_carries_other hf hother
    rw [tftpLoop_skip hskip]
    obtain ⟨block, t', s', rest, hloop, hnext⟩ :=
      ih hn (hready.of_kept hkept) (Nat.lt_of_succ_lt hm)
    exact ⟨block, t', s', rest, hloop, hnext.cons _⟩
  | @option n r polls f d hf hdest hport hpayload hpad _ ih =>
    obtain ⟨m, rfl⟩ : ∃ m', m = m' + 1 := ⟨m - 1, by omega⟩
    obtain ⟨s₁, hinspect, hkept, hbrought, hawait⟩ := awaitReply_carries polls hf
      (hready.clientIp.trans hdest) (hport.trans hready.lport.symm)
    have hready₁ := hready.of_kept hkept
    obtain ⟨t₁, hpacket, hready₂⟩ := tftpPacket_option hb hmax hsize hready₁ hpayload hbrought
      (hpad s s₁ hinspect) (Or.inr rfl)
    obtain ⟨t₂, s₂, htransmit, hready₃, -⟩ := hready₂.transmit polls
    rw [tftpLoop_acknowledge hawait hpacket htransmit]
    obtain ⟨block, t', s', rest, hloop, hnext⟩ := ih hn hready₃ (Nat.lt_of_succ_lt_succ hm)
    exact ⟨block, t', s', rest, hloop, hnext.cons _⟩
  | @again n r k polls f d hf hdest hport hk hpayload _ ih =>
    obtain ⟨m, rfl⟩ : ∃ m', m = m' + 1 := ⟨m - 1, by omega⟩
    obtain ⟨s₁, -, hkept, hbrought, hawait⟩ := awaitReply_carries polls hf
      (hready.clientIp.trans hdest) (hport.trans hready.lport.symm)
    have hready₁ := hready.of_kept hkept
    have hs := hbrought.toTftp hpayload
    have hother : ¬(k.toNat = (t.heard d.srcsock).blockidx.toNat + 1 ∧
        (chunk file b k.toNat).length ≤ b) := by
      rintro ⟨hnext, -⟩
      have hidx : (t.heard d.srcsock).blockidx.toNat = n := hready.blockidx
      omega
    have hpacket := tftpPacket_data request t hs
    rw [tftpBlockData_other (hs.fields (t := t.heard d.srcsock) hmax hready.blksize) hother]
      at hpacket
    obtain ⟨t₂, s₂, htransmit, hready₂, -⟩ := (hready₁.ack d.srcsock).transmit polls
    rw [tftpLoop_acknowledge hawait hpacket htransmit]
    obtain ⟨block, t', s', rest, hloop, hnext⟩ := ih hn hready₂ (Nat.lt_of_succ_lt_succ hm)
    exact ⟨block, t', s', rest, hloop, hnext.cons _⟩
  | @next n r k polls f d hf hdest hport hk hpayload hcoming _ =>
    obtain ⟨m, rfl⟩ : ∃ m', m = m' + 1 := ⟨m - 1, by omega⟩
    obtain ⟨s₁, -, hkept, hbrought, hawait⟩ := awaitReply_carries polls hf
      (hready.clientIp.trans hdest) (hport.trans hready.lport.symm)
    have hready₁ := hready.of_kept hkept
    have hs := hbrought.toTftp hpayload
    have hlen : (chunk file b k.toNat).length ≤ b := List.length_take_le _ _
    have hlast : (chunk file b k.toNat).length < b ↔ n = file.length / b := by
      rw [hk]
      exact length_chunk_lt_iff (by omega) hn
    have hpacket := tftpPacket_data request t hs
    rw [tftpBlockData_next (hs.fields (t := t.heard d.srcsock) hmax hready.blksize)
      (hk.trans (congrArg (· + 1) hready.blockidx.symm)) hlen] at hpacket
    have hsize₁ : (if (chunk file b k.toNat).length < b then 0 else (t.heard d.srcsock).blksize) =
        Int32.ofNat (if n = file.length / b then 0 else b) := by
      by_cases hend : n = file.length / b
      · rw [if_pos (hlast.mpr hend), if_pos hend]
        rfl
      · rw [if_neg fun h => hend (hlast.mp h), if_neg hend]
        exact hready.blksize
    obtain ⟨t₂, s₂, htransmit, hready₂, hpacket₂⟩ :=
      ((hready₁.change k hsize₁).ack d.srcsock).transmit polls
    refine ⟨_, t₂, s₂, polls, tftpLoop_block hawait hpacket htransmit, ?_⟩
    have hlen32 : (UInt32.ofNat (chunk file b k.toNat).length).toNat =
        (chunk file b k.toNat).length := UInt32.toNat_ofNat_of_lt' (by
      show _ < 2 ^ 32
      omega)
    exact {
      coming := hcoming
      shorter := by rw [List.length_cons]; exact Nat.lt_succ_self _
      block_eq := (UInt16.toNat_toUInt32 k).trans hk
      bytes := by
        show s₂.packet.slice 46 (UInt32.ofNat _).toNat = _
        rw [hlen32, hpacket₂, hs.bytes, hk]
      eof := by
        show decide ((chunk file b k.toNat).length < b) = true ↔ _
        rw [decide_eq_true_eq, hlast]
      ready := by rwa [hk] at hready₂ }

/-- **The first block**, behind the request. -/
theorem tftpLoop_starting {q : TftpReqInfo} (hb : 512 ≤ b) (hmax : b ≤ 1432)
    (hsize : q.blksize = 1432) (hstarting : Starting file b client port r polls)
    (hready : Ready client port 0 r 512 t s) (hm : polls.length < m) :
    ∃ port' block t' s' rest, tftpLoop (some q) m t s polls = .ok (some block, t', s', rest) ∧
      Next file b client port' 0 polls block t' s' rest := by
  have hsome : ∀ q' ∈ some q, q'.blksize = 1432 := fun q' hq => by
    cases hq
    exact hsize
  induction hstarting generalizing m t s with
  | @direct port r polls h512 hcoming =>
    subst h512
    obtain ⟨block, t', s', rest, hloop, hnext⟩ :=
      tftpLoop_coming hb hmax hsome (Nat.zero_le _) hcoming hready hm
    exact ⟨port, block, t', s', rest, hloop, hnext⟩
  | @quiet port r polls _ ih =>
    obtain ⟨m, rfl⟩ : ∃ m', m = m' + 1 := ⟨m - 1, by omega⟩
    rw [tftpLoop_skip (rfl : awaitReply _ false (.empty false :: polls) s =
      awaitReply _ false polls s)]
    obtain ⟨port', block, t', s', rest, hloop, hnext⟩ := ih hready (Nat.lt_of_succ_lt hm)
    exact ⟨port', block, t', s', rest, hloop, hnext.cons _⟩
  | @late port r polls hr _ ih =>
    obtain ⟨m, rfl⟩ : ∃ m', m = m' + 1 := ⟨m - 1, by omega⟩
    obtain ⟨t₁, s₁, htransmit, hready₁, -⟩ := (hready.timeout_first hr).transmit polls
    rw [tftpLoop_again (by rw [hready.retry]; exact hr) htransmit]
    obtain ⟨port', block, t', s', rest, hloop, hnext⟩ := ih hready₁ (Nat.lt_of_succ_lt_succ hm)
    exact ⟨port', block, t', s', rest, hloop, hnext.cons _⟩
  | @foreign port r polls f hf _ ih =>
    obtain ⟨m, rfl⟩ : ∃ m', m = m' + 1 := ⟨m - 1, by omega⟩
    obtain ⟨s₁, hkept, hskip⟩ := awaitReply_foreign hf hready.clientIp
    rw [tftpLoop_skip hskip]
    obtain ⟨port', block, t', s', rest, hloop, hnext⟩ :=
      ih (hready.of_kept hkept) (Nat.lt_of_succ_lt hm)
    exact ⟨port', block, t', s', rest, hloop, hnext.cons _⟩
  | @stray port r polls f d hf hother _ ih =>
    obtain ⟨m, rfl⟩ : ∃ m', m = m' + 1 := ⟨m - 1, by omega⟩
    rw [← hready.clientIp, ← hready.lport] at hother
    obtain ⟨s₁, hkept, hskip⟩ := awaitReply_carries_other hf hother
    rw [tftpLoop_skip hskip]
    obtain ⟨port', block, t', s', rest, hloop, hnext⟩ :=
      ih (hready.of_kept hkept) (Nat.lt_of_succ_lt hm)
    exact ⟨port', block, t', s', rest, hloop, hnext.cons _⟩
  | @option port r polls f d hf hdest hport hpayload hpad hcoming =>
    obtain ⟨m, rfl⟩ : ∃ m', m = m' + 1 := ⟨m - 1, by omega⟩
    obtain ⟨s₁, hinspect, hkept, hbrought, hawait⟩ := awaitReply_carries polls hf
      (hready.clientIp.trans hdest) (hport.trans hready.lport.symm)
    obtain ⟨t₁, hpacket, hready₂⟩ := tftpPacket_option hb hmax hsome (hready.of_kept hkept) hpayload
      hbrought (hpad s s₁ hinspect) (Or.inl ⟨rfl, rfl⟩)
    obtain ⟨t₂, s₂, htransmit, hready₃, -⟩ := hready₂.transmit polls
    rw [tftpLoop_acknowledge hawait hpacket htransmit]
    obtain ⟨block, t', s', rest, hloop, hnext⟩ := tftpLoop_coming hb hmax hsome (Nat.zero_le _)
      hcoming hready₃ (Nat.lt_of_succ_lt_succ hm)
    exact ⟨port, block, t', s', rest, hloop, hnext.cons _⟩

/-! ## The calls of the callback -/

/-- The callback is called with the block `k` of the file. -/
structure IsBlock (file : List UInt8) (b k : Nat) (call : TftpCall) : Prop where
  block : call.block.toNat = k
  bytes : call.bytes = chunk file b k
  eof : call.eof = true ↔ k = file.length / b + 1

/-- The first blocks of the file. -/
structure Blocks (file : List UInt8) (b : Nat) (calls : List TftpCall) : Prop where
  length_le : calls.length ≤ file.length / b + 1
  each : List.Forall₂ (fun call k => IsBlock file b k call) calls (List.range' 1 calls.length)
  received : received calls = file.take (calls.length * b)

theorem blocks_nil (file : List UInt8) (b : Nat) : Blocks file b [] where
  length_le := Nat.zero_le _
  each := .nil
  received := by
    rw [List.length_nil, Nat.zero_mul, List.take_zero]
    rfl

theorem Blocks.append {calls : List TftpCall} {call : TftpCall} (h : Blocks file b calls)
    (hle : calls.length ≤ file.length / b) (hcall : IsBlock file b (calls.length + 1) call) :
    Blocks file b (calls ++ [call]) where
  length_le := by
    rw [List.length_append, List.length_singleton]
    exact Nat.succ_le_succ hle
  each := by
    rw [List.length_append, List.length_singleton, List.range'_concat, Nat.one_mul, Nat.add_comm 1]
    exact List.rel_append h.each (.cons hcall .nil)
  received := by
    rw [MbBootTv.received, List.flatMap_append, List.flatMap_singleton, hcall.bytes,
      List.length_append, List.length_singleton, ← Progress.take_append_chunk, ← h.received]
    rfl

theorem Blocks.received_eq {calls : List TftpCall} (h : Blocks file b calls) (hb : 512 ≤ b)
    (hlength : calls.length = file.length / b + 1) : MbBootTv.received calls = file := by
  have hlt : file.length < (file.length / b + 1) * b :=
    (Nat.div_lt_iff_lt_mul (by omega)).mp (Nat.lt_succ_self _)
  rw [h.received, hlength, List.take_of_length_le hlt.le]

theorem Next.isBlock {block : TftpBlkInfo} {t₁ : Tftp} {s₁ : Net} {rest : List Poll}
    (h : Next file b client port n polls block t₁ s₁ rest) :
    IsBlock file b (n + 1) (block.call s₁) where
  block := h.block_eq
  bytes := (TftpBlkInfo.call_bytes block s₁).trans h.bytes
  eof := h.eof.trans (Nat.succ_inj).symm

/-- **One call of the callback**, and the rest of the file when there is more of it. -/
theorem tftpCalls_next {fnc : TftpSink} {calls : List TftpCall} {block : TftpBlkInfo} {t₁ : Tftp}
    {s₁ : Net} {rest : List Poll}
    (hfnc : ∀ calls call, Blocks file b (calls ++ [call]) → 0 < fnc calls call)
    (hblock : tftpBlock request t s polls = .ok (some block, t₁, s₁, rest))
    (hnext : Next file b client port n polls block t₁ s₁ rest)
    (hn : n ≤ file.length / b) (hcalls : Blocks file b calls) (hlength : calls.length = n)
    (hrest : n ≠ file.length / b → Blocks file b (calls ++ [block.call s₁]) →
      ∃ calls' t' s' rest', tftpCalls fnc m none (calls ++ [block.call s₁]) t₁ s₁ rest =
        .ok (0, calls', t', s', rest') ∧ Blocks file b calls' ∧
          calls'.length = file.length / b + 1) :
    ∃ calls' t' s' rest', tftpCalls fnc (m + 1) request calls t s polls =
      .ok (0, calls', t', s', rest') ∧ Blocks file b calls' ∧
        calls'.length = file.length / b + 1 := by
  have hblocks : Blocks file b (calls ++ [block.call s₁]) := by
    refine hcalls.append (hlength.trans_le hn) ?_
    rw [hlength]
    exact hnext.isBlock
  have hpos : ¬fnc calls (block.call s₁) ≤ 0 := Int32.not_le.mpr (hfnc _ _ hblocks)
  rw [tftpCalls, hblock, ok_bind]
  show ∃ calls' t' s' rest', (if fnc calls (block.call s₁) ≤ 0 ∨ block.eof = true then
    Except.ok (if fnc calls (block.call s₁) ≤ 0 then _ else (0 : Int32), calls ++ [block.call s₁],
      t₁, s₁, rest) else tftpCalls fnc m none (calls ++ [block.call s₁]) t₁ s₁ rest) = _ ∧ _
  by_cases hend : n = file.length / b
  · rw [if_pos (Or.inr (hnext.eof.mpr hend)), if_neg hpos]
    exact ⟨_, _, _, _, rfl, hblocks, by
      rw [List.length_append, List.length_singleton, hlength, hend]⟩
  · rw [if_neg (not_or.mpr ⟨hpos, fun heof => hend (hnext.eof.mp heof)⟩)]
    exact hrest hend hblocks

/-- **The rest of the file**, behind the first `n` blocks. -/
theorem tftpCalls_coming {fnc : TftpSink} {calls : List TftpCall} (hb : 512 ≤ b) (hmax : b ≤ 1432)
    (hfnc : ∀ calls call, Blocks file b (calls ++ [call]) → 0 < fnc calls call)
    (hn : n ≤ file.length / b)
    (hcoming : Coming file b client port n 0 polls) (hready : Ready client port n 0 b t s)
    (hcalls : Blocks file b calls) (hlength : calls.length = n) (hm : polls.length < m) :
    ∃ calls' t' s' rest, tftpCalls fnc m none calls t s polls = .ok (0, calls', t', s', rest) ∧
      Blocks file b calls' ∧ calls'.length = file.length / b + 1 := by
  induction m generalizing n t s polls calls with
  | zero => exact absurd hm (Nat.not_lt_zero _)
  | succ m ih =>
    have hnone : ∀ q ∈ (none : Option TftpReqInfo), q.blksize = 1432 := fun q hq => by cases hq
    obtain ⟨block, t₁, s₁, rest, hloop, hnext⟩ := tftpLoop_coming hb hmax hnone hn
      hcoming hready (Nat.lt_succ_self _)
    have hactive : t.blksize ≠ 0 := fun hzero =>
      absurd (eq_zero_of_ofNat hmax (hready.blksize.symm.trans hzero)) (by omega)
    have hblock : tftpBlock none t s polls = .ok (some block, t₁, s₁, rest) := by
      unfold tftpBlock
      dsimp only
      rw [if_neg hactive]
      exact hloop
    refine tftpCalls_next hfnc hblock hnext hn hcalls hlength fun hmore hblocks => ?_
    have hready₁ := hnext.ready
    rw [if_neg hmore] at hready₁
    have hshorter := hnext.shorter
    exact ih (Nat.lt_of_le_of_ne hn hmore) hnext.coming hready₁ hblocks
      (by rw [List.length_append, List.length_singleton, hlength]) (by omega)

end NextBlock

/-! ## The whole transfer -/

/-- Frames that wait in the queue before the request is sent. What they are does not matter, as long
as they can be looked at. -/
def Queued (client : UInt32) (polls : List Poll) : Prop :=
  ∀ p ∈ polls, ∃ f, p = .frame f ∧ ∀ s : Net, s.clientIp = client → ∃ r, inspect (s.load f) = .ok r

theorem queued_nil (client : UInt32) : Queued client [] := fun p hp => by cases hp

/-- The queue is emptied. -/
theorem rxQdrain_queued {client : UInt32} {queue : List Poll} {s : Net} (late : Bool)
    (polls : List Poll) (hqueue : Queued client queue) (hclient : s.clientIp = client) :
    ∃ s', Kept s s' ∧ rxQdrain (queue ++ .empty late :: polls) s = .ok (s', polls) := by
  induction queue generalizing s with
  | nil => exact ⟨s, Kept.refl s, rfl⟩
  | cons p queue ih =>
    have hqueue' : Queued client queue := fun p' hp => hqueue p' (List.mem_cons_of_mem _ hp)
    obtain ⟨f, rfl, hf⟩ := hqueue p List.mem_cons_self
    obtain ⟨⟨s₁, a⟩, hinspect⟩ := hf s hclient
    have hkept : Kept s s₁ := (Kept.load s f).trans (inspect_kept hinspect)
    -- Nothing is taken, but an ARP request is answered.
    have hskip : ∃ s₂, Kept s s₂ ∧ awaitReply awaitQdrain true
        (.frame f :: (queue ++ .empty late :: polls)) s =
          awaitReply awaitQdrain true (queue ++ .empty late :: polls) s₂ := by
      rw [awaitReply, hinspect, ok_bind]
      cases a with
      | none => exact ⟨s₁, hkept, rfl⟩
      | some a => exact ⟨answerArp s₁ a, hkept.trans (answerArp_kept s₁ a), rfl⟩
    obtain ⟨s₂, hkept₂, hskip⟩ := hskip
    obtain ⟨s', hkept', hdrain⟩ := ih hqueue' (hkept₂.clientIp.trans hclient)
    refine ⟨s', hkept₂.trans hkept', ?_⟩
    rw [List.cons_append, rxQdrain, hskip]
    exact hdrain

/-- A packet leaves, when the hardware address of the server is known or found. -/
theorem tftpTransmit_leaves {t : Tftp} {s : Net} {arp polls : List Poll}
    (hge : 28 ≤ t.xmitlen.toNat) (hle : t.xmitlen.toNat ≤ ethMaxMtu)
    (hleaves : Leaves s (s.arptable arpServer).ipaddr arp polls) :
    ∃ xmit s', tftpTransmit t s arp = .ok (true, { t with xmit }, s', polls) ∧
      s'.clientIp = s.clientIp ∧ RoutedTo s' (s'.arptable arpServer).ipaddr := by
  obtain ⟨b, hbuild, hbuilt⟩ := buildUdpHdr_built s.clientIp (s.arptable arpServer).ipaddr t.lport
    t.rport 60 t.xmit hge hle
  have hleaves₁ : Leaves { s with sport := t.lport } (ipDest b 0) arp polls := by
    rw [hbuilt.dest]
    exact hleaves
  obtain ⟨s', hip, hrouted⟩ := ipTransmit_of_leaves t.xmitlen.toNat hleaves₁
  have hipaddr : ∀ j, (s'.arptable j).ipaddr = (s.arptable j).ipaddr := fun j =>
    ipTransmit_ipaddr (s := { s with sport := t.lport }) hip j
  refine ⟨b, s', ?_, hipaddr arpClient, ?_⟩
  · unfold tftpTransmit udpTransmit
    dsimp only
    rw [show ({ s with sport := t.lport } : Net).clientIp = s.clientIp from rfl, hbuild, ok_bind, hip]
    rfl
  · rwa [hbuilt.dest, ← hipaddr] at hrouted

/-- The request leaves, and the loop is entered. -/
theorem tftpBlock_request {name : List UInt8} {t : Tftp} {s : Net} {queue arp polls : List Poll}
    (late : Bool) (hname : name.length ≤ 492)
    (hleaves : Leaves s (s.arptable arpServer).ipaddr arp polls) (hqueue : Queued s.clientIp queue) :
    ∃ t₁ s₁ t₂ s₂, Kept s s₁ ∧ tftpRequest ⟨name, tftpPort, 1432⟩ t = .ok t₁ ∧
      tftpTransmit t₁ s₁ arp = .ok (true, t₂, s₂, polls) ∧
      Ready s.clientIp (t.lport + 1) 0 0 512 t₂ s₂ ∧
      tftpBlock (some ⟨name, tftpPort, 1432⟩) t s (queue ++ .empty late :: arp) =
        tftpLoop (some ⟨name, tftpPort, 1432⟩) (polls.length + 1) t₂ s₂ polls := by
  obtain ⟨s₁, hkept, hdrain⟩ := rxQdrain_queued late arp hqueue rfl
  obtain ⟨t₁, hrequest, hlport, -, hidx, hretry, hblksize, hxmitlen, -⟩ :=
    tftpRequest_of_le tftpPort t hname
  have hmtu : ethMaxMtu = 1500 := rfl
  have hleaves₁ : Leaves s₁ (s₁.arptable arpServer).ipaddr arp polls := by
    rw [hkept.arptable]
    exact hleaves.of_kept hkept
  obtain ⟨xmit, s₂, htransmit, hclient, hrouted⟩ :=
    tftpTransmit_leaves (t := t₁) (by omega) (by omega) hleaves₁
  have hready : Ready s.clientIp (t.lport + 1) 0 0 512 { t₁ with xmit } s₂ := {
    clientIp := hclient.trans hkept.clientIp
    routed := hrouted
    lport := hlport
    blockidx := congrArg UInt16.toNat hidx
    retry := congrArg UInt16.toNat hretry
    blksize := hblksize
    xmitlen_ge := by
      show 28 ≤ t₁.xmitlen.toNat
      omega
    xmitlen_le := by
      show t₁.xmitlen.toNat ≤ ethMaxMtu
      omega }
  have hactive : t₁.blksize ≠ 0 := by
    rw [hblksize]
    decide
  refine ⟨t₁, s₁, _, s₂, hkept, hrequest, htransmit, hready, ?_⟩
  unfold tftpBlock
  dsimp only
  rw [hdrain, ok_bind]
  dsimp only
  rw [hrequest, ok_bind, htransmit, ok_bind]
  dsimp only
  rw [if_pos rfl, if_neg hactive]

/-- The first block, with the request that asks for it. -/
theorem tftpBlock_starting {file name : List UInt8} {b : Nat} {t : Tftp} {s : Net}
    {queue arp polls : List Poll} (late : Bool) (hb : 512 ≤ b) (hmax : b ≤ 1432)
    (hname : name.length ≤ 492) (hleaves : Leaves s (s.arptable arpServer).ipaddr arp polls)
    (hqueue : Queued s.clientIp queue)
    (hstarting : Starting file b s.clientIp (t.lport + 1) 0 polls) :
    ∃ port block t' s' rest, tftpBlock (some ⟨name, tftpPort, 1432⟩) t s
        (queue ++ .empty late :: arp) = .ok (some block, t', s', rest) ∧
      Next file b s.clientIp port 0 (queue ++ .empty late :: arp) block t' s' rest := by
  obtain ⟨-, -, t₂, s₂, -, -, -, hready, hblock⟩ := tftpBlock_request late hname hleaves hqueue
  obtain ⟨port, block, t', s', rest, hloop, hnext⟩ := tftpLoop_starting (q := ⟨name, tftpPort, 1432⟩)
    hb hmax rfl hstarting hready (Nat.lt_succ_self _)
  have hshorter := hnext.shorter
  have hsuffix := hleaves.suffix.length_le
  exact ⟨port, block, t', s', rest, hblock.trans hloop, { hnext with
    shorter := by
      rw [List.length_append, List.length_cons]
      omega }⟩

/-- The whole transfer, with what the callback has been called with. -/
theorem tftp_calls {file name : List UInt8} {b : Nat} {fnc : TftpSink} {t : Tftp} {s : Net}
    {queue arp polls : List Poll} (late : Bool) (hb : 512 ≤ b) (hmax : b ≤ 1432)
    (hname : name.length ≤ 492)
    (hfnc : ∀ calls call, Blocks file b (calls ++ [call]) → 0 < fnc calls call)
    (hleaves : Leaves s (s.arptable arpServer).ipaddr arp polls) (hqueue : Queued s.clientIp queue)
    (hstarting : Starting file b s.clientIp (t.lport + 1) 0 polls) :
    ∃ calls t' s' rest, tftp name fnc t s (queue ++ .empty late :: arp) =
      .ok (0, calls, t', s', rest) ∧ Blocks file b calls ∧
        calls.length = file.length / b + 1 := by
  obtain ⟨port, block, t₁, s₁, rest, hblock, hnext⟩ :=
    tftpBlock_starting late hb hmax hname hleaves hqueue hstarting
  refine tftpCalls_next hfnc hblock hnext (Nat.zero_le _) (blocks_nil file b) rfl
    fun hmore hblocks => ?_
  have hready := hnext.ready
  rw [if_neg hmore] at hready
  exact tftpCalls_coming hb hmax hfnc (Nat.pos_of_ne_zero (Ne.symm hmore)) hnext.coming hready
    hblocks rfl hnext.shorter

/-- A machine whose server is on the same wire. -/
def lanNet : Net :=
  { blankNet with arptable := fun i => if i = arpServer then ⟨7, broadcastNode⟩ else
      ⟨1, broadcastNode⟩ }

theorem routedTo_lanNet : RoutedTo lanNet (lanNet.arptable arpServer).ipaddr :=
  Or.inr ⟨arpServer, by decide, 0, by decide⟩

/-- The option and one block. -/
theorem exists_starting_short {file : List UInt8} (h : file.length < 1432) :
    ∃ polls, Starting file 1432 1 2001 0 polls ∧
      (∀ ports, Served (ServerSays file 1432) 1 ports (.empty true :: polls)) ∧
        NoZeroNode (.empty true :: polls) := by
  obtain ⟨f₁, hf₁, hpad, -⟩ := exists_carries ⟨7, 1, 3000, 2001, oackMsg 1432⟩ (by decide)
  have hsize : (dataMsg 1 (chunk file 1432 1)).length ≤ 1472 := by
    have hle : (chunk file 1432 1).length ≤ 1432 := List.length_take_le _ _
    rw [dataMsg, List.length_append, List.length_append]
    show 2 + (2 + _) ≤ 1472
    omega
  obtain ⟨f₂, hf₂, -⟩ := exists_carries ⟨7, 1, 3000, 2001, dataMsg 1 (chunk file 1432 1)⟩ hsize
  have hend : Coming file 1432 1 2001 1 0 [] := by
    have hfinished : Coming file 1432 1 2001 (file.length / 1432 + 1) 0 [] := .finished []
    rwa [Nat.div_eq_of_lt h] at hfinished
  have hmem : ∀ f, Poll.frame f ∈ [.empty true, .frame f₁, .frame f₂] → f = f₁ ∨ f = f₂ :=
    fun f hf => by simpa using hf
  refine ⟨[.frame f₁, .frame f₂], ?_, fun ports f hf => Or.inr ?_, fun f ip node hf harp => ?_⟩
  · exact .option hf₁ rfl rfl rfl (hpad (by decide))
      (.next (k := 1) hf₂ rfl rfl rfl rfl hend)
  · rcases hmem f hf with rfl | rfl
    · exact ⟨_, hf₁, fun _ _ => .oack⟩
    · exact ⟨_, hf₂, fun _ _ => .data (k := 1) (by decide)
        ((Nat.zero_mul 1432).trans_le (Nat.zero_le _))⟩
  · rcases hmem f hf with rfl | rfl
    · exact absurd harp (hf₁.not_arpReply ip node)
    · exact absurd harp (hf₂.not_arpReply ip node)

/-- One block is the whole transfer. -/
theorem exists_run_short {polls : List Poll} (hstarting : Starting [1, 2, 3] 1432 1 2001 0 polls) :
    ∃ calls t' s' rest, tftp [97] (fun _ _ => 1) .initial lanNet (.empty true :: polls) =
      .ok (0, calls, t', s', rest) := by
  have hcalls : ∃ calls t' s' rest, tftp [97] (fun _ _ => 1) .initial lanNet
      ([] ++ .empty true :: polls) = .ok (0, calls, t', s', rest) ∧ Blocks [1, 2, 3] 1432 calls ∧
        calls.length = 0 / 1432 + 1 :=
    tftp_calls true (by decide) (by decide) (by decide) (fun _ _ _ => by decide)
      (.of_routedTo _ routedTo_lanNet) (queued_nil _) hstarting
  obtain ⟨calls, t', s', rest, hrun, -⟩ := hcalls
  exact ⟨calls, t', s', rest, hrun⟩

theorem tftp_prefix_short : ∃ polls calls t' s' rest,
    tftp [97] (fun _ _ => 1) .initial lanNet polls = .ok (0, calls, t', s', rest) ∧
      Fetched [1, 2, 3] calls := by
  obtain ⟨polls, hstarting, hserved, hnode⟩ :=
    exists_starting_short (by decide : [(1 : UInt8), 2, 3].length < 1432)
  obtain ⟨calls, t', s', rest, hrun⟩ := exists_run_short hstarting
  exact ⟨_, calls, t', s', rest, hrun,
    tftp_prefix (by decide) (by decide) (hserved _) hnode hrun⟩

end MbBootTv
