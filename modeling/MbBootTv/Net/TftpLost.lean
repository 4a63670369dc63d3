import MbBootTv.Net.TftpTalk

/-!
# Transfers that fail

With every time-out before the first block `tftp_block` takes another port, because the last packet
is a request then. But once the option has been granted, the last packet is an acknowledgement, and
that is sent again from a port that the server has never heard of. So a transfer with options fails
when the acknowledgement, or the first block, is lost (`option_timeout`), which no retry mends. When
nobody answers at all, `tftp` gives up after 22 requests (`tftp_gives_up`).
-/

namespace MbBootTv

/-! ## The packet in `xmit` -/

/-- What is sent again and again, and where to. -/
structure Asking (server : UInt32) (remote : UInt16) (m : List UInt8) (t : Tftp) (s : Net) :
    Prop where
  rport : t.rport = remote
  text : t.xmit.slice 28 (t.xmitlen.toNat - 28) = m
  server : (s.arptable arpServer).ipaddr = server

section Asking

variable {client server : UInt32} {remote port : UInt16} {m name : List UInt8} {t t' : Tftp}
  {s s' : Net} {polls rest : List Poll}

theorem Asking.of_kept (ha : Asking server remote m t s) (hkept : Kept s s') :
    Asking server remote m t s' :=
  { ha with server := by rw [hkept.arptable, ha.server] }

theorem Asking.of_transmit {sent : Bool} (ha : Asking server remote m t s)
    (h28 : 28 ≤ t.xmitlen.toNat) (hmtu : t.xmitlen.toNat ≤ ethMaxMtu)
    (h : tftpTransmit t s polls = .ok (sent, t', s', rest)) : Asking server remote m t' s' := by
  obtain ⟨⟨xmit, rfl, hxmit⟩, ⟨-, hipaddr⟩, -⟩ := tftpTransmit_rule h28 hmtu h
  exact {
    rport := ha.rport
    text := (Bytes.slice_congr fun i _ => hxmit _ (Nat.le_add_right _ _)).trans ha.text
    server := (hipaddr arpServer).trans ha.server }

/-- The packet that leaves. -/
theorem Asking.brings (ha : Asking server remote m t s) (hclient : s.clientIp = client)
    (hlport : t.lport = port) (h28 : 28 ≤ t.xmitlen.toNat) (hmtu : t.xmitlen.toNat ≤ ethMaxMtu)
    (h : tftpTransmit t s polls = .ok (true, t', s', rest)) :
    ∃ x, s'.ipSent = s.ipSent ++ [x] ∧ x.Brings ⟨client, server, port, remote, m⟩ := by
  obtain ⟨-, -, ⟨x, hx, hbrings⟩, -⟩ := tftpTransmit_rule h28 hmtu h
  unfold Tftp.datagram at hbrings
  rw [hclient, ha.server, hlport, ha.rport, ha.text] at hbrings
  exact ⟨x, hx, hbrings⟩

theorem Asking.timeout (ha : Asking server remote m t s) :
    Asking server remote m (tftpTimeout t).2 s := by
  unfold tftpTimeout
  split
  · exact { ha with }
  · exact { ha with }

/-- **What is in `xmit` leaves**, and stays there. -/
theorem Ready.asks {k r c : Nat} (hready : Ready client port k r c t s)
    (ha : Asking server remote m t s) (polls : List Poll) :
    ∃ t' s' x, tftpTransmit t s polls = .ok (true, t', s', polls) ∧
      Ready client port k r c t' s' ∧ Asking server remote m t' s' ∧
      s'.ipSent = s.ipSent ++ [x] ∧ x.Brings ⟨client, server, port, remote, m⟩ := by
  obtain ⟨t', s', htransmit, hready', -⟩ := hready.transmit polls
  have h28 := hready.xmitlen_ge
  have hmtu := hready.xmitlen_le
  obtain ⟨x, hx, hbrings⟩ := ha.brings hready.clientIp hready.lport h28 hmtu htransmit
  exact ⟨t', s', x, htransmit, hready', ha.of_transmit h28 hmtu htransmit, hx, hbrings⟩

/-- The acknowledgement of the last block, whichever way the packet that brought it came. -/
theorem asking_ack (t : Tftp) (remote : UInt16) (s : Net) :
    Asking (s.arptable arpServer).ipaddr remote (be16 tftpAck ++ be16 t.blockidx)
      (t.heard remote).ack s where
  rport := rfl
  text := slice_ack (t.heard remote)
  server := rfl

/-- **The request** leaves, from the next port. -/
theorem tftpBlock_asks {queue arp : List Poll} (late : Bool) (hname : name.length ≤ 492)
    (hleaves : Leaves s (s.arptable arpServer).ipaddr arp polls) (hqueue : Queued s.clientIp queue) :
    ∃ t' s' x, Ready s.clientIp (t.lport + 1) 0 0 512 t' s' ∧
      Asking (s.arptable arpServer).ipaddr tftpPort (be16 tftpRrq ++ rrqStrings name) t' s' ∧
      s'.ipSent = s.ipSent ++ [x] ∧
      x.Brings ⟨s.clientIp, (s.arptable arpServer).ipaddr, t.lport + 1, tftpPort,
        be16 tftpRrq ++ rrqStrings name⟩ ∧
      tftpBlock (some ⟨name, tftpPort, 1432⟩) t s (queue ++ .empty late :: arp) =
        tftpLoop (some ⟨name, tftpPort, 1432⟩) (polls.length + 1) t' s' polls := by
  obtain ⟨t₁, s₁, t₂, s₂, hkept, hrequest, htransmit, hready, hblock⟩ :=
    tftpBlock_request late hname hleaves hqueue
  obtain ⟨t₁', hrequest', hlport, hrport, -, -, -, hxmitlen, htext⟩ :=
    tftpRequest_of_le tftpPort t hname
  obtain rfl : t₁' = t₁ := Except.ok.inj (hrequest'.symm.trans hrequest)
  have hmtu : ethMaxMtu = 1500 := rfl
  have ha : Asking (s.arptable arpServer).ipaddr tftpPort (be16 tftpRrq ++ rrqStrings name) t₁'
      s₁ := {
    rport := hrport
    text := by
      rw [hxmitlen, show 50 + name.length - 28 = 22 + name.length by omega]
      exact htext
    server := by rw [hkept.arptable] }
  have h28 : 28 ≤ t₁'.xmitlen.toNat := by omega
  have hmtu : t₁'.xmitlen.toNat ≤ ethMaxMtu := by omega
  obtain ⟨x, hx, hbrings⟩ := ha.brings hkept.clientIp hlport h28 hmtu htransmit
  exact ⟨t₂, s₂, x, hready, ha.of_transmit h28 hmtu htransmit, hkept.ipSent ▸ hx, hbrings, hblock⟩

end Asking

/-! ## The acknowledgement of the option -/

/-- Nothing but an error. -/
def OnlyError (payload : List UInt8) : Prop := ∃ rest, payload = be16 tftpError ++ rest

section Lost

variable {client : UInt32} {ports : UInt16 → Prop} {request : Option TftpReqInfo} {t t' : Tftp}
  {s s' : Net} {polls rest : List Poll} {n : Nat}

/-- **Nothing comes** of a transfer whose port the server does not know. -/
theorem tftpLoop_unheard {block : Option TftpBlkInfo}
    (hserving : Serving OnlyError client ports t s polls)
    (h : tftpLoop request n t s polls = .ok (block, t', s', rest)) : block = none := by
  induction n generalizing t s polls with
  | zero => cases h
  | succ n ih =>
    rw [tftpLoop] at h
    obtain ⟨⟨received, s₁, rest₁⟩, hawait, h⟩ := bind_eq_ok.mp h
    obtain ⟨hkept, -, htaken⟩ := awaitReply_awaitTftp hserving.clientIp hserving.served hawait
    cases received with
    | true =>
      obtain ⟨d, honly, hdest, hport, hbrought⟩ := htaken rfl
      have hlport : ports (t.lport + 0) := hserving.ports_lport 0 (Nat.zero_le _)
      rw [UInt16.add_zero, ← hport] at hlport
      obtain ⟨rest₂, hpayload⟩ := honly hdest hlport
      dsimp only at h
      rw [if_pos rfl] at h
      obtain ⟨⟨next, t₁, s₂⟩, hpacket, h⟩ := bind_eq_ok.mp h
      rw [tftpPacket_error (hbrought.toTftp hpayload)] at hpacket
      obtain ⟨-, -, hpacket⟩ := bind_eq_ok.mp hpacket
      cases hpacket
      cases h
      rfl
    | false =>
      obtain ⟨pre, hpre⟩ := awaitReply_timeout hawait
      have hstep := hserving.timeout hpre hkept
      dsimp only at h
      rw [if_neg Bool.false_ne_true] at h
      split at h
      · obtain ⟨⟨sent, t₂, s₃, rest₂⟩, htransmit, h⟩ := bind_eq_ok.mp h
        obtain ⟨rfl, rfl, -, harp, hmask, xmit, rfl⟩ :=
          tftpTransmit_of_routedTo hstep.routed htransmit
        exact ih (t := { (tftpTimeout t).2 with xmit })
          (hstep.step harp hmask List.suffix_rfl rfl) h
      · cases h
        rfl

/-- A packet that ends the transfer. -/
theorem tftpLoop_abort {t₁ : Tftp} {s₁ : Net}
    (hawait : awaitReply (awaitTftp t.lport) false polls s = .ok (true, s₁, rest))
    (hpacket : tftpPacket request t s₁ = .ok (.abort, t₁, s₁)) :
    tftpLoop request (n + 1) t s polls = .ok (none, t₁, s₁, rest) := by
  rw [tftpLoop, hawait, ok_bind]
  dsimp only
  rw [if_pos rfl, hpacket, ok_bind]
  rfl

/-- A poll that `await_tftp` passes over without a time-out. -/
def Passed (client : UInt32) (port : UInt16) (p : Poll) : Prop :=
  p = .empty false ∨ ∃ f, p = .frame f ∧
    (Foreign client f ∨ ∃ d, Carries f d ∧ ¬(client = d.dest ∧ d.destsock = port))

theorem tftpLoop_passed {pre : List Poll} (request : Option TftpReqInfo) (n : Nat)
    (polls : List Poll) (hpre : ∀ p ∈ pre, Passed s.clientIp t.lport p) :
    ∃ s', Kept s s' ∧
      tftpLoop request (n + 1) t s (pre ++ polls) = tftpLoop request (n + 1) t s' polls := by
  induction pre generalizing s with
  | nil => exact ⟨s, Kept.refl s, rfl⟩
  | cons p pre ih =>
    have hskip : ∃ s₁, Kept s s₁ ∧ awaitReply (awaitTftp t.lport) false (p :: (pre ++ polls)) s =
        awaitReply (awaitTftp t.lport) false (pre ++ polls) s₁ := by
      rcases hpre p List.mem_cons_self with rfl | ⟨f, rfl, hforeign | ⟨d, hd, hother⟩⟩
      · exact ⟨s, Kept.refl s, rfl⟩
      · exact awaitReply_foreign hforeign rfl
      · exact awaitReply_carries_other hd hother
    obtain ⟨s₁, hkept, hskip⟩ := hskip
    obtain ⟨s', hkept', hloop⟩ := ih fun p' hp => by
      rw [hkept.clientIp]
      exact hpre p' (List.mem_cons_of_mem _ hp)
    refine ⟨s', hkept.trans hkept', ?_⟩
    rw [List.cons_append, tftpLoop_skip hskip, hloop]

/-- While no block has come and an acknowledgement is in `xmit`, one time-out is the end of it: the
acknowledgement leaves once more, from the next port. -/
theorem tftpLoop_repeats {name : List UInt8} {server : UInt32} {remote port : UInt16} {b : Nat}
    {block : Option TftpBlkInfo} {mid : List Poll} (hready : Ready client port 0 0 b t s)
    (ha : Asking server remote (be16 tftpAck ++ be16 0) t s)
    (hmid : ∀ p ∈ mid, Passed client port p)
    (hpost : Served OnlyError client
      (fun p => ∃ i ≤ lates polls, p = port + 1 + UInt16.ofNat i) polls)
    (h : tftpLoop (some ⟨name, tftpPort, 1432⟩) n t s (mid ++ .empty true :: polls) =
      .ok (block, t', s', rest)) :
    block = none ∧ ∃ x xs, s'.ipSent = s.ipSent ++ x :: xs ∧
      x.Brings ⟨client, server, port + 1, remote, be16 tftpAck ++ be16 0⟩ := by
  cases n with
  | zero => cases h
  | succ n =>
    obtain ⟨s₁, hkept, hskip⟩ := tftpLoop_passed (s := s) (t := t)
      (some ⟨name, tftpPort, 1432⟩) n (.empty true :: polls) (by
        rw [hready.clientIp, hready.lport]
        exact hmid)
    rw [hskip] at h
    have hretry : t.retry.toNat ≤ maxTftpRetries := by
      rw [hready.retry]
      exact Nat.zero_le _
    obtain ⟨t₂, s₂, x, htransmit, hready₂, ha₂, hsent, hbrings⟩ :=
      ((hready.of_kept hkept).timeout_first (Nat.zero_le _)).asks (ha.of_kept hkept).timeout polls
    rw [tftpLoop_again hretry htransmit] at h
    have hnone := tftpLoop_unheard {
      served := hpost
      clientIp := hready₂.clientIp
      routed := hready₂.routed
      ports_lport := fun i hi => ⟨i, hi, by rw [hready₂.lport]⟩ } h
    subst hnone
    have htalk : Talking name 0 t₂ :=
      ⟨hready₂.blockidx, hready₂.xmitlen_ge, hready₂.xmitlen_le, .ack 0, rfl, ha₂.text⟩
    obtain ⟨hspoken, -⟩ := tftpLoop_talks htalk (Spoken.refl name s₂) h
    obtain ⟨xs, -, hxs, -⟩ := hspoken.said
    refine ⟨rfl, x, xs, ?_, hbrings⟩
    rw [hxs, hsent, hkept.ipSent]
    simp only [List.append_assoc, List.cons_append, List.nil_append]

/-- The option is acknowledged, and after a time-out acknowledged again from the next port. -/
theorem tftpLoop_option {name : List UInt8} {b : Nat} {port : UInt16} {block : Option TftpBlkInfo}
    {mid : List Poll} {f : EthFrame} {d : Datagram} (hb : 512 ≤ b) (hmax : b ≤ 1432)
    (hready : Ready client port 0 0 512 t s) (hf : Carries f d) (hdest : d.dest = client)
    (hport : d.destsock = port) (hpayload : d.payload = oackMsg b)
    (hmid : ∀ p ∈ mid, Passed client port p)
    (hpost : Served OnlyError client
      (fun p => ∃ i ≤ lates polls, p = port + 1 + UInt16.ofNat i) polls)
    (h : tftpLoop (some ⟨name, tftpPort, 1432⟩) n t s (.frame f :: (mid ++ .empty true :: polls)) =
      .ok (block, t', s', rest)) :
    block = none ∧ ∃ a x xs, s'.ipSent = s.ipSent ++ a :: x :: xs ∧
      a.Brings ⟨client, (s.arptable arpServer).ipaddr, port, d.srcsock, be16 tftpAck ++ be16 0⟩ ∧
      x.Brings ⟨client, (s.arptable arpServer).ipaddr, port + 1, d.srcsock,
        be16 tftpAck ++ be16 0⟩ := by
  cases n with
  | zero => cases h
  | succ n =>
    obtain ⟨s₁, -, hkept, hbrought, hawait⟩ := awaitReply_carries (mid ++ .empty true :: polls) hf
      (hready.clientIp.trans hdest.symm) (hport.trans hready.lport.symm)
    have hready₁ := hready.of_kept hkept
    have hidx : t.blockidx = 0 := UInt16.toNat_inj.mp hready.blockidx
    have hpacket : tftpPacket (some ⟨name, tftpPort, 1432⟩) t s₁ = _ :=
      tftpPacket_oack (hbrought.toTftp hpayload) hb hmax hidx
    -- What is behind the option in the buffer decides whether the scan stays inside.
    cases hscan : scan (· = 0) s₁.packet (44 + (blksizeOption b).length)
        (ethFrameLen - (44 + (blksizeOption b).length)) with
    | error e =>
      rw [hscan] at hpacket
      rw [tftpLoop, hawait, ok_bind] at h
      dsimp only at h
      rw [if_pos rfl, hpacket] at h
      cases h
    | ok z =>
      rw [hscan, ok_bind] at hpacket
      have hready₂ : Ready client port 0 0 b { t with blksize := Int32.ofNat b } s₁ :=
        hready₁.resize rfl
      have ha := asking_ack { t with blksize := Int32.ofNat b } d.srcsock s₁
      rw [hkept.arptable] at ha
      obtain ⟨t₂, s₂, a, htransmit, hready₂, ha, hsent, hbrings⟩ :=
        (hready₂.ack d.srcsock).asks ha (mid ++ .empty true :: polls)
      dsimp only at ha hbrings
      rw [hidx] at ha hbrings
      rw [tftpLoop_acknowledge hawait hpacket htransmit] at h
      obtain ⟨hnone, x, xs, hxs, hbrings'⟩ := tftpLoop_repeats hready₂ ha hmid hpost h
      refine ⟨hnone, a, x, xs, ?_, hbrings, hbrings'⟩
      rw [hxs, hsent, hkept.ipSent]
      simp only [List.append_assoc, List.cons_append, List.nil_append]

end Lost

/-- **A time-out behind the option.** The option has been granted, and the time is over before a
block has come, whatever else did: then the acknowledgement leaves once more, from a port that the
server has got no request from, and if it sends nothing but errors there, no block ever comes. -/
theorem option_timeout {name : List UInt8} {b : Nat} {fnc : TftpSink} {t t' : Tftp} {s s' : Net}
    {late : Bool} {queue arp pre mid post rest : List Poll} {f : EthFrame} {d : Datagram}
    {rc : Int32} {calls : List TftpCall} (hb : 512 ≤ b) (hmax : b ≤ 1432)
    (hleaves : Leaves s (s.arptable arpServer).ipaddr arp
      (pre ++ .frame f :: (mid ++ .empty true :: post)))
    (hqueue : Queued s.clientIp queue)
    (hpre : ∀ p ∈ pre, Passed s.clientIp (t.lport + 1) p) (hf : Carries f d)
    (hdest : d.dest = s.clientIp) (hport : d.destsock = t.lport + 1)
    (hpayload : d.payload = oackMsg b) (hmid : ∀ p ∈ mid, Passed s.clientIp (t.lport + 1) p)
    (hpost : Served OnlyError s.clientIp
      (fun port => ∃ i ≤ lates post, port = t.lport + 2 + UInt16.ofNat i) post)
    (h : tftp name fnc t s (queue ++ .empty late :: arp) = .ok (rc, calls, t', s', rest)) :
    rc = 0 ∧ calls = [] ∧ ∃ r a x xs, s'.ipSent = s.ipSent ++ r :: a :: x :: xs ∧
      r.Brings ⟨s.clientIp, (s.arptable arpServer).ipaddr, t.lport + 1, tftpPort,
        be16 tftpRrq ++ rrqStrings name⟩ ∧
      a.Brings ⟨s.clientIp, (s.arptable arpServer).ipaddr, t.lport + 1, d.srcsock,
        be16 tftpAck ++ be16 0⟩ ∧
      x.Brings ⟨s.clientIp, (s.arptable arpServer).ipaddr, t.lport + 2, d.srcsock,
        be16 tftpAck ++ be16 0⟩ := by
  unfold tftp at h
  rw [tftpCalls] at h
  obtain ⟨⟨block, t₃, s₃, rest₃⟩, hrun, h⟩ := bind_eq_ok.mp h
  have hname : name.length ≤ 492 := by
    unfold tftpBlock at hrun
    dsimp only at hrun
    obtain ⟨_, -, hrun⟩ := bind_eq_ok.mp hrun
    obtain ⟨_, hrequest, -⟩ := bind_eq_ok.mp hrun
    exact length_le_of_tftpRequest hrequest
  obtain ⟨t₁, s₁, r, hready, ha, hsent, hbrings, hblock⟩ :=
    tftpBlock_asks (t := t) late hname hleaves hqueue
  rw [hblock] at hrun
  have hpassed : ∀ p ∈ pre, Passed s₁.clientIp t₁.lport p := by
    rw [hready.clientIp, hready.lport]
    exact hpre
  obtain ⟨s₂, hkept, hskip⟩ := tftpLoop_passed (some ⟨name, tftpPort, 1432⟩)
    (pre ++ .frame f :: (mid ++ .empty true :: post)).length
    (.frame f :: (mid ++ .empty true :: post)) hpassed
  rw [hskip] at hrun
  have htwo : t.lport + 1 + 1 = t.lport + 2 := UInt16.add_assoc _ _ _
  rw [← htwo] at hpost ⊢
  obtain ⟨hnone, a, x, xs, hmore, hack, hagain⟩ :=
    tftpLoop_option hb hmax (hready.of_kept hkept) hf hdest hport hpayload hmid hpost hrun
  rw [(ha.of_kept hkept).server] at hack hagain
  subst hnone
  cases h
  refine ⟨rfl, rfl, r, a, x, xs, ?_, hbrings, hack, hagain⟩
  rw [hmore, hkept.ipSent, hsent, List.append_assoc, List.singleton_append]

/-- Behind the option the time is over, and for the acknowledgement from the next port there is an
error. -/
theorem tftp_refused {f e : EthFrame} (hf : Carries f ⟨7, 1, 3000, 2001, oackMsg 1432⟩)
    (hpad : Padded f ⟨7, 1, 3000, 2001, oackMsg 1432⟩)
    (he : Carries e ⟨7, 1, 3001, 2002, be16 tftpError ++ (be16 5 ++ (ascii "no" ++ [0]))⟩) :
    ∃ t' s' rest, tftp [97] (fun _ _ => 1) .initial lanNet
      [.empty true, .frame f, .empty false, .empty true, .frame e] =
        .ok (0, [], t', s', rest) := by
  have hsize : ∀ q ∈ some (⟨[97], tftpPort, 1432⟩ : TftpReqInfo), q.blksize = 1432 := fun q hq => by
    cases hq
    rfl
  obtain ⟨-, -, t₁, s₁, -, -, -, hready, hblock⟩ := tftpBlock_request (t := .initial) true
    (by decide : [(97 : UInt8)].length ≤ 492)
    (.of_routedTo [.frame f, .empty false, .empty true, .frame e] routedTo_lanNet) (queued_nil _)
  obtain ⟨s₂, hinspect, hkept, hbrought, hawait⟩ :=
    awaitReply_carries [.empty false, .empty true, .frame e] hf hready.clientIp hready.lport.symm
  obtain ⟨t₂, hpacket, hready₂⟩ := tftpPacket_option (by decide) (by decide) hsize
    (hready.of_kept hkept) rfl hbrought (hpad s₁ s₂ hinspect) (Or.inl ⟨rfl, rfl⟩)
  obtain ⟨t₃, s₃, htransmit, hready₃, -⟩ := hready₂.transmit [.empty false, .empty true, .frame e]
  obtain ⟨t₄, s₄, htransmit₄, hready₄, -⟩ :=
    (hready₃.timeout_first (Nat.zero_le _)).transmit [.frame e]
  obtain ⟨s₅, -, -, hbrought₅, hawait₅⟩ := awaitReply_carries [] he hready₄.clientIp
    hready₄.lport.symm
  have hretry : t₃.retry.toNat ≤ maxTftpRetries := by
    rw [hready₃.retry]
    exact Nat.zero_le _
  have hsays := hbrought₅.toTftp rfl
  have hprinted : printTftpError s₅ = .ok () :=
    (printTftpError_eq hsays (by decide) (by decide)).trans (if_pos (by decide))
  have habort : tftpPacket (some ⟨[97], tftpPort, 1432⟩) t₄ s₅ =
      .ok (.abort, t₄.heard 3001, s₅) := by
    rw [tftpPacket_error hsays, hprinted]
    rfl
  have hloop := (tftpLoop_acknowledge (n := 4) hawait hpacket htransmit).trans
    ((tftpLoop_skip (n := 3) (p := .empty false) rfl).trans
      ((tftpLoop_again (n := 3) hretry htransmit₄).trans
        (tftpLoop_abort (n := 2) hawait₅ habort)))
  have hrun := hblock.trans hloop
  rw [List.nil_append] at hrun
  unfold tftp
  rw [tftpCalls, hrun]
  exact ⟨_, _, _, rfl⟩

/-- One empty poll before the time-out, and an error behind it. -/
theorem option_timeout_refused : ∃ polls rc calls t' s' rest,
    tftp [97] (fun _ _ => 1) .initial lanNet polls = .ok (rc, calls, t', s', rest) ∧
      rc = 0 ∧ calls = [] ∧ ∃ r a x xs, s'.ipSent = lanNet.ipSent ++ r :: a :: x :: xs ∧
        r.Brings ⟨1, 7, 2001, tftpPort, be16 tftpRrq ++ rrqStrings [97]⟩ ∧
        a.Brings ⟨1, 7, 2001, 3000, be16 tftpAck ++ be16 0⟩ ∧
        x.Brings ⟨1, 7, 2002, 3000, be16 tftpAck ++ be16 0⟩ := by
  obtain ⟨f, hf, hpad, -⟩ := exists_carries ⟨7, 1, 3000, 2001, oackMsg 1432⟩ (by decide)
  obtain ⟨e, he, -⟩ := exists_carries
    ⟨7, 1, 3001, 2002, be16 tftpError ++ (be16 5 ++ (ascii "no" ++ [0]))⟩ (by decide)
  obtain ⟨t', s', rest, hrun⟩ := tftp_refused hf (hpad (by decide)) he
  have hleaves : Leaves lanNet (lanNet.arptable arpServer).ipaddr
      [.frame f, .empty false, .empty true, .frame e]
      ([] ++ .frame f :: ([.empty false] ++ .empty true :: [.frame e])) :=
    .of_routedTo _ routedTo_lanNet
  have hpost : Served OnlyError lanNet.clientIp (fun port => ∃ i ≤ lates [.frame e],
      port = Tftp.initial.lport + 2 + UInt16.ofNat i) [.frame e] := by
    intro e' he'
    rw [List.mem_singleton, Poll.frame.injEq] at he'
    subst he'
    exact Or.inr ⟨_, he, fun _ _ => ⟨_, rfl⟩⟩
  exact ⟨_, _, _, t', s', rest, hrun, option_timeout (by decide : 512 ≤ 1432) (by decide) hleaves
    (queued_nil _) (fun p (hp : p ∈ ([] : List Poll)) => by cases hp) hf rfl rfl rfl
    (fun p hp => Or.inl (List.mem_singleton.mp hp)) hpost hrun⟩

/-! ## Nobody answers -/

section Silent

variable {client server : UInt32} {port : UInt16} {n r : Nat} {m : List UInt8} {t t' : Tftp}
  {s s' : Net} {polls rest : List Poll}

/-- The time-out that is one too many. -/
theorem tftpLoop_last {request : Option TftpReqInfo} (h : (tftpTimeout t).1 = false) :
    tftpLoop request (n + 1) t s (.empty true :: polls) =
      .ok (none, (tftpTimeout t).2, s, polls) := by
  rw [tftpLoop, awaitReply, Bool.or_true, if_pos rfl, ok_bind]
  dsimp only
  rw [if_neg Bool.false_ne_true, h, if_neg Bool.false_ne_true]
  rfl

/-- The other polls, and fewer ports. -/
theorem Served.tail {kind : List UInt8 → Prop} {ports ports' : UInt16 → Prop} {p : Poll}
    (h : Served kind client ports (p :: polls)) (hports : ∀ port, ports' port → ports port) :
    Served kind client ports' polls := by
  intro f hf
  rcases h f (List.mem_cons_of_mem _ hf) with hforeign | ⟨d, hd, hkind⟩
  · exact Or.inl hforeign
  · exact Or.inr ⟨d, hd, fun hdest hport => hkind hdest (hports _ hport)⟩

/-- **The requests that are left**, when `r` time-outs have passed. -/
theorem tftpLoop_silent (request : Option TftpReqInfo) (hready : Ready client port 0 r 512 t s)
    (ha : Asking server tftpPort m t s) (hr : r ≤ 21)
    (hserved : Served (fun _ => False) client (· ∈ List.iterate (· + 1) port (22 - r)) polls)
    (hlates : 22 - r ≤ lates polls) (hn : polls.length < n) :
    ∃ t' s' rest xs, tftpLoop request n t s polls = .ok (none, t', s', rest) ∧
      s'.ipSent = s.ipSent ++ xs ∧
      List.Forall₂ (fun x (port : UInt16) => x.Brings ⟨client, server, port, tftpPort, m⟩) xs
        (List.iterate (· + 1) (port + 1) (21 - r)) := by
  induction polls generalizing n r port t s with
  | nil =>
    have hzero : lates [] = 0 := rfl
    omega
  | cons p polls ih =>
    obtain ⟨n, rfl⟩ : ∃ n', n = n' + 1 := ⟨n - 1, by omega⟩
    have hserved' := hserved.of_suffix (List.suffix_cons p polls)
    have hlength : polls.length < n := Nat.lt_of_succ_lt_succ hn
    have hskip : p.late = false → (∃ s₁, Kept s s₁ ∧
        awaitReply (awaitTftp t.lport) false (p :: polls) s =
          awaitReply (awaitTftp t.lport) false polls s₁) →
        ∃ t' s' rest xs, tftpLoop request (n + 1) t s (p :: polls) = .ok (none, t', s', rest) ∧
          s'.ipSent = s.ipSent ++ xs ∧
          List.Forall₂ (fun x (port : UInt16) => x.Brings ⟨client, server, port, tftpPort, m⟩) xs
            (List.iterate (· + 1) (port + 1) (21 - r)) := by
      rintro hlate ⟨s₁, hkept, hawait⟩
      rw [tftpLoop_skip hawait, ← hkept.ipSent]
      refine ih (hready.of_kept hkept) (ha.of_kept hkept) hr hserved' ?_ (Nat.lt_succ_of_lt hlength)
      rwa [lates, List.countP_cons_of_neg (by rw [hlate]; exact Bool.false_ne_true)] at hlates
    cases p with
    | frame f =>
      refine hskip rfl ?_
      rcases hserved f List.mem_cons_self with hforeign | ⟨d, hd, hother⟩
      · exact awaitReply_foreign hforeign hready.clientIp
      · refine awaitReply_carries_other hd ?_
        rintro ⟨hdest, hport⟩
        refine hother (hdest.symm.trans hready.clientIp) ?_
        rw [hport, hready.lport, show 22 - r = (21 - r) + 1 by omega]
        exact List.mem_cons_self
    | empty late =>
      cases late with
      | false => exact hskip rfl ⟨s, Kept.refl s, rfl⟩
      | true =>
        have hretry := hready.retry
        have hmax : maxTftpRetries = 20 := rfl
        have hlates' : 22 - r ≤ lates polls + 1 := by
          rwa [lates, List.countP_cons_of_pos rfl] at hlates
        by_cases hlast : r = 21
        · have hfalse : (tftpTimeout t).1 = false := by
            rw [tftpTimeout, if_pos (by omega)]
          refine ⟨_, s, polls, [], tftpLoop_last hfalse, (List.append_nil _).symm, ?_⟩
          rw [hlast]
          exact .nil
        · obtain ⟨t₂, s₂, x, htransmit, hready₂, ha₂, hx, hbrings⟩ :=
            (hready.timeout_first (by omega : r ≤ maxTftpRetries)).asks ha.timeout polls
          have hsub : 22 - r = (22 - (r + 1)) + 1 := by omega
          rw [hsub] at hserved
          obtain ⟨t', s', rest, xs, hloop, hsent, hall⟩ := ih hready₂ ha₂ (by omega)
            (hserved.tail fun _ hport => List.mem_cons_of_mem _ hport) (by omega) hlength
          rw [tftpLoop_again (by omega) htransmit]
          refine ⟨t', s', rest, x :: xs, hloop, ?_, ?_⟩
          · rw [hsent, hx, List.append_assoc, List.singleton_append]
          · rw [show 21 - r = (21 - (r + 1)) + 1 by omega]
            exact .cons hbrings hall

/-- **A transfer that nobody answers** ends after 22 requests, from as many ports. -/
theorem tftp_gives_up {name : List UInt8} {fnc : TftpSink} {queue arp : List Poll} (late : Bool)
    (hname : name.length ≤ 492) (hleaves : Leaves s (s.arptable arpServer).ipaddr arp polls)
    (hqueue : Queued s.clientIp queue)
    (hserved : Served (fun _ => False) s.clientIp
      (· ∈ List.iterate (· + 1) (t.lport + 1) 22) polls) (hlates : 22 ≤ lates polls) :
    ∃ t' s' rest xs, tftp name fnc t s (queue ++ .empty late :: arp) = .ok (0, [], t', s', rest) ∧
      s'.ipSent = s.ipSent ++ xs ∧
      List.Forall₂ (fun x port => x.Brings ⟨s.clientIp, (s.arptable arpServer).ipaddr, port, tftpPort,
        be16 tftpRrq ++ rrqStrings name⟩) xs (List.iterate (· + 1) (t.lport + 1) 22) := by
  obtain ⟨t₁, s₁, x, hready, ha, hx, hbrings, hblock⟩ := tftpBlock_asks late hname hleaves hqueue
  obtain ⟨t', s', rest, xs, hloop, hsent, hall⟩ := tftpLoop_silent (some ⟨name, tftpPort, 1432⟩)
    hready ha (Nat.zero_le _) hserved hlates (Nat.lt_succ_self _)
  refine ⟨t', s', rest, x :: xs, ?_, ?_, .cons hbrings hall⟩
  · unfold tftp
    rw [tftpCalls, hblock, hloop]
    rfl
  · rw [hsent, hx, List.append_assoc, List.singleton_append]

end Silent

theorem tftp_gives_up_silent : ∃ t' s' rest xs,
    tftp [97] (fun _ _ => 1) .initial lanNet (.empty true :: List.replicate 22 (.empty true)) =
        .ok (0, [], t', s', rest) ∧
      s'.ipSent = lanNet.ipSent ++ xs ∧
      List.Forall₂ (fun x port => x.Brings ⟨1, 7, port, tftpPort, be16 tftpRrq ++ rrqStrings [97]⟩) xs
        (List.iterate (· + 1) 2001 22) :=
  tftp_gives_up true (by decide) (.of_routedTo _ routedTo_lanNet) (queued_nil _)
    (fun f hf => by cases List.eq_of_mem_replicate hf) (by decide)

end MbBootTv
