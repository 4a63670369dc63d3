import MbBootTv.Net.Reply
import MbBootTv.Net.TftpComplete

/-!
# The exchange with a server

`bootp` asks up to four times for an address, collects the offers, and then asks up to four times
for the address of the last one. `Asked` and `Granted` say which polls there may be in between. With
an offer and an acknowledgement it is done, with what they say (`bootp_leases`), and so it is with a
reply that is no offer (`bootp_plain`); when nobody answers it gives up (`bootp_gives_up`). A
request that nobody answers is what it keeps sending (`bootp_repeats`).
-/

namespace MbBootTv

/-! ## Sending -/

/-- The table of addresses is empty. -/
def Lease.forget (l : Lease) : Lease := ⟨0, l.requested, 0, { l.settings with gateway := 0 }⟩

/-- No kind of reply has been seen. -/
def Lease.quiet (l : Lease) : Lease := { l with settings := { l.settings with reply := 0 } }

theorem lease_quiet (d : Bootp) : ({ d with dhcpReply := 0 } : Bootp).lease = d.lease.quiet := rfl

/-- Before something is sent. -/
structure Begun (xid : UInt32) (node : Node) (d : Bootp) : Prop where
  xid : d.xid = xid
  node : (d.net.arptable arpClient).node = node
  plain : d.inEncapsulatedOptions = false

/-- What is broadcast, from the address `client`. -/
def bootpDatagram (client : UInt32) (ip : Bytes) : Datagram :=
  ⟨client, ipBroadcast, bootpClient, bootpServer, ip.slice 28 (bootpipLen - 28)⟩

theorem bootpDatagram_congr {client : UInt32} {ip ip' : Bytes} (h : ∀ i, 28 ≤ i → ip' i = ip i) :
    bootpDatagram client ip' = bootpDatagram client ip :=
  congrArg (Datagram.mk client ipBroadcast bootpClient bootpServer)
    (Bytes.slice_congr fun i _ => h (28 + i) (Nat.le_add_right _ _))

section Exchange

variable {xid client : UInt32} {node : Node} {d d' : Bootp} {r : LeaseReply} {rs : List LeaseReply}
  {polls rest queue : List Poll} {ip : Bytes} {n m : Nat}

theorem Waiting.begun (h : Waiting xid node d) : Begun xid node d := ⟨h.xid, h.node, h.plain⟩

theorem Waiting.quiet (h : Waiting xid node d) : Waiting xid node { d with dhcpReply := 0 } :=
  ⟨h.xid, h.sport, h.node, h.plain⟩

/-- **A message leaves**, and nothing is waited for. -/
theorem bootpTransmit_begun (ip : Bytes) (h : Begun xid node d) :
    ∃ ip' d' x, bootpTransmit ip d = .ok (ip', d') ∧ Waiting xid node d' ∧ d'.polls = d.polls ∧
      d'.lease = d.lease ∧ (∀ i, 28 ≤ i → ip' i = ip i) ∧ d'.net.ipSent = d.net.ipSent ++ [x] ∧
      x.Brings (bootpDatagram d.net.clientIp ip) := by
  obtain ⟨b, hbuild, hbuilt⟩ := buildUdpHdr_built d.net.clientIp ipBroadcast bootpClient bootpServer
    60 ip (by decide : 28 ≤ bootpipLen) (by decide)
  let s : Net := { d.net with sport := bootpClient }.ethTransmit broadcastNode ethPIp
    (b.slice 0 bootpipLen)
  refine ⟨b, { d with net := s }, ⟨broadcastNode, ethPIp, b.slice 0 bootpipLen⟩, ?_,
    ⟨h.xid, rfl, h.node, h.plain⟩, rfl, rfl, hbuilt.payload, ipSent_ethTransmit ..,
    hbuilt.brings (by decide) (by decide) _⟩
  unfold bootpTransmit udpTransmit
  dsimp only
  rw [show ({ d.net with sport := bootpClient } : Net).clientIp = d.net.clientIp from rfl, hbuild,
    ok_bind]
  unfold ipTransmit
  dsimp only
  rw [hbuilt.dest, if_pos rfl]
  rfl

/-! ## The request -/

/-- The polls that bring the reply `r` to a request or to one of the next `n`, and those behind it.
-/
inductive Granted (xid : UInt32) (node : Node) (rest : List Poll) (r : LeaseReply) :
    Nat → List Poll → Prop
  | reply {n : Nat} {f : EthFrame} : r.Arrives xid node f →
      Granted xid node rest r n (.frame f :: rest)
  | quiet {n : Nat} {polls : List Poll} : Granted xid node rest r n polls →
      Granted xid node rest r n (.empty false :: polls)
  | unheard {n : Nat} {f : EthFrame} {polls : List Poll} : Unheard xid f →
      Granted xid node rest r n polls → Granted xid node rest r n (.frame f :: polls)
  | late {n : Nat} {polls : List Poll} : Granted xid node rest r n polls →
      Granted xid node rest r (n + 1) (.empty true :: polls)

/-- Behind a request, with `n` more of them to go. -/
def bootpWait (n : Nat) (ip : Bytes) (d : Bootp) : Except Fault (Bool × Bytes × Bootp) := do
  let (taken, d) ← awaitBootpReply d
  if taken = false then bootpRequests n ip d
  else if d.dhcpReply ≠ dhcpAck then bootpRequests n ip d
  else return (true, ip, { d with dhcpReply := 0 })

/-- Meanwhile `k` messages have left, all with this datagram. -/
def Asks (p : Datagram) (k : Nat) (s s' : Net) : Prop :=
  ∃ xs : List Sent, s'.ipSent = s.ipSent ++ xs ∧ xs.length = k ∧ ∀ x ∈ xs, x.Brings p

theorem Asks.of_eq {p : Datagram} {s s' : Net} (h : s'.ipSent = s.ipSent) : Asks p 0 s s' :=
  ⟨[], by rw [h, List.append_nil], rfl, fun _ hx => by cases hx⟩

theorem Asks.cons {p : Datagram} {s s₁ s' : Net} {x : Sent} (h : Asks p n s₁ s')
    (hsent : s₁.ipSent = s.ipSent ++ [x]) (hx : x.Brings p) : Asks p (n + 1) s s' := by
  obtain ⟨xs, hxs, hlength, hall⟩ := h
  refine ⟨x :: xs, ?_, congrArg Nat.succ hlength, List.forall_mem_cons.mpr ⟨hx, hall⟩⟩
  rw [hxs, hsent, List.append_assoc]
  rfl

/-- The next request leaves. -/
theorem bootpRequests_begun (n : Nat) (ip : Bytes) (h : Begun xid node d) :
    ∃ ip' d' x, bootpRequests (n + 1) ip d = bootpWait n ip' d' ∧ Waiting xid node d' ∧
      d'.polls = d.polls ∧ d'.lease = d.lease.quiet ∧ (∀ i, 28 ≤ i → ip' i = ip i) ∧
      d'.net.ipSent = d.net.ipSent ++ [x] ∧ x.Brings (bootpDatagram d.net.clientIp ip) := by
  obtain ⟨ip', d', x, htransmit, hw, hpolls, hlease, hip, hsent, hx⟩ := bootpTransmit_begun ip h
  refine ⟨ip', { d' with dhcpReply := 0 }, x, ?_, hw.quiet, hpolls, ?_, hip, hsent, hx⟩
  · rw [bootpRequests, htransmit]
    rfl
  · rw [lease_quiet, hlease]

/-- **An acknowledgement in time** is what the request ends with. -/
theorem bootpWait_granted {l : Lease} (h : Granted xid node rest r n polls)
    (hw : Waiting xid node d) (hpolls : d.polls = polls) (hlease : d.lease = l.quiet)
    (hack : (l.quiet.receive r).settings.reply = dhcpAck) (ip : Bytes) :
    ∃ ip' d' k, bootpWait n ip d = .ok (true, ip', d') ∧ d'.lease = (l.quiet.receive r).quiet ∧
      k ≤ n ∧ Asks (bootpDatagram d.net.clientIp ip) k d.net d'.net := by
  induction h generalizing d ip with
  | @reply n f hr =>
    obtain ⟨d', hawait, hrest, hw', hsent, hreceived⟩ := awaitBootpReply_arrives hw hpolls hr
    rw [hlease] at hreceived
    have hreply : d'.dhcpReply = dhcpAck :=
      (congrArg (fun l' => l'.settings.reply) hreceived).trans hack
    refine ⟨ip, { d' with dhcpReply := 0 }, 0, ?_, ?_, Nat.zero_le n, .of_eq hsent⟩
    · unfold bootpWait
      rw [hawait, ok_bind]
      dsimp only
      rw [if_neg (by decide), if_neg (not_not.mpr hreply)]
      rfl
    · rw [lease_quiet, hreceived]
  | @quiet n polls _ ih =>
    obtain ⟨ip', d', k, hwait, hd'⟩ := ih (d := { d with polls }) (hw.of_kept (.refl _) polls) rfl
      hlease ip
    refine ⟨ip', d', k, ?_, hd'⟩
    unfold bootpWait
    rw [awaitBootpReply_quiet hpolls]
    exact hwait
  | @unheard n f polls hf _ ih =>
    obtain ⟨s₁, hkept, hskip⟩ := awaitBootpReply_unheard hw hpolls hf
    obtain ⟨ip', d', k, hwait, hlease', hk, hasks⟩ := ih (d := { d with net := s₁, polls })
      (hw.of_kept hkept polls) rfl ((lease_of_kept d hkept polls).trans hlease) ip
    refine ⟨ip', d', k, ?_, hlease', hk, ?_⟩
    · unfold bootpWait
      rw [hskip]
      exact hwait
    · obtain ⟨xs, hxs, hall⟩ := hasks
      rw [hkept.clientIp] at hall
      exact ⟨xs, by rw [hxs, hkept.ipSent], hall⟩
  | @late n polls _ ih =>
    -- The request is sent once more.
    obtain ⟨ip₁, d₁, x, hrequests, hw₁, hpolls₁, hlease₁, hip, hsent, hx⟩ :=
      bootpRequests_begun (d := { d with polls }) n ip (hw.of_kept (.refl _) polls).begun
    have hquiet : d₁.lease = l.quiet := by
      rw [hlease₁, show ({ d with polls } : Bootp).lease = l.quiet from hlease]
      rfl
    have hclient : d₁.net.clientIp = d.net.clientIp :=
      (congrArg Lease.address hquiet).trans (congrArg Lease.address hlease).symm
    obtain ⟨ip', d', k, hwait, hlease', hk, hasks⟩ := ih hw₁ hpolls₁ hquiet ip₁
    rw [hclient, bootpDatagram_congr hip] at hasks
    refine ⟨ip', d', k + 1, ?_, hlease', Nat.succ_le_succ hk, hasks.cons hsent hx⟩
    unfold bootpWait
    rw [awaitBootpReply_timeout hpolls]
    exact hrequests.trans hwait

theorem bootpRequests_granted (h : Granted xid node rest r n polls) (hb : Begun xid node d)
    (hpolls : d.polls = polls) (hack : (d.lease.quiet.receive r).settings.reply = dhcpAck)
    (ip : Bytes) :
    ∃ ip' d' k, bootpRequests (n + 1) ip d = .ok (true, ip', d') ∧
      d'.lease = (d.lease.quiet.receive r).quiet ∧ k ≤ n ∧
      Asks (bootpDatagram d.net.clientIp ip) (k + 1) d.net d'.net := by
  obtain ⟨ip₁, d₁, x, hrequests, hw₁, hpolls₁, hlease₁, hip, hsent, hx⟩ :=
    bootpRequests_begun n ip hb
  obtain ⟨ip', d', k, hwait, hlease', hk, hasks⟩ :=
    bootpWait_granted h hw₁ (hpolls₁.trans hpolls) hlease₁ hack ip₁
  rw [show d₁.net.clientIp = d.net.clientIp from congrArg Lease.address hlease₁,
    bootpDatagram_congr hip] at hasks
  exact ⟨ip', d', k, hrequests.trans hwait, hlease', hk, hasks.cons hsent hx⟩

/-- The polls in which nobody answers the next `n` requests, and those behind them. -/
inductive Ignored (xid : UInt32) (node : Node) (rest : List Poll) : Nat → List Poll → Prop
  | done : Ignored xid node rest 0 rest
  | lost {n : Nat} {polls middle : List Poll} : Hearing xid node middle polls [] →
      Ignored xid node rest n middle → Ignored xid node rest (n + 1) polls

/-- No reply comes in time. -/
theorem awaitBootpReply_lost (h : Hearing xid node rest polls rs) (hrs : rs = [])
    (hw : Waiting xid node d) (hpolls : d.polls = polls) :
    ∃ d', awaitBootpReply d = .ok (false, d') ∧ Waiting xid node d' ∧ d'.polls = rest ∧
      d'.net.clientIp = d.net.clientIp ∧ d'.net.ipSent = d.net.ipSent := by
  induction h generalizing d with
  | ended =>
    exact ⟨_, awaitBootpReply_timeout hpolls, hw.of_kept (.refl _) rest, rfl, rfl, rfl⟩
  | @quiet polls rs _ ih =>
    rw [awaitBootpReply_quiet hpolls]
    exact ih (d := { d with polls }) hrs (hw.of_kept (.refl _) polls) rfl
  | @unheard f polls rs hf _ ih =>
    obtain ⟨s₁, hkept, hskip⟩ := awaitBootpReply_unheard hw hpolls hf
    rw [hskip, ← hkept.clientIp, ← hkept.ipSent]
    exact ih (d := { d with net := s₁, polls }) hrs (hw.of_kept hkept polls) rfl
  | reply _ _ _ => exact absurd hrs (List.cons_ne_nil _ _)

theorem bootpRequests_ignored (h : Ignored xid node rest n polls) (hb : Begun xid node d)
    (hpolls : d.polls = polls) (ip : Bytes) :
    ∃ ip' d', bootpRequests n ip d = .ok (false, ip', d') ∧ Begun xid node d' ∧ d'.polls = rest ∧
      d'.net.clientIp = d.net.clientIp ∧ (∀ i, 28 ≤ i → ip' i = ip i) ∧
      Asks (bootpDatagram d.net.clientIp ip) n d.net d'.net := by
  induction h generalizing d ip with
  | done => exact ⟨ip, d, rfl, hb, hpolls, rfl, fun _ _ => rfl, .of_eq rfl⟩
  | @lost n polls middle hhearing _ ih =>
    obtain ⟨ip₁, d₁, x, hrequests, hw₁, hpolls₁, hlease₁, hip₁, hsent, hx⟩ :=
      bootpRequests_begun n ip hb
    have hclient₁ : d₁.net.clientIp = d.net.clientIp := congrArg Lease.address hlease₁
    obtain ⟨d₂, hawait, hw₂, hpolls₂, hclient₂, hsent₂⟩ :=
      awaitBootpReply_lost hhearing rfl hw₁ (hpolls₁.trans hpolls)
    obtain ⟨ip', d', hrun, hb', hrest, hclient', hip', hasks⟩ := ih hw₂.begun hpolls₂ ip₁
    have hclient := hclient₂.trans hclient₁
    rw [hclient, bootpDatagram_congr hip₁] at hasks
    refine ⟨ip', d', hrequests.trans ?_, hb', hrest, hclient'.trans hclient,
      fun i hi => (hip' i hi).trans (hip₁ i hi), hasks.cons (hsent₂.trans hsent) hx⟩
    unfold bootpWait
    rw [hawait]
    exact hrun

/-! ## The rounds -/

/-- The polls of up to `n` rounds for a machine with the address `client`, with the replies to the
first of them that is answered, the polls behind it, and `m` rounds that are left then. In front of
a round the queue is emptied. -/
inductive Asked (xid : UInt32) (node : Node) (rest : List Poll) (m : Nat) :
    UInt32 → Nat → List Poll → List LeaseReply → Prop
  | nobody {client : UInt32} : m = 0 → Asked xid node rest m client 0 rest []
  | heard {client : UInt32} {queue polls : List Poll} {r : LeaseReply} {rs : List LeaseReply}
      (late : Bool) : Queued client queue → Hearing xid node rest polls (r :: rs) →
      Asked xid node rest m client (m + 1) (queue ++ .empty late :: polls) (r :: rs)
  | lost {client : UInt32} {n : Nat} {queue middle polls : List Poll} {rs : List LeaseReply}
      (late : Bool) : Queued client queue → Hearing xid node middle polls [] →
      Asked xid node rest m 0 n middle rs →
      Asked xid node rest m client (n + 1) (queue ++ .empty late :: polls) rs

/-- Behind the offers of a round, with `n` more rounds to go. -/
def bootpHeard (id : DevId) (secs : Nat → UInt16) (n : Nat) (ip : Bytes) (d : Bootp) :
    Except Fault (Bool × Bootp) :=
  if d.net.clientIp = 0 then bootpRounds id secs n ip d
  else if d.dhcpReply ≠ dhcpOffer then return (true, d)
  else do
    let d := { d with dhcpReply := 0 }
    let (done, ip, d) ← bootpRequests maxBootpRetries (bootpRequestPacket id d ip) d
    if done then return (true, d)
    else bootpRounds id secs n (ip.putLe 36 2 (htons (secs n)).toNat) d

/-- **One round**, up to its offers. -/
theorem bootpRounds_hearing (id : DevId) (secs : Nat → UInt16) (n : Nat) (ip : Bytes) (late : Bool)
    (hqueue : Queued d.net.clientIp queue) (h : Hearing xid node rest polls rs)
    (hb : Begun xid node d) (hpolls : d.polls = queue ++ .empty late :: polls) :
    ∃ ip' d' x, bootpRounds id secs (n + 1) ip d = bootpHeard id secs n ip' d' ∧
      Waiting xid node d' ∧ d'.polls = rest ∧ d'.lease = rs.foldl Lease.receive d.lease.forget ∧
      (∀ i, 28 ≤ i → ip' i = ip i) ∧ d'.net.ipSent = d.net.ipSent ++ [x] ∧
      x.Brings (bootpDatagram 0 ip) := by
  obtain ⟨s, hkept, hdrain⟩ := rxQdrain_queued late polls hqueue rfl
  have hnode : (s.forgetArp.arptable arpClient).node = node := by
    rw [← hb.node, ← hkept.arptable]
    rfl
  obtain ⟨ip', d₁, x, htransmit, hw₁, hpolls₁, hlease₁, hip, hsent, hx⟩ :=
    bootpTransmit_begun (d := { d with net := s.forgetArp, polls }) ip ⟨hb.xid, hnode, hb.plain⟩
  obtain ⟨d', hoffers, hrest, hw', hsent', hlease'⟩ := bootpOffers_hearing
    (n := d₁.polls.length + 1) h hw₁ hpolls₁ (by rw [hpolls₁]; exact Nat.lt_succ_self _)
  have hforget : ({ d with net := s.forgetArp, polls } : Bootp).lease = d.lease.forget := by
    rw [← lease_of_kept d hkept polls]
    rfl
  rw [hlease₁, hforget] at hlease'
  refine ⟨ip', d', x, ?_, hw', hrest, hlease', hip, ?_, hx⟩
  · rw [bootpRounds, hpolls, hdrain, ok_bind]
    dsimp only
    rw [htransmit, ok_bind]
    dsimp only
    rw [hoffers, ok_bind]
    rfl
  · rw [hsent', hsent]
    exact congrArg (· ++ [x]) hkept.ipSent

/-- Every reply offers an address. -/
theorem foldl_receive_address (l : Lease) (r : LeaseReply) (rs : List LeaseReply) :
    ((r :: rs).foldl Lease.receive l).address ≠ 0 := by
  induction rs generalizing l r with
  | nil => exact r.yiaddr_ne
  | cons r' rs ih => exact ih (l.receive r) r'

/-- **The rounds up to the first answer**, or all of them when there is none. -/
theorem bootpRounds_asked (id : DevId) (secs : Nat → UInt16)
    (h : Asked xid node rest m client n polls rs) (hb : Begun xid node d) (hpolls : d.polls = polls)
    (hclient : d.net.clientIp = client) (ip : Bytes) :
    ∃ d' k, k + m = n ∧ Asks (bootpDatagram 0 ip) k d.net d'.net ∧
      (rs = [] → bootpRounds id secs n ip d = .ok (false, d')) ∧
      (rs ≠ [] → ∃ ip', bootpRounds id secs n ip d = bootpHeard id secs m ip' d' ∧ 0 < k ∧
        Waiting xid node d' ∧ d'.polls = rest ∧ (∀ i, 28 ≤ i → ip' i = ip i) ∧
        d'.lease = rs.foldl Lease.receive d.lease.forget) := by
  induction h generalizing d ip with
  | nobody hm =>
    exact ⟨d, 0, (Nat.zero_add m).trans hm, .of_eq rfl, fun _ => rfl, fun h => absurd rfl h⟩
  | @heard client queue polls r rs late hqueue hhearing =>
    subst hclient
    obtain ⟨ip', d', x, hround, hw, hrest, hlease, hip, hsent, hx⟩ :=
      bootpRounds_hearing id secs m ip late hqueue hhearing hb hpolls
    refine ⟨d', 1, Nat.add_comm 1 m, (Asks.of_eq rfl).cons hsent hx,
      fun h => (List.cons_ne_nil _ _ h).elim, fun _ => ?_⟩
    exact ⟨ip', hround, Nat.one_pos, hw, hrest, hip, hlease⟩
  | @lost client n queue middle polls rs late hqueue hhearing _ ih =>
    subst hclient
    obtain ⟨ip₁, d₁, x, hround, hw₁, hpolls₁, hlease₁, hip₁, hsent, hx⟩ :=
      bootpRounds_hearing id secs n ip late hqueue hhearing hb hpolls
    have hzero : d₁.net.clientIp = 0 := congrArg Lease.address hlease₁
    obtain ⟨d', k, hk, hasks, hnobody, hheard⟩ := ih hw₁.begun hpolls₁ hzero ip₁
    rw [bootpDatagram_congr hip₁] at hasks
    have hnext : bootpRounds id secs (n + 1) ip d = bootpRounds id secs n ip₁ d₁ := by
      rw [hround, bootpHeard, if_pos hzero]
    refine ⟨d', k + 1, by omega, hasks.cons hsent hx, fun h => hnext.trans (hnobody h), fun h => ?_⟩
    obtain ⟨ip', hrun, -, hw, hrest, hip, hlease⟩ := hheard h
    refine ⟨ip', hnext.trans hrun, Nat.succ_pos k, hw, hrest,
      fun i hi => (hip i hi).trans (hip₁ i hi), ?_⟩
    rw [hlease, hlease₁]
    rfl

/-! ## The whole exchange -/

/-- The number of the exchange: the end of the hardware address, and the time. -/
def bootpXid (starttime : UInt32) (node : Node) : UInt32 :=
  let ticks : Bytes := fun i => (starttime >>> UInt32.ofNat (24 - 8 * i)).toUInt8
  Bytes.le32 (fun i => if h : i + 2 < 6 then node ⟨i + 2, h⟩ else 0) 0 + ticks.le32 0

/-- The message with these options has left `k` times, from the address `client`. -/
def Broadcasts (xid : UInt32) (node : Node) (client : UInt32) (items : List Item) (k : Nat)
    (s s' : Net) : Prop :=
  ∃ ip, Message xid node items ip ∧ Asks (bootpDatagram client ip) k s s'

section Bootp

variable {middle : List Poll} (id : DevId) (starttime : UInt32) (secs : Nat → UInt16)

/-- **The first answer** of the whole exchange, or none. -/
theorem bootp_asked
    (h : Asked (bootpXid starttime node) node rest m d.net.clientIp maxBootpRetries d.polls rs)
    (hnode : (d.net.arptable arpClient).node = node) (hplain : d.inEncapsulatedOptions = false) :
    ∃ d' k, k + m = 4 ∧
      Broadcasts (bootpXid starttime node) node 0 (discoverItems id) k d.net d'.net ∧
      (rs = [] → bootp id starttime secs d = .ok (false, d')) ∧
      (rs ≠ [] → ∃ ip, bootp id starttime secs d = bootpHeard id secs m ip d' ∧ 0 < k ∧
        Waiting (bootpXid starttime node) node d' ∧ d'.polls = rest ∧
        Message (bootpXid starttime node) node (discoverItems id) ip ∧
        d'.lease = rs.foldl Lease.receive d.lease.forget) := by
  subst hnode
  let node := (d.net.arptable arpClient).node
  let xid := bootpXid starttime node
  have hmessage := bootpDiscover_message id xid node
  have hrun : bootp id starttime secs d =
      bootpRounds id secs maxBootpRetries (bootpDiscover id xid node) { d with xid } := rfl
  obtain ⟨d', k, hk, hasks, hnobody, hheard⟩ := bootpRounds_asked (d := { d with xid }) id secs h
    ⟨rfl, rfl, hplain⟩ rfl rfl (bootpDiscover id xid node)
  refine ⟨d', k, hk, ⟨_, hmessage, hasks⟩, fun hrs => hnobody hrs, fun hrs => ?_⟩
  obtain ⟨ip, hround, hpos, hw, hrest, hip, hlease⟩ := hheard hrs
  have hvend : bpVend = 236 := rfl
  refine ⟨ip, hrun.trans hround, hpos, hw, hrest, ?_, hlease⟩
  refine hmessage.of_congr (fun i hi _ _ _ => hip i hi) ?_
  rw [Bytes.slice_congr fun i _ => hip (28 + bpVend + i) (by omega)]
  exact hmessage.vend

/-- **Nobody answers**: after four rounds there is no address. -/
theorem bootp_gives_up
    (h : Asked (bootpXid starttime node) node rest 0 d.net.clientIp maxBootpRetries d.polls [])
    (hnode : (d.net.arptable arpClient).node = node) (hplain : d.inEncapsulatedOptions = false) :
    ∃ d', bootp id starttime secs d = .ok (false, d') ∧
      Broadcasts (bootpXid starttime node) node 0 (discoverItems id) 4 d.net d'.net := by
  obtain ⟨d', k, hk, hdiscovers, hnobody, -⟩ := bootp_asked id starttime secs h hnode hplain
  obtain rfl : k = 4 := hk
  exact ⟨d', hnobody rfl, hdiscovers⟩

/-- Behind replies that are no offers there is nothing to be asked for. -/
theorem bootpHeard_plain {l : Lease} (hlease : d.lease = l) (haddress : l.address ≠ 0)
    (hreply : l.settings.reply ≠ dhcpOffer) : bootpHeard id secs m ip d = .ok (true, d) := by
  subst hlease
  have hclient : d.net.clientIp ≠ 0 := haddress
  have hno : d.dhcpReply ≠ dhcpOffer := hreply
  rw [bootpHeard, if_neg hclient, if_pos hno]
  rfl

/-- Behind an offer the address is asked for. -/
theorem bootpHeard_offer {l : Lease} (hlease : d.lease = l) (haddress : l.address ≠ 0)
    (hreply : l.settings.reply = dhcpOffer) : bootpHeard id secs m ip d =
      (bootpRequests maxBootpRetries (bootpRequestPacket id d ip) { d with dhcpReply := 0 } >>=
        fun x => if x.1 then pure (true, x.2.2)
          else bootpRounds id secs m (x.2.1.putLe 36 2 (htons (secs m)).toNat) x.2.2) := by
  subst hlease
  have hclient : d.net.clientIp ≠ 0 := haddress
  have hyes : ¬d.dhcpReply ≠ dhcpOffer := not_not.mpr hreply
  rw [bootpHeard, if_neg hclient, if_neg hyes]
  rfl

/-- **A reply that is no offer** is all that is needed. -/
theorem bootp_plain
    (h : Asked (bootpXid starttime node) node rest m d.net.clientIp maxBootpRetries d.polls
      (r :: rs))
    (hnode : (d.net.arptable arpClient).node = node) (hplain : d.inEncapsulatedOptions = false)
    (hreply : ((r :: rs).foldl Lease.receive d.lease.forget).settings.reply ≠ dhcpOffer) :
    ∃ d' k, bootp id starttime secs d = .ok (true, d') ∧
      d'.lease = (r :: rs).foldl Lease.receive d.lease.forget ∧ k + m = 4 ∧
      Broadcasts (bootpXid starttime node) node 0 (discoverItems id) k d.net d'.net := by
  obtain ⟨d', k, hk, hdiscovers, -, hheard⟩ := bootp_asked id starttime secs h hnode hplain
  obtain ⟨ip, hround, -, -, -, -, hlease⟩ := hheard (List.cons_ne_nil r rs)
  have hdone : bootpHeard id secs m ip d' = .ok (true, d') :=
    bootpHeard_plain id secs hlease (foldl_receive_address _ r rs) hreply
  exact ⟨d', k, hround.trans hdone, hlease, hk, hdiscovers⟩

/-- **Offers**, of which the last is asked for. -/
theorem bootp_offered {l : Lease}
    (h : Asked (bootpXid starttime node) node middle m d.net.clientIp maxBootpRetries d.polls
      (r :: rs))
    (hnode : (d.net.arptable arpClient).node = node) (hplain : d.inEncapsulatedOptions = false)
    (hl : l = (r :: rs).foldl Lease.receive d.lease.forget)
    (hoffer : l.settings.reply = dhcpOffer) :
    ∃ d' k ip, k + m = 4 ∧
      Broadcasts (bootpXid starttime node) node 0 (discoverItems id) k d.net d'.net ∧
      Waiting (bootpXid starttime node) node d' ∧ d'.polls = middle ∧ d'.lease = l ∧
      Message (bootpXid starttime node) node
        (requestItems id l.settings.server l.requested) ip ∧
      bootp id starttime secs d = (bootpRequests maxBootpRetries ip { d' with dhcpReply := 0 } >>=
        fun x => if x.1 then pure (true, x.2.2)
          else bootpRounds id secs m (x.2.1.putLe 36 2 (htons (secs m)).toNat) x.2.2) := by
  obtain ⟨d', k, hk, hdiscovers, -, hheard⟩ := bootp_asked id starttime secs h hnode hplain
  obtain ⟨ip, hround, -, hw, hmiddle, hmessage, hlease⟩ := hheard (List.cons_ne_nil r rs)
  have haddress : l.address ≠ 0 := hl ▸ foldl_receive_address _ r rs
  rw [← hl] at hlease
  have hrequest := bootpRequestPacket_message id d' hmessage
  refine ⟨d', k, bootpRequestPacket id d' ip, hk, hdiscovers, hw, hmiddle, hlease, ?_,
    hround.trans (bootpHeard_offer id secs hlease haddress hoffer)⟩
  rw [← hlease]
  exact hrequest

/-- **Offers, and an acknowledgement**: this machine has the address that the server has
acknowledged, and the last of the offers is the one that it has asked for. -/
theorem bootp_leases {r' : LeaseReply} {l : Lease}
    (h : Asked (bootpXid starttime node) node middle m d.net.clientIp maxBootpRetries d.polls
      (r :: rs))
    (hnode : (d.net.arptable arpClient).node = node) (hplain : d.inEncapsulatedOptions = false)
    (hl : l = (r :: rs).foldl Lease.receive d.lease.forget) (hoffer : l.settings.reply = dhcpOffer)
    (hgranted : Granted (bootpXid starttime node) node rest r' 3 middle)
    (hack : (l.quiet.receive r').settings.reply = dhcpAck) :
    ∃ d' s k k', bootp id starttime secs d = .ok (true, d') ∧
      d'.lease = (l.quiet.receive r').quiet ∧
      k + m = 4 ∧ Broadcasts (bootpXid starttime node) node 0 (discoverItems id) k d.net s ∧
      0 < k' ∧ k' ≤ 4 ∧ Broadcasts (bootpXid starttime node) node l.address
        (requestItems id l.settings.server l.requested) k' s d'.net := by
  obtain ⟨d₁, k, ip, hk, hdiscovers, hw, hmiddle, hlease, hrequest, hrun⟩ :=
    bootp_offered id starttime secs h hnode hplain hl hoffer
  clear hl
  subst hlease
  obtain ⟨ip', d', k', hrequests, hlease', hk', hasks⟩ :=
    bootpRequests_granted (n := 3) hgranted hw.quiet.begun hmiddle hack ip
  refine ⟨d', d₁.net, k, k' + 1, hrun.trans ?_, hlease', hk, hdiscovers, Nat.succ_pos k',
    Nat.succ_le_succ hk', _, hrequest, hasks⟩
  rw [show maxBootpRetries = 3 + 1 from rfl, hrequests]
  rfl

/-- **A request that nobody answers** is repeated in every later round, and no server is looked for
any more. -/
theorem bootp_repeats {l : Lease} {middle' : List Poll}
    (h : Asked (bootpXid starttime node) node middle m d.net.clientIp maxBootpRetries d.polls
      (r :: rs))
    (hnode : (d.net.arptable arpClient).node = node) (hplain : d.inEncapsulatedOptions = false)
    (hl : l = (r :: rs).foldl Lease.receive d.lease.forget) (hoffer : l.settings.reply = dhcpOffer)
    (hignored : Ignored (bootpXid starttime node) node middle' maxBootpRetries middle)
    (hsilent : Asked (bootpXid starttime node) node rest 0 l.address m middle' []) :
    ∃ d' s s' k, bootp id starttime secs d = .ok (false, d') ∧
      k + m = 4 ∧ Broadcasts (bootpXid starttime node) node 0 (discoverItems id) k d.net s ∧
      Broadcasts (bootpXid starttime node) node l.address
        (requestItems id l.settings.server l.requested) 4 s s' ∧
      Broadcasts (bootpXid starttime node) node 0
        (requestItems id l.settings.server l.requested) m s' d'.net := by
  obtain ⟨d₁, k, ip, hk, hdiscovers, hw, hmiddle, hlease, hrequest, hrun⟩ :=
    bootp_offered id starttime secs h hnode hplain hl hoffer
  clear hl
  subst hlease
  obtain ⟨ip', d₂, hrequests, hb₂, hpolls₂, hclient₂, hip', hasks⟩ :=
    bootpRequests_ignored hignored hw.quiet.begun hmiddle ip
  -- The buffer holds the request from now on, with other seconds.
  let ip₂ := ip'.putLe 36 2 (htons (secs m)).toNat
  have hvend : bpVend = 236 := rfl
  have hrepeated : Message (bootpXid starttime node) node
      (requestItems id d₁.lease.settings.server d₁.lease.requested) ip₂ := by
    refine hrequest.of_congr (fun i hi _ h36 h37 => ?_) ?_
    · rw [← hip' i hi]
      exact Bytes.putLe_of_not_mem (by omega)
    · refine Eq.trans (Bytes.slice_congr fun i _ => ?_) hrequest.vend
      rw [← hip' (28 + bpVend + i) (by omega)]
      exact Bytes.putLe_of_not_mem (by omega)
  obtain ⟨d', k', hk', hasks', hnobody, -⟩ :=
    bootpRounds_asked id secs hsilent hb₂ hpolls₂ hclient₂ ip₂
  obtain rfl : k' = m := hk'
  refine ⟨d', d₁.net, d₂.net, k, hrun.trans ?_, hk, hdiscovers, ⟨_, hrequest, hasks⟩,
    ⟨_, hrepeated, hasks'⟩⟩
  rw [hrequests]
  exact hnobody rfl

end Bootp

end Exchange

/-! ## Short exchanges -/

/-- The server 7 offers the address 9 to everybody. -/
def offerOf (items : List Item) (hfits : ∀ i ∈ items, i.Fits) (hstays : ∀ i ∈ items, i.Stays) :
    LeaseReply :=
  ⟨9, 7, 0, broadcastNode, items, by decide, by decide, hfits, hstays⟩

theorem msgType_ne_pad : rfc2132MsgType ≠ rfc1533Pad := by decide

theorem msgType_ne_end : rfc2132MsgType ≠ rfc1533End := by decide

theorem length_kind_le (kind : UInt8) : [kind].length ≤ 255 := by
  rw [List.length_singleton]
  decide

/-- A kind of message. -/
def kindItem (kind : UInt8) : Item :=
  .entry (some ⟨rfc2132MsgType, [kind], msgType_ne_pad, msgType_ne_end, length_kind_le kind⟩)

theorem kindItem_fits (kind : UInt8) : (kindItem kind).Fits := by
  intro o ho
  cases ho
  have hno : ¬(rfc2132MsgType = rfc1533Netmask ∨ rfc2132MsgType = rfc2132SrvId) := by decide
  exact ⟨⟨fun htag => absurd htag hno, fun _ => Nat.le_refl 1⟩,
    (by decide : rfc2132MsgType ≠ rfc1533VendorEtherbootEncap)⟩

theorem kindItem_stays (kind : UInt8) : (kindItem kind).Stays := by
  intro o ho
  cases ho
  exact (by decide : rfc2132MsgType ≠ rfc1533Extensionpath)

/-- It does not say what kind of message it is, -/
def plainReply : LeaseReply := offerOf [] (by simp) (by simp)

/-- or it does. -/
def kindReply (kind : UInt8) : LeaseReply :=
  offerOf [kindItem kind] (List.forall_mem_singleton.mpr (kindItem_fits kind))
    (List.forall_mem_singleton.mpr (kindItem_stays kind))

/-- A machine that has just been switched on. -/
def freshBootp (polls : List Poll) : Bootp := { blankBootp [] with polls }

/-- The exchange of this machine at time 0. -/
def freshXid : UInt32 := bootpXid 0 (fun _ => 0)

theorem asked_fresh {f : EthFrame} {r : LeaseReply} (rest : List Poll)
    (h : r.Arrives freshXid (fun _ => 0) f) :
    Asked freshXid (fun _ => 0) rest 3 0 maxBootpRetries
      ([] ++ .empty true :: .frame f :: .empty true :: rest) [r] :=
  .heard true (queued_nil 0) (.reply h .ended)

theorem asked_silent (client : UInt32) (n : Nat) :
    ∃ polls, Asked freshXid (fun _ => 0) [] 0 client n polls [] := by
  induction n generalizing client with
  | zero => exact ⟨[], .nobody rfl⟩
  | succ n ih =>
    obtain ⟨polls, h⟩ := ih 0
    exact ⟨_, .lost true (queued_nil client) .ended h⟩

theorem bootp_gives_up_silent : ∃ polls d',
    bootp ⟨0, 0, 0⟩ 0 (fun _ => 0) (freshBootp polls) = .ok (false, d') := by
  obtain ⟨polls, hasked⟩ := asked_silent 0 4
  obtain ⟨d', hrun, -⟩ := bootp_gives_up ⟨0, 0, 0⟩ 0 (fun _ => 0)
    (d := freshBootp polls) hasked rfl rfl
  exact ⟨polls, d', hrun⟩

theorem exists_arrives_plain : ∃ f, plainReply.Arrives freshXid (fun _ => 0) f :=
  plainReply.exists_arrives _ _ (by decide) (Or.inl rfl)

theorem exists_arrives_kind (kind : UInt8) :
    ∃ f, (kindReply kind).Arrives freshXid (fun _ => 0) f :=
  (kindReply kind).exists_arrives _ _ (by decide : 236 + 8 ≤ 1472) (Or.inl rfl)

theorem bootp_plain_fresh : ∃ polls d',
    bootp ⟨0, 0, 0⟩ 0 (fun _ => 0) (freshBootp polls) = .ok (true, d') ∧ d'.net.clientIp = 9 := by
  obtain ⟨f, hf⟩ := exists_arrives_plain
  obtain ⟨d', -, hrun, hlease, -⟩ := bootp_plain ⟨0, 0, 0⟩ 0 (fun _ => 0)
    (d := freshBootp _) (asked_fresh [] hf) rfl rfl
    (show (0 : UInt8) ≠ dhcpOffer by decide)
  exact ⟨_, d', hrun, congrArg Lease.address hlease⟩

theorem bootp_leases_fresh : ∃ polls d',
    bootp ⟨0, 0, 0⟩ 0 (fun _ => 0) (freshBootp polls) = .ok (true, d') ∧ d'.net.clientIp = 9 := by
  obtain ⟨f, hf⟩ := exists_arrives_kind dhcpOffer
  obtain ⟨f', hf'⟩ := exists_arrives_kind dhcpAck
  obtain ⟨d', -, -, -, hrun, hlease, -⟩ := bootp_leases ⟨0, 0, 0⟩ 0 (fun _ => 0)
    (d := freshBootp _) (asked_fresh [.frame f'] hf) rfl rfl rfl rfl (.reply hf') rfl
  exact ⟨_, d', hrun, congrArg Lease.address hlease⟩

theorem bootp_repeats_fresh : ∃ polls d',
    bootp ⟨0, 0, 0⟩ 0 (fun _ => 0) (freshBootp polls) = .ok (false, d') := by
  obtain ⟨f, hf⟩ := exists_arrives_kind dhcpOffer
  obtain ⟨polls, hsilent⟩ := asked_silent 9 3
  have hignored : ∀ rest, Ignored freshXid (fun _ => 0) rest 4
      (.empty true :: .empty true :: .empty true :: .empty true :: rest) :=
    fun rest => .lost .ended (.lost .ended (.lost .ended (.lost .ended .done)))
  obtain ⟨d', -, -, -, hrun, -⟩ := bootp_repeats ⟨0, 0, 0⟩ 0 (fun _ => 0)
    (d := freshBootp _) (asked_fresh _ hf) rfl rfl rfl rfl (hignored polls) hsilent
  exact ⟨_, d', hrun⟩

theorem bootp_lease_fresh : ∃ polls d',
    bootp ⟨0, 0, 0⟩ 0 (fun _ => 0) (freshBootp polls) = .ok (true, d') ∧ d'.net.clientIp ≠ 0 := by
  obtain ⟨f, hf⟩ := exists_arrives_plain
  obtain ⟨d', k, -, -, -, hheard⟩ := bootp_asked ⟨0, 0, 0⟩ 0 (fun _ => 0)
    (d := freshBootp _) (asked_fresh [] hf) rfl rfl
  obtain ⟨ip, hround, -, -, -, -, hlease⟩ := hheard (List.cons_ne_nil _ _)
  have hrun := hround.trans (bootpHeard_plain _ _ hlease (foldl_receive_address _ _ _)
    (show (0 : UInt8) ≠ dhcpOffer by decide))
  exact ⟨_, d', hrun, (bootp_lease hrun).1⟩

end MbBootTv
