import MbBootTv.Net.Lease
import MbBootTv.Net.Request

/-!
# What a reply changes

A server says in a reply which address this machine may have, and in its options what else there is
to know (`LeaseReply`). `Lease` is what is known so far, and `Lease.receive` what becomes of it. The
program does just that with a frame in which such a reply arrives (`awaitBootpReply_arrives`), and
with all the replies that come until the time is over (`bootpOffers_hearing`).
-/

namespace MbBootTv

/-! ## Replies -/

/-- No file is to be loaded. -/
def Item.Stays : Item → Prop
  | entry e => ∀ o ∈ e, o.tag ≠ rfc1533Extensionpath
  | encap _ => True

/-- A reply that offers an address. -/
structure LeaseReply where
  yiaddr : UInt32
  siaddr : UInt32
  giaddr : UInt32
  hwaddr : Node
  items : List Item
  yiaddr_ne : yiaddr ≠ 0
  siaddr_ne : siaddr ≠ 0
  fits : ∀ i ∈ items, i.Fits
  stays : ∀ i ∈ items, i.Stays

namespace LeaseReply

/-- The options, with what is around them. -/
def vend (r : LeaseReply) : List UInt8 := vendOf r.items

/-- The message says so, in the transaction `xid`. -/
structure Encodes (r : LeaseReply) (xid : UInt32) (payload : List UInt8) : Prop where
  op : pieceAt payload 0 = bootpReply
  xid : (pieceAt payload).le32 4 = xid
  yiaddr : (pieceAt payload).le32 16 = r.yiaddr
  siaddr : (pieceAt payload).le32 20 = r.siaddr
  giaddr : (pieceAt payload).le32 24 = r.giaddr
  hwaddr : nodeAt (pieceAt payload) 28 = r.hwaddr
  vend : (pieceAt payload).slice bpVend r.vend.length = r.vend
  length_ge : bpVend + r.vend.length ≤ payload.length

/-- A frame with it, for the machine with that hardware address. -/
def Arrives (r : LeaseReply) (xid : UInt32) (node : Node) (f : EthFrame) : Prop :=
  ∃ d : Datagram, Carries f d ∧ Whole f d ∧ d.destsock = bootpClient ∧ r.Encodes xid d.payload ∧
    (r.hwaddr = broadcastNode ∨ r.hwaddr = node)

end LeaseReply

/-! ## Replies on the wire -/

namespace LeaseReply

variable (r : LeaseReply) (xid : UInt32)

/-- What is in front of the hardware address. -/
def header : Bytes :=
  Bytes.putLe (Bytes.putLe (Bytes.putLe (Bytes.putLe (Bytes.putLe (fun _ => 0) 0 1
    bootpReply.toNat) 4 4 xid.toNat) 16 4 r.yiaddr.toNat) 20 4 r.siaddr.toNat) 24 4 r.giaddr.toNat

/-- A message with the reply. -/
def payload : List UInt8 :=
  (putBytes (putNode (r.header xid) 28 r.hwaddr) bpVend r.vend).slice 0 (bpVend + r.vend.length)

theorem payload_of_lt {i : Nat} (h : i < 28) : pieceAt (r.payload xid) i = r.header xid i := by
  have hvend : bpVend = 236 := rfl
  rw [payload, pieceAt_slice (by omega), Nat.zero_add, putBytes, Bytes.copy_of_lt (by omega),
    putNode, Bytes.copy_of_lt h]

theorem payload_le32 {p : Nat} (h : p + 4 ≤ 28) :
    (pieceAt (r.payload xid)).le32 p = (r.header xid).le32 p :=
  Bytes.le32_congr fun i hi => r.payload_of_lt xid (by omega)

/-- **Every reply can be sent.** -/
theorem encodes_payload : r.Encodes xid (r.payload xid) where
  op := by
    rw [r.payload_of_lt xid (by decide), header, Bytes.putLe_of_not_mem (by decide),
      Bytes.putLe_of_not_mem (by decide), Bytes.putLe_of_not_mem (by decide),
      Bytes.putLe_of_not_mem (by decide), Bytes.putLe_of_mem (by decide) (by decide)]
    rfl
  xid := by
    rw [r.payload_le32 xid (by decide), header, Bytes.le32_putLe_of_disjoint (by decide),
      Bytes.le32_putLe_of_disjoint (by decide), Bytes.le32_putLe_of_disjoint (by decide),
      Bytes.le32_putLe]
  yiaddr := by
    rw [r.payload_le32 xid (by decide), header, Bytes.le32_putLe_of_disjoint (by decide),
      Bytes.le32_putLe_of_disjoint (by decide), Bytes.le32_putLe]
  siaddr := by
    rw [r.payload_le32 xid (by decide), header, Bytes.le32_putLe_of_disjoint (by decide),
      Bytes.le32_putLe]
  giaddr := by
    rw [r.payload_le32 xid (by decide), header, Bytes.le32_putLe]
  hwaddr := by
    have hvend : bpVend = 236 := rfl
    refine Eq.trans (funext fun i => ?_) (nodeAt_putNode (r.header xid) 28 r.hwaddr)
    unfold nodeAt
    rw [payload, pieceAt_slice (by omega), Nat.zero_add, putBytes, Bytes.copy_of_lt (by omega)]
  vend := by
    refine Eq.trans (Bytes.slice_congr fun i hi => ?_) (slice_copy_piece
      (putNode (r.header xid) 28 r.hwaddr) bpVend r.vend)
    rw [payload, pieceAt_slice (by omega), Nat.zero_add, putBytes]
  length_ge := by
    rw [payload, Bytes.slice_length]

theorem exists_arrives (node : Node) (hlen : bpVend + r.vend.length ≤ 1472)
    (hnode : r.hwaddr = broadcastNode ∨ r.hwaddr = node) : ∃ f, r.Arrives xid node f := by
  have hpayload : (r.payload xid).length ≤ 1472 := by
    rwa [payload, Bytes.slice_length]
  obtain ⟨f, hf, -, hwhole⟩ := exists_carries
    ⟨r.siaddr, r.yiaddr, bootpServer, bootpClient, r.payload xid⟩ hpayload
  exact ⟨f, _, hf, hwhole, rfl, r.encodes_payload xid, hnode⟩

end LeaseReply

/-! ## What is known -/

/-- The settings behind a reply. -/
def Settings.receive (σ : Settings) (r : LeaseReply) : Settings :=
  r.items.foldl Item.settle { σ.reset with
    netmask := defaultNetmask r.yiaddr
    gateway := if r.giaddr ≠ 0 then r.giaddr else σ.gateway }

/-- The address of this machine, the one that it asks for, the server, and the settings without the
name of the host. -/
structure Lease where
  address : UInt32
  requested : UInt32
  server : UInt32
  settings : Settings

def Lease.receive (l : Lease) (r : LeaseReply) : Lease :=
  ⟨r.yiaddr, r.yiaddr, r.siaddr, (l.settings.receive r).anonymous⟩

def Bootp.lease (d : Bootp) : Lease :=
  ⟨d.net.clientIp, d.dhcpAddr, (d.net.arptable arpServer).ipaddr, (d.settings none).anonymous⟩

theorem Opt.settle_extpath {o : Opt} (h : o.tag ≠ rfc1533Extensionpath) (enc : Bool)
    (σ : Settings) : (o.settle enc σ).extpath = σ.extpath := by
  unfold Opt.settle
  rw [if_neg h]
  simp only [apply_ite Settings.extpath, ite_self]

theorem foldl_extpath {α : Type} {f : Settings → α → Settings} {l : List α}
    (hf : ∀ a ∈ l, ∀ σ, (f σ a).extpath = σ.extpath) (σ : Settings) :
    (l.foldl f σ).extpath = σ.extpath := by
  induction l generalizing σ with
  | nil => rfl
  | cons a l ih =>
    rw [List.foldl_cons, ih fun a' ha' => hf a' (List.mem_cons_of_mem _ ha'),
      hf a List.mem_cons_self]

theorem settleEntry_extpath {e : Option Opt} (h : ∀ o ∈ e, o.tag ≠ rfc1533Extensionpath)
    (enc : Bool) (σ : Settings) : (settleEntry enc σ e).extpath = σ.extpath := by
  cases e with
  | none => rfl
  | some o => exact Opt.settle_extpath (h o rfl) enc σ

theorem LeaseReply.foldl_extpath (r : LeaseReply) (σ : Settings) :
    (r.items.foldl Item.settle σ).extpath = σ.extpath := by
  refine MbBootTv.foldl_extpath (fun i hi σ => ?_) σ
  have hfits := r.fits i hi
  have hstays := r.stays i hi
  cases i with
  | entry e => exact settleEntry_extpath hstays false σ
  | encap c =>
    exact MbBootTv.foldl_extpath (fun e he σ => settleEntry_extpath (hfits e he) true σ) σ

/-! ## Before the options are read -/

theorem Net.setArp_of_ne (s : Net) {i j : Fin 3} (ipaddr : UInt32) (h : i ≠ j) :
    (s.setArp j ipaddr).arptable i = s.arptable i := Function.update_of_ne h _ _

theorem Net.setArp_self (s : Net) (i : Fin 3) (ipaddr : UInt32) :
    (s.setArp i ipaddr).arptable i = ⟨ipaddr, fun _ => 0⟩ := Function.update_self _ _ _

namespace LeaseReply

variable (r : LeaseReply) (s : Net)

/-- The network with the addresses from the header of the reply. -/
def addressed : Net :=
  let s := s.setArp arpServer r.siaddr
  let s := if r.giaddr ≠ 0 then s.setArp arpGateway r.giaddr else s
  { s.setIpaddr arpClient r.yiaddr with netmask := defaultNetmask r.yiaddr }

theorem addressed_client :
    (r.addressed s).arptable arpClient = ⟨r.yiaddr, (s.arptable arpClient).node⟩ := by
  show (Net.setIpaddr _ arpClient r.yiaddr).arptable arpClient = _
  rw [Bootp.Frame.setIpaddr_self]
  split
  · rw [Net.setArp_of_ne _ _ (by decide), Net.setArp_of_ne _ _ (by decide)]
  · rw [Net.setArp_of_ne _ _ (by decide)]

theorem addressed_of_ne {i : Fin 3} (h : i ≠ arpClient) : (r.addressed s).arptable i =
    (if r.giaddr ≠ 0 then (s.setArp arpServer r.siaddr).setArp arpGateway r.giaddr
      else s.setArp arpServer r.siaddr).arptable i :=
  Function.update_of_ne h _ _

theorem addressed_server : ((r.addressed s).arptable arpServer).ipaddr = r.siaddr := by
  rw [r.addressed_of_ne s (by decide)]
  split
  · rw [Net.setArp_of_ne _ _ (by decide), Net.setArp_self]
  · rw [Net.setArp_self]

theorem addressed_gateway : ((r.addressed s).arptable arpGateway).ipaddr =
    if r.giaddr ≠ 0 then r.giaddr else (s.arptable arpGateway).ipaddr := by
  rw [r.addressed_of_ne s (by decide)]
  split
  · rw [Net.setArp_self]
  · rw [Net.setArp_of_ne _ _ (by decide)]

theorem addressed_sport : (r.addressed s).sport = s.sport := by
  show (if r.giaddr ≠ 0 then (s.setArp arpServer r.siaddr).setArp arpGateway r.giaddr
    else s.setArp arpServer r.siaddr).sport = _
  split <;> rfl

theorem addressed_sent : (r.addressed s).sent = s.sent := by
  show (if r.giaddr ≠ 0 then (s.setArp arpServer r.siaddr).setArp arpGateway r.giaddr
    else s.setArp arpServer r.siaddr).sent = _
  split <;> rfl

end LeaseReply

/-! ## One reply -/

theorem Settings.forget_of_none {σ : Settings} (h : σ.extpath = none) : σ.forget = σ := by
  rw [Settings.forget, ← h]

/-- While `bootp` waits for a reply. -/
structure Waiting (xid : UInt32) (node : Node) (d : Bootp) : Prop where
  xid : d.xid = xid
  sport : d.net.sport = bootpClient
  node : (d.net.arptable arpClient).node = node
  plain : d.inEncapsulatedOptions = false

section Waiting

variable {xid : UInt32} {node : Node} {d d' : Bootp} {r : LeaseReply} {f : EthFrame}
  {polls rest : List Poll} {payload : List UInt8} {s s' : Net}

theorem Waiting.of_kept (h : Waiting xid node d) (hkept : Kept d.net s') (polls : List Poll) :
    Waiting xid node { d with net := s', polls } where
  xid := h.xid
  sport := hkept.sport.trans h.sport
  node := by
    rw [← h.node]
    exact congrArg (fun table => (table arpClient).node) hkept.arptable
  plain := h.plain

theorem lease_of_kept (d : Bootp) (hkept : Kept d.net s') (polls : List Poll) :
    ({ d with net := s', polls } : Bootp).lease = d.lease := by
  unfold Bootp.lease Bootp.settings Net.clientIp
  dsimp only
  rw [hkept.arptable, hkept.netmask]

/-- **The reply is read.** -/
theorem takeBootp_reply (load : List UInt8 → Bootp → Except Fault Bootp) (hw : Waiting xid node d)
    (hr : r.Encodes xid payload) (hmax : payload.length ≤ bootpdLen)
    (hpacket : ∀ i < payload.length, d.net.packet (42 + i) = pieceAt payload i) :
    ∃ d', takeBootp load d = .ok d' ∧ d'.polls = d.polls ∧ Waiting xid node d' ∧
      d'.net.ipSent = d.net.ipSent ∧ d'.lease = d.lease.receive r := by
  have hge := hr.length_ge
  have hvend : bpVend = 236 := rfl
  have hword : ∀ p, p + 4 ≤ 236 → d.net.packet.le32 (42 + p) = (pieceAt payload).le32 p :=
    fun p hp => Bytes.le32_congr fun i hi => by
      rw [Nat.add_assoc]
      exact hpacket _ (by omega)
  let d₀ : Bootp := { d with
    net := r.addressed d.net
    dhcpAddr := r.yiaddr
    data := fun i => d.net.packet (42 + i) }
  have htake : takeBootp load d = decodeReply load d₀ := by
    unfold takeBootp
    dsimp only
    rw [(hword 16 (by omega)).trans hr.yiaddr, (hword 20 (by omega)).trans hr.siaddr,
      (hword 24 (by omega)).trans hr.giaddr, if_pos r.siaddr_ne, if_pos r.yiaddr_ne]
    rfl
  have hat : d₀.At bpVend r.vend :=
    ⟨(Bytes.slice_congr fun i hi => hpacket (bpVend + i) (by omega)).trans hr.vend, by omega⟩
  obtain ⟨d', hframe, -, -, -, hsettings, hread⟩ := decodeReply_items load hat hw.plain r.fits
  have hnone := r.foldl_extpath (d₀.settings none).reset
  rw [hnone] at hread
  have hclient := hframe.arptable arpClient (by decide)
  rw [show d₀.net.arptable arpClient = _ from r.addressed_client d.net] at hclient
  refine ⟨d', htake.trans hread, hframe.polls, {
    xid := hframe.xid.trans hw.xid
    sport := hframe.sport.trans ((r.addressed_sport d.net).trans hw.sport)
    node := by rw [hclient, ← hw.node]
    plain := hframe.inEncapsulatedOptions.trans hw.plain }, ?_, ?_⟩
  · unfold Net.ipSent
    rw [hframe.sent, ← r.addressed_sent d.net]
  · have hserver := congrArg ArpEntry.ipaddr (hframe.arptable arpServer (by decide))
    -- But for the name of the host, the options start from what has been known before.
    have hstart : (d₀.settings none).reset.anonymous = Settings.anonymous
        { (d.settings none).anonymous.reset with
          netmask := defaultNetmask r.yiaddr
          gateway := if r.giaddr ≠ 0 then r.giaddr else (d.net.arptable arpGateway).ipaddr } := by
      rw [← r.addressed_gateway d.net]
      rfl
    have hforget : d'.settings none = r.items.foldl Item.settle (d₀.settings none).reset :=
      hsettings.trans (Settings.forget_of_none hnone)
    have hanonymous : (d'.settings none).anonymous =
        ((d.settings none).anonymous.receive r).anonymous := by
      rw [hforget, ← isPart_anonymous.items, hstart, isPart_anonymous.items]
      rfl
    unfold Bootp.lease Lease.receive
    rw [Net.clientIp, hclient, hframe.dhcpAddr, hserver, hanonymous, r.addressed_server d.net]

/-- **A frame with a reply** is taken. -/
theorem awaitBootpReply_arrives (hw : Waiting xid node d) (hpolls : d.polls = .frame f :: polls)
    (hr : r.Arrives xid node f) :
    ∃ d', awaitBootpReply d = .ok (true, d') ∧ d'.polls = polls ∧ Waiting xid node d' ∧
      d'.net.ipSent = d.net.ipSent ∧ d'.lease = d.lease.receive r := by
  obtain ⟨g, hcarries, hwhole, hport, hencodes, hhwaddr⟩ := hr
  obtain ⟨s, hinspect, hbrought⟩ := hcarries d.net
  have hlen := hwhole d.net s hinspect
  obtain ⟨k, hk, -⟩ := inspect_udp_load hinspect rfl
  have hframe := f.length_le
  have hge := hencodes.length_ge
  have hvend : bpVend = 236 := rfl
  have hfull : ethFrameLen = 1514 := rfl
  have hbuffer : bootpdLen = 1472 := rfl
  have hkept : Kept d.net s := (Kept.load d.net f).trans (inspect_kept hinspect)
  have hpacket : ∀ i < g.payload.length, s.packet (42 + i) = pieceAt g.payload i := fun i hi => by
    have hslice : pieceAt (s.packet.slice 42 g.payload.length) i = s.packet (42 + i) :=
      pieceAt_slice hi
    rw [← hslice, hbrought.payload]
  have hword : ∀ p, p + 4 ≤ 236 → s.packet.le32 (42 + p) = (pieceAt g.payload).le32 p :=
    fun p hp => Bytes.le32_congr fun i hi => by
      rw [Nat.add_assoc]
      exact hpacket _ (by omega)
  have hnode : nodeAt s.packet 70 = r.hwaddr := by
    rw [← hencodes.hwaddr]
    funext i
    unfold nodeAt
    rw [← hpacket (28 + i.val) (by omega), ← Nat.add_assoc]
  have hsport : s.sport = bootpClient := hkept.sport.trans hw.sport
  have haccept : awaitBootp d.xid s ⟨ethPIp, true, true⟩ = .ok (true, s) := by
    unfold awaitBootp
    rw [hbrought.destsock, hport, hsport, hnode, hkept.arptable, hw.node,
      show s.packet 42 = _ from hpacket 0 (by omega), hencodes.op, hword 4 (by omega), hencodes.xid,
      hword 20 (by omega), hencodes.siaddr, hw.xid]
    have hall : 42 + bpVend ≤ s.packetlen ∧ r.siaddr ≠ 0 ∧
        ((∀ i, r.hwaddr i = broadcastNode i) ∨ ∀ i, r.hwaddr i = node i) :=
      ⟨by omega, r.siaddr_ne, hhwaddr.imp (fun h i => by rw [h]) fun h i => by rw [h]⟩
    simp [hall]
  have hw₁ := hw.of_kept hkept polls
  obtain ⟨d', htake, hrest, hw', hsent, hlease⟩ := takeBootp_reply
    (loadExtension (polls.length + 1)) hw₁ hencodes (by omega) hpacket
  refine ⟨d', ?_, hrest, hw', hsent.trans hkept.ipSent, hlease.trans ?_⟩
  · unfold awaitBootpReply
    rw [hpolls, awaitReply, hinspect, ok_bind]
    dsimp only
    rw [haccept, ok_bind]
    dsimp only
    rw [if_pos rfl, pure_eq_ok, ok_bind]
    dsimp only
    rw [if_pos rfl, htake]
    rfl
  · rw [lease_of_kept d hkept polls]

/-- A frame that is nothing to somebody who waits for a reply. -/
def Unheard (xid : UInt32) (f : EthFrame) : Prop :=
  ∀ s : Net, s.sport = bootpClient → ∃ s' a, inspect (s.load f) = .ok (s', a) ∧
    ∀ x ∈ a, awaitBootp xid s' x = .ok (false, s')

theorem awaitBootpReply_unheard (hw : Waiting xid node d) (hpolls : d.polls = .frame f :: polls)
    (hf : Unheard xid f) : ∃ s₁, Kept d.net s₁ ∧
      awaitBootpReply d = awaitBootpReply { d with net := s₁, polls } := by
  obtain ⟨s, a, hinspect, hno⟩ := hf d.net hw.sport
  have hkept : Kept d.net s := (Kept.load d.net f).trans (inspect_kept hinspect)
  unfold awaitBootpReply
  rw [hpolls, awaitReply, hinspect, ok_bind, hw.xid]
  cases a with
  | none => exact ⟨s, hkept, rfl⟩
  | some a =>
    refine ⟨answerArp s a, hkept.trans (answerArp_kept s a), ?_⟩
    dsimp only
    rw [hno a rfl]
    rfl

/-- The time is over. -/
theorem awaitBootpReply_timeout (hpolls : d.polls = .empty true :: polls) :
    awaitBootpReply d = .ok (false, { d with polls }) := by
  unfold awaitBootpReply
  rw [hpolls]
  rfl

theorem awaitBootpReply_quiet (hpolls : d.polls = .empty false :: polls) :
    awaitBootpReply d = awaitBootpReply { d with polls } := by
  unfold awaitBootpReply
  rw [hpolls]
  rfl

/-! ## All the replies -/

/-- The polls that bring these replies, and those behind them when the time is over. -/
inductive Hearing (xid : UInt32) (node : Node) (rest : List Poll) :
    List Poll → List LeaseReply → Prop
  | ended : Hearing xid node rest (.empty true :: rest) []
  | quiet {polls : List Poll} {rs : List LeaseReply} : Hearing xid node rest polls rs →
      Hearing xid node rest (.empty false :: polls) rs
  | unheard {f : EthFrame} {polls : List Poll} {rs : List LeaseReply} : Unheard xid f →
      Hearing xid node rest polls rs → Hearing xid node rest (.frame f :: polls) rs
  | reply {f : EthFrame} {polls : List Poll} {r : LeaseReply} {rs : List LeaseReply} :
      r.Arrives xid node f → Hearing xid node rest polls rs →
      Hearing xid node rest (.frame f :: polls) (r :: rs)

/-- **All the replies that come in time** are taken, one after the other. -/
theorem bootpOffers_hearing {rs : List LeaseReply} {n : Nat} (h : Hearing xid node rest polls rs)
    (hw : Waiting xid node d) (hpolls : d.polls = polls) (hn : polls.length < n) :
    ∃ d', bootpOffers n d = .ok d' ∧ d'.polls = rest ∧ Waiting xid node d' ∧
      d'.net.ipSent = d.net.ipSent ∧ d'.lease = rs.foldl Lease.receive d.lease := by
  induction h generalizing d n with
  | ended =>
    obtain ⟨n, rfl⟩ : ∃ n', n = n' + 1 := ⟨n - 1, by omega⟩
    refine ⟨{ d with polls := rest }, ?_, rfl, hw.of_kept (.refl _) rest, rfl, rfl⟩
    rw [bootpOffers, awaitBootpReply_timeout hpolls]
    rfl
  | @quiet polls rs _ ih =>
    obtain ⟨n, rfl⟩ : ∃ n', n = n' + 1 := ⟨n - 1, by omega⟩
    obtain ⟨d', hoffers, hd'⟩ := ih (d := { d with polls }) (n := n + 1)
      (hw.of_kept (.refl _) polls) rfl (Nat.lt_of_succ_lt hn)
    refine ⟨d', ?_, hd'⟩
    rw [bootpOffers, awaitBootpReply_quiet hpolls]
    exact hoffers
  | @unheard f polls rs hf _ ih =>
    obtain ⟨n, rfl⟩ : ∃ n', n = n' + 1 := ⟨n - 1, by omega⟩
    obtain ⟨s₁, hkept, hskip⟩ := awaitBootpReply_unheard hw hpolls hf
    obtain ⟨d', hoffers, hrest, hw', hsent, hlease⟩ := ih (d := { d with net := s₁, polls })
      (n := n + 1) (hw.of_kept hkept polls) rfl (Nat.lt_of_succ_lt hn)
    rw [lease_of_kept d hkept polls] at hlease
    refine ⟨d', ?_, hrest, hw', hsent.trans hkept.ipSent, hlease⟩
    rw [bootpOffers, hskip]
    exact hoffers
  | @reply f polls r rs hr _ ih =>
    obtain ⟨n, rfl⟩ : ∃ n', n = n' + 1 := ⟨n - 1, by omega⟩
    obtain ⟨d₁, hreply, hpolls₁, hw₁, hsent₁, hlease₁⟩ := awaitBootpReply_arrives hw hpolls hr
    obtain ⟨d', hoffers, hrest, hw', hsent, hlease⟩ :=
      ih (n := n) hw₁ hpolls₁ (Nat.lt_of_succ_lt_succ hn)
    rw [hlease₁] at hlease
    refine ⟨d', ?_, hrest, hw', hsent.trans hsent₁, hlease⟩
    rw [bootpOffers, hreply, ok_bind]
    exact hoffers

end Waiting

end MbBootTv
