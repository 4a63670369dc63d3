import MbBootTv.Lib.Except
import MbBootTv.Net.Checksum
import MbBootTv.Strings

/-!
# The network card and the way a frame takes (`eb/nic.c`)

Every frame lands in the same buffer, `nic.packet`, on top of what the frames before it left there.
`await_reply` looks at one frame after the other: it drops those whose headers or checksums are
wrong (`inspect`), offers the others to whoever is waiting, answers ARP requests, and gives up at
the first poll without a frame after its time is over. The way out is `udp_transmit`, which may
have to wait for an ARP reply before the datagram can leave.

What the card polls is a list; the clock comes with the polls that find nothing.
-/

namespace MbBootTv

/-! ## Frames -/

/-- `ETH_FRAME_LEN` -/
def ethFrameLen : Nat := 1514

/-- `ETH_HLEN` -/
def ethHlen : Nat := 14

/-- `ETH_MAX_MTU` -/
def ethMaxMtu : Nat := 1500

/-- `ETH_P_IP` -/
def ethPIp : UInt16 := 0x0800

/-- `ETH_P_ARP` -/
def ethPArp : UInt16 := 0x0806

/-- `IP_UDP` -/
def ipUdp : UInt8 := 17

/-- `IP_BROADCAST` -/
def ipBroadcast : UInt32 := 0xFFFFFFFF

/-- What the driver hands over: a frame that fits `nic.packet`. -/
structure EthFrame where
  bytes : List UInt8
  length_le : bytes.length ≤ ethFrameLen

/-- `nic.poll`: nothing, with the time left or over, or a frame. -/
inductive Poll
  | empty (late : Bool)
  | frame (f : EthFrame)

/-- The address of a card. -/
abbrev Node := Fin 6 → UInt8

/-- `memcpy (node, p, ETH_ALEN)` -/
def nodeAt (m : Bytes) (pos : Nat) : Node := fun i => m (pos + i)

/-- `memcpy (p, node, ETH_ALEN)` -/
def putNode (m : Bytes) (pos : Nat) (n : Node) : Bytes :=
  m.copy pos (pieceAt (List.ofFn n)) 6

/-- `broadcast` -/
def broadcastNode : Node := fun _ => 0xFF

/-- `struct arptable_t` -/
structure ArpEntry where
  ipaddr : UInt32
  node : Node

/-- `ARP_CLIENT` -/
def arpClient : Fin 3 := 0

/-- `ARP_SERVER` -/
def arpServer : Fin 3 := 1

/-- `ARP_GATEWAY` -/
def arpGateway : Fin 3 := 2

/-- One call of `nic.transmit`. -/
structure Sent where
  dest : Node
  ptype : UInt16
  data : List UInt8

/-- `nic` and the other variables of `nic.c`, with what has been transmitted so far. -/
structure Net where
  packet : Bytes
  packetlen : Nat
  arptable : Fin 3 → ArpEntry
  netmask : UInt32
  sport : UInt16
  sent : List Sent

namespace Net

/-- The address of this machine. -/
def clientIp (s : Net) : UInt32 := (s.arptable arpClient).ipaddr

/-- A frame arrives. -/
def load (s : Net) (f : EthFrame) : Net :=
  { s with packet := s.packet.copy 0 (pieceAt f.bytes) f.bytes.length
           packetlen := f.bytes.length }

/-- `eth_transmit` -/
def ethTransmit (s : Net) (dest : Node) (ptype : UInt16) (data : List UInt8) : Net :=
  { s with sent := s.sent ++ [⟨dest, ptype, data⟩] }

end Net

/-- `ntohs` -/
def ntohs (x : UInt16) : UInt16 := bswap16 x

/-- `htons` -/
def htons (x : UInt16) : UInt16 := bswap16 x

/-! ## Headers -/

section Headers

variable (m : Bytes) (ip : Nat)

/-- `ntohs(ip->len)`, with the header at `ip`. -/
def ipLen : UInt16 := ntohs (m.le16 (ip + 2))

/-- `ip->frags` -/
def ipFrags : UInt16 := m.le16 (ip + 6)

/-- `ip->protocol` -/
def ipProtocol : UInt8 := m (ip + 9)

/-- `ip->src.s_addr` -/
def ipSrc : UInt32 := m.le32 (ip + 12)

/-- `ip->dest.s_addr` -/
def ipDest : UInt32 := m.le32 (ip + 16)

/-- `ntohs(udp->src)`, behind an IP header without options. -/
def udpSrc : UInt16 := ntohs (m.le16 (ip + 20))

/-- `ntohs(udp->dest)` -/
def udpDest : UInt16 := ntohs (m.le16 (ip + 22))

/-- `ntohs(udp->len)` -/
def udpLen : UInt16 := ntohs (m.le16 (ip + 24))

/-- `udp->chksum` -/
def udpChksum : UInt16 := m.le16 (ip + 26)

/-- `struct udp_pseudo_hdr` of the packet at `ip`. -/
def pseudoHdr : Bytes :=
  let hdr : Bytes := fun _ => 0
  let hdr := hdr.putLe 0 4 (ipSrc m ip).toNat
  let hdr := hdr.putLe 4 4 (ipDest m ip).toNat
  let hdr := hdr.putLe 9 1 (ipProtocol m ip).toNat
  hdr.putLe 10 2 (htons (ipLen m ip - 20)).toNat

/-- `tcpudpchksum`, in a buffer of `cap` bytes. A length below that of the header is taken for a
huge one. -/
def tcpudpchksum (cap : Nat) : Except Fault UInt16 :=
  let length := (UInt32.ofNat (ipLen m ip).toNat - 20).toNat
  if cap < ip + 20 + length then .error .outOfBounds
  else .ok (addIpchksums 12 (ipchksum (pseudoHdr m ip) 0 12) (ipchksum m (ip + 20) length))

end Headers

/-! ## `await_reply` -/

/-- What is known of a frame when it is offered: its type, and whether it has an IP and a UDP
header. -/
structure Arrived where
  ptype : UInt16
  ip : Bool
  udp : Bool

/-- The UDP header of a packet that has passed the checks for IP. -/
def inspectUdp (s : Net) (ptype : UInt16) (iplen : Nat) : Except Fault (Net × Option Arrived) :=
  if ipProtocol s.packet ethHlen = ipUdp ∧ ethHlen + 20 + 8 ≤ s.packetlen then
    if (UInt32.ofNat (ipLen s.packet ethHlen).toNat - UInt32.ofNat iplen).toNat <
        (udpLen s.packet ethHlen).toNat then .ok (s, none)
    else if udpChksum s.packet ethHlen = 0 then .ok (s, some ⟨ptype, true, true⟩)
    else do
      let chksum ← tcpudpchksum s.packet ethHlen ethFrameLen
      return (s, if chksum = 0 then some ⟨ptype, true, true⟩ else none)
  else .ok (s, some ⟨ptype, true, false⟩)

/-- The options of the IP header are deleted; `packetlen` is an `unsigned int`. -/
def deleteOptions (s : Net) (iplen : Nat) : Except Fault Net :=
  let ipoptlen := iplen - 20
  if ipoptlen = 0 then .ok s
  else
    let length := (UInt32.ofNat s.packetlen - UInt32.ofNat ipoptlen).toNat
    if ethFrameLen < ethHlen + iplen + length then .error .outOfBounds
    else .ok { s with
      packet := s.packet.copy (ethHlen + 20) (fun i => s.packet (ethHlen + iplen + i)) length
      packetlen := length }

/-- The IP header. -/
def inspectIp (s : Net) (ptype : UInt16) : Except Fault (Net × Option Arrived) :=
  let verhdrlen := s.packet ethHlen
  let iplen := (verhdrlen &&& 0xF).toNat * 4
  if verhdrlen < 0x45 ∨ 0x4F < verhdrlen then .ok (s, none)
  else if ipchksum s.packet ethHlen iplen ≠ 0 then .ok (s, none)
  else if ipFrags s.packet ethHlen &&& htons 0x3FFF ≠ 0 then .ok (s, none)
  else if ethMaxMtu < (ipLen s.packet ethHlen).toNat then .ok (s, none)
  else do
    let s ← deleteOptions s iplen
    inspectUdp s ptype iplen

/-- The checks of `await_reply`: nothing when they end in `continue`. -/
def inspect (s : Net) : Except Fault (Net × Option Arrived) :=
  if s.packetlen < ethHlen then .ok (s, none)
  else
    let ptype := (s.packet 12).toUInt16 <<< 8 ||| (s.packet 13).toUInt16
    if ptype = ethPIp ∧ ethHlen + 20 ≤ s.packetlen then inspectIp s ptype
    else .ok (s, some ⟨ptype, false, false⟩)

/-- The default action: an ARP request for this machine is turned around in place. -/
def answerArp (s : Net) (a : Arrived) : Net :=
  if a.ptype = ethPArp ∧ ethHlen + 28 ≤ s.packetlen then
    if s.packet.le16 20 = htons 1 ∧ s.packet.le32 38 = s.clientIp then
      let p := s.packet.putLe 20 2 (htons 2).toNat
      let p := p.copy 38 (fun i => p (28 + i)) 4
      let p := p.copy 32 (fun i => p (22 + i)) 6
      let p := p.putLe 28 4 s.clientIp.toNat
      let p := putNode p 22 (s.arptable arpClient).node
      { s with packet := p }.ethTransmit (nodeAt p 32) ethPArp (p.slice ethHlen 28)
    else s
  else s

/-- What is waited for: `reply (ival, ptr, ...)`. -/
abbrev ReplyTo := Net → Arrived → Except Fault (Bool × Net)

/-- `await_reply`: whether the reply came, and the polls that are left; `drain` when there is no
time at all to wait. -/
def awaitReply (reply : ReplyTo) (drain : Bool) :
    List Poll → Net → Except Fault (Bool × Net × List Poll)
  | [], _ => .error .fuel
  | .empty late :: polls, s =>
    if drain || late then .ok (false, s, polls) else awaitReply reply drain polls s
  | .frame f :: polls, s => do
    let (s, arrived) ← inspect (s.load f)
    match arrived with
    | none => awaitReply reply drain polls s
    | some a =>
      let (taken, s) ← reply s a
      if taken then return (true, s, polls) else awaitReply reply drain polls (answerArp s a)

/-- `await_qdrain` -/
def awaitQdrain : ReplyTo := fun s _ => .ok (false, s)

/-- `rx_qdrain` -/
def rxQdrain (polls : List Poll) (s : Net) : Except Fault (Net × List Poll) := do
  let (_, s, polls) ← awaitReply awaitQdrain true polls s
  return (s, polls)

/-! ## `udp_transmit` -/

/-- `build_ip_hdr`, at the start of a buffer. -/
def buildIpHdr (client destip : UInt32) (ttl protocol : UInt8) (optionLen len : Nat) (buf : Bytes) :
    Bytes :=
  let buf := buf.putLe 0 1 (0x45 + optionLen / 4)
  let buf := buf.putLe 1 1 0
  let buf := buf.putLe 2 2 (htons (UInt16.ofNat len)).toNat
  let buf := buf.putLe 4 2 0
  let buf := buf.putLe 6 2 0
  let buf := buf.putLe 8 1 ttl.toNat
  let buf := buf.putLe 9 1 protocol.toNat
  let buf := buf.putLe 10 2 0
  let buf := buf.putLe 12 4 client.toNat
  let buf := buf.putLe 16 4 destip.toNat
  buf.putLe 10 2 (ipchksum buf 0 (20 + optionLen)).toNat

/-- The UDP header of `build_udp_hdr`, without its checksum. -/
def putUdpHdr (srcsock destsock : UInt16) (len : Nat) (buf : Bytes) : Bytes :=
  let buf := buf.putLe 20 2 (htons srcsock).toNat
  let buf := buf.putLe 22 2 (htons destsock).toNat
  let buf := buf.putLe 24 2 (htons (UInt16.ofNat (len - 20))).toNat
  buf.putLe 26 2 0

/-- `build_udp_hdr`, in a buffer of `len` bytes. -/
def buildUdpHdr (client destip : UInt32) (srcsock destsock : UInt16) (ttl : UInt8) (len : Nat)
    (buf : Bytes) : Except Fault Bytes := do
  let buf := buildIpHdr client destip ttl ipUdp 0 len buf
  let buf := putUdpHdr srcsock destsock len buf
  let chksum ← tcpudpchksum buf 0 len
  return buf.putLe 26 2 (if chksum = 0 then 0xFFFF else chksum).toNat

/-- `await_arp` -/
def awaitArp (ival : Fin 3) (ptr : UInt32) : ReplyTo := fun s a =>
  .ok <|
    if a.ptype ≠ ethPArp ∨ s.packetlen < ethHlen + 28 then (false, s)
    else if s.packet.le16 20 ≠ htons 2 ∨ s.packet.le32 28 ≠ ptr then (false, s)
    else
      let entry := { s.arptable ival with node := nodeAt s.packet 22 }
      (true, { s with arptable := Function.update s.arptable ival entry })

/-- The ARP request for `destip`. -/
def arpRequest (s : Net) (destip : UInt32) : List UInt8 :=
  let req : Bytes := fun _ => 0
  let req := req.putLe 0 2 (htons 1).toNat
  let req := req.putLe 2 2 (htons ethPIp).toNat
  let req := req.putLe 4 1 6
  let req := req.putLe 5 1 4
  let req := req.putLe 6 2 (htons 1).toNat
  let req := putNode req 8 (s.arptable arpClient).node
  let req := req.putLe 14 4 s.clientIp.toNat
  let req := req.putLe 24 4 destip.toNat
  req.slice 0 28

/-- `MAX_ARP_RETRIES` -/
def maxArpRetries : Nat := 20

/-- `for (retry = 1; retry <= MAX_ARP_RETRIES; retry++)`, with that many rounds to go. -/
def arpRetries (arpentry : Fin 3) (destip : UInt32) :
    Nat → List Poll → Net → Except Fault (Bool × Net × List Poll)
  | 0, polls, s => .ok (false, s, polls)
  | n + 1, polls, s => do
    let (found, s, polls) ← awaitReply (awaitArp arpentry destip) false polls
      (s.ethTransmit broadcastNode ethPArp (arpRequest s destip))
    if found then return (true, s, polls) else arpRetries arpentry destip n polls s

/-- The next hop on the way to `destip`. -/
def nextHop (s : Net) (destip : UInt32) : UInt32 :=
  if destip &&& s.netmask ≠ s.clientIp &&& s.netmask ∧ (s.arptable arpGateway).ipaddr ≠ 0 then
    (s.arptable arpGateway).ipaddr
  else destip

/-- The first entry with that address. -/
def findArp (s : Net) (destip : UInt32) : Option (Fin 3) :=
  (List.finRange 3).find? fun i => (s.arptable i).ipaddr = destip

/-- `ip_transmit`, of the `len` bytes in `buf`. -/
def ipTransmit (len : Nat) (buf : Bytes) (polls : List Poll) (s : Net) :
    Except Fault (Bool × Net × List Poll) :=
  let destip := ipDest buf 0
  if destip = ipBroadcast then
    .ok (true, s.ethTransmit broadcastNode ethPIp (buf.slice 0 len), polls)
  else
    let destip := nextHop s destip
    match findArp s destip with
    | none => .ok (false, s, polls)
    | some arpentry =>
      if ∀ i, (s.arptable arpentry).node i = 0 then do
        let (found, s, polls) ← arpRetries arpentry destip maxArpRetries polls s
        if found then
          return (true, s.ethTransmit (s.arptable arpentry).node ethPIp (buf.slice 0 len), polls)
        else return (false, s, polls)
      else .ok (true, s.ethTransmit (s.arptable arpentry).node ethPIp (buf.slice 0 len), polls)

/-- `udp_transmit`: with it the buffer, which has its headers now. -/
def udpTransmit (destip : UInt32) (srcsock destsock : UInt16) (len : Nat) (buf : Bytes)
    (polls : List Poll) (s : Net) : Except Fault (Bool × Bytes × Net × List Poll) := do
  let s := { s with sport := srcsock }
  let buf ← buildUdpHdr s.clientIp destip srcsock destsock 60 len buf
  let (sent, s, polls) ← ipTransmit len buf polls s
  return (sent, buf, s, polls)

end MbBootTv
