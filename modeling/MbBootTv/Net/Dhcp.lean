import MbBootTv.Net.Tftp

/-!
# Finding a server (`bootp` and `decode_rfc1533` in `eb/nic.c`)

A reply is copied into `bootp_data`, and its options are read there. One of them may name a file with
more options: `tftp` puts its blocks behind the options of the reply, one after the other, and with the
last one they are all read in the same way. So `decode_rfc1533` and `tftp` call each other, and what
they share is one state.

`bootp` waits in two ways: for offers until the time is over, and for the answer to its request. A
reply that is taken when the time has just run out is followed by a poll that says so.
-/

namespace MbBootTv

/-! ## Constants -/

/-- `sizeof(struct bootpip_t)` -/
def bootpipLen : Nat := 576

/-- `sizeof(struct bootpd_t)` -/
def bootpdLen : Nat := 1472

/-- `bp_vend`, in `struct bootp_t`. -/
def bpVend : Nat := 236

/-- `DHCP_OPT_LEN` -/
def dhcpOptLen : Nat := 312

/-- `MAX_BOOTP_EXTLEN` -/
def maxBootpExtlen : Nat := ethMaxMtu - bootpipLen

/-- `MAX_BOOTP_RETRIES` -/
def maxBootpRetries : Nat := 4

/-- `BOOTP_SERVER` -/
def bootpServer : UInt16 := 67

/-- `BOOTP_CLIENT` -/
def bootpClient : UInt16 := 68

/-- `BOOTP_REQUEST` -/
def bootpRequest : UInt8 := 1

/-- `BOOTP_REPLY` -/
def bootpReply : UInt8 := 2

/-- `DHCPOFFER` -/
def dhcpOffer : UInt8 := 2

/-- `DHCPACK` -/
def dhcpAck : UInt8 := 5

/-- `RFC1533_COOKIE` -/
def rfc1533Cookie : List UInt8 := [99, 130, 83, 99]

/-- `RFC1533_PAD` -/
def rfc1533Pad : UInt8 := 0

/-- `RFC1533_NETMASK` -/
def rfc1533Netmask : UInt8 := 1

/-- `RFC1533_GATEWAY` -/
def rfc1533Gateway : UInt8 := 3

/-- `RFC1533_HOSTNAME` -/
def rfc1533Hostname : UInt8 := 12

/-- `RFC1533_EXTENSIONPATH` -/
def rfc1533Extensionpath : UInt8 := 18

/-- `RFC2132_MSG_TYPE` -/
def rfc2132MsgType : UInt8 := 53

/-- `RFC2132_SRV_ID` -/
def rfc2132SrvId : UInt8 := 54

/-- `RFC1533_VENDOR_MAGIC` -/
def rfc1533VendorMagic : UInt8 := 128

/-- `RFC1533_VENDOR_ADDPARM` -/
def rfc1533VendorAddparm : UInt8 := 129

/-- `RFC1533_VENDOR_ETHERBOOT_ENCAP` -/
def rfc1533VendorEtherbootEncap : UInt8 := 150

/-- `RFC1533_END` -/
def rfc1533End : UInt8 := 255

/-- `vendorext_magic` -/
def vendorextMagic : List UInt8 := [0xE4, 0x45, 0x74, 0x68]

/-- `sizeof(fname)` -/
def fnameLen : Nat := 64

/-! ## The state -/

/-- The variables of `nic.c`. A pointer into `bootp_data` is an index. -/
structure Bootp where
  net : Net
  tftp : Tftp
  polls : List Poll
  data : Bytes
  hostname : Option Nat
  hostnamelen : UInt8
  endOfRfc1533 : Option Nat
  addparam : Option Nat
  addparamlen : UInt8
  vendorextIsvalid : Nat
  dhcpReply : UInt8
  dhcpServer : UInt32
  dhcpAddr : UInt32
  xid : UInt32
  extdata : Nat
  extend : Nat
  inEncapsulatedOptions : Bool

namespace Bootp

/-- `*p` -/
def byte (d : Bootp) (p : Nat) : Except Fault UInt8 := loadByte d.data bootpdLen p

/-- The four bytes at `p`. -/
def word (d : Bootp) (p : Nat) : Except Fault UInt32 :=
  if bootpdLen < p + 4 then .error .outOfBounds else .ok (d.data.le32 p)

end Bootp

/-- `arptable[i].ipaddr.s_addr = ipaddr` -/
def Net.setIpaddr (s : Net) (i : Fin 3) (ipaddr : UInt32) : Net :=
  { s with arptable := Function.update s.arptable i { s.arptable i with ipaddr } }

/-- And `memset (arptable[i].node, 0, ETH_ALEN)`. -/
def Net.setArp (s : Net) (i : Fin 3) (ipaddr : UInt32) : Net :=
  { s with arptable := Function.update s.arptable i ⟨ipaddr, fun _ => 0⟩ }

/-! ## Options -/

/-- The option `c` at `p`, unless it changes the course of the loop. -/
def decodeOption (c : UInt8) (p : Nat) (d : Bootp) : Except Fault Bootp :=
  if d.inEncapsulatedOptions = false ∧ c = rfc1533Netmask then do
    let netmask ← d.word (p + 2)
    return { d with net := { d.net with netmask } }
  else if d.inEncapsulatedOptions = false ∧ c = rfc1533Gateway then do
    let len ← d.byte (p + 1)
    if 4 ≤ len.toNat then do
      let ipaddr ← d.word (p + 2)
      return { d with net := d.net.setIpaddr arpGateway ipaddr }
    else return d
  else if d.inEncapsulatedOptions = false ∧ c = rfc2132MsgType then do
    let dhcpReply ← d.byte (p + 2)
    return { d with dhcpReply }
  else if d.inEncapsulatedOptions = false ∧ c = rfc2132SrvId then do
    let dhcpServer ← d.word (p + 2)
    return { d with dhcpServer }
  else if d.inEncapsulatedOptions = false ∧ c = rfc1533Hostname then do
    let hostnamelen ← d.byte (p + 1)
    return { d with hostname := some (p + 2), hostnamelen }
  else if c = rfc1533VendorMagic then do
    let len ← d.byte (p + 1)
    if len.toNat < 6 then return d
    else if bootpdLen < p + 6 then .error .outOfBounds
    else if d.data.slice (p + 2) 4 ≠ vendorextMagic then return d
    else do
      let major ← d.byte (p + 6)
      return if major = 0 then { d with vendorextIsvalid := d.vendorextIsvalid + 1 } else d
  else if c = rfc1533VendorAddparm then do
    let addparamlen ← d.byte (p + 1)
    return { d with addparam := some (p + 2), addparamlen }
  else .ok d

/-- Behind the last option: the file of the option at `extpath` is loaded. -/
def decodeEnd (load : List UInt8 → Bootp → Except Fault Bootp) (endp : Nat) (extpath : Option Nat)
    (d : Bootp) : Except Fault Bootp :=
  let d := { d with extdata := endp, extend := endp }
  match extpath with
  | none => .ok d
  | some e => do
    let len ← d.byte (e + 1)
    if bootpdLen < e + 2 + len.toNat then .error .outOfBounds
    else if fnameLen ≤ len.toNat then .error .overrun
    else load ((d.data.slice (e + 2) len.toNat).takeWhile (· ≠ 0)) d

/-- `while (p < endp)`: where the options end, the last `extpath`, and the new state. -/
def decodeLoop (load : List UInt8 → Bootp → Except Fault Bootp) :
    Nat → Nat → Nat → Option Nat → Bootp → Except Fault (Nat × Option Nat × Bootp)
  | 0, _, _, _, _ => .error .fuel
  | n + 1, p, endp, extpath, d =>
    if endp ≤ p then .ok (endp, extpath, d)
    else do
      let c ← d.byte p
      if c = rfc1533Pad then decodeLoop load n (p + 1) endp extpath d
      else if c = rfc1533End then return (p, extpath, { d with endOfRfc1533 := some p })
      else do
        let (extpath, d) ←
          if c = rfc1533Extensionpath then pure (some p, d)
          else if d.inEncapsulatedOptions = false ∧ c = rfc1533VendorEtherbootEncap then do
            let len ← d.byte (p + 1)
            let (stop, inner, d) ← decodeLoop load n (p + 2) (p + 2 + len.toNat) none
              { d with inEncapsulatedOptions := true }
            let d ← decodeEnd load stop inner d
            pure (extpath, { d with inEncapsulatedOptions := false })
          else do
            let d ← decodeOption c p d
            pure (extpath, d)
        let len ← d.byte (p + 1)
        decodeLoop load n (p + len.toNat + 2) endp extpath d

/-- More than the loop ever takes. -/
def decodeFuel : Nat := 2 * bootpdLen

/-- `decode_rfc1533 (bp_vend, 0, DHCP_OPT_LEN + MAX_BOOTP_EXTLEN, 1)` -/
def decodeReply (load : List UInt8 → Bootp → Except Fault Bootp) (d : Bootp) : Except Fault Bootp :=
  let d := { d with
    endOfRfc1533 := none
    vendorextIsvalid := 0
    addparam := none
    addparamlen := 0 }
  if d.data.slice bpVend 4 ≠ rfc1533Cookie then .ok d
  else do
    let p := bpVend + 4
    let (stop, extpath, d) ← decodeLoop load decodeFuel p (p + (dhcpOptLen + maxBootpExtlen)) none d
    decodeEnd load stop extpath d

/-- `decode_rfc1533`, of a block of a file. -/
def decodeBlock (load : List UInt8 → Bootp → Except Fault Bootp) (d : Bootp) (call : TftpCall) :
    Except Fault (Int32 × Bootp) :=
  if call.block = 1 ∧ call.data.slice 0 4 ≠ rfc1533Cookie then .ok (0, d)
  else
    let p := if call.block = 1 then 4 else 0
    let len := (if call.block = 1 then call.len - 4 else call.len).toNat
    -- A length below zero is a large one, with which the sum wraps around and passes.
    if 2 ^ 31 ≤ len then .error .overrun
    else if bootpdLen < d.extend + len then
      if d.extdata < bootpdLen then
        .ok (0, { d with data := d.data.putLe d.extdata 1 rfc1533End.toNat })
      else .error .overrun
    else
      let d := { d with
        data := d.data.copy d.extend (fun i => call.data (p + i)) len
        extend := d.extend + len }
      if call.eof then do
        let (stop, _, d) ← decodeLoop load decodeFuel d.extdata d.extend none d
        return (1, { d with extdata := stop, extend := stop })
      else .ok (1, d)

/-! ## The file with more options -/

/-- What the callback makes of the blocks, one after the other, and its last answer. -/
def decodeBlocks (load : List UInt8 → Bootp → Except Fault Bootp) :
    List TftpCall → Int32 → Bootp → Except Fault (Int32 × Bootp)
  | [], rc, d => .ok (rc, d)
  | call :: calls, _, d => do
    let (rc, d) ← decodeBlock load d call
    decodeBlocks load calls rc d

/-- What the callback answers. Behind the last block it makes no difference. -/
def decodeSink (d : Bootp) : TftpSink := fun calls call =>
  if call.eof then 1
  else
    match decodeBlocks (fun _ d => .ok d) (calls ++ [call]) 0 d with
    | .ok (rc, _) => rc
    | .error _ => 0

/-- `tftp (fname, decode_rfc1533)`. Before its last block the callback does nothing but copy, and behind
it `tftp` is done: so what it does is put behind the transfer. -/
def loadExtension : Nat → List UInt8 → Bootp → Except Fault Bootp
  | 0, _, _ => .error .fuel
  | n + 1, fname, d => do
    let (_, calls, t, s, polls) ← MbBootTv.tftp fname (decodeSink d) d.tftp d.net d.polls
    let (_, d) ← decodeBlocks (loadExtension n) calls 0 { d with tftp := t, net := s, polls }
    return d

/-! ## Replies -/

/-- `default_netmask`: the first byte of an address is the lowest one. -/
def defaultNetmask (ipaddr : UInt32) : UInt32 :=
  if ipaddr.toNat % 256 ≤ 127 then 0xFF
  else if ipaddr.toNat % 256 < 192 then 0xFFFF
  else 0xFFFFFF

/-- `await_bootp`, of which a reply is taken. -/
def awaitBootp (xid : UInt32) : ReplyTo := fun s a =>
  .ok (a.udp ∧ 42 + bpVend ≤ s.packetlen ∧ udpDest s.packet ethHlen = s.sport ∧
    s.packet 42 = bootpReply ∧ s.packet.le32 46 = xid ∧ s.packet.le32 62 ≠ 0 ∧
    ((∀ i, nodeAt s.packet 70 i = broadcastNode i) ∨
      ∀ i, nodeAt s.packet 70 i = (s.arptable arpClient).node i), s)

/-- `await_bootp`: what becomes of it. -/
def takeBootp (load : List UInt8 → Bootp → Except Fault Bootp) (d : Bootp) : Except Fault Bootp :=
  let m := d.net.packet
  let yiaddr := m.le32 58
  let siaddr := m.le32 62
  let giaddr := m.le32 66
  let net := if siaddr ≠ 0 then d.net.setArp arpServer siaddr else d.net
  let net := if giaddr ≠ 0 then net.setArp arpGateway giaddr else net
  if yiaddr ≠ 0 then
    let net := net.setIpaddr arpClient yiaddr
    decodeReply load { d with
      net := { net with netmask := defaultNetmask yiaddr }
      dhcpAddr := yiaddr
      data := fun i => m (42 + i) }
  else .ok { d with net }

/-- `await_reply (await_bootp, 0, NULL, timeout)` -/
def awaitBootpReply (d : Bootp) : Except Fault (Bool × Bootp) := do
  let (taken, s, polls) ← awaitReply (awaitBootp d.xid) false d.polls d.net
  let d := { d with net := s, polls }
  if taken then do
    let d ← takeBootp (loadExtension (polls.length + 1)) d
    return (true, d)
  else return (false, d)

/-! ## `bootp` -/

/-- `nic.dev.devid` -/
structure DevId where
  busType : UInt8
  vendorId : UInt16
  deviceId : UInt16

/-- `dhcp_machine_info` -/
def dhcpMachineInfo (id : DevId) : List UInt8 :=
  [rfc1533VendorEtherbootEncap, 11, 175, 5, id.busType, id.vendorId.toUInt8,
    (id.vendorId >>> 8).toUInt8, id.deviceId.toUInt8, (id.deviceId >>> 8).toUInt8, 177, 2, 3, 0]

/-- `dhcpdiscover` -/
def dhcpdiscover : List UInt8 :=
  [53, 1, 1, 57, 2, 5, 220, 60, 13] ++ ascii "Etherboot-1.1" ++ [55, 4, 1, 3, 12, 43]

/-- `dhcprequest` -/
def dhcprequest : List UInt8 :=
  [53, 1, 3, 54, 4, 0, 0, 0, 0, 50, 4, 0, 0, 0, 0, 57, 2, 5, 220, 60, 13] ++
    ascii "Etherboot-1.1" ++ [55, 9, 1, 3, 12, 43, 17, 128, 129, 130, 150]

/-- A list is copied to `pos`. -/
def putBytes (b : Bytes) (pos : Nat) (l : List UInt8) : Bytes := b.copy pos (pieceAt l) l.length

/-- The buffer `ip` before the first round, of which the options are for a discovery. -/
def bootpDiscover (id : DevId) (xid : UInt32) (node : Node) : Bytes :=
  let ip : Bytes := fun _ => 0
  let ip := ip.putLe 28 1 bootpRequest.toNat
  let ip := ip.putLe 29 1 1
  let ip := ip.putLe 30 1 6
  let ip := ip.putLe 32 4 xid.toNat
  let ip := putNode ip 56 node
  let vend := rfc1533Cookie ++ dhcpdiscover ++ dhcpMachineInfo id ++ [rfc1533End]
  putBytes ip (28 + bpVend) vend

/-- `Construct the DHCPREQUEST packet` -/
def bootpRequestPacket (id : DevId) (d : Bootp) (ip : Bytes) : Bytes :=
  let vend := 28 + bpVend
  let ip := putBytes ip vend rfc1533Cookie
  let ip := putBytes ip (vend + 4) dhcprequest
  let ip := ip.putLe (vend + 9) 4 d.dhcpServer.toNat
  let ip := ip.putLe (vend + 15) 4 d.dhcpAddr.toNat
  putBytes ip (vend + 4 + dhcprequest.length) (dhcpMachineInfo id ++ [rfc1533End])

/-- `udp_transmit (IP_BROADCAST, BOOTP_CLIENT, BOOTP_SERVER, sizeof(struct bootpip_t), &ip)` -/
def bootpTransmit (ip : Bytes) (d : Bootp) : Except Fault (Bytes × Bootp) := do
  let (_, ip, s, polls) ← udpTransmit ipBroadcast bootpClient bootpServer bootpipLen ip d.polls d.net
  return (ip, { d with net := s, polls })

/-- `while ( remaining_time > 0 )`; a round takes a poll at least. -/
def bootpOffers : Nat → Bootp → Except Fault Bootp
  | 0, _ => .error .fuel
  | n + 1, d => do
    let (taken, d) ← awaitBootpReply d
    if taken then bootpOffers n d else return d

/-- `for (reqretry = 0; reqretry < MAX_BOOTP_RETRIES; )`, with that many rounds to go. -/
def bootpRequests : Nat → Bytes → Bootp → Except Fault (Bool × Bytes × Bootp)
  | 0, ip, d => .ok (false, ip, d)
  | n + 1, ip, d => do
    let (ip, d) ← bootpTransmit ip d
    let (taken, d) ← awaitBootpReply { d with dhcpReply := 0 }
    if taken = false then bootpRequests n ip d
    else if d.dhcpReply ≠ dhcpAck then bootpRequests n ip d
    else return (true, ip, { d with dhcpReply := 0 })

/-- `Kill arptable to avoid keeping stale entries` -/
def Net.forgetArp (s : Net) : Net :=
  { s with arptable := fun i =>
      ⟨0, if i = arpClient then (s.arptable arpClient).node else fun _ => 0⟩ }

/-- `for (retry = 0; retry < MAX_BOOTP_RETRIES; )`, with that many rounds to go. `secs` is the time in
seconds, when as many rounds are left. -/
def bootpRounds (id : DevId) (secs : Nat → UInt16) : Nat → Bytes → Bootp → Except Fault (Bool × Bootp)
  | 0, _, d => .ok (false, d)
  | n + 1, ip, d => do
    let (s, polls) ← rxQdrain d.polls d.net
    let (ip, d) ← bootpTransmit ip { d with net := s.forgetArp, polls }
    let d ← bootpOffers (d.polls.length + 1) d
    if d.net.clientIp = 0 then bootpRounds id secs n ip d
    else if d.dhcpReply ≠ dhcpOffer then return (true, d)
    else do
      let d := { d with dhcpReply := 0 }
      let (done, ip, d) ← bootpRequests maxBootpRetries (bootpRequestPacket id d ip) d
      if done then return (true, d)
      else bootpRounds id secs n (ip.putLe 36 2 (htons (secs n)).toNat) d

/-- `bootp`, at the time `starttime`. -/
def bootp (id : DevId) (starttime : UInt32) (secs : Nat → UInt16) (d : Bootp) :
    Except Fault (Bool × Bootp) :=
  let node := (d.net.arptable arpClient).node
  let ticks : Bytes := fun i => (starttime >>> UInt32.ofNat (24 - 8 * i)).toUInt8
  let xid := Bytes.le32 (fun i => if h : i + 2 < 6 then node ⟨i + 2, h⟩ else 0) 0 + ticks.le32 0
  bootpRounds id secs maxBootpRetries (bootpDiscover id xid node) { d with xid }

end MbBootTv
