import MbBootTv.Console.Printk
import MbBootTv.Net.Nic

/-!
# Fetching a file (`tftp` in `eb/nic.c`)

`tftp_block` fetches one block: it sends the request or waits where the last call stopped, answers
every packet with an acknowledgement, and sends the last packet again when nothing comes. `tftp`
hands the blocks to a callback, one after the other, until the callback or the server is done.

A packet is looked at where `await_reply` has left it, with the UDP payload at byte 42. The payload
that the callback gets is still there: the acknowledgement is sent before the callback is called.
-/

namespace MbBootTv

/-! ## Strings (`eb/misc.c`) -/

/-- `*a & ~0x20`, of a signed `char`. -/
def foldCase (c : UInt8) : Int := (c.toInt8 &&& ~~~0x20).toInt

/-- `strcasecmp`, of a literal and the string at `p`. -/
def strcasecmp (b : Bytes) (cap : Nat) : List UInt8 → Nat → Except Fault Int
  | [], p => do
    let y ← loadByte b cap p
    return foldCase 0 - foldCase y
  | x :: a, p => do
    let y ← loadByte b cap p
    if x ≠ 0 ∧ y ≠ 0 ∧ foldCase x = foldCase y then strcasecmp b cap a (p + 1)
    else return foldCase x - foldCase y

/-- The loop of `strtoul`, with `n` bytes from `p` on. -/
def decimalLoop (b : Bytes) : Nat → Nat → UInt32 → Except Fault (UInt32 × Nat)
  | _, 0, _ => .error .outOfBounds
  | p, n + 1, ret =>
    if '0'.toUInt8 ≤ b p ∧ b p ≤ '9'.toUInt8 then
      decimalLoop b (p + 1) n (ret * 10 + (b p - '0'.toUInt8).toUInt32)
    else .ok (ret, p)

/-- `strtoul (p, &p, 10)` -/
def strtoul (b : Bytes) (cap p : Nat) : Except Fault (UInt32 × Nat) :=
  decimalLoop b p (cap - p) 0

/-! ## One block -/

/-- `TFTP_PORT` -/
def tftpPort : UInt16 := 69

/-- `TFTP_DEFAULTSIZE_PACKET` -/
def tftpDefaultsizePacket : Nat := 512

/-- `TFTP_MAX_PACKET` -/
def tftpMaxPacket : Nat := 1432

/-- `TFTP_RRQ` -/
def tftpRrq : UInt16 := 1

/-- `TFTP_DATA` -/
def tftpData : UInt16 := 3

/-- `TFTP_ACK` -/
def tftpAck : UInt16 := 4

/-- `TFTP_ERROR` -/
def tftpError : UInt16 := 5

/-- `TFTP_OACK` -/
def tftpOack : UInt16 := 6

/-- `TFTP_MIN_PACKET` -/
def tftpMinPacket : UInt16 := 32

/-- `MAX_TFTP_RETRIES` -/
def maxTftpRetries : Nat := 20

/-- `struct tftpreq_info_t` -/
structure TftpReqInfo where
  name : List UInt8
  port : UInt16
  blksize : UInt16

/-- `struct tftpblk_info_t`, with `data` as an index into `nic.packet`. -/
structure TftpBlkInfo where
  data : Nat
  block : UInt32
  len : UInt32
  eof : Bool

/-- The static variables of `tftp_block`. -/
structure Tftp where
  lport : UInt16
  rport : UInt16
  xmit : Bytes
  xmitlen : UInt16
  blockidx : UInt16
  retry : UInt16
  blksize : Int32

/-- Their initial values. -/
def Tftp.initial : Tftp := ⟨2000, tftpPort, fun _ => 0, 0, 0, 0, 0⟩

/-- `rcvd->opcode` -/
def tftpOpcode (s : Net) : UInt16 := htons (s.packet.le16 42)

/-- `ntohs(rcvd->u.data.block)` -/
def tftpBlockOf (s : Net) : UInt16 := ntohs (s.packet.le16 44)

/-- `recvlen` -/
def tftpRecvlen (s : Net) : UInt16 := udpLen s.packet ethHlen - 10

/-- `await_tftp` -/
def awaitTftp (ival : UInt16) : ReplyTo := fun s a =>
  .ok (a.udp ∧ s.clientIp = ipDest s.packet ethHlen ∧ udpDest s.packet ethHlen = ival, s)

/-- The request: `sprintf` into `xmit.u.rrq`. -/
def tftpRequest (request : TftpReqInfo) (t : Tftp) : Except Fault Tftp := do
  let xmit := t.xmit.putLe 28 2 (htons tftpRrq).toNat
  let out ← vsprintf (ascii "%s%coctet%cblksize%c%d")
    [.str (some request.name), .word 0, .word 0, .word 0, .word request.blksize.toUInt32]
  if tftpDefaultsizePacket < out.text.length + 1 then .error .overrun
  else return { t with
    xmit := xmit.copy 30 (pieceAt (out.text ++ [0])) (out.text.length + 1)
    xmitlen := UInt16.ofNat (30 + out.text.length + 1)
    blockidx := 0
    retry := 0
    blksize := 512
    lport := t.lport + 1
    rport := request.port }

/-- `udp_transmit` of `xmit`. -/
def tftpTransmit (t : Tftp) (s : Net) (polls : List Poll) :
    Except Fault (Bool × Tftp × Net × List Poll) := do
  let (sent, xmit, s, polls) ← udpTransmit (s.arptable arpServer).ipaddr t.lport t.rport
    t.xmitlen.toNat t.xmit polls s
  return (sent, { t with xmit }, s, polls)

/-- `No packet received`: whether the last packet is to be sent again. -/
def tftpTimeout (t : Tftp) : Bool × Tftp :=
  if maxTftpRetries < t.retry.toNat then (false, { t with retry := t.retry + 1 })
  else (true, { t with
    retry := t.retry + 1
    lport := if t.blockidx = 0 then t.lport + 1 else t.lport })

/-- `Check for blksize option honoured`: where the string at `p` is to be skipped from, and the block
size. -/
def oackOption (b : Bytes) (cap p : Nat) (blksize : Int32) : Except Fault (Nat × Int32) := do
  let differs ← strcasecmp b cap (ascii "blksize") p
  if differs ≠ 0 then return (p, blksize)
  else do
    let stop ← loadByte b cap (p + 7)
    if stop ≠ 0 then return (p, blksize)
    else do
      let (v, p) ← strtoul b cap (p + 8)
      return (p + 1, v.toInt32)

/-- The loop over the options, with `e` behind the last place where one can start. -/
def oackOptions (b : Bytes) (cap e : Nat) : Nat → Nat → Int32 → Except Fault Int32
  | 0, _, _ => .error .fuel
  | n + 1, p, blksize =>
    if e ≤ p then .ok blksize
    else do
      let (p, blksize) ← oackOption b cap p blksize
      let z ← scan (· = 0) b p (cap - p)
      oackOptions b cap e n (z + 1) blksize

/-- What follows a packet. -/
inductive TftpNext
  /-- `return (0)` -/
  | abort
  /-- The error is sent, and then `return (0)`. -/
  | refuse
  /-- The acknowledgement is sent, with the block if there is one. -/
  | acknowledge (block : Option TftpBlkInfo)

/-- `Send ACK` -/
def Tftp.ack (t : Tftp) : Tftp :=
  { t with
    xmit := (t.xmit.putLe 28 2 (htons tftpAck).toNat).putLe 30 2 (htons t.blockidx).toNat
    xmitlen := tftpMinPacket }

/-- `Incorrect blksize - error and abort` -/
def Tftp.refuse (t : Tftp) : Tftp :=
  { t with
    xmit := ((t.xmit.putLe 28 2 (htons tftpError).toNat).putLe 30 2 8).copy 32
      (pieceAt (ascii "RFC1782 error" ++ [0])) 14
    xmitlen := 46 }

/-- `case TFTP_OACK` -/
def tftpOptions (request : Option TftpReqInfo) (t : Tftp) (s : Net) :
    Except Fault (TftpNext × Tftp × Net) :=
  let recvlen := (tftpRecvlen s).toNat
  if ethFrameLen < 44 + recvlen then .error .overrun
  else
    -- Without a byte of options it is the opcode that loses its second byte.
    let s := { s with packet := s.packet.fill (43 + recvlen) 0 1 }
    match request with
    | none => .ok (.acknowledge none, t.ack, s)
    | some request =>
      if t.blockidx ≠ 0 then .ok (.acknowledge none, t.ack, s)
      else do
        let blksize ← if recvlen ≤ tftpMaxPacket then
            oackOptions s.packet ethFrameLen (34 + recvlen) ethFrameLen 44 t.blksize
          else pure t.blksize
        let t := { t with blksize }
        if blksize < 512 ∨ request.blksize.toUInt32.toInt32 < blksize then
          return (.refuse, t.refuse, s)
        else return (.acknowledge none, t.ack, s)

/-- `case TFTP_DATA` -/
def tftpBlockData (t : Tftp) (s : Net) : Option TftpBlkInfo × Tftp :=
  let recvlen := tftpRecvlen s
  if (tftpBlockOf s).toNat ≠ t.blockidx.toNat + 1 then (none, t.ack)
  else if (t.blksize.toUInt32 + 2).toNat < recvlen.toNat then (none, t.ack)
  else
    let len := recvlen.toUInt32 - 2
    let eof : Bool := len.toUInt16.toUInt32.toInt32 < t.blksize
    let t := { t with
      blockidx := t.blockidx + 1
      blksize := if eof then 0 else t.blksize }
    (some ⟨46, t.blockidx.toUInt32, len, eof⟩, t.ack)

/-- What `case TFTP_ERROR` prints, of a text of `len` bytes. -/
def tftpErrorCall (s : Net) (len : Nat) : PrintkCall :=
  ⟨ascii "TFTP error %d (%s)\n",
    [.word (ntohs (s.packet.le16 44)).toUInt32, .str (some (s.packet.slice 46 len))]⟩

/-- `case TFTP_ERROR`, up to what is drawn: the text ends at a zero, wherever that is. -/
def printTftpError (s : Net) : Except Fault Unit := do
  let len ← strlen s.packet ethFrameLen 46
  (tftpErrorCall s len).run

/-- `Packet has been received` -/
def tftpPacket (request : Option TftpReqInfo) (t : Tftp) (s : Net) :
    Except Fault (TftpNext × Tftp × Net) :=
  let t := { t with rport := udpSrc s.packet ethHlen, retry := 0 }
  let opcode := tftpOpcode s
  if opcode = tftpError then do
    printTftpError s
    return (.abort, t, s)
  else if opcode = tftpOack then tftpOptions request t s
  else if opcode = tftpData then
    let (block, t) := tftpBlockData t s
    .ok (.acknowledge block, t, s)
  else .ok (.acknowledge none, t.ack, s)

/-- The loop of `tftp_block`; a round takes a poll at least. -/
def tftpLoop (request : Option TftpReqInfo) :
    Nat → Tftp → Net → List Poll → Except Fault (Option TftpBlkInfo × Tftp × Net × List Poll)
  | 0, _, _, _ => .error .fuel
  | n + 1, t, s, polls => do
    let (received, s, polls) ← awaitReply (awaitTftp t.lport) false polls s
    if received then
      let (next, t, s) ← tftpPacket request t s
      match next with
      | .abort => return (none, t, s, polls)
      | .refuse =>
        let (_, t, s, polls) ← tftpTransmit t s polls
        return (none, t, s, polls)
      | .acknowledge block =>
        let (_, t, s, polls) ← tftpTransmit t s polls
        if block.isSome then return (block, t, s, polls) else tftpLoop request n t s polls
    else
      let (again, t) := tftpTimeout t
      if again then
        let (sent, t, s, polls) ← tftpTransmit t s polls
        if sent then tftpLoop request n t s polls else return (none, t, s, polls)
      else return (none, t, s, polls)

/-- `tftp_block` -/
def tftpBlock (request : Option TftpReqInfo) (t : Tftp) (s : Net) (polls : List Poll) :
    Except Fault (Option TftpBlkInfo × Tftp × Net × List Poll) :=
  match request with
  | none =>
    if t.blksize = 0 then .ok (none, t, s, polls)
    else tftpLoop none (polls.length + 1) t s polls
  | some r => do
    let (s, polls) ← rxQdrain polls s
    let t ← tftpRequest r t
    let (sent, t, s, polls) ← tftpTransmit t s polls
    if sent then
      if t.blksize = 0 then return (none, t, s, polls)
      else tftpLoop request (polls.length + 1) t s polls
    else return (none, t, s, polls)

/-! ## A whole file -/

/-- What the callback is called with: the bytes at `block.data`, and the rest of the block. -/
structure TftpCall where
  data : Bytes
  block : UInt32
  len : UInt32
  eof : Bool

/-- `fnc`: what it answers, after the calls before. -/
abbrev TftpSink := List TftpCall → TftpCall → Int32

/-- The loop of `tftp`. -/
def tftpCalls (fnc : TftpSink) :
    Nat → Option TftpReqInfo → List TftpCall → Tftp → Net → List Poll →
      Except Fault (Int32 × List TftpCall × Tftp × Net × List Poll)
  | 0, _, _, _, _, _ => .error .fuel
  | n + 1, request, calls, t, s, polls => do
    let (block, t, s, polls) ← tftpBlock request t s polls
    match block with
    | none => return (0, calls, t, s, polls)
    | some block =>
      let call := ⟨fun i => s.packet (block.data + i), block.block, block.len, block.eof⟩
      let rc := fnc calls call
      if rc ≤ 0 ∨ block.eof then
        return (if rc ≤ 0 then rc else 0, calls ++ [call], t, s, polls)
      else tftpCalls fnc n none (calls ++ [call]) t s polls

/-- `tftp`: what it returns, and the calls that it has made. A block takes a poll at least. -/
def tftp (name : List UInt8) (fnc : TftpSink) (t : Tftp) (s : Net) (polls : List Poll) :
    Except Fault (Int32 × List TftpCall × Tftp × Net × List Poll) :=
  tftpCalls fnc (polls.length + 1) (some ⟨name, tftpPort, 1432⟩) [] t s polls

end MbBootTv
