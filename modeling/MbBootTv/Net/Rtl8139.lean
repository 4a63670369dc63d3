import MbBootTv.Lib.Reach
import MbBootTv.Lib.Ring
import MbBootTv.Net.Nic

/-!
# The driver of the card (`eb/rtl8139.c`)

The chip writes the frames that it receives into a ring of 8192 bytes, each behind a word with its
status and size, and `rtl_poll` takes them out again. The two share a position each: the driver
tells the chip how far it has read, 16 bytes less than it really has, and the chip tells the driver
whether there is more. `rxRing_fifo`: whatever the interleaving, the frames come out as they went
in, once and in order.
-/

namespace MbBootTv

/-- `RX_BUF_LEN` -/
def rxBufLen : Nat := 8192

/-- The driver's variables, and the register `RxBufPtr`. -/
structure Rtl where
  rxRing : Bytes
  curRx : UInt32
  rxBufPtr : UInt16

/-- `rtl_reset`: a chip that has been reset starts at the head of the ring. -/
def rtlReset (r : Rtl) : Rtl := { r with curRx := 0, rxBufPtr := 0xFFF0 }

/-- `RxBadSymbol|RxRunt|RxTooLong|RxCRCErr|RxBadAlign` -/
def rxErrors : UInt32 := 0x3E

/-- The frame of a record at `ringOffs` is copied to the packet, in two pieces if it goes around the
end. -/
def copyOut (ring packet : Bytes) (ringOffs rxSize : Nat) : Bytes :=
  if rxBufLen < ringOffs + 4 + rxSize - 4 then
    let semiCount := rxBufLen - ringOffs - 4
    (packet.copy 0 (fun i => ring (ringOffs + 4 + i)) semiCount).copy semiCount ring
      (rxSize - 4 - semiCount)
  else packet.copy 0 (fun i => ring (ringOffs + 4 + i)) (rxSize - 4)

/-- `rtl_poll`; `empty` is `RxBufEmpty`. -/
def rtlPoll (empty retrieve : Bool) (r : Rtl) (s : Net) : Bool × Rtl × Net :=
  if empty then (false, r, s)
  else if !retrieve then (true, r, s)
  else
    let ringOffs := r.curRx.toNat % rxBufLen
    let rxStatus := r.rxRing.le32 ringOffs
    let rxSize := (rxStatus >>> 16).toNat
    if rxStatus &&& 0xFFFF &&& rxErrors ≠ 0 ∨ rxSize < 60 ∨ ethFrameLen + 4 < rxSize then
      (false, rtlReset r, s)
    else
      let curRx := (r.curRx + UInt32.ofNat rxSize + 4 + 3) &&& ~~~3
      (true, { r with curRx, rxBufPtr := (curRx - 16).toUInt16 },
        { s with packet := copyOut r.rxRing s.packet ringOffs rxSize, packetlen := rxSize - 4 })

/-- What `rtl_transmit` puts on the wire: `tx_buffer`. -/
def txFrame (dest src : Node) (ptype : UInt16) (data : List UInt8) : List UInt8 :=
  let buf : Bytes := fun _ => 0
  let buf := putNode buf 0 dest
  let buf := putNode buf 6 src
  let buf := buf.putLe 12 2 (htons ptype).toNat
  let buf := buf.copy ethHlen (pieceAt data) data.length
  buf.slice 0 (max 60 (data.length + ethHlen))

/-! ## What the chip writes -/

/-- A frame in the ring: its status and size before it, the FCS and the fill behind it. -/
structure RxRecord where
  frame : EthFrame
  status : UInt16
  tail : List UInt8
  length_ge : 56 ≤ frame.bytes.length
  good : status.toUInt32 &&& rxErrors = 0
  aligned : 4 + frame.bytes.length + tail.length = (frame.bytes.length + 11) / 4 * 4

namespace RxRecord

variable (r : RxRecord)

/-- The first word. -/
def header : Nat := r.status.toNat + 65536 * (r.frame.bytes.length + 4)

def bytes : List UInt8 :=
  (List.range 4).map (fun i => UInt8.ofNat (r.header / 256 ^ i)) ++ (r.frame.bytes ++ r.tail)

theorem bytes_length : r.bytes.length = (r.frame.bytes.length + 11) / 4 * 4 := by
  rw [bytes, List.length_append, List.length_append, List.length_map, List.length_range,
    ← r.aligned, Nat.add_assoc]

theorem bytes_header {i : Nat} (h : i < 4) :
    r.bytes.getD i 0 = UInt8.ofNat (r.header / 256 ^ i) := by
  rw [bytes, List.getD_append _ _ _ _ (by simpa using h)]
  simp [List.getD_eq_getElem?_getD, h]

theorem bytes_frame {i : Nat} (h : i < r.frame.bytes.length) :
    r.bytes.getD (4 + i) 0 = r.frame.bytes.getD i 0 := by
  rw [bytes, List.getD_append_right _ _ _ _ (by simp), List.getD_append _ _ _ _ (by simpa using h)]
  simp

end RxRecord

/-! ## One poll -/

theorem toNat_and_not_three (x : UInt32) : (x &&& ~~~3).toNat = x.toNat / 4 * 4 := by
  have hmask : ∀ i < 32, Nat.testBit 3 i = decide (i < 2) := by decide
  have hbits : x.toBitVec &&& ~~~3#32 = (x.toBitVec >>> 2) <<< 2 := by
    ext i hi
    have h3 : (3#32)[i] = decide (i < 2) := hmask i hi
    simp only [BitVec.getElem_and, BitVec.getElem_not, BitVec.getElem_shiftLeft, h3,
      BitVec.getElem_ushiftRight]
    by_cases h : i < 2
    · simp [h]
    · simp only [h, decide_false, Bool.not_false, Bool.and_true, Bool.true_and]
      rw [Nat.add_sub_cancel' (not_lt.mp h), BitVec.getLsbD_eq_getElem hi]
  show (x.toBitVec &&& ~~~3#32).toNat = _
  rw [hbits, BitVec.toNat_shiftLeft, BitVec.toNat_ushiftRight, Nat.shiftLeft_eq,
    Nat.shiftRight_eq_div_pow, UInt32.toNat_toBitVec]
  have := x.toNat_lt
  omega

namespace RxRecord

variable (r : RxRecord)

theorem header_lt : r.header < 2 ^ 32 := by
  have hs := r.status.toNat_lt
  have hf : r.frame.bytes.length ≤ 1514 := r.frame.length_le
  unfold header
  omega

theorem header_size : (UInt32.ofNat r.header >>> 16).toNat = r.frame.bytes.length + 4 := by
  have hs := r.status.toNat_lt
  rw [UInt32.toNat_shiftRight, UInt32.toNat_ofNat', Nat.mod_eq_of_lt r.header_lt,
    Nat.shiftRight_eq_div_pow]
  show r.header / 2 ^ 16 = _
  unfold header
  omega

theorem header_status : UInt32.ofNat r.header &&& 0xFFFF = r.status.toUInt32 := by
  have hs := r.status.toNat_lt
  rw [← UInt32.toNat_inj, UInt32.toNat_and, UInt32.toNat_ofNat', Nat.mod_eq_of_lt r.header_lt,
    UInt16.toNat_toUInt32]
  show r.header &&& 2 ^ 16 - 1 = _
  rw [Nat.and_two_pow_sub_one_eq_mod]
  unfold header
  omega

end RxRecord

section Poll

variable {r : Rtl} {s : Net} {rec : RxRecord} {rd : Nat}

/-- The first word of a record does not go around the end of the ring. -/
theorem le32_of_holds (halign : rd % 4 = 0) (h : Ring.Holds r.rxRing rxBufLen rd rec.bytes) :
    r.rxRing.le32 (rd % rxBufLen) = UInt32.ofNat rec.header := by
  have hsize : rxBufLen = 8192 := rfl
  have hlen := rec.bytes_length
  have hword : ∀ i < 4, r.rxRing (rd % rxBufLen + i) = UInt8.ofNat (rec.header / 256 ^ i) := by
    intro i hi
    have hpos : (rd + i) % rxBufLen = rd % rxBufLen + i := by
      rw [hsize]
      omega
    rw [← hpos, ← rec.bytes_header hi]
    exact h i (by omega)
  have hlt : rec.header < 256 ^ 4 := rec.header_lt
  rw [Bytes.le32, Bytes.leNat_of_digits hword, Nat.mod_eq_of_lt hlt]

/-- The bytes of the frame, with the end of the ring somewhere among them. -/
theorem ring_of_holds (h : Ring.Holds r.rxRing rxBufLen rd rec.bytes) {i : Nat}
    (hi : i < rec.frame.bytes.length) :
    r.rxRing ((rd + 4 + i) % rxBufLen) = pieceAt rec.frame.bytes i := by
  have hlen := rec.bytes_length
  rw [pieceAt, ← rec.bytes_frame hi, Nat.add_assoc]
  exact h (4 + i) (by omega)

theorem copyOut_of_holds (halign : rd % 4 = 0) (h : Ring.Holds r.rxRing rxBufLen rd rec.bytes)
    (packet : Bytes) :
    copyOut r.rxRing packet (rd % rxBufLen) (rec.frame.bytes.length + 4) =
      packet.copy 0 (pieceAt rec.frame.bytes) rec.frame.bytes.length := by
  have hsize : rxBufLen = 8192 := rfl
  have hmax : rec.frame.bytes.length ≤ 1514 := rec.frame.length_le
  have hring : packet.copy 0 (pieceAt rec.frame.bytes) rec.frame.bytes.length =
      packet.copy 0 (fun i => r.rxRing ((rd + 4 + i) % rxBufLen)) rec.frame.bytes.length :=
    Bytes.copy_congr fun i hi => (ring_of_holds h hi).symm
  unfold copyOut
  rw [hring]
  by_cases hsplit : rxBufLen < rd % rxBufLen + 4 + (rec.frame.bytes.length + 4) - 4
  · rw [if_pos hsplit]
    dsimp only
    generalize hsemi : rxBufLen - rd % rxBufLen - 4 = semi
    have hlen : rec.frame.bytes.length = semi + (rec.frame.bytes.length + 4 - 4 - semi) := by
      rw [hsize] at hsplit hsemi
      omega
    conv_rhs => rw [hlen]
    -- Both pieces are copied from the ring as it goes on around its end.
    rw [← Bytes.copy_copy_append packet (fun p => r.rxRing (p % rxBufLen)) 0 (rd + 4) semi,
      Nat.zero_add]
    have hlow : packet.copy 0 (fun i => r.rxRing (rd % rxBufLen + 4 + i)) semi =
        packet.copy 0 (fun i => r.rxRing ((rd + 4 + i) % rxBufLen)) semi :=
      Bytes.copy_congr fun i hi => congrArg r.rxRing (by
        rw [hsize] at hsemi ⊢
        omega)
    rw [hlow]
    exact Bytes.copy_congr fun i hi => congrArg r.rxRing (by
      rw [hsize] at hsplit hsemi ⊢
      omega)
  · rw [if_neg hsplit]
    refine Bytes.copy_congr fun i hi => congrArg r.rxRing ?_
    rw [hsize] at hsplit ⊢
    omega

/-- **The record at the reading position is the next frame**, and the position moves behind it. -/
theorem rtlPoll_of_holds (hcur : r.curRx.toNat = rd % 2 ^ 32) (halign : rd % 4 = 0)
    (h : Ring.Holds r.rxRing rxBufLen rd rec.bytes) :
    ∃ r', rtlPoll false true r s = (true, r', s.load rec.frame) ∧ r'.rxRing = r.rxRing ∧
      r'.curRx.toNat = (rd + rec.bytes.length) % 2 ^ 32 ∧
      (r'.rxBufPtr.toNat + 16) % rxBufLen = (rd + rec.bytes.length) % rxBufLen := by
  have hsize : rxBufLen = 8192 := rfl
  have hmax : rec.frame.bytes.length ≤ 1514 := rec.frame.length_le
  have hmin := rec.length_ge
  have hoffs : r.curRx.toNat % rxBufLen = rd % rxBufLen := by
    rw [hcur, hsize]
    omega
  have hnext : ((r.curRx + UInt32.ofNat (rec.frame.bytes.length + 4) + 4 + 3) &&& ~~~3).toNat =
      (rd + rec.bytes.length) % 2 ^ 32 := by
    have h4 : (4 : UInt32).toNat = 4 := rfl
    have h3 : (3 : UInt32).toNat = 3 := rfl
    rw [toNat_and_not_three, UInt32.toNat_add, UInt32.toNat_add, UInt32.toNat_add, hcur,
      UInt32.toNat_ofNat', h4, h3, rec.bytes_length]
    omega
  unfold rtlPoll
  rw [if_neg Bool.false_ne_true, if_neg (by decide)]
  dsimp only
  rw [hoffs, le32_of_holds halign h, rec.header_size, rec.header_status, copyOut_of_holds halign h,
    if_neg (by rw [rec.good, show ethFrameLen = 1514 from rfl]; simp; omega)]
  refine ⟨_, rfl, rfl, hnext, ?_⟩
  show ((_ - 16 : UInt32).toUInt16.toNat + 16) % rxBufLen = _
  have hlen := rec.bytes_length
  have h16 : (16 : UInt32).toNat = 16 := rfl
  rw [UInt32.toNat_toUInt16, UInt32.toNat_sub, hnext, h16, hsize]
  omega

end Poll

/-! ## The chip and the driver -/

/-- The driver, the chip's writing position, and what has gone in and come out. -/
structure RxSystem where
  rtl : Rtl
  wr : Nat
  net : Net
  received : List (List UInt8)
  delivered : List (List UInt8)

/-- After `rtl_reset`. -/
def rxStart (rxRing : Bytes) (net : Net) : RxSystem :=
  ⟨⟨rxRing, 0, 0xFFF0⟩, 0, net, [], []⟩

namespace RxSystem

/-- The bytes between the chip's two positions, as far as it knows. -/
def used (s : RxSystem) : Nat :=
  (s.wr + rxBufLen - (s.rtl.rxBufPtr.toNat + 16) % rxBufLen) % rxBufLen

/-- The chip writes a record. -/
def store (s : RxSystem) (r : RxRecord) : RxSystem :=
  { s with rtl := { s.rtl with rxRing := Ring.put s.rtl.rxRing rxBufLen s.wr r.bytes }
           wr := s.wr + r.bytes.length
           received := s.received ++ [r.frame.bytes] }

/-- `eth_poll (1)` -/
def poll (s : RxSystem) : RxSystem :=
  let (ok, rtl, net) := rtlPoll (s.used = 0) true s.rtl s.net
  { s with rtl, net, delivered :=
      if ok then s.delivered ++ [net.packet.slice 0 net.packetlen] else s.delivered }

end RxSystem

/-- What happens to the system. The rest of the program does what it likes with the packet. -/
inductive RxEvent
  | store (r : RxRecord)
  | poll
  | other (net : Net)

/-- The chip never fills the ring up. -/
inductive RxStep : RxSystem → RxEvent → RxSystem → Prop
  | store {s : RxSystem} (r : RxRecord) (room : s.used + r.bytes.length < rxBufLen) :
      RxStep s (.store r) (s.store r)
  | poll {s : RxSystem} : RxStep s .poll s.poll
  | other {s : RxSystem} (net : Net) : RxStep s (.other net) { s with net }

/-- Some records wait between the two positions; they are what has not come out yet. -/
structure RxQueue (s : RxSystem) (rd : Nat) (waiting : List RxRecord) : Prop where
  stored : Ring.Stored s.rtl.rxRing rxBufLen rd (waiting.map RxRecord.bytes) s.wr
  room : s.wr < rd + rxBufLen
  aligned : rd % 4 = 0
  curRx : s.rtl.curRx.toNat = rd % 2 ^ 32
  rxBufPtr : (s.rtl.rxBufPtr.toNat + 16) % rxBufLen = rd % rxBufLen
  received : s.received = s.delivered ++ waiting.map (·.frame.bytes)

namespace RxQueue

variable {s : RxSystem} {rd : Nat} {waiting : List RxRecord}

theorem start (rxRing : Bytes) (net : Net) : RxQueue (rxStart rxRing net) 0 [] where
  stored := rfl
  room := by
    show 0 < 0 + rxBufLen
    decide
  aligned := rfl
  curRx := rfl
  rxBufPtr := by
    show ((0xFFF0 : UInt16).toNat + 16) % rxBufLen = 0 % rxBufLen
    decide
  received := rfl

/-- The chip knows how much there is. -/
theorem used_eq (h : RxQueue s rd waiting) : s.used = s.wr - rd := by
  have hle := h.stored.le
  have hroom := h.room
  have hsize : rxBufLen = 8192 := rfl
  rw [RxSystem.used, h.rxBufPtr, hsize]
  rw [hsize] at hroom
  omega

theorem used_eq_zero_iff (h : RxQueue s rd waiting) : s.used = 0 ↔ waiting = [] := by
  have hsum := h.stored.eq_add_sum
  rw [h.used_eq, hsum, Nat.add_sub_cancel_left]
  cases waiting with
  | nil => simp
  | cons r rest =>
    have hlen := r.bytes_length
    simp only [List.map_cons, List.sum_cons, reduceCtorEq, iff_false]
    omega

theorem store (h : RxQueue s rd waiting) {r : RxRecord}
    (room : s.used + r.bytes.length < rxBufLen) : RxQueue (s.store r) rd (waiting ++ [r]) := by
  have hle := h.stored.le
  rw [h.used_eq] at room
  exact {
    stored := by
      rw [List.map_append]
      exact h.stored.put (by omega)
    room := by
      show s.wr + r.bytes.length < _
      omega
    aligned := h.aligned
    curRx := h.curRx
    rxBufPtr := h.rxBufPtr
    received := by
      show s.received ++ _ = s.delivered ++ _
      rw [h.received, List.map_append, List.append_assoc]
      rfl }

theorem other (h : RxQueue s rd waiting) (net : Net) : RxQueue { s with net } rd waiting :=
  ⟨h.stored, h.room, h.aligned, h.curRx, h.rxBufPtr, h.received⟩

theorem poll_nil (h : RxQueue s rd []) : s.poll = s := by
  rw [RxSystem.poll, decide_eq_true (h.used_eq_zero_iff.mpr rfl)]
  rfl

theorem poll_cons {r : RxRecord} (h : RxQueue s rd (r :: waiting)) :
    RxQueue s.poll (rd + r.bytes.length) waiting ∧ s.poll.net = s.net.load r.frame ∧
      s.poll.delivered = s.delivered ++ [r.frame.bytes] := by
  have hused : ¬s.used = 0 := fun h0 => List.cons_ne_nil _ _ (h.used_eq_zero_iff.mp h0)
  obtain ⟨hhead, hrest⟩ := h.stored
  obtain ⟨rtl', hpoll, hring, hcur, hptr⟩ := rtlPoll_of_holds (s := s.net) h.curRx h.aligned hhead
  have hslice : (s.net.load r.frame).packet.slice 0 r.frame.bytes.length = r.frame.bytes := by
    conv_rhs => rw [← Bytes.slice_getD r.frame.bytes]
    exact Bytes.slice_congr fun i hi => Bytes.copy_zero_of_lt (by omega)
  have hnext : s.poll = { s with
      rtl := rtl', net := s.net.load r.frame, delivered := s.delivered ++ [r.frame.bytes] } := by
    rw [RxSystem.poll, decide_eq_false hused, hpoll]
    dsimp only
    rw [if_pos rfl, ← hslice]
    rfl
  have hlen := r.bytes_length
  have hroom := h.room
  rw [hnext]
  exact ⟨{
    stored := by
      show Ring.Stored rtl'.rxRing _ _ _ s.wr
      rw [hring]
      exact hrest
    room := by
      show s.wr < _
      omega
    aligned := by
      have := h.aligned
      omega
    curRx := hcur
    rxBufPtr := hptr
    received := by
      show s.received = _
      rw [h.received, List.append_assoc]
      rfl }, rfl, rfl⟩

end RxQueue

/-- The ring is in order. -/
def RxSystem.Queued (s : RxSystem) : Prop := ∃ rd waiting, RxQueue s rd waiting

theorem RxStep.queued {s s' : RxSystem} {e : RxEvent} (hstep : RxStep s e s') (h : s.Queued) :
    s'.Queued := by
  obtain ⟨rd, waiting, hq⟩ := h
  cases hstep with
  | store r room => exact ⟨rd, waiting ++ [r], hq.store room⟩
  | poll =>
    cases waiting with
    | nil =>
      rw [hq.poll_nil]
      exact ⟨rd, [], hq⟩
    | cons r rest => exact ⟨_, rest, hq.poll_cons.1⟩
  | other net => exact ⟨rd, waiting, hq.other net⟩

theorem queued_of_reaches {rxRing : Bytes} {net : Net} {s : RxSystem}
    (h : Reaches RxStep (rxStart rxRing net) s) : s.Queued :=
  h.invariant ⟨0, [], RxQueue.start rxRing net⟩ fun _ _ _ hx hstep => hstep.queued hx

/-- **First in, first out.** After any run, what has come out is the first part of what has gone
in; a poll finds nothing exactly when nothing is left of it, and otherwise leaves the next frame in
the packet buffer. -/
theorem rxRing_fifo {rxRing : Bytes} {net : Net} {s : RxSystem}
    (h : Reaches RxStep (rxStart rxRing net) s) :
    ∃ waiting : List EthFrame, s.received = s.delivered ++ waiting.map EthFrame.bytes ∧
      (waiting = [] → s.poll = s) ∧
      ∀ f rest, waiting = f :: rest →
        s.poll.net = s.net.load f ∧ s.poll.delivered = s.delivered ++ [f.bytes] := by
  obtain ⟨rd, waiting, hq⟩ := queued_of_reaches h
  refine ⟨waiting.map RxRecord.frame, ?_, fun hnil => ?_, fun f rest hcons => ?_⟩
  · rw [hq.received, List.map_map]
    rfl
  · rw [List.map_eq_nil_iff.mp hnil] at hq
    exact hq.poll_nil
  · obtain ⟨r, waiting', rfl, rfl, -⟩ := List.map_eq_cons_iff.mp hcons
    exact hq.poll_cons.2

/-- A card that has seen nothing. -/
def blankNet : Net := ⟨fun _ => 0, 0, fun _ => ⟨0, fun _ => 0⟩, 0, 0, []⟩

/-- Frames of 60 bytes and of 61. -/
def shortFrame : EthFrame := ⟨List.replicate 60 7, by decide⟩

def oddFrame : EthFrame := ⟨List.replicate 61 9, by decide⟩

def shortRecord : RxRecord := ⟨shortFrame, 1, List.replicate 4 0, by decide, by decide, by decide⟩

def oddRecord : RxRecord := ⟨oddFrame, 1, List.replicate 7 0, by decide, by decide, by decide⟩

/-- One frame is stored and polled, and another one stored: the next poll finds that one, and the
poll after it nothing. -/
theorem rxRing_fifo_short :
    ∃ s, Reaches RxStep (rxStart (fun _ => 0) blankNet) s ∧
      s.received = [shortFrame.bytes, oddFrame.bytes] ∧ s.delivered = [shortFrame.bytes] ∧
      s.poll.net = s.net.load oddFrame ∧ s.poll.delivered = s.received ∧ s.poll.poll = s.poll := by
  have hone {s : RxSystem} (h : Reaches RxStep (rxStart (fun _ => 0) blankNet) s) {f : EthFrame}
      (hf : s.received = s.delivered ++ [f.bytes]) :
      s.poll.net = s.net.load f ∧ s.poll.delivered = s.received ∧ s.poll.poll = s.poll := by
    obtain ⟨waiting, hreceived, -, hpoll⟩ := rxRing_fifo h
    obtain ⟨f', hw, hbytes⟩ := List.map_eq_singleton_iff.mp
      (List.append_cancel_left (hreceived.symm.trans hf))
    obtain ⟨hnet, hdelivered⟩ := hpoll f' [] hw
    rw [hbytes, ← hf] at hdelivered
    obtain ⟨waiting', hreceived', hnone, -⟩ := rxRing_fifo (h.tail .poll)
    rw [hdelivered] at hreceived'
    refine ⟨?_, hdelivered, hnone (List.map_eq_nil_iff.mp (List.self_eq_append_right.mp hreceived'))⟩
    rw [hnet]
    unfold Net.load
    rw [hbytes]
  have hrun := (Reaches.refl (rxStart (fun _ => 0) blankNet)).tail
    (RxStep.store shortRecord (by decide +kernel))
  obtain ⟨-, hdelivered, -⟩ := hone hrun (f := shortFrame) rfl
  have hsecond := (hrun.tail .poll).tail (RxStep.store oddRecord (by decide +kernel))
  exact ⟨_, hsecond, rfl, hdelivered,
    hone hsecond (congrArg (· ++ [oddFrame.bytes]) hdelivered.symm)⟩

end MbBootTv
