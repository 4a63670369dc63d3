import MbBootTv.Net.Options

/-!
# What is asked for

The two messages of `bootp` as lists of options: the one that looks for a server, and the one that
asks a server for an address. The bytes of the second are put together from a table, in which the
server and the address stand at fixed places.
-/

namespace MbBootTv

/-! ## Words -/

/-- The bytes of a word, the lowest one first. -/
def wordBytes (v : UInt32) : List UInt8 := (Bytes.putLe (fun _ => 0) 0 4 v.toNat).slice 0 4

theorem wordBytes_length (v : UInt32) : (wordBytes v).length = 4 := Bytes.slice_length _ _ _

theorem slice_putLe_word (m : Bytes) (pos : Nat) (v : UInt32) :
    (m.putLe pos 4 v.toNat).slice pos 4 = wordBytes v :=
  Bytes.slice_congr fun i hi => by
    rw [Bytes.putLe_of_mem (by omega) (by omega), Bytes.putLe_of_mem (by omega) (by omega),
      Nat.add_sub_cancel_left, Nat.add_sub_cancel_left]

/-- A part of a list that has been copied. -/
theorem slice_putBytes (m : Bytes) (pos k n : Nat) {l : List UInt8} (h : k + n ≤ l.length) :
    (putBytes m pos l).slice (pos + k) n = (l.drop k).take n := by
  refine List.ext_getElem ?_ fun i hi hi' => ?_
  · rw [Bytes.slice_length, List.length_take, List.length_drop]
    omega
  · rw [Bytes.slice_length] at hi
    have hbyte : putBytes m pos l (pos + k + i) = l[k + i] := by
      rw [putBytes, Bytes.copy_of_mem (by omega) (by omega), Nat.add_assoc, Nat.add_sub_cancel_left,
        pieceAt, List.getD_eq_getElem _ _ (by omega)]
    simpa [Bytes.slice] using hbyte

/-! ## Options -/

/-- What is known of the card, encapsulated. -/
def machineEncap (id : DevId) : Encap where
  entries := [
    some ⟨175, [id.busType, id.vendorId.toUInt8, (id.vendorId >>> 8).toUInt8, id.deviceId.toUInt8,
      (id.deviceId >>> 8).toUInt8], by decide, by decide, (by decide : 5 ≤ 255)⟩,
    some ⟨177, [3, 0], by decide, by decide, by decide⟩]
  tail := []
  tail_eq := Or.inl rfl
  length_le := (by decide : 11 ≤ 255)

/-- The class of the machine. -/
def etherbootClass : List UInt8 := ascii "Etherboot-1.1"

theorem etherbootClass_length : etherbootClass.length = 13 := by decide +kernel

theorem wordBytes_length_le (v : UInt32) : (wordBytes v).length ≤ 255 :=
  (wordBytes_length v).trans_le (by decide)

theorem etherbootClass_length_le : etherbootClass.length ≤ 255 :=
  etherbootClass_length.trans_le (by decide)

/-- One option. -/
def optItem (tag : UInt8) (data : List UInt8) (hpad : tag ≠ rfc1533Pad) (hend : tag ≠ rfc1533End)
    (hlen : data.length ≤ 255) : Item := .entry (some ⟨tag, data, hpad, hend, hlen⟩)

/-- The options of a message that looks for a server. -/
def discoverItems (id : DevId) : List Item := [
  optItem rfc2132MsgType [1] (by decide) (by decide) (by decide),
  optItem 57 [5, 220] (by decide) (by decide) (by decide),
  optItem 60 etherbootClass (by decide) (by decide) etherbootClass_length_le,
  optItem 55 [1, 3, 12, 43] (by decide) (by decide) (by decide),
  .encap (machineEncap id)]

/-- The options of a message that asks the server for the address. -/
def requestItems (id : DevId) (server address : UInt32) : List Item := [
  optItem rfc2132MsgType [3] (by decide) (by decide) (by decide),
  optItem rfc2132SrvId (wordBytes server) (by decide) (by decide) (wordBytes_length_le server),
  optItem 50 (wordBytes address) (by decide) (by decide) (wordBytes_length_le address),
  optItem 57 [5, 220] (by decide) (by decide) (by decide),
  optItem 60 etherbootClass (by decide) (by decide) etherbootClass_length_le,
  optItem 55 [1, 3, 12, 43, 17, 128, 129, 130, 150] (by decide) (by decide) (by decide),
  .encap (machineEncap id)]

/-- Options, with what is around them. -/
def vendOf (items : List Item) : List UInt8 := rfc1533Cookie ++ (encodeItems items ++ [rfc1533End])

/-- The message in the buffer `ip`: a request of the machine with that hardware address, in the
transaction `xid`, with these options. -/
structure Message (xid : UInt32) (node : Node) (items : List Item) (ip : Bytes) : Prop where
  op : ip 28 = bootpRequest
  xid : ip.le32 32 = xid
  hwaddr : nodeAt ip 56 = node
  vend : ip.slice (28 + bpVend) (vendOf items).length = vendOf items

/-- Another message with the same headers, but for the seconds. -/
theorem Message.of_congr {xid : UInt32} {node : Node} {items items' : List Item} {ip ip' : Bytes}
    (h : Message xid node items ip)
    (hip : ∀ i, 28 ≤ i → i < 28 + bpVend → i ≠ 36 → i ≠ 37 → ip' i = ip i)
    (hvend : ip'.slice (28 + bpVend) (vendOf items').length = vendOf items') :
    Message xid node items' ip' where
  op := (hip 28 (by decide) (by decide) (by decide) (by decide)).trans h.op
  xid := by
    have hbp : bpVend = 236 := rfl
    rw [← h.xid]
    exact Bytes.le32_congr fun i hi =>
      hip _ (by omega) (by omega) (by omega) (by omega)
  hwaddr := by
    have hbp : bpVend = 236 := rfl
    rw [← h.hwaddr]
    exact funext fun i => hip _ (by omega) (by omega) (by omega) (by omega)
  vend := hvend

/-! ## The messages -/

theorem vendOf_discoverItems (id : DevId) : vendOf (discoverItems id) =
    rfc1533Cookie ++ dhcpdiscover ++ dhcpMachineInfo id ++ [rfc1533End] := by
  rfl

theorem nodeAt_putNode (m : Bytes) (pos : Nat) (node : Node) :
    nodeAt (putNode m pos node) pos = node := by
  funext i
  rw [nodeAt, putNode, Bytes.copy_of_mem (by omega) (by omega), Nat.add_sub_cancel_left, pieceAt,
    List.getD_eq_getElem _ _ (by simp), List.getElem_ofFn]

/-- What is in front of the options. -/
def bootpHeader (xid : UInt32) (node : Node) : Bytes :=
  putNode (Bytes.putLe (Bytes.putLe (Bytes.putLe (Bytes.putLe (fun _ => 0) 28 1 bootpRequest.toNat)
    29 1 1) 30 1 6) 32 4 xid.toNat) 56 node

theorem bootpDiscover_of_lt (id : DevId) (xid : UInt32) (node : Node) {i : Nat}
    (h : i < 28 + bpVend) : bootpDiscover id xid node i = bootpHeader xid node i :=
  Bytes.copy_of_lt h

/-- **A message that looks for a server.** -/
theorem bootpDiscover_message (id : DevId) (xid : UInt32) (node : Node) :
    Message xid node (discoverItems id) (bootpDiscover id xid node) where
  op := by
    rw [bootpDiscover_of_lt id xid node (by decide), bootpHeader, putNode,
      Bytes.copy_of_lt (by decide), Bytes.putLe_of_not_mem (by decide),
      Bytes.putLe_of_not_mem (by decide), Bytes.putLe_of_not_mem (by decide),
      Bytes.putLe_of_mem (by decide) (by decide)]
    rfl
  xid := by
    have hvend : 28 + bpVend = 264 := rfl
    have hword : (bootpDiscover id xid node).le32 32 = (Bytes.putLe (Bytes.putLe (Bytes.putLe
        (Bytes.putLe (fun _ => 0) 28 1 bootpRequest.toNat) 29 1 1) 30 1 6) 32 4
          xid.toNat).le32 32 :=
      Bytes.le32_congr fun i hi => by
        rw [bootpDiscover_of_lt id xid node (by omega), bootpHeader, putNode,
          Bytes.copy_of_lt (by omega)]
    rw [hword, Bytes.le32_putLe]
  hwaddr := by
    have hvend : 28 + bpVend = 264 := rfl
    have hnode : nodeAt (bootpDiscover id xid node) 56 = nodeAt (bootpHeader xid node) 56 :=
      funext fun i => bootpDiscover_of_lt id xid node (by omega)
    rw [hnode, bootpHeader, nodeAt_putNode]
  vend := by
    rw [vendOf_discoverItems]
    exact slice_copy_piece _ _ _

theorem dhcprequest_length : dhcprequest.length = 45 := by
  show (_ ++ etherbootClass ++ _).length = 45
  rw [List.length_append, List.length_append, etherbootClass_length]
  rfl

/-- The packet with the request, in the parts that it is put together from. -/
theorem bootpRequestPacket_vend (id : DevId) (d : Bootp) (ip : Bytes) :
    (bootpRequestPacket id d ip).slice (28 + bpVend) (4 + (5 + (4 + (2 + (4 + (30 + 14)))))) =
      rfc1533Cookie ++ (dhcprequest.take 5 ++ (wordBytes d.dhcpServer ++
        ((dhcprequest.drop 9).take 2 ++ (wordBytes d.dhcpAddr ++
          (dhcprequest.drop 15 ++ (dhcpMachineInfo id ++ [rfc1533End])))))) := by
  have hvend : 28 + bpVend = 264 := rfl
  have hlen := dhcprequest_length
  have hmachine : (dhcpMachineInfo id ++ [rfc1533End]).length = 14 := rfl
  -- The buffer, as it is overwritten.
  let b₀ := putBytes ip 264 rfc1533Cookie
  let b₁ := putBytes b₀ 268 dhcprequest
  let b₂ := b₁.putLe 273 4 d.dhcpServer.toNat
  let b₃ := b₂.putLe 279 4 d.dhcpAddr.toNat
  have hb : bootpRequestPacket id d ip = putBytes b₃ (268 + dhcprequest.length)
      (dhcpMachineInfo id ++ [rfc1533End]) := rfl
  have hlast : ∀ i < 313, bootpRequestPacket id d ip i = b₃ i := fun i hi => by
    rw [hb, putBytes, Bytes.copy_of_lt (by omega)]
  have hrest : ∀ i < 313, ¬(279 ≤ i ∧ i < 283) → ¬(273 ≤ i ∧ i < 277) →
      bootpRequestPacket id d ip i = b₁ i := fun i hi haddr hserver => by
    rw [hlast i hi]
    show (b₁.putLe 273 4 d.dhcpServer.toNat).putLe 279 4 d.dhcpAddr.toNat i = b₁ i
    rw [Bytes.putLe_of_not_mem (by omega), Bytes.putLe_of_not_mem (by omega)]
  have hpart : ∀ k n, 268 + k + n ≤ 313 → (k + n ≤ 5 ∨ 9 ≤ k ∧ k + n ≤ 11 ∨ 15 ≤ k) →
      (bootpRequestPacket id d ip).slice (268 + k) n = (dhcprequest.drop k).take n :=
    fun k n hn hk => by
      rw [← slice_putBytes b₀ 268 k n (by omega)]
      exact Bytes.slice_congr fun i hi => hrest _ (by omega) (by omega) (by omega)
  have hserver : (bootpRequestPacket id d ip).slice 273 4 = wordBytes d.dhcpServer := by
    rw [← slice_putLe_word b₁ 273]
    refine Bytes.slice_congr fun i hi => ?_
    rw [hlast _ (by omega)]
    exact Bytes.putLe_of_not_mem (by omega)
  have haddr : (bootpRequestPacket id d ip).slice 279 4 = wordBytes d.dhcpAddr := by
    rw [← slice_putLe_word b₂ 279]
    exact Bytes.slice_congr fun i hi => hlast _ (by omega)
  have hcookie : (bootpRequestPacket id d ip).slice 264 4 = rfc1533Cookie := by
    rw [← slice_copy_piece ip 264 rfc1533Cookie]
    refine Bytes.slice_congr fun i hi => ?_
    rw [hrest _ (by omega) (by omega) (by omega)]
    exact Bytes.copy_of_lt (by omega)
  have hend : (bootpRequestPacket id d ip).slice 313 14 = dhcpMachineInfo id ++ [rfc1533End] := by
    rw [hb, hlen]
    exact slice_copy_piece _ _ _
  have htail : (dhcprequest.drop 15).take 30 = dhcprequest.drop 15 := by
    rw [List.take_of_length_le]
    rw [List.length_drop, hlen]
  rw [hvend, ← Bytes.slice_append, ← Bytes.slice_append _ _ 5, ← Bytes.slice_append _ _ 4,
    ← Bytes.slice_append _ _ 2, ← Bytes.slice_append _ _ 4, ← Bytes.slice_append _ _ 30, hcookie,
    hpart 0 5 (by decide) (by decide), hserver, hpart 9 2 (by decide) (by decide), haddr,
    hpart 15 30 (by decide) (by decide), hend, htail]
  rfl

theorem vendOf_requestItems (id : DevId) (server address : UInt32) :
    vendOf (requestItems id server address) =
      rfc1533Cookie ++ (dhcprequest.take 5 ++ (wordBytes server ++
        ((dhcprequest.drop 9).take 2 ++ (wordBytes address ++
          (dhcprequest.drop 15 ++ (dhcpMachineInfo id ++ [rfc1533End])))))) := by
  rfl

/-- **A message that asks the server for the address**, which it has been told of. -/
theorem bootpRequestPacket_message (id : DevId) {xid : UInt32} {node : Node} {items : List Item}
    {ip : Bytes} (d : Bootp) (h : Message xid node items ip) :
    Message xid node (requestItems id d.dhcpServer d.dhcpAddr) (bootpRequestPacket id d ip) := by
  have hvend : 28 + bpVend = 264 := rfl
  refine h.of_congr (fun i _ hi _ _ => ?_) ?_
  · unfold bootpRequestPacket
    rw [putBytes, Bytes.copy_of_lt (by omega), Bytes.putLe_of_not_mem (by omega),
      Bytes.putLe_of_not_mem (by omega), putBytes, Bytes.copy_of_lt (by omega), putBytes,
      Bytes.copy_of_lt (by omega)]
  · rw [vendOf_requestItems, ← bootpRequestPacket_vend, Bytes.slice_length]

end MbBootTv
