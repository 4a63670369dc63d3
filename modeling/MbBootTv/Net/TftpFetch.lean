import MbBootTv.Net.TftpTurn

/-!
# What a transfer delivers

A network may lose datagrams, double them, delay them and change their order; to `tftp` all of this
is one list of frames, with any number of time-outs in between. Whatever the list, if the datagrams
for the ports of the transfer are those of a server for one file and one block size, then the
callback has been given a prefix of the file, and with the mark of the last block the whole file
(`tftp_prefix`).

`Progress` relates the two variables that count, the last block and the block size, with the bytes
that have been delivered. The block size starts as 512 and becomes that of the server only when the
option arrives in time; when it does not, a longer block is refused, so that the transfer ends with
a file of at most 512 bytes or comes to a halt.
-/

namespace MbBootTv

/-! ## The server -/

/-- The block `k` of a file, counted from 1. -/
def chunk (file : List UInt8) (b k : Nat) : List UInt8 := (file.drop ((k - 1) * b)).take b

/-- What a server may send: any block of the file, the option or an error, at any time. -/
inductive ServerSays (file : List UInt8) (b : Nat) : List UInt8 → Prop
  | data {k : UInt16} : 1 ≤ k.toNat → (k.toNat - 1) * b ≤ file.length →
      ServerSays file b (dataMsg k (chunk file b k.toNat))
  | oack : ServerSays file b (oackMsg b)
  | error (rest : List UInt8) : ServerSays file b (be16 tftpError ++ rest)

/-- The frames are foreign or carry datagrams, and those for these ports are of one kind. -/
def Served (kind : List UInt8 → Prop) (client : UInt32) (ports : UInt16 → Prop)
    (polls : List Poll) : Prop :=
  ∀ f, .frame f ∈ polls → Foreign client f ∨
    ∃ d, Carries f d ∧ (d.dest = client → ports d.destsock → kind d.payload)

/-- The time is over. -/
def Poll.late : Poll → Bool
  | .empty late => late
  | .frame _ => false

/-- How often the time can be over. -/
def lates (polls : List Poll) : Nat := polls.countP Poll.late

/-! ## Progress -/

/-- `n` blocks have been delivered, with the block size `c`, which is 0 after the last one. -/
inductive Progress (file : List UInt8) (b : Nat) : Nat → Nat → List UInt8 → Prop
  | fresh : Progress file b 0 512 []
  | going {n : Nat} : n * b ≤ file.length → Progress file b n b (file.take (n * b))
  /-- A file of 512 bytes without the option: the block was not marked as the last one. -/
  | halted : file.length = 512 → 512 < b → Progress file b 1 512 file
  | done {n : Nat} : Progress file b n 0 file

namespace Progress

variable {file got : List UInt8} {b n c : Nat}

theorem isPrefix (h : Progress file b n c got) : got <+: file := by
  cases h with
  | fresh => exact List.nil_prefix
  | going => exact List.take_prefix _ _
  | halted => exact List.prefix_rfl
  | done => exact List.prefix_rfl

theorem eq_of_zero (h : Progress file b n 0 got) (hb : 512 ≤ b) : got = file := by
  cases h with
  | going => exact absurd hb (by decide)
  | done => rfl

theorem le_max (h : Progress file b n c got) (hb : b ≤ 1432) : c ≤ 1432 := by
  cases h with
  | fresh => decide
  | going => exact hb
  | halted => decide
  | done => exact Nat.zero_le _

/-- The option, before the first block. -/
theorem option (h : Progress file b 0 c got) (hc : c ≠ 0) : Progress file b 0 b got := by
  have hgoing : Progress file b 0 b (file.take (0 * b)) := .going (by omega)
  rw [Nat.zero_mul, List.take_zero] at hgoing
  cases h with
  | fresh => exact hgoing
  | going =>
    rw [Nat.zero_mul, List.take_zero]
    exact hgoing
  | done => exact absurd rfl hc

theorem length_chunk (file : List UInt8) (b n : Nat) :
    (chunk file b (n + 1)).length = min b (file.length - n * b) := by
  rw [chunk, Nat.add_sub_cancel, List.length_take, List.length_drop]

theorem take_append_chunk (file : List UInt8) (b n : Nat) :
    file.take (n * b) ++ chunk file b (n + 1) = file.take ((n + 1) * b) := by
  rw [chunk, Nat.add_sub_cancel, Nat.add_mul, Nat.one_mul, List.take_add]

/-- **The next block** is appended, and it is marked as the last one only when it is. -/
theorem block (h : Progress file b n c got) (hb : 512 ≤ b) (hc : c ≠ 0)
    (hn : n * b ≤ file.length) (hlen : (chunk file b (n + 1)).length ≤ c) :
    Progress file b (n + 1) (if (chunk file b (n + 1)).length < c then 0 else c)
      (got ++ chunk file b (n + 1)) := by
  have hlength := length_chunk file b n
  cases h with
  | fresh =>
    have hchunk : chunk file b (0 + 1) = file.take b := by
      rw [chunk, Nat.add_sub_cancel, Nat.zero_mul, List.drop_zero]
    rw [List.nil_append]
    by_cases hlast : (chunk file b (0 + 1)).length < 512
    · rw [if_pos hlast, hchunk, List.take_of_length_le (by omega)]
      exact .done
    · rw [if_neg hlast]
      rcases hb.eq_or_lt with rfl | hlt
      · have hgoing : Progress file 512 (0 + 1) 512 (file.take ((0 + 1) * 512)) :=
          .going (by omega)
        rw [hchunk]
        exact hgoing
      · rw [hchunk, List.take_of_length_le (by omega)]
        exact .halted (by omega) hlt
  | going =>
    have hmul : (n + 1) * b = n * b + b := Nat.succ_mul n b
    rw [take_append_chunk]
    by_cases hlast : (chunk file b (n + 1)).length < b
    · rw [if_pos hlast, List.take_of_length_le (by omega)]
      exact .done
    · rw [if_neg hlast]
      exact .going (by omega)
  | halted h512 hlt => omega
  | done => exact absurd rfl hc

end Progress

/-- The variables of `tftp_block` after `got`. -/
def Transfer (file : List UInt8) (b : Nat) (t : Tftp) (got : List UInt8) : Prop :=
  ∃ c, t.blksize = Int32.ofNat c ∧ Progress file b t.blockidx.toNat c got

theorem eq_zero_of_ofNat {c : Nat} (hc : c ≤ 1432) (h : Int32.ofNat c = 0) : c = 0 := by
  have hint := congrArg Int32.toInt h
  rw [Int32.toInt_ofNat_of_lt (by omega)] at hint
  have hzero : (c : Int) = 0 := hint
  omega

/-- The same two variables. -/
theorem Transfer.of_eq {file got : List UInt8} {b : Nat} {t t' : Tftp}
    (h : Transfer file b t got) (hblk : t'.blksize = t.blksize)
    (hidx : t'.blockidx = t.blockidx) : Transfer file b t' got := by
  obtain ⟨c, hc, hprogress⟩ := h
  exact ⟨c, hblk.trans hc, by rwa [hidx]⟩

/-! ## One round -/

theorem lates_le_of_suffix {polls rest : List Poll} (h : rest <:+ polls) :
    lates rest ≤ lates polls := h.sublist.countP_le

/-- While the transfer goes on: what may still come, and that nothing has to be asked for before an
acknowledgement can leave. -/
structure Serving (kind : List UInt8 → Prop) (client : UInt32) (ports : UInt16 → Prop)
    (t : Tftp) (s : Net) (polls : List Poll) : Prop where
  served : Served kind client ports polls
  clientIp : s.clientIp = client
  routed : RoutedTo s (s.arptable arpServer).ipaddr
  ports_lport : ∀ i ≤ lates polls, ports (t.lport + UInt16.ofNat i)

section Serving

variable {file got : List UInt8} {b : Nat} {kind : List UInt8 → Prop} {client : UInt32}
  {ports : UInt16 → Prop} {t t' : Tftp} {s s' : Net} {polls rest : List Poll}

theorem Served.of_suffix (h : Served kind client ports polls) (hrest : rest <:+ polls) :
    Served kind client ports rest := fun f hf => h f (hrest.subset hf)

theorem Serving.step (h : Serving kind client ports t s polls)
    (harp : s'.arptable = s.arptable) (hmask : s'.netmask = s.netmask) (hrest : rest <:+ polls)
    (hport : t'.lport = t.lport) : Serving kind client ports t' s' rest where
  served := h.served.of_suffix hrest
  clientIp := by rw [Net.clientIp, harp]; exact h.clientIp
  routed := by rw [harp]; exact h.routed.of_eq harp hmask
  ports_lport := fun i hi => by
    rw [hport]
    exact h.ports_lport i (hi.trans (lates_le_of_suffix hrest))

/-- On a known route an acknowledgement leaves at once. -/
theorem tftpTransmit_of_routedTo {sent : Bool}
    (hr : RoutedTo s (s.arptable arpServer).ipaddr)
    (h : tftpTransmit t s polls = .ok (sent, t', s', rest)) :
    sent = true ∧ rest = polls ∧ s'.packet = s.packet ∧ s'.arptable = s.arptable ∧
      s'.netmask = s.netmask ∧ ∃ xmit, t' = { t with xmit } := by
  unfold tftpTransmit at h
  obtain ⟨⟨sent₁, b₁, s₁, rest₁⟩, hudp, h⟩ := bind_eq_ok.mp h
  cases h
  unfold udpTransmit at hudp
  obtain ⟨b₂, hbuild, hudp⟩ := bind_eq_ok.mp hudp
  obtain ⟨⟨sent₂, s₂, rest₂⟩, hip, hudp⟩ := bind_eq_ok.mp hudp
  cases hudp
  have hrouted : RoutedTo { s with sport := t.lport } (ipDest b₁ 0) := by
    rw [ipDest_buildUdpHdr hbuild]
    exact hr.of_eq rfl rfl
  obtain ⟨node, hnode⟩ := ipTransmit_of_routedTo t.xmitlen.toNat polls hrouted
  rw [hnode] at hip
  cases hip
  exact ⟨rfl, rfl, rfl, rfl, rfl, b₁, rfl⟩

/-- What a block that is returned says about the transfer. -/
structure Delivered (file : List UInt8) (b : Nat) (got : List UInt8) (n : Nat) (t : Tftp)
    (s : Net) (block : TftpBlkInfo) : Prop where
  transfer : Transfer file b t (got ++ s.packet.slice block.data block.len.toNat)
  eof : block.eof = true ↔ t.blksize = 0
  blockidx : t.blockidx.toNat = n + 1
  block_eq : block.block.toNat = n + 1

/-- **A packet** from the server. -/
theorem tftpPacket_says {request : Option TftpReqInfo} {next : TftpNext} {d : Datagram}
    (hb : 512 ≤ b) (hmax : b ≤ 1432) (hsize : ∀ r ∈ request, r.blksize = 1432)
    (hbrought : Brought s.packet d) (hsaid : ServerSays file b d.payload)
    (ht : Transfer file b t got) (hactive : t.blksize ≠ 0)
    (h : tftpPacket request t s = .ok (next, t', s')) :
    s' = s ∧ t'.lport = t.lport ∧ ((next = .abort) ∨
      (next = .acknowledge none ∧ Transfer file b t' got ∧ t'.blksize ≠ 0 ∧
        t'.blockidx = t.blockidx) ∨
      ∃ block, next = .acknowledge (some block) ∧
        Delivered file b got t.blockidx.toNat t' s block) := by
  obtain ⟨c, hc, hprogress⟩ := ht
  have hc0 : c ≠ 0 := fun h0 => hactive (by rw [hc, h0]; rfl)
  have hcmax := hprogress.le_max hmax
  generalize hpayload : d.payload = payload at hsaid
  cases hsaid with
  | error =>
    rw [tftpPacket_error (hbrought.toTftp hpayload)] at h
    obtain ⟨-, -, h⟩ := bind_eq_ok.mp h
    cases h
    exact ⟨rfl, rfl, Or.inl rfl⟩
  | oack =>
    have hs := hbrought.toTftp hpayload
    by_cases hlate : request = none ∨ t.blockidx ≠ 0
    · rw [tftpPacket_oack_late hs hmax hlate] at h
      cases h
      exact ⟨rfl, rfl, Or.inr (Or.inl ⟨rfl, ⟨c, hc, hprogress⟩, hactive, rfl⟩)⟩
    · rw [not_or, not_not] at hlate
      obtain ⟨hsome, hfirst⟩ := hlate
      obtain ⟨⟨name, remote, blksize⟩, rfl⟩ := Option.ne_none_iff_exists'.mp hsome
      obtain rfl : blksize = 1432 := hsize _ rfl
      rw [tftpPacket_oack hs hb hmax hfirst] at h
      obtain ⟨z, -, h⟩ := bind_eq_ok.mp h
      cases h
      rw [hfirst] at hprogress
      have hoption := hprogress.option hc0
      refine ⟨rfl, rfl, Or.inr (Or.inl ⟨rfl, ⟨b, rfl, ?_⟩, ?_, rfl⟩)⟩
      · show Progress file b t.blockidx.toNat b got
        rwa [hfirst]
      · exact fun hzero => absurd (eq_zero_of_ofNat hmax hzero) (by omega)
  | @data k hk hkn =>
    have hs := hbrought.toTftp hpayload
    have hfields : BlockFields (t.heard d.srcsock) s k (chunk file b k.toNat).length c :=
      hs.fields hcmax hc
    rw [tftpPacket_data request t hs] at h
    by_cases hnext : k.toNat = t.blockidx.toNat + 1 ∧ (chunk file b k.toNat).length ≤ c
    · obtain ⟨hnext, hlen⟩ := hnext
      rw [tftpBlockData_next hfields hnext hlen] at h
      cases h
      refine ⟨rfl, rfl, Or.inr (Or.inr ⟨_, rfl, ?_⟩)⟩
      have hblock := hprogress.block hb hc0 (by rwa [hnext, Nat.add_sub_cancel] at hkn)
        (by rwa [← hnext])
      rw [← hnext] at hblock
      have hlen32 : (UInt32.ofNat (chunk file b k.toNat).length).toNat =
          (chunk file b k.toNat).length := UInt32.toNat_ofNat_of_lt' (by
        show _ < 2 ^ 32
        omega)
      exact {
        transfer := by
          refine ⟨if (chunk file b k.toNat).length < c then 0 else c, ?_, ?_⟩
          · show (if _ then 0 else t.blksize) = _
            rw [hc]
            split <;> rfl
          · show Progress file b k.toNat _ (got ++ s.packet.slice 46 (UInt32.ofNat _).toNat)
            rwa [hlen32, hs.bytes]
        eof := by
          show decide ((chunk file b k.toNat).length < c) = true ↔ (if _ then 0 else t.blksize) = 0
          rw [decide_eq_true_eq]
          split
          · exact iff_of_true ‹_› rfl
          · exact iff_of_false ‹_› hactive
        blockidx := hnext
        block_eq := (UInt16.toNat_toUInt32 k).trans hnext }
    · rw [tftpBlockData_other hfields hnext] at h
      cases h
      exact ⟨rfl, rfl, Or.inr (Or.inl ⟨rfl, ⟨c, hc, hprogress⟩, hactive, rfl⟩)⟩

/-! ## The loop -/

/-- The time-outs change the port while no block has come, and each of them is over. -/
theorem Serving.timeout (h : Serving kind client ports t s polls) {pre : List Poll}
    (hrest : polls = pre ++ .empty true :: rest) (hkept : Kept s s') :
    Serving kind client ports (tftpTimeout t).2 s' rest := by
  have hsuffix : rest <:+ polls :=
    ⟨pre ++ [.empty true], by rw [hrest, List.append_assoc, List.singleton_append]⟩
  have hlates : lates rest + 1 ≤ lates polls := by
    rw [hrest]
    unfold lates
    rw [List.countP_append, List.countP_cons]
    exact Nat.le_add_left _ _
  have hstep := h.step hkept.arptable hkept.netmask hsuffix (rfl : t.lport = t.lport)
  have hport : (tftpTimeout t).2.lport = t.lport ∨ (tftpTimeout t).2.lport = t.lport + 1 := by
    unfold tftpTimeout
    split
    · exact Or.inl rfl
    · dsimp only
      split
      · exact Or.inr rfl
      · exact Or.inl rfl
  rcases hport with hport | hport
  · exact { hstep with ports_lport := fun i hi => by rw [hport]; exact hstep.ports_lport i hi }
  · refine { hstep with ports_lport := fun i hi => ?_ }
    have hnext := h.ports_lport (i + 1) (by omega)
    rwa [hport, UInt16.add_assoc, UInt16.add_comm 1, ← UInt16.ofNat_one, ← UInt16.ofNat_add]

theorem tftpTimeout_transfer (ht : Transfer file b t got) :
    Transfer file b (tftpTimeout t).2 got ∧ ((tftpTimeout t).2.blksize = t.blksize) ∧
      (tftpTimeout t).2.blockidx = t.blockidx := by
  unfold tftpTimeout
  split
  · exact ⟨ht.of_eq rfl rfl, rfl, rfl⟩
  · exact ⟨ht.of_eq rfl rfl, rfl, rfl⟩

/-- **The loop of `tftp_block`** ends without a block or delivers the next one. -/
theorem tftpLoop_delivers {request : Option TftpReqInfo} {n : Nat} {block : Option TftpBlkInfo}
    (hb : 512 ≤ b) (hmax : b ≤ 1432) (hsize : ∀ r ∈ request, r.blksize = 1432)
    (hserving : Serving (ServerSays file b) client ports t s polls) (ht : Transfer file b t got)
    (hactive : t.blksize ≠ 0) (h : tftpLoop request n t s polls = .ok (block, t', s', rest)) :
    ∀ blk, block = some blk → Serving (ServerSays file b) client ports t' s' rest ∧
      Delivered file b got t.blockidx.toNat t' s' blk := by
  induction n generalizing t s polls with
  | zero => cases h
  | succ n ih =>
    intro blk hblk
    rw [tftpLoop] at h
    obtain ⟨⟨received, s₁, rest₁⟩, hawait, h⟩ := bind_eq_ok.mp h
    obtain ⟨hkept, hsuffix, htaken⟩ :=
      awaitReply_awaitTftp hserving.clientIp hserving.served hawait
    cases received with
    | true =>
      obtain ⟨d, hfrom, hdest, hport, hbrought⟩ := htaken rfl
      have hsaid : ServerSays file b d.payload := by
        refine hfrom hdest ?_
        have hlport : ports (t.lport + 0) := hserving.ports_lport 0 (Nat.zero_le _)
        rwa [UInt16.add_zero, ← hport] at hlport
      dsimp only at h
      rw [if_pos rfl] at h
      obtain ⟨⟨next, t₁, s₂⟩, hpacket, h⟩ := bind_eq_ok.mp h
      obtain ⟨rfl, hlport, hnext⟩ :=
        tftpPacket_says hb hmax hsize hbrought hsaid ht hactive hpacket
      have hstep := hserving.step hkept.arptable hkept.netmask hsuffix hlport
      rcases hnext with rfl | ⟨rfl, ht₁, hactive₁, hidx⟩ | ⟨block₁, rfl, hdelivered⟩
      · cases h
        cases hblk
      · obtain ⟨⟨sent, t₂, s₃, rest₂⟩, htransmit, h⟩ := bind_eq_ok.mp h
        obtain ⟨-, rfl, -, harp, hmask, xmit, rfl⟩ :=
          tftpTransmit_of_routedTo hstep.routed htransmit
        have hagain : tftpLoop request n { t₁ with xmit } s₃ rest₂ = .ok (block, t', s', rest) := h
        have hloop := ih (t := { t₁ with xmit }) (hstep.step harp hmask List.suffix_rfl rfl)
          (ht₁.of_eq rfl rfl) hactive₁ hagain blk hblk
        rwa [hidx] at hloop
      · obtain ⟨⟨sent, t₂, s₃, rest₂⟩, htransmit, h⟩ := bind_eq_ok.mp h
        obtain ⟨-, rfl, hpacket₃, harp, hmask, xmit, rfl⟩ :=
          tftpTransmit_of_routedTo hstep.routed htransmit
        cases h
        cases hblk
        exact ⟨hstep.step harp hmask List.suffix_rfl rfl, {
          transfer := by
            rw [hpacket₃]
            exact hdelivered.transfer.of_eq rfl rfl
          eof := hdelivered.eof
          blockidx := hdelivered.blockidx
          block_eq := hdelivered.block_eq }⟩
    | false =>
      obtain ⟨pre, hpre⟩ := awaitReply_timeout hawait
      have hstep := hserving.timeout hpre hkept
      obtain ⟨ht₁, hblksize, hidx⟩ := tftpTimeout_transfer ht
      dsimp only at h
      rw [if_neg Bool.false_ne_true] at h
      split at h
      · obtain ⟨⟨sent, t₂, s₃, rest₂⟩, htransmit, h⟩ := bind_eq_ok.mp h
        obtain ⟨rfl, rfl, -, harp, hmask, xmit, rfl⟩ :=
          tftpTransmit_of_routedTo hstep.routed htransmit
        have hagain : tftpLoop request n { (tftpTimeout t).2 with xmit } s₃ rest₂ =
            .ok (block, t', s', rest) := h
        have hactive₁ : (tftpTimeout t).2.blksize ≠ 0 := by rwa [hblksize]
        have hloop := ih (t := { (tftpTimeout t).2 with xmit })
          (hstep.step harp hmask List.suffix_rfl rfl) (ht₁.of_eq rfl rfl) hactive₁ hagain blk hblk
        rwa [hidx] at hloop
      · cases h
        cases hblk

/-! ## One block -/

theorem tftpBlock_none_delivers {block : TftpBlkInfo} (hb : 512 ≤ b) (hmax : b ≤ 1432)
    (hserving : Serving (ServerSays file b) client ports t s polls) (ht : Transfer file b t got)
    (h : tftpBlock none t s polls = .ok (some block, t', s', rest)) :
    Serving (ServerSays file b) client ports t' s' rest ∧
      Delivered file b got t.blockidx.toNat t' s' block := by
  unfold tftpBlock at h
  dsimp only at h
  split at h
  · cases h
  case isFalse hactive =>
    exact tftpLoop_delivers hb hmax (fun r hr => by cases hr) hserving ht hactive h block rfl

theorem tftpRequest_fresh {request : TftpReqInfo} (h : tftpRequest request t = .ok t') :
    t'.blockidx = 0 ∧ t'.blksize = 512 ∧ t'.lport = t.lport + 1 := by
  unfold tftpRequest at h
  obtain ⟨out, -, h⟩ := bind_eq_ok.mp h
  split at h
  · cases h
  · cases h
    exact ⟨rfl, rfl, rfl⟩

/-- The request may have to wait for the hardware address of the server, which is known then. -/
theorem tftpTransmit_routes (hnode : NoZeroNode polls) {sent : Bool}
    (h : tftpTransmit t s polls = .ok (sent, t', s', rest)) :
    rest <:+ polls ∧ (∀ j, (s'.arptable j).ipaddr = (s.arptable j).ipaddr) ∧
      (∃ xmit, t' = { t with xmit }) ∧
      (sent = true → RoutedTo s' (s'.arptable arpServer).ipaddr) := by
  unfold tftpTransmit at h
  obtain ⟨⟨sent₁, b₁, s₁, rest₁⟩, hudp, h⟩ := bind_eq_ok.mp h
  cases h
  unfold udpTransmit at hudp
  obtain ⟨b₂, hbuild, hudp⟩ := bind_eq_ok.mp hudp
  obtain ⟨⟨sent₂, s₂, rest₂⟩, hip, hudp⟩ := bind_eq_ok.mp hudp
  cases hudp
  have hsuffix := (ipTransmit_rule hip).2
  have hipaddr : ∀ j, (s'.arptable j).ipaddr = (s.arptable j).ipaddr := fun j =>
    ipTransmit_ipaddr (s := { s with sport := t.lport }) hip j
  refine ⟨hsuffix, hipaddr, ⟨_, rfl⟩, ?_⟩
  rintro rfl
  have hrouted := routedTo_of_ipTransmit hnode hip
  rwa [ipDest_buildUdpHdr hbuild, ← hipaddr] at hrouted

theorem tftpBlock_some_delivers {request : TftpReqInfo} {block : TftpBlkInfo} (hb : 512 ≤ b)
    (hmax : b ≤ 1432) (hsize : request.blksize = 1432)
    (hserved : Served (ServerSays file b) s.clientIp ports polls) (hnode : NoZeroNode polls)
    (hports : ∀ i ≤ lates polls, ports (t.lport + 1 + UInt16.ofNat i))
    (h : tftpBlock (some request) t s polls = .ok (some block, t', s', rest)) :
    Serving (ServerSays file b) s.clientIp ports t' s' rest ∧ Delivered file b [] 0 t' s' block := by
  unfold tftpBlock at h
  dsimp only at h
  obtain ⟨⟨s₁, polls₁⟩, hdrain, h⟩ := bind_eq_ok.mp h
  obtain ⟨t₁, hrequest, h⟩ := bind_eq_ok.mp h
  obtain ⟨⟨sent, t₂, s₂, polls₂⟩, htransmit, h⟩ := bind_eq_ok.mp h
  have hkept := rxQdrain_kept hdrain
  obtain ⟨hidx, hblksize, hlport⟩ := tftpRequest_fresh hrequest
  have hnode₁ : NoZeroNode polls₁ := fun f ip node hf => hnode f ip node (hkept.2.subset hf)
  obtain ⟨hsuffix, hipaddr, ⟨xmit, rfl⟩, hrouted⟩ := tftpTransmit_routes hnode₁ htransmit
  cases sent with
  | false => cases h
  | true =>
    dsimp only at h
    rw [if_pos rfl] at h
    split at h
    · cases h
    case isFalse hactive =>
      have hrest := hsuffix.trans hkept.2
      have hserving : Serving (ServerSays file b) s.clientIp ports { t₁ with xmit } s₂ polls₂ := {
        served := hserved.of_suffix hrest
        clientIp := (hipaddr arpClient).trans hkept.1.clientIp
        routed := hrouted rfl
        ports_lport := fun i hi => by
          show ports (t₁.lport + _)
          rw [hlport]
          exact hports i (hi.trans (lates_le_of_suffix hrest)) }
      have hfresh : Transfer file b { t₁ with xmit } [] := by
        refine ⟨512, hblksize, ?_⟩
        show Progress file b t₁.blockidx.toNat 512 []
        rw [hidx]
        exact .fresh
      have hloop := tftpLoop_delivers hb hmax (fun r hr => by cases hr; exact hsize) hserving hfresh
        hactive h block rfl
      rwa [show ({ t₁ with xmit } : Tftp).blockidx = 0 from hidx] at hloop

end Serving

/-! ## The whole transfer -/

/-- What the callback may read of a call. -/
def TftpCall.bytes (call : TftpCall) : List UInt8 := call.data.slice 0 call.len.toNat

/-- What has been given to the callback. -/
def received (calls : List TftpCall) : List UInt8 := calls.flatMap TftpCall.bytes

/-- The calls come in order and without a gap, and the last block is marked only at the end. -/
structure Fetched (file : List UInt8) (calls : List TftpCall) : Prop where
  isPrefix : received calls <+: file
  blocks : calls.map (fun call => call.block.toNat) = List.range' 1 calls.length
  eof : ∀ call ∈ calls, call.eof = true → received calls = file

section Calls

variable {file : List UInt8} {b : Nat} {client : UInt32} {ports : UInt16 → Prop} {t t' : Tftp}
  {s s' : Net} {polls rest : List Poll} {calls : List TftpCall}

/-- What is handed over with a block. -/
def TftpBlkInfo.call (block : TftpBlkInfo) (s : Net) : TftpCall :=
  ⟨fun i => s.packet (block.data + i), block.block, block.len, block.eof⟩

theorem TftpBlkInfo.call_bytes (block : TftpBlkInfo) (s : Net) :
    (block.call s).bytes = s.packet.slice block.data block.len.toNat :=
  Bytes.slice_congr fun i _ => by rw [call, Nat.zero_add]

theorem received_append_call (calls : List TftpCall) (block : TftpBlkInfo) (s : Net) :
    received (calls ++ [block.call s]) =
      received calls ++ s.packet.slice block.data block.len.toNat := by
  rw [received, List.flatMap_append, List.flatMap_singleton, block.call_bytes]
  rfl

/-- One more call. -/
theorem Fetched.append {block : TftpBlkInfo} (hb : 512 ≤ b) (hmax : b ≤ 1432)
    (h : Fetched file calls)
    (hopen : ∀ call ∈ calls, call.eof = false)
    (hblock : Delivered file b (received calls) calls.length t s block) :
    Fetched file (calls ++ [block.call s]) where
  isPrefix := by
    obtain ⟨c, -, hprogress⟩ := hblock.transfer
    rw [received_append_call]
    exact hprogress.isPrefix
  blocks := by
    rw [List.map_append, h.blocks, List.length_append, List.length_singleton, List.range'_concat,
      Nat.mul_comm, Nat.mul_one, Nat.add_comm 1]
    exact congrArg (_ ++ [·]) hblock.block_eq
  eof := by
    intro call hcall heof
    rcases List.mem_append.mp hcall with hold | hnew
    · exact absurd (hopen call hold) (by rw [heof]; decide)
    · rw [List.mem_singleton.mp hnew] at heof
      obtain ⟨c, hc, hprogress⟩ := hblock.transfer
      obtain rfl : c = 0 :=
        eq_zero_of_ofNat (hprogress.le_max hmax) (hc.symm.trans (hblock.eof.mp heof))
      rw [received_append_call]
      exact hprogress.eq_of_zero hb

/-- The loop of `tftp`, from any block on. -/
theorem tftpCalls_fetched {fnc : TftpSink} {n : Nat} {request : Option TftpReqInfo} {rc : Int32}
    {calls' : List TftpCall} (hb : 512 ≤ b) (hmax : b ≤ 1432) (hfetched : Fetched file calls)
    (hopen : ∀ call ∈ calls, call.eof = false)
    (hblock : ∀ block t' s' rest, tftpBlock request t s polls = .ok (some block, t', s', rest) →
      Serving (ServerSays file b) client ports t' s' rest ∧
        Delivered file b (received calls) calls.length t' s' block)
    (h : tftpCalls fnc n request calls t s polls = .ok (rc, calls', t', s', rest)) :
    Fetched file calls' := by
  induction n generalizing request calls t s polls with
  | zero => cases h
  | succ n ih =>
    rw [tftpCalls] at h
    obtain ⟨⟨block, t₁, s₁, rest₁⟩, hrun, h⟩ := bind_eq_ok.mp h
    cases block with
    | none =>
      cases h
      exact hfetched
    | some block =>
      obtain ⟨hserving, hdelivered⟩ := hblock block t₁ s₁ rest₁ hrun
      have happend := hfetched.append hb hmax hopen hdelivered
      dsimp only at h
      split at h
      · cases h
        exact happend
      case isFalse hgo =>
        have hopen' : ∀ call ∈ calls ++ [block.call s₁], call.eof = false := fun call hcall => by
          rcases List.mem_append.mp hcall with hold | hnew
          · exact hopen call hold
          · rw [List.mem_singleton.mp hnew]
            exact Bool.eq_false_of_not_eq_true fun heof => hgo (Or.inr heof)
        refine ih happend hopen' (fun block' t₂ s₂ rest₂ hrun' => ?_) h
        have hnext := tftpBlock_none_delivers hb hmax hserving hdelivered.transfer hrun'
        rwa [hdelivered.blockidx, ← received_append_call,
          ← show (calls ++ [block.call s₁]).length = calls.length + 1 from
            List.length_append] at hnext

/-- **What a transfer delivers.** Whatever a network makes of the datagrams of a server, and however
often the time is over: when `tftp` returns, the callback has been given the blocks 1, 2, … of a
prefix of the file, and the whole file if the last one was marked as the end. -/
theorem tftp_prefix {name : List UInt8} {fnc : TftpSink} {rc : Int32} (hb : 512 ≤ b)
    (hmax : b ≤ 1432)
    (hserved : Served (ServerSays file b) s.clientIp
      (fun port => ∃ i ≤ lates polls, port = t.lport + 1 + UInt16.ofNat i) polls)
    (hnode : NoZeroNode polls)
    (h : tftp name fnc t s polls = .ok (rc, calls, t', s', rest)) : Fetched file calls := by
  have hnil : Fetched file [] := {
    isPrefix := List.nil_prefix
    blocks := rfl
    eof := fun call hcall => by cases hcall }
  exact tftpCalls_fetched hb hmax hnil (fun call hcall => by cases hcall)
    (fun block t₁ s₁ rest₁ hrun => tftpBlock_some_delivers hb hmax rfl hserved hnode
      (fun i hi => ⟨i, hi, rfl⟩) hrun) h

end Calls

end MbBootTv
