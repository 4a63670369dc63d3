import MbBootTv.Net.Datagram

/-!
# What `tftp_block` makes of a packet

The datagrams that a server of RFC 1350 and RFC 2347 sends, and one lemma for each kind of them:
what `tftp_block` reads out of it and how its variables change. The options are looked for with
string functions that know nothing of the end of the datagram, so that reading the last option goes
on behind it, up to the next zero in the buffer (`oackOptions_blksize`).
-/

namespace MbBootTv

/-! ## Datagrams -/

/-- A number in network order. -/
def be16 (x : UInt16) : List UInt8 := [(x >>> 8).toUInt8, x.toUInt8]

@[simp] theorem length_be16 (x : UInt16) : (be16 x).length = 2 := rfl

/-- The block `k`. -/
def dataMsg (k : UInt16) (bytes : List UInt8) : List UInt8 := be16 tftpData ++ (be16 k ++ bytes)

/-- The option with its value, each with its zero. -/
def blksizeOption (b : Nat) : List UInt8 := ascii "blksize" ++ [0] ++ (ascii (Nat.repr b) ++ [0])

/-- The option is granted. -/
def oackMsg (b : Nat) : List UInt8 := be16 tftpOack ++ blksizeOption b

section Memory

variable {m : Bytes} {pos : Nat}

theorem slice_append_iff {l l' : List UInt8} :
    m.slice pos (l ++ l').length = l ++ l' ↔
      m.slice pos l.length = l ∧ m.slice (pos + l.length) l'.length = l' := by
  rw [List.length_append, ← Bytes.slice_append]
  constructor
  · intro h
    exact List.append_inj h (Bytes.slice_length _ _ _)
  · rintro ⟨h, h'⟩
    rw [h, h']

theorem slice_cons_iff {c : UInt8} {l : List UInt8} :
    m.slice pos (c :: l).length = c :: l ↔ m pos = c ∧ m.slice (pos + 1) l.length = l := by
  rw [List.length_cons, Bytes.slice_succ, List.cons.injEq]

theorem slice_copy_piece (m : Bytes) (pos : Nat) (l : List UInt8) :
    (m.copy pos (pieceAt l) l.length).slice pos l.length = l := by
  have hpiece : (pieceAt l).slice 0 l.length = l := Bytes.slice_getD l
  refine (Bytes.slice_congr fun i hi => ?_).trans hpiece
  rw [Bytes.copy_of_mem (by omega) (by omega), Nat.add_sub_cancel_left, Nat.zero_add]

theorem slice_putLe_htons (m : Bytes) (pos : Nat) (x : UInt16) :
    (m.putLe pos 2 (htons x).toNat).slice pos 2 = be16 x := by
  have hx := x.toNat_lt
  have hbswap : (htons x).toNat = x.toNat % 256 * 256 + x.toNat / 256 := toNat_bswap16 x
  have hhigh : m.putLe pos 2 (htons x).toNat pos = (x >>> 8).toUInt8 := by
    rw [Bytes.putLe_of_mem (by omega) (by omega), hbswap, ← UInt8.toNat_inj, UInt8.toNat_ofNat',
      UInt16.toNat_toUInt8, UInt16.toNat_shiftRight, Nat.shiftRight_eq_div_pow, Nat.sub_self]
    show (x.toNat % 256 * 256 + x.toNat / 256) / 1 % 2 ^ 8 = x.toNat / 2 ^ 8 % 2 ^ 8
    omega
  have hlow : m.putLe pos 2 (htons x).toNat (pos + 1) = x.toUInt8 := by
    rw [Bytes.putLe_of_mem (by omega) (by omega), hbswap, ← UInt8.toNat_inj, UInt8.toNat_ofNat',
      UInt16.toNat_toUInt8, Nat.add_sub_cancel_left, pow_one, Nat.mul_comm,
      Nat.mul_add_div (by decide), Nat.div_eq_of_lt (by omega), Nat.add_zero]
    exact Nat.mod_mod _ _
  rw [Bytes.slice_succ, Bytes.slice_succ, Bytes.slice_zero, be16, hhigh, hlow]

theorem ntohs_le16_of_slice {x : UInt16} (h : m.slice pos 2 = be16 x) :
    ntohs (m.le16 pos) = x := by
  rw [Bytes.slice_succ, Bytes.slice_succ, be16, List.cons.injEq, List.cons.injEq] at h
  obtain ⟨hhigh, hlow, -⟩ := h
  have hx := x.toNat_lt
  have hhigh' : (m pos).toNat = x.toNat / 256 := by
    rw [hhigh, UInt16.toNat_toUInt8, UInt16.toNat_shiftRight, Nat.shiftRight_eq_div_pow]
    show x.toNat / 2 ^ 8 % 2 ^ 8 = _
    omega
  have hlow' : (m (pos + 1)).toNat = x.toNat % 256 := by
    rw [hlow, UInt16.toNat_toUInt8]
  rw [← UInt16.toNat_inj, ntohs, toNat_bswap16, toNat_le16, hhigh', hlow']
  omega

end Memory

/-! ## Numbers in memory -/

/-- `strtoul` reads the decimal representation of a number. -/
theorem decimalLoop_repr {m : Bytes} {p : Nat} (n k : Nat)
    (h : m.slice p (ascii (Nat.repr n)).length = ascii (Nat.repr n)) :
    decimalLoop m p ((ascii (Nat.repr n)).length + k) 0 =
      decimalLoop m (p + (ascii (Nat.repr n)).length) k (UInt32.ofNat n) := by
  have hdigit : ∀ d < 10, '0'.toUInt8 ≤ (numberDigits false).getD d 0 ∧
      (numberDigits false).getD d 0 ≤ '9'.toUInt8 ∧
        ((numberDigits false).getD d 0 - '0'.toUInt8).toUInt32 = UInt32.ofNat d := by decide
  have hstep : ∀ d < 10, ∀ p k ret, m.slice p 1 = ascii (String.singleton (Nat.digitChar d)) →
      decimalLoop m p (k + 1) ret = decimalLoop m (p + 1) k (ret * 10 + UInt32.ofNat d) := by
    intro d hd p k ret hm
    rw [ascii_digitChar hd false, Bytes.slice_succ, Bytes.slice_zero, List.cons.injEq] at hm
    obtain ⟨hlow, hhigh, hvalue⟩ := hdigit d hd
    rw [decimalLoop, hm.1, if_pos ⟨hlow, hhigh⟩, hvalue]
  induction n using Nat.strong_induction_on generalizing k with
  | _ n ih =>
    by_cases hn : n < 10
    · rw [Nat.repr_of_lt hn] at h ⊢
      have hlen : (ascii (String.singleton (Nat.digitChar n))).length = 1 := by
        rw [ascii_digitChar hn false, List.length_singleton]
      rw [hlen] at h ⊢
      rw [Nat.add_comm, hstep n hn p k 0 h, UInt32.zero_mul, UInt32.zero_add]
    · have hmod := Nat.mod_lt n (by decide : 0 < 10)
      have hlen : (ascii (String.singleton (Nat.digitChar (n % 10)))).length = 1 := by
        rw [ascii_digitChar hmod false, List.length_singleton]
      rw [Nat.repr_of_ge (n := n) (by omega), ascii_append] at h ⊢
      obtain ⟨hrest, hlast⟩ := slice_append_iff.mp h
      rw [hlen] at hlast
      have hsum : UInt32.ofNat (n / 10) * 10 + UInt32.ofNat (n % 10) = UInt32.ofNat n := by
        rw [show (10 : UInt32) = UInt32.ofNat 10 from rfl, ← UInt32.ofNat_mul, ← UInt32.ofNat_add,
          Nat.div_add_mod']
      rw [List.length_append, hlen, Nat.add_assoc, Nat.add_comm 1 k, ih (n / 10) (by omega) _ hrest,
        hstep _ hmod _ _ _ hlast, hsum, Nat.add_assoc]

/-- The number ends at a byte that is no digit. -/
theorem decimalLoop_end {m : Bytes} {p n : Nat} {ret : UInt32} (h : m p = 0) :
    decimalLoop m p (n + 1) ret = .ok (ret, p) := by
  rw [decimalLoop, h, if_neg (by decide)]

/-! ## The options -/

theorem strcasecmp_self {m : Bytes} {cap p : Nat} {w : List UInt8} (h0 : 0 ∉ w)
    (hm : m.slice p (w ++ [0]).length = w ++ [0]) (hcap : p + w.length < cap) :
    strcasecmp m cap w p = .ok 0 := by
  induction w generalizing p with
  | nil =>
    obtain ⟨hp, -⟩ := slice_cons_iff.mp hm
    rw [List.length_nil, Nat.add_zero] at hcap
    rw [strcasecmp, loadByte, if_pos hcap, hp]
    rfl
  | cons c w ih =>
    rw [List.mem_cons, not_or] at h0
    rw [List.cons_append] at hm
    obtain ⟨hp, hw⟩ := slice_cons_iff.mp hm
    rw [List.length_cons] at hcap
    rw [strcasecmp, loadByte, if_pos (by omega), hp, ok_bind,
      if_pos ⟨Ne.symm h0.1, Ne.symm h0.1, rfl⟩]
    exact ih h0.2 hw (by omega)

theorem length_ascii (s : String) : (ascii s).length = s.length := by
  rw [ascii, List.length_map, String.length_toList]

theorem length_blksizeOption (b : Nat) :
    (blksizeOption b).length = 9 + (ascii (Nat.repr b)).length := by
  have hname : (ascii "blksize").length = 7 := by decide
  unfold blksizeOption
  simp only [List.length_append, List.length_singleton]
  omega

section Options

variable {m : Bytes} {cap p b n : Nat} {old : Int32}

/-- The option is read, with the zero behind its value. -/
theorem oackOption_blksize (hm : m.slice p (blksizeOption b).length = blksizeOption b)
    (hcap : p + (blksizeOption b).length ≤ cap) :
    oackOption m cap p old = .ok (p + (blksizeOption b).length, (UInt32.ofNat b).toInt32) := by
  obtain ⟨hname, hvalue⟩ := slice_append_iff.mp hm
  obtain ⟨hdigits, hend⟩ := slice_append_iff.mp hvalue
  obtain ⟨-, hstop⟩ := slice_append_iff.mp hname
  have hp7 : m (p + 7) = 0 := (slice_cons_iff.mp hstop).1
  have hp8 : p + (ascii "blksize" ++ [0]).length = p + 8 := rfl
  rw [hp8] at hdigits hend
  have hzero := (slice_cons_iff.mp hend).1
  rw [length_blksizeOption] at hcap ⊢
  generalize hL : (ascii (Nat.repr b)).length = L at hcap hdigits hzero ⊢
  have hself : strcasecmp m cap (ascii "blksize") p = .ok 0 :=
    strcasecmp_self (by decide) hname (by
      show p + 7 < cap
      omega)
  have hnumber : strtoul m cap (p + 8) = .ok (UInt32.ofNat b, p + 8 + L) := by
    have hsplit : cap - (p + 8) = L + (cap - (p + 8) - L - 1 + 1) := by omega
    have hrepr := decimalLoop_repr b (cap - (p + 8) - L - 1 + 1) (by rwa [hL])
    rw [hL] at hrepr
    rw [strtoul, hsplit, hrepr]
    exact decimalLoop_end hzero
  rw [oackOption, hself, ok_bind, if_neg (by decide), loadByte, if_pos (by omega), ok_bind, hp7,
    if_neg (by decide), hnumber, ok_bind]
  show Except.ok (p + 8 + L + 1, _) = _
  rw [show p + 8 + L + 1 = p + (9 + L) by omega]

/-- **The option is found**, and then the loop goes on to the next zero behind the datagram. -/
theorem oackOptions_blksize (hm : m.slice p (blksizeOption b).length = blksizeOption b)
    (hcap : p + (blksizeOption b).length ≤ cap) (hb : 10 ≤ b) :
    oackOptions m cap (p + (blksizeOption b).length - 10) (n + 2) p old = (do
      let _ ← scan (· = 0) m (p + (blksizeOption b).length) (cap - (p + (blksizeOption b).length))
      return (UInt32.ofNat b).toInt32) := by
  have hdigits : 1 < (ascii (Nat.repr b)).length := by
    by_contra hle
    rw [length_ascii, Nat.not_lt, Nat.length_repr_le_iff (by decide)] at hle
    omega
  have hlen := length_blksizeOption b
  rw [oackOptions, if_neg (by omega), oackOption_blksize hm hcap, ok_bind]
  dsimp only
  refine bind_congr_ok fun z hz => ?_
  obtain ⟨hge, -⟩ := scan_eq_ok_iff.mp hz
  rw [oackOptions, if_pos (by omega)]
  rfl

end Options

/-! ## One packet -/

/-- What every packet changes. -/
def Tftp.heard (t : Tftp) (port : UInt16) : Tftp := { t with rport := port, retry := 0 }

/-- The packet in memory, as `tftp_block` looks at it. -/
structure TftpSays (s : Net) (port op : UInt16) (rest : List UInt8) : Prop where
  srcsock : udpSrc s.packet ethHlen = port
  opcode : tftpOpcode s = op
  recvlen : (tftpRecvlen s).toNat = rest.length
  rest : s.packet.slice 44 rest.length = rest

theorem Brought.toTftp {s : Net} {d : Datagram} {op : UInt16} {rest : List UInt8}
    (h : Brought s.packet d) (hp : d.payload = be16 op ++ rest) :
    TftpSays s d.srcsock op rest := by
  have hlen := h.udpLen
  have hpayload := h.payload
  rw [hp] at hlen hpayload
  obtain ⟨hop, hrest⟩ := slice_append_iff.mp hpayload
  rw [List.length_append, length_be16] at hlen
  exact {
    srcsock := h.srcsock
    opcode := ntohs_le16_of_slice hop
    recvlen := by
      have hten : (10 : UInt16).toNat = 10 := rfl
      rw [tftpRecvlen, UInt16.toNat_sub_of_le _ _ (UInt16.le_iff_toNat_le.mpr (by omega)), hlen,
        hten]
      omega
    rest := hrest }

section Packet

variable {request : Option TftpReqInfo} {t : Tftp} {s : Net} {port k : UInt16} {rest : List UInt8}

/-- An error ends the transfer, when its text has been printed. -/
theorem tftpPacket_error (hs : TftpSays s port tftpError rest) :
    tftpPacket request t s = (do
      printTftpError s
      return (.abort, t.heard port, s)) := by
  unfold tftpPacket
  dsimp only
  rw [hs.opcode, hs.srcsock, if_pos rfl]
  rfl

/-- The text of an error ends where the server has put a zero behind it. -/
theorem TftpSays.strlen {code : UInt16} {text : List UInt8}
    (hs : TftpSays s port tftpError (be16 code ++ (text ++ [0]))) (hnul : 0 ∉ text)
    (hlen : text.length < 1468) :
    ntohs (s.packet.le16 44) = code ∧ strlen s.packet ethFrameLen 46 = .ok text.length ∧
      s.packet.slice 46 text.length = text := by
  obtain ⟨hcode, hrest⟩ := slice_append_iff.mp hs.rest
  obtain ⟨htext, hzero⟩ := slice_append_iff.mp hrest
  have hframe : ethFrameLen = 1514 := rfl
  have htext : s.packet.slice 46 text.length = text := htext
  have hend : s.packet (46 + text.length) = 0 := (slice_cons_iff.mp hzero).1
  have hscan : scan (· = 0) s.packet 46 (ethFrameLen - 46) = .ok (46 + text.length) := by
    refine scan_eq_ok_iff.mpr ⟨Nat.le_add_right 46 _, by omega, decide_eq_true hend, ?_⟩
    intro j hge hlt
    obtain ⟨i, rfl⟩ := Nat.exists_eq_add_of_le hge
    refine decide_eq_false fun h0 => hnul ?_
    rw [← htext]
    exact h0 ▸ List.mem_map.mpr ⟨i, List.mem_range.mpr (by omega), rfl⟩
  refine ⟨ntohs_le16_of_slice hcode, ?_, htext⟩
  unfold MbBootTv.strlen
  rw [hscan, ok_bind, Nat.add_sub_cancel_left]
  rfl

/-- **The text of an error** runs over the buffer of `printk` when it is too long. -/
theorem printTftpError_eq {code : UInt16} {text : List UInt8}
    (hs : TftpSays s port tftpError (be16 code ++ (text ++ [0]))) (hnul : 0 ∉ text)
    (hlen : text.length < 1468) :
    printTftpError s = if 15 + (decimal code.toUInt32.toInt32).length + text.length < szBufferSize
      then .ok () else .error .overrun := by
  obtain ⟨hcode, hstrlen, htext⟩ := hs.strlen hnul hlen
  have hfmt : ascii "TFTP error %d (%s)\n" = ascii "TFTP error " ++ (ascii "%d" ++
      (ascii " (" ++ (ascii "%s" ++ (ascii ")\n" ++ [])))) := by decide
  have hprint : vsprintf (ascii "TFTP error %d (%s)\n")
      [.word code.toUInt32, .str (some text)] =
        .ok ⟨ascii "TFTP error " ++ (decimal code.toUInt32.toInt32 ++ (ascii " (" ++ (text ++
          ascii ")\n"))), []⟩ := by
    rw [hfmt, vsprintf, vsprintfFrom_text (by decide), vsprintfFrom_d,
      vsprintfFrom_text (by decide), vsprintfFrom_s, vsprintfFrom_text (by decide),
      vsprintfFrom_nil, List.take_of_length_le (by omega)]
    simp only [Printed.put, List.nil_append, List.append_assoc]
    rfl
  unfold printTftpError tftpErrorCall
  rw [hstrlen, ok_bind, hcode, htext, PrintkCall.run_eq hprint]
  have hlabel : (ascii "TFTP error ").length = 11 := by decide
  have hopen : (ascii " (").length = 2 := by decide
  have hclose : (ascii ")\n").length = 2 := by decide
  simp only [List.length_append, hlabel, hopen, hclose]
  exact if_congr (by omega) rfl rfl

/-- What `tftp_block` sees of a block of `n` bytes, when `c` is the block size. -/
structure BlockFields (t : Tftp) (s : Net) (k : UInt16) (n c : Nat) : Prop where
  block : tftpBlockOf s = k
  recvlen : (tftpRecvlen s).toNat = n + 2
  blksize : t.blksize = Int32.ofNat c
  le_max : c ≤ 1432

section BlockFields

variable {n c : Nat}

theorem BlockFields.cap (h : BlockFields t s k n c) : (t.blksize.toUInt32 + 2).toNat = c + 2 := by
  have hc := h.le_max
  rw [h.blksize, Int32.toUInt32_ofNat', UInt32.toNat_add, UInt32.toNat_ofNat']
  show (c % 2 ^ 32 + 2) % 2 ^ 32 = _
  omega

theorem BlockFields.len (h : BlockFields t s k n c) :
    (tftpRecvlen s).toUInt32 - 2 = UInt32.ofNat n := by
  have htwo : (2 : UInt32).toNat = 2 := rfl
  have hlt := (tftpRecvlen s).toNat_lt
  have hrecv := h.recvlen
  rw [← UInt32.toNat_inj, UInt32.toNat_sub_of_le _ _ (UInt32.le_iff_toNat_le.mpr (by
    rw [UInt16.toNat_toUInt32, htwo]
    omega)), UInt16.toNat_toUInt32, htwo, UInt32.toNat_ofNat']
  omega

theorem BlockFields.eof (h : BlockFields t s k n c) (hlen : n ≤ c) :
    (UInt32.ofNat n).toUInt16.toUInt32.toInt32 < t.blksize ↔ n < c := by
  have hc := h.le_max
  have hshort : (UInt32.ofNat n).toUInt16.toUInt32 = UInt32.ofNat n := by
    rw [← UInt32.toNat_inj, UInt16.toNat_toUInt32, UInt32.toNat_toUInt16, UInt32.toNat_ofNat']
    omega
  rw [hshort, h.blksize, UInt32.toInt32_ofNat', Int32.lt_iff_toInt_lt,
    Int32.toInt_ofNat_of_lt (by omega), Int32.toInt_ofNat_of_lt (by omega)]
  omega

/-- The next block. -/
theorem tftpBlockData_next (h : BlockFields t s k n c) (hnext : k.toNat = t.blockidx.toNat + 1)
    (hlen : n ≤ c) :
    tftpBlockData t s = (some ⟨46, k.toUInt32, UInt32.ofNat n, n < c⟩,
      { t with blockidx := k, blksize := if n < c then 0 else t.blksize : Tftp }.ack) := by
  have hcap := h.cap
  have hk : t.blockidx + 1 = k := by
    have hlt := k.toNat_lt
    rw [← UInt16.toNat_inj, UInt16.toNat_add, hnext]
    exact Nat.mod_eq_of_lt (by
      show t.blockidx.toNat + 1 < 2 ^ 16
      omega)
  unfold tftpBlockData
  dsimp only
  rw [h.block, h.recvlen, hcap, if_neg (not_not.mpr hnext), if_neg (by omega), h.len, hk]
  simp only [h.eof hlen, decide_eq_true_eq]

/-- Any other block. -/
theorem tftpBlockData_other (h : BlockFields t s k n c)
    (hother : ¬(k.toNat = t.blockidx.toNat + 1 ∧ n ≤ c)) : tftpBlockData t s = (none, t.ack) := by
  have hcap := h.cap
  unfold tftpBlockData
  dsimp only
  rw [h.block, h.recvlen, hcap]
  by_cases hnext : k.toNat = t.blockidx.toNat + 1
  · rw [if_neg (not_not.mpr hnext), if_pos (by omega)]
  · rw [if_pos hnext]

end BlockFields

theorem tftpPacket_data (request : Option TftpReqInfo) (t : Tftp) {bytes : List UInt8}
    (hs : TftpSays s port tftpData (be16 k ++ bytes)) :
    tftpPacket request t s = .ok (.acknowledge (tftpBlockData (t.heard port) s).1,
      (tftpBlockData (t.heard port) s).2, s) := by
  unfold tftpPacket
  dsimp only
  rw [hs.opcode, hs.srcsock, if_neg (by decide), if_neg (by decide), if_pos rfl]
  rfl

theorem TftpSays.fields {bytes : List UInt8} {c : Nat}
    (hs : TftpSays s port tftpData (be16 k ++ bytes)) (hc : c ≤ 1432)
    (hsize : t.blksize = Int32.ofNat c) : BlockFields t s k bytes.length c where
  block := ntohs_le16_of_slice (slice_append_iff.mp hs.rest).1
  recvlen := by rw [hs.recvlen, List.length_append, length_be16, Nat.add_comm]
  blksize := hsize
  le_max := hc

theorem TftpSays.bytes {bytes : List UInt8} (hs : TftpSays s port tftpData (be16 k ++ bytes)) :
    s.packet.slice 46 bytes.length = bytes := (slice_append_iff.mp hs.rest).2

/-! ## The option -/

theorem fill_zero_of_eq_zero {m : Bytes} {pos : Nat} (h : m pos = 0) : m.fill pos 0 1 = m := by
  funext i
  by_cases hi : i = pos
  · subst hi
    rw [Bytes.fill_of_mem le_rfl (Nat.lt_succ_self _), h]
  · unfold Bytes.fill
    rw [if_neg (by omega)]

variable {b : Nat}

/-- `Force final 0`: it is there. -/
theorem TftpSays.final_zero (hs : TftpSays s port tftpOack (blksizeOption b)) :
    s.packet.fill (43 + (blksizeOption b).length) 0 1 = s.packet := by
  obtain ⟨-, hvalue⟩ := slice_append_iff.mp hs.rest
  obtain ⟨-, hend⟩ := slice_append_iff.mp hvalue
  have hname : (ascii "blksize" ++ [0]).length = 8 := by decide
  have hpos : 43 + (blksizeOption b).length =
      44 + (ascii "blksize" ++ [0]).length + (ascii (Nat.repr b)).length := by
    rw [length_blksizeOption, hname]
    omega
  refine fill_zero_of_eq_zero ?_
  rw [hpos]
  exact (slice_cons_iff.mp hend).1

theorem length_blksizeOption_le (hb : b ≤ 1432) : (blksizeOption b).length ≤ 13 := by
  have hdigits : (Nat.repr b).length ≤ 4 :=
    (Nat.length_repr_le_iff (by decide)).mpr (by omega)
  rw [length_blksizeOption, length_ascii]
  omega

/-- **The option comes too late** for a block that is not the first. -/
theorem tftpPacket_oack_late (hs : TftpSays s port tftpOack (blksizeOption b)) (hb : b ≤ 1432)
    (hlate : request = none ∨ t.blockidx ≠ 0) :
    tftpPacket request t s = .ok (.acknowledge none, (t.heard port).ack, s) := by
  have hlen := length_blksizeOption_le hb
  have hframe : ethFrameLen = 1514 := rfl
  unfold tftpPacket
  dsimp only
  rw [hs.opcode, hs.srcsock, if_neg (by decide), if_pos rfl, tftpOptions, hs.recvlen,
    if_neg (by omega)]
  dsimp only
  rw [hs.final_zero]
  cases request with
  | none => rfl
  | some r =>
    dsimp only
    rw [if_pos (hlate.resolve_left (by simp))]
    rfl

/-- **The option is taken**, if there is a zero behind the datagram. -/
theorem tftpPacket_oack {name : List UInt8} {remote : UInt16}
    (hs : TftpSays s port tftpOack (blksizeOption b)) (h512 : 512 ≤ b) (hb : b ≤ 1432)
    (hfirst : t.blockidx = 0) :
    tftpPacket (some ⟨name, remote, 1432⟩) t s = (do
      let _ ← scan (· = 0) s.packet (44 + (blksizeOption b).length)
        (ethFrameLen - (44 + (blksizeOption b).length))
      return (.acknowledge none, { t.heard port with blksize := Int32.ofNat b : Tftp }.ack, s)) := by
  have hlen := length_blksizeOption_le hb
  have hframe : ethFrameLen = 1514 := rfl
  have hmax : tftpMaxPacket = 1432 := rfl
  unfold tftpPacket
  dsimp only
  rw [hs.opcode, hs.srcsock, if_neg (by decide), if_pos rfl, tftpOptions, hs.recvlen,
    if_neg (by omega)]
  dsimp only
  have hopts : oackOptions s.packet ethFrameLen (44 + (blksizeOption b).length - 10) (1512 + 2) 44
      t.blksize = _ := oackOptions_blksize hs.rest (by omega) (by omega)
  have hge : ¬Int32.ofNat b < 512 := by
    rw [Int32.not_lt, Int32.le_iff_toInt_le, Int32.toInt_ofNat_of_lt (by omega)]
    show (512 : Int) ≤ b
    omega
  have hle : ¬(1432 : UInt16).toUInt32.toInt32 < Int32.ofNat b := by
    rw [Int32.not_lt, Int32.le_iff_toInt_le, Int32.toInt_ofNat_of_lt (by omega)]
    show (b : Int) ≤ 1432
    omega
  rw [hs.final_zero, if_neg (not_not.mpr hfirst), if_pos (by omega),
    show 34 + (blksizeOption b).length = 44 + (blksizeOption b).length - 10 by omega]
  show (oackOptions s.packet ethFrameLen _ (1512 + 2) 44 t.blksize >>= _) = _
  rw [hopts, UInt32.toInt32_ofNat']
  cases scan (· = 0) s.packet (44 + (blksizeOption b).length)
    (ethFrameLen - (44 + (blksizeOption b).length)) with
  | error e => rfl
  | ok z =>
    show (if Int32.ofNat b < 512 ∨ (1432 : UInt16).toUInt32.toInt32 < Int32.ofNat b then _
      else _) = _
    rw [if_neg (not_or.mpr ⟨hge, hle⟩)]
    rfl

end Packet

/-! ## The request -/

/-- The strings of a request, each with its zero. -/
def rrqStrings (name : List UInt8) : List UInt8 :=
  name ++ ([0] ++ (ascii "octet" ++ ([0] ++ (ascii "blksize" ++ ([0] ++ (ascii "1432" ++ [0]))))))

theorem length_rrqStrings (name : List UInt8) : (rrqStrings name).length = name.length + 20 := by
  unfold rrqStrings
  simp only [List.length_append]
  have hrest : [(0 : UInt8)].length + ((ascii "octet").length + ([(0 : UInt8)].length +
      ((ascii "blksize").length + ([(0 : UInt8)].length + ((ascii "1432").length +
        [(0 : UInt8)].length))))) = 20 := by decide
  omega

theorem vsprintf_request (name : List UInt8) :
    ∃ counts, vsprintf (ascii "%s%coctet%cblksize%c%d")
      [.str (some name), .word 0, .word 0, .word 0, .word (1432 : UInt16).toUInt32] =
        .ok ⟨name.take (2 ^ 32 - 1) ++ ([0] ++ (ascii "octet" ++ ([0] ++ (ascii "blksize" ++ ([0] ++
          ascii "1432"))))), counts⟩ := by
  have hfmt : ascii "%s%coctet%cblksize%c%d" = ascii "%s" ++ (ascii "%c" ++ (ascii "octet" ++
      (ascii "%c" ++ (ascii "blksize" ++ (ascii "%c" ++ (ascii "%d" ++ [])))))) := by decide
  have hnumber : ascii (toString (1432 : UInt16).toUInt32.toInt32.toInt) = ascii "1432" := by decide
  rw [hfmt, vsprintf, vsprintfFrom_s, vsprintfFrom_c, vsprintfFrom_text (by decide), vsprintfFrom_c,
    vsprintfFrom_text (by decide), vsprintfFrom_c, vsprintfFrom_d, vsprintfFrom_nil, hnumber]
  refine ⟨[], ?_⟩
  simp only [Printed.put, List.nil_append, List.append_assoc]
  rfl

/-- A request that is made has a name that fits. -/
theorem length_le_of_tftpRequest {name : List UInt8} {remote : UInt16} {t t' : Tftp}
    (h : tftpRequest ⟨name, remote, 1432⟩ t = .ok t') : name.length ≤ 492 := by
  obtain ⟨counts, hprint⟩ := vsprintf_request name
  have hmax : tftpDefaultsizePacket = 512 := rfl
  have hrest : ([0] ++ (ascii "octet" ++ ([0] ++ (ascii "blksize" ++ ([0] ++
      ascii "1432"))))).length = 19 := by decide
  unfold tftpRequest at h
  dsimp only at h
  rw [hprint, ok_bind] at h
  dsimp only at h
  split at h
  · cases h
  case isFalse hfits =>
    rw [List.length_append, List.length_take, hrest] at hfits
    omega

/-- **The request** of a name that fits. -/
theorem tftpRequest_of_le {name : List UInt8} (remote : UInt16) (t : Tftp) (hname : name.length ≤ 492) :
    ∃ t', tftpRequest ⟨name, remote, 1432⟩ t = .ok t' ∧ t'.lport = t.lport + 1 ∧
      t'.rport = remote ∧ t'.blockidx = 0 ∧ t'.retry = 0 ∧ t'.blksize = 512 ∧
      t'.xmitlen.toNat = 50 + name.length ∧
      t'.xmit.slice 28 (22 + name.length) = be16 tftpRrq ++ rrqStrings name := by
  obtain ⟨counts, hprint⟩ := vsprintf_request name
  rw [List.take_of_length_le (by omega)] at hprint
  generalize htext : name ++ ([0] ++ (ascii "octet" ++ ([0] ++ (ascii "blksize" ++ ([0] ++
    ascii "1432"))))) = text at hprint
  have hstrings : text ++ [0] = rrqStrings name := by
    rw [← htext, rrqStrings]
    simp only [List.append_assoc]
  have hlen : text.length + 1 = name.length + 20 := by
    rw [← length_rrqStrings, ← hstrings, List.length_append, List.length_singleton]
  have hmax : tftpDefaultsizePacket = 512 := rfl
  unfold tftpRequest
  dsimp only
  rw [hprint, ok_bind]
  dsimp only
  rw [if_neg (by omega)]
  refine ⟨_, rfl, rfl, rfl, rfl, rfl, rfl, ?_, ?_⟩
  · show (UInt16.ofNat (30 + text.length + 1)).toNat = _
    rw [UInt16.toNat_ofNat']
    omega
  · show Bytes.slice ((t.xmit.putLe 28 2 (htons tftpRrq).toNat).copy 30
      (pieceAt (text ++ [0])) (text.length + 1)) 28 (22 + name.length) = _
    rw [show 22 + name.length = 2 + (text ++ [0]).length by
        rw [List.length_append, List.length_singleton]
        omega, ← Bytes.slice_append, ← hstrings]
    refine congrArg₂ (· ++ ·) ?_ ?_
    · refine (Bytes.slice_congr fun i hi => ?_).trans (slice_putLe_htons t.xmit 28 tftpRrq)
      exact Bytes.copy_of_lt (by omega)
    · rw [← List.length_singleton (a := (0 : UInt8)), ← List.length_append]
      exact slice_copy_piece _ _ _

end MbBootTv
