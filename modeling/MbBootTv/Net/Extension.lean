import MbBootTv.Net.Options
import MbBootTv.Net.TftpTalk

/-!
# A file with more options

The file that a reply names comes in blocks, and `decode_rfc1533` puts each of them behind the options
of the reply (`Bootp.Extended`). With the last block they are all read. So the options of a reply and
those of its file are read as if they were one list (`extension_read`), but for an extension path in
the file, which nobody follows.
-/

namespace MbBootTv

/-- These bytes have been put behind the options. -/
structure Bootp.Extended (d : Bootp) (l : List UInt8) (d' : Bootp) : Prop where
  bytes : d'.data.slice d.extend l.length = l
  below : ∀ i < d.extend, d'.data i = d.data i
  rest : d' = { d with
    data := d'.data
    extend := d.extend + l.length }

/-- What there is of options in a block: the first one starts with the cookie. -/
def TftpCall.options (call : TftpCall) : List UInt8 :=
  if call.block = 1 then call.bytes.drop 4 else call.bytes

/-- The cookie is where it belongs. -/
def TftpCall.HasCookie (call : TftpCall) : Prop :=
  call.block = 1 → call.bytes.take 4 = rfc1533Cookie

section Extended

variable {d d' d'' : Bootp} {l l' : List UInt8}

theorem Bootp.Extended.nil (d : Bootp) : d.Extended [] d := ⟨rfl, fun _ _ => rfl, rfl⟩

theorem Bootp.Extended.extend (h : d.Extended l d') : d'.extend = d.extend + l.length := by
  rw [h.rest]

theorem Bootp.Extended.extdata (h : d.Extended l d') : d'.extdata = d.extdata := by
  rw [h.rest]

theorem Bootp.Extended.trans (h : d.Extended l d') (h' : d'.Extended l' d'') :
    d.Extended (l ++ l') d'' where
  bytes := by
    have hextend := h.extend
    rw [slice_append_iff, ← hextend]
    refine ⟨(Bytes.slice_congr fun i hi => h'.below _ ?_).trans h.bytes, h'.bytes⟩
    omega
  below := fun i hi => (h'.below i (by
    rw [h.extend]
    omega)).trans (h.below i hi)
  rest := by
    rw [h'.rest, h.extend, h.rest, List.length_append, Nat.add_assoc]

/-- What has been read before stays as it is. -/
theorem Bootp.Extended.settings (h : d.Extended l d') (hin : d.Within True none d.extend) :
    d'.settings none = d.settings none := by
  have hslice : ∀ p n, p + n ≤ d.extend → d'.data.slice p n = d.data.slice p n := fun p n hle =>
    Bytes.slice_congr fun i hi => h.below _ (by omega)
  rw [h.rest]
  unfold Bootp.settings
  dsimp only
  rw [Option.map_congr fun p hp => hslice p d.hostnamelen.toNat (hin.hostname trivial p hp),
    Option.map_congr fun p hp => hslice p d.addparamlen.toNat (hin.addparam p hp)]
  rfl

theorem Bootp.Extended.within (h : d.Extended l d') (hin : d.Within True none d.extend) :
    d'.Within True none d.extend := by
  rw [h.rest]
  exact { hin with extpath := fun e he => by cases he }

end Extended

/-! ## Blocks -/

section Blocks

variable {load : List UInt8 → Bootp → Except Fault Bootp} {d : Bootp} {call : TftpCall}
  {calls : List TftpCall}

theorem TftpCall.bytes_length (call : TftpCall) : call.bytes.length = call.len.toNat :=
  Bytes.slice_length _ _ _

/-- Where the options are in a block, and how many bytes there are of them. -/
theorem TftpCall.HasCookie.layout (h : call.HasCookie) :
    ¬(call.block = 1 ∧ call.data.slice 0 4 ≠ rfc1533Cookie) ∧
      (if call.block = 1 then call.len - 4 else call.len).toNat = call.options.length ∧
      call.data.slice (if call.block = 1 then 4 else 0) call.options.length = call.options := by
  have hbytes := call.bytes_length
  unfold TftpCall.options
  by_cases hone : call.block = 1
  · rw [if_pos hone, if_pos hone, if_pos hone]
    have htake := h hone
    have hlen := congrArg List.length htake
    rw [List.length_take, hbytes, show rfc1533Cookie.length = 4 from rfl] at hlen
    have hle : 4 ≤ call.len.toNat := by omega
    have hsplit : call.bytes = call.data.slice 0 4 ++ call.data.slice 4 (call.len.toNat - 4) := by
      have happend := Bytes.slice_append call.data 0 4 (call.len.toNat - 4)
      rw [Nat.add_sub_cancel' hle] at happend
      exact happend.symm
    rw [hsplit, List.take_left' (Bytes.slice_length _ _ _)] at htake
    rw [hsplit, List.drop_left' (Bytes.slice_length _ _ _), Bytes.slice_length]
    exact ⟨fun hno => hno.2 htake,
      UInt32.toNat_sub_of_le _ _ (UInt32.le_iff_toNat_le.mpr hle), rfl⟩
  · rw [if_neg hone, if_neg hone, if_neg hone, hbytes]
    exact ⟨fun hno => hone hno.1, rfl, rfl⟩

/-- **A block** is put behind what is there, and all is read when it is the last one. -/
theorem decodeBlock_copies (load : List UInt8 → Bootp → Except Fault Bootp)
    (hcookie : call.HasCookie) (hroom : d.extend + call.options.length ≤ bootpdLen) :
    ∃ d', d.Extended call.options d' ∧ decodeBlock load d call =
      if call.eof then do
        let (stop, _, d) ← decodeLoop load decodeFuel d'.extdata d'.extend none d'
        return (1, { d with extdata := stop, extend := stop })
      else .ok (1, d') := by
  obtain ⟨hno, hlen, hslice⟩ := hcookie.layout
  have hmax : bootpdLen = 1472 := rfl
  let p := if call.block = 1 then 4 else 0
  let data := d.data.copy d.extend (fun i => call.data (p + i)) call.options.length
  have hcopy : ∀ i < call.options.length, data (d.extend + i) = call.data (p + i) := fun i hi => by
    show d.data.copy _ _ _ _ = _
    rw [Bytes.copy_of_mem (by omega) (by omega), Nat.add_sub_cancel_left]
  have hbelow : ∀ i < d.extend, data i = d.data i := fun i hi => Bytes.copy_of_lt hi
  have hsmall : ¬2 ^ 31 ≤ call.options.length := by omega
  refine ⟨{ d with
    data
    extend := d.extend + call.options.length },
    ⟨(Bytes.slice_congr hcopy).trans hslice, hbelow, rfl⟩, ?_⟩
  unfold decodeBlock
  dsimp only
  rw [if_neg hno, hlen, if_neg hsmall, if_neg (Nat.not_lt.mpr hroom)]

/-- The blocks in front of the last one. -/
theorem decodeBlocks_copies (load : List UInt8 → Bootp → Except Fault Bootp) (rc : Int32)
    (hcalls : ∀ call ∈ calls, call.eof = false ∧ call.HasCookie)
    (hroom : d.extend + (calls.flatMap TftpCall.options).length ≤ bootpdLen) :
    ∃ d', d.Extended (calls.flatMap TftpCall.options) d' ∧
      decodeBlocks load calls rc d = .ok (if calls = [] then rc else 1, d') := by
  induction calls generalizing d rc with
  | nil => exact ⟨d, .nil d, rfl⟩
  | cons call calls ih =>
    obtain ⟨hend, hcookie⟩ := hcalls call List.mem_cons_self
    rw [List.flatMap_cons, List.length_append] at hroom
    obtain ⟨d₁, hextended, hblock⟩ := decodeBlock_copies load (d := d) hcookie (by omega)
    rw [hend, if_neg Bool.false_ne_true] at hblock
    obtain ⟨d', hextended', hblocks⟩ := ih 1
      (fun call' hcall' => hcalls call' (List.mem_cons_of_mem _ hcall'))
      (d := d₁) (by
        rw [hextended.extend]
        omega)
    refine ⟨d', hextended.trans hextended', ?_⟩
    rw [decodeBlocks, hblock, ok_bind, if_neg (List.cons_ne_nil _ _)]
    exact hblocks.trans (by rw [ite_self])

theorem decodeBlocks_append (load : List UInt8 → Bootp → Except Fault Bootp)
    (calls calls' : List TftpCall) (rc : Int32) (d : Bootp) :
    decodeBlocks load (calls ++ calls') rc d =
      (decodeBlocks load calls rc d >>= fun r => decodeBlocks load calls' r.1 r.2) := by
  induction calls generalizing rc d with
  | nil => rfl
  | cons call calls ih =>
    rw [List.cons_append, decodeBlocks, decodeBlocks]
    cases decodeBlock load d call with
    | error e => rfl
    | ok r => exact ih r.1 r.2

end Blocks

/-! ## The blocks of a file -/

section File

variable {file : List UInt8} {b : Nat} {calls : List TftpCall} {call : TftpCall}

theorem Blocks.of_append (h : Blocks file b (calls ++ [call])) :
    calls.length ≤ file.length / b ∧ Blocks file b calls ∧
      IsBlock file b (calls.length + 1) call := by
  have hlength := h.length_le
  have heach := h.each
  have hreceived := h.received
  rw [List.length_append, List.length_singleton] at hlength heach hreceived
  rw [List.range'_concat, Nat.one_mul, Nat.add_comm 1] at heach
  have htake := List.forall₂_take_append _ _ _ heach
  have hdrop := List.forall₂_drop_append _ _ _ heach
  rw [List.length_range', List.take_left' rfl] at htake
  rw [List.length_range', List.drop_left' rfl] at hdrop
  obtain ⟨hcall, -⟩ := List.forall₂_cons.mp hdrop
  refine ⟨Nat.le_of_succ_le_succ hlength, ⟨by omega, htake, ?_⟩, hcall⟩
  rw [MbBootTv.received, List.flatMap_append, List.flatMap_singleton, hcall.bytes,
    ← Progress.take_append_chunk] at hreceived
  exact List.append_cancel_right hreceived

/-- The cookie is in the first block, and the options are all the rest. -/
theorem Blocks.options (h : Blocks file b calls) (hb : 512 ≤ b)
    (hcookie : file.take 4 = rfc1533Cookie) :
    calls.flatMap TftpCall.options = (MbBootTv.received calls).drop 4 ∧
      ∀ call ∈ calls, call.HasCookie ∧ (calls.length ≤ file.length / b → call.eof = false) := by
  induction calls using List.reverseRecOn with
  | nil => exact ⟨rfl, fun call hcall => by cases hcall⟩
  | append_singleton calls call ih =>
    obtain ⟨hle, hblocks, hcall⟩ := h.of_append
    obtain ⟨hoptions, hall⟩ := ih hblocks
    have hblock := hcall.block
    have hfile := congrArg List.length hcookie
    rw [List.length_take, show rfc1533Cookie.length = 4 from rfl] at hfile
    have hone : call.block = 1 ↔ calls = [] := by
      rw [← UInt32.toNat_inj, hblock, ← List.length_eq_zero_iff]
      exact Nat.succ_inj
    have hhas : call.HasCookie := fun hfirst => by
      rw [hcall.bytes, hone.mp hfirst, chunk, List.length_nil, Nat.sub_self, Nat.zero_mul,
        List.drop_zero, List.take_take, Nat.min_eq_left (by omega), hcookie]
    have hlast : (calls ++ [call]).length ≤ file.length / b → call.eof = false := fun hlt => by
      rw [List.length_append, List.length_singleton] at hlt
      exact Bool.eq_false_iff.mpr fun heof => by
        have heq := hcall.eof.mp heof
        omega
    refine ⟨?_, fun call' hcall' => ?_⟩
    · have hreceived : MbBootTv.received (calls ++ [call]) =
          MbBootTv.received calls ++ call.bytes := by
        rw [MbBootTv.received, List.flatMap_append, List.flatMap_singleton]
        rfl
      rw [List.flatMap_append, List.flatMap_singleton, hoptions, hreceived, TftpCall.options]
      by_cases hnil : calls = []
      · rw [if_pos (hone.mpr hnil), hnil]
        rfl
      · have hlength : 4 ≤ (MbBootTv.received calls).length := by
          have hpos := List.length_pos_iff.mpr hnil
          rw [hblocks.received, List.length_take]
          have hmul : 1 * 512 ≤ calls.length * b := Nat.mul_le_mul hpos hb
          omega
        rw [if_neg fun hfirst => hnil (hone.mp hfirst), List.drop_append_of_le_length hlength]
    · rcases List.mem_append.mp hcall' with hmem | hmem
      · obtain ⟨hhas', -⟩ := hall call' hmem
        exact ⟨hhas', fun _ => (hall call' hmem).2 hle⟩
      · rw [List.mem_singleton.mp hmem]
        exact ⟨hhas, hlast⟩

/-- What has been received is no more than the file. -/
theorem Blocks.options_length_le (h : Blocks file b calls) (hb : 512 ≤ b)
    (hcookie : file.take 4 = rfc1533Cookie) :
    (calls.flatMap TftpCall.options).length ≤ file.length - 4 := by
  have hle : (file.take (calls.length * b)).length ≤ file.length := List.length_take_le' _ _
  rw [(h.options hb hcookie).1, List.length_drop, h.received]
  omega

/-- **The callback goes on** as long as there is room. -/
theorem decodeSink_pos {d : Bootp} (h : Blocks file b (calls ++ [call])) (hb : 512 ≤ b)
    (hcookie : file.take 4 = rfc1533Cookie) (hroom : d.extend + (file.length - 4) ≤ bootpdLen) :
    0 < decodeSink d calls call := by
  unfold decodeSink
  by_cases heof : call.eof = true
  · rw [if_pos heof]
    decide
  · obtain ⟨hle, -, hcall⟩ := h.of_append
    have hnot : (calls ++ [call]).length ≤ file.length / b := by
      rw [List.length_append, List.length_singleton]
      exact Nat.lt_of_le_of_ne hle fun heq => heof (hcall.eof.mpr (congrArg (· + 1) heq))
    have hlength := h.options_length_le hb hcookie
    obtain ⟨d', -, hblocks⟩ := decodeBlocks_copies (fun _ d => .ok d) 0 (d := d)
      (fun call' hcall' => ⟨((h.options hb hcookie).2 call' hcall').2 hnot,
        ((h.options hb hcookie).2 call' hcall').1⟩) (by omega)
    rw [if_neg heof, hblocks, if_neg (List.append_ne_nil_of_right_ne_nil _ (List.cons_ne_nil _ _))]
    show (0 : Int32) < 1
    decide

/-- **All the blocks of a file**: the options in them are read, but not followed to another file. -/
theorem decodeBlocks_file (load : List UInt8 → Bootp → Except Fault Bootp) {d : Bootp}
    {items : List Item} {tail : List UInt8} (hb : 512 ≤ b) (h : Blocks file b calls)
    (hlength : calls.length = file.length / b + 1)
    (hfile : file = rfc1533Cookie ++ (encodeItems items ++ tail))
    (htail : tail = [] ∨ ∃ junk, tail = rfc1533End :: junk) (hfits : ∀ i ∈ items, i.Fits)
    (henc : d.inEncapsulatedOptions = false) (hin : d.Within True none d.extend)
    (hextdata : d.extdata = d.extend) (hroom : d.extend + (file.length - 4) ≤ bootpdLen) :
    ∃ d', decodeBlocks load calls 0 d = .ok (1, d') ∧ d'.settings none =
      (items.foldl Item.settle (d.settings none)).forget := by
  have hcookie : file.take 4 = rfc1533Cookie := by
    rw [hfile]
    exact List.take_left' rfl
  obtain ⟨calls, last, rfl⟩ : ∃ calls' last, calls = calls' ++ [last] := by
    rcases List.eq_nil_or_concat' calls with rfl | h
    · cases hlength
    · exact h
  rw [List.length_append, List.length_singleton] at hlength
  obtain ⟨-, hblocks, hlast⟩ := h.of_append
  have hmax := h.options_length_le hb hcookie
  obtain ⟨hoptions, hall⟩ := h.options hb hcookie
  have hdrop : file.drop 4 = encodeItems items ++ tail := by
    rw [hfile]
    exact List.drop_left' rfl
  rw [h.received_eq hb (by rw [List.length_append, List.length_singleton, hlength]), hdrop]
    at hoptions
  rw [List.flatMap_append, List.flatMap_singleton] at hoptions hmax
  rw [List.length_append] at hmax
  obtain ⟨d₁, hextended₁, hbefore⟩ := decodeBlocks_copies load 0 (d := d)
    (fun call hcall => ⟨((hblocks.options hb hcookie).2 call hcall).2 (by omega),
      ((hblocks.options hb hcookie).2 call hcall).1⟩) (by omega)
  obtain ⟨d₂, hextended₂, hblock⟩ := decodeBlock_copies load (d := d₁)
    (hall last (List.mem_append_right _ (List.mem_singleton_self _))).1 (by
      rw [hextended₁.extend]
      omega)
  have hextended := hextended₁.trans hextended₂
  rw [hoptions] at hextended
  rw [hlast.eof.mpr (by omega), if_pos rfl] at hblock
  have hfill : (encodeItems items ++ tail).length ≤ file.length - 4 := by
    rw [← hdrop, List.length_drop]
  have hat : d₂.At d.extend (encodeItems items ++ tail) := ⟨hextended.bytes, by omega⟩
  have hend := hextended.extend
  rw [List.length_append] at hend
  obtain ⟨d₃, x₃, hstep, hloop⟩ := decodeLoop_all load d₂.extend (x := none) hat (by
    rw [hextended.rest]
    exact henc) hfits (by
    rcases htail with rfl | ⟨junk, rfl⟩
    · exact Or.inl hend.symm
    · rw [List.length_cons] at hend
      exact Or.inr ⟨by omega, junk, rfl⟩)
  rw [hextended.extdata, hextdata, hloop, ok_bind] at hblock
  refine ⟨{ d₃ with
    extdata := d.extend + (encodeItems items).length
    extend := d.extend + (encodeItems items).length }, ?_, ?_⟩
  · rw [decodeBlocks_append, hbefore, ok_bind, decodeBlocks, hblock]
    rfl
  · have hsettings := hstep.settings
    rw [hextended.settings hin] at hsettings
    rw [← hsettings]
    rfl

/-! ## The whole file -/

/-- The file is loaded, and its options are read. -/
theorem loadExtension_file {fname tail : List UInt8} {d : Bootp} {items : List Item}
    {queue arp polls : List Poll} (n : Nat) (late : Bool) (hb : 512 ≤ b) (hmax : b ≤ 1432)
    (hname : fname.length ≤ 492) (hpolls : d.polls = queue ++ .empty late :: arp)
    (hleaves : Leaves d.net (d.net.arptable arpServer).ipaddr arp polls)
    (hqueue : Queued d.net.clientIp queue)
    (hstarting : Starting file b d.net.clientIp (d.tftp.lport + 1) 0 polls)
    (hfile : file = rfc1533Cookie ++ (encodeItems items ++ tail))
    (htail : tail = [] ∨ ∃ junk, tail = rfc1533End :: junk) (hfits : ∀ i ∈ items, i.Fits)
    (henc : d.inEncapsulatedOptions = false) (hin : d.Within True none d.extend)
    (hextdata : d.extdata = d.extend) (hroom : d.extend + (file.length - 4) ≤ bootpdLen) :
    ∃ d', loadExtension (n + 1) fname d = .ok d' ∧ d'.settings none =
      (items.foldl Item.settle (d.settings none)).forget := by
  have hcookie : file.take 4 = rfc1533Cookie := by
    rw [hfile]
    exact List.take_left' rfl
  obtain ⟨calls, t, s, rest, hrun, hblocks, hlength⟩ := tftp_calls late hb hmax hname
    (fun calls call hblocks => decodeSink_pos hblocks hb hcookie hroom) hleaves hqueue hstarting
  rw [← hpolls] at hrun
  obtain ⟨⟨-, -, hspoken⟩, -⟩ := tftpCalls_talks rfl (by decide)
    (fun _ _ _ _ => tftpBlock_some_talks) hrun
  let d₀ : Bootp := { d with
    tftp := t
    net := s
    polls := rest }
  have hsettings : d₀.settings none = d.settings none := by
    unfold Bootp.settings
    dsimp only [d₀]
    rw [hspoken.netmask, hspoken.ipaddr]
  have hin₀ : d₀.Within True none d₀.extend := { hin with extpath := fun e he => by cases he }
  obtain ⟨d', hread, hsettings'⟩ := decodeBlocks_file (loadExtension n) (d := d₀) hb hblocks hlength
    hfile htail hfits henc hin₀ hextdata hroom
  refine ⟨d', ?_, by rw [hsettings', hsettings]⟩
  rw [loadExtension, hrun, ok_bind]
  dsimp only
  rw [hread]
  rfl

end File

/-! ## A reply with a file -/

/-- The network, when these settings are made. -/
def Net.settle (s : Net) (σ : Settings) : Net :=
  { s.setIpaddr arpGateway σ.gateway with netmask := σ.netmask }

/-- **A reply and the file that it names** are read as one list of options. What the server sends is
such a file, with or without an end, and there is room for it behind the options of the reply. -/
theorem extension_read {file name tail : List UInt8} {b : Nat} {d : Bootp} {items more : List Item}
    {queue arp polls : List Poll} (n : Nat) (late : Bool) (hb : 512 ≤ b) (hmax : b ≤ 1432)
    (hat : d.At bpVend (rfc1533Cookie ++ (encodeItems items ++ [rfc1533End])))
    (henc : d.inEncapsulatedOptions = false) (hfits : ∀ i ∈ items, i.Fits)
    (hhost : d.hostname = none)
    (hext : (items.foldl Item.settle (d.settings none).reset).extpath = some name)
    (hname : name.length < fnameLen) (hpolls : d.polls = queue ++ .empty late :: arp)
    (hleaves : Leaves (d.net.settle (items.foldl Item.settle (d.settings none).reset))
      (d.net.arptable arpServer).ipaddr arp polls)
    (hqueue : Queued d.net.clientIp queue)
    (hstarting : Starting file b d.net.clientIp (d.tftp.lport + 1) 0 polls)
    (hfile : file = rfc1533Cookie ++ (encodeItems more ++ tail))
    (htail : tail = [] ∨ ∃ junk, tail = rfc1533End :: junk) (hmore : ∀ i ∈ more, i.Fits)
    (hroom : bpVend + (encodeItems items).length + file.length ≤ bootpdLen) :
    ∃ d', decodeReply (loadExtension (n + 1)) d = .ok d' ∧ d'.settings none =
      ((items ++ more).foldl Item.settle (d.settings none).reset).forget := by
  obtain ⟨d₁, hframe, hin, hextend, hextdata, hsettings, hreply⟩ :=
    decodeReply_items (loadExtension (n + 1)) hat henc hfits
  have hlength := congrArg List.length hfile
  rw [List.length_append, show rfc1533Cookie.length = 4 from rfl] at hlength
  have hmask := congrArg Settings.netmask hsettings
  have hgateway := congrArg Settings.gateway hsettings
  have hnet : d₁.net = d.net.settle (items.foldl Item.settle (d.settings none).reset) := by
    rw [hframe.net]
    exact congrArg₂ (fun ip mask => { d.net.setIpaddr arpGateway ip with netmask := mask }) hgateway
      hmask
  have hserver := congrArg ArpEntry.ipaddr (hframe.arptable arpServer (by decide))
  have hclient : d₁.net.clientIp = d.net.clientIp :=
    congrArg ArpEntry.ipaddr (hframe.arptable arpClient (by decide))
  have hshort : (name.takeWhile (· ≠ 0)).length ≤ name.length :=
    (List.takeWhile_prefix _).length_le
  have hfname : fnameLen = 64 := rfl
  obtain ⟨d', hload, hsettings'⟩ := loadExtension_file (d := d₁) n late hb hmax
    (by omega : (name.takeWhile (· ≠ 0)).length ≤ 492) (hframe.polls.trans hpolls)
    (by rwa [hserver, hnet]) (by rwa [hclient]) (by rwa [hclient, hframe.tftp]) hfile htail hmore
    (hframe.inEncapsulatedOptions.trans henc)
    { hin with hostname := fun _ => hin.hostname hhost } hextdata (by omega)
  rw [hext, Option.elim_some, if_neg (by omega), hload] at hreply
  refine ⟨d', hreply, ?_⟩
  rw [hsettings', hsettings, List.foldl_append]
  exact isPart_forget.items more _

/-- The netmask is in another file. -/
def otherFile : Item := pathItem [97] (by decide)

/-- A reply that names it, to a machine on the same wire as the server. -/
def lanBootp (polls : List Poll) : Bootp :=
  { blankBootp (rfc1533Cookie ++ (encodeItems [otherFile] ++ [rfc1533End])) with
    net := lanNet
    polls }

theorem routedTo_settle_lanNet : RoutedTo
    (lanNet.settle ([otherFile].foldl Item.settle ((lanBootp []).settings none).reset)) 7 :=
  Or.inr ⟨arpServer, by decide, 0, by decide⟩

theorem extension_read_mask : ∃ polls d', decodeReply (loadExtension 1) (lanBootp polls) = .ok d' ∧
    d'.net.netmask = 0xFFFFFF := by
  obtain ⟨polls, hstarting, -, -⟩ := exists_starting_short
    (by decide : (rfc1533Cookie ++ (encodeItems [maskItem] ++ [])).length < 1432)
  obtain ⟨d', hread, hsettings⟩ := extension_read (d := lanBootp (.empty true :: polls)) 0 true
    (by decide) (by decide) (at_blankBootp (by decide)) rfl
    (List.forall_mem_singleton.mpr (pathItem_fits _)) rfl rfl (by decide) rfl
    (.of_routedTo polls routedTo_settle_lanNet) (queued_nil _) hstarting rfl (Or.inl rfl)
    (List.forall_mem_singleton.mpr maskItem_fits) (by decide)
  exact ⟨_, d', hread, congrArg Settings.netmask hsettings⟩

end MbBootTv
