import MbBootTv.Net.Dhcp
import MbBootTv.Net.TftpTurn

/-!
# The options of a reply

What a list of options means, without a word on where they are in memory (`Settings`), and that
`decode_rfc1533` reads just that from the bytes of the list (`decodeLoop_items`). An option that is too
short for its value would take the bytes of the next one, so `Opt.Fits` asks for the length that is
read. Encapsulated options are a list of their own in which most tags are not known.
-/

namespace MbBootTv

/-! ## Lists of options -/

/-- An option: its tag is neither a pad nor the end. -/
structure Opt where
  tag : UInt8
  data : List UInt8
  tag_ne_pad : tag ≠ rfc1533Pad
  tag_ne_end : tag ≠ rfc1533End
  length_le : data.length ≤ 255

/-- The bytes of an option, or of a pad. -/
def entryBytes : Option Opt → List UInt8
  | none => [rfc1533Pad]
  | some o => o.tag :: UInt8.ofNat o.data.length :: o.data

def encodeEntries (es : List (Option Opt)) : List UInt8 := es.flatMap entryBytes

/-- Encapsulated options, which may have an end of their own. -/
structure Encap where
  entries : List (Option Opt)
  tail : List UInt8
  tail_eq : tail = [] ∨ ∃ junk, tail = rfc1533End :: junk
  length_le : (encodeEntries entries ++ tail).length ≤ 255

/-- What a list of options is made of. -/
inductive Item
  | entry (e : Option Opt)
  | encap (c : Encap)

/-- The encapsulated options are the bytes of one option. -/
def Encap.opt (c : Encap) : Opt where
  tag := rfc1533VendorEtherbootEncap
  data := encodeEntries c.entries ++ c.tail
  tag_ne_pad := by decide
  tag_ne_end := by decide
  length_le := c.length_le

def Item.bytes : Item → List UInt8
  | entry e => entryBytes e
  | encap c => entryBytes (some c.opt)

def encodeItems (items : List Item) : List UInt8 := items.flatMap Item.bytes

/-! ## What they mean -/

/-- What is known from the options so far. -/
structure Settings where
  netmask : UInt32
  gateway : UInt32
  reply : UInt8
  server : UInt32
  hostname : Option (List UInt8)
  addparam : Option (List UInt8)
  vendorext : Nat
  extpath : Option (List UInt8)

/-- One more option, in an encapsulation or not. -/
def Opt.settle (o : Opt) (enc : Bool) (σ : Settings) : Settings :=
  if o.tag = rfc1533Extensionpath then { σ with extpath := some o.data }
  else if enc = false ∧ o.tag = rfc1533Netmask then { σ with netmask := (pieceAt o.data).le32 0 }
  else if enc = false ∧ o.tag = rfc1533Gateway then
    if 4 ≤ o.data.length then { σ with gateway := (pieceAt o.data).le32 0 } else σ
  else if enc = false ∧ o.tag = rfc2132MsgType then { σ with reply := pieceAt o.data 0 }
  else if enc = false ∧ o.tag = rfc2132SrvId then { σ with server := (pieceAt o.data).le32 0 }
  else if enc = false ∧ o.tag = rfc1533Hostname then { σ with hostname := some o.data }
  else if o.tag = rfc1533VendorMagic then
    if 6 ≤ o.data.length ∧ o.data.take 4 = vendorextMagic ∧ pieceAt o.data 4 = 0 then
      { σ with vendorext := σ.vendorext + 1 }
    else σ
  else if o.tag = rfc1533VendorAddparm then { σ with addparam := some o.data }
  else σ

def settleEntry (enc : Bool) (σ : Settings) (e : Option Opt) : Settings :=
  e.elim σ fun o => o.settle enc σ

def Item.settle (σ : Settings) : Item → Settings
  | entry e => settleEntry false σ e
  | encap c => c.entries.foldl (settleEntry true) σ

/-- No file has been named. -/
def Settings.forget (σ : Settings) : Settings := { σ with extpath := none }

/-- The name of the host is left out. -/
def Settings.anonymous (σ : Settings) : Settings := { σ with hostname := none }

/-- A part of the settings that depends on nothing but itself. -/
structure IsPart (g : Settings → Settings) : Prop where
  idem : ∀ σ, g (g σ) = g σ
  settle : ∀ (o : Opt) enc σ, g (o.settle enc (g σ)) = g (o.settle enc σ)

theorem isPart_forget : IsPart Settings.forget where
  idem := fun _ => rfl
  settle := fun o enc σ => by
    simp only [Opt.settle, apply_ite Settings.forget]
    rfl

theorem isPart_anonymous : IsPart Settings.anonymous where
  idem := fun _ => rfl
  settle := fun o enc σ => by
    simp only [Opt.settle, apply_ite Settings.anonymous]
    rfl

section Part

variable {g : Settings → Settings}

theorem foldl_part {α : Type} {f : Settings → α → Settings} (hidem : ∀ σ, g (g σ) = g σ)
    (hf : ∀ σ a, g (f (g σ) a) = g (f σ a)) (l : List α) (σ : Settings) :
    g (l.foldl f (g σ)) = g (l.foldl f σ) := by
  induction l generalizing σ with
  | nil => exact hidem σ
  | cons a l ih => rw [List.foldl_cons, List.foldl_cons, ← ih (f (g σ) a), hf, ih]

theorem IsPart.entry (hg : IsPart g) (enc : Bool) (σ : Settings) (e : Option Opt) :
    g (settleEntry enc (g σ) e) = g (settleEntry enc σ e) := by
  cases e with
  | none => exact hg.idem σ
  | some o => exact hg.settle o enc σ

theorem IsPart.item (hg : IsPart g) (σ : Settings) (i : Item) :
    g (Item.settle (g σ) i) = g (Item.settle σ i) := by
  cases i with
  | entry e => exact hg.entry false σ e
  | encap c => exact foldl_part hg.idem (hg.entry true) c.entries σ

theorem IsPart.items (hg : IsPart g) (items : List Item) (σ : Settings) :
    g (items.foldl Item.settle (g σ)) = g (items.foldl Item.settle σ) :=
  foldl_part hg.idem hg.item items σ

end Part

/-- The value is there. -/
def Opt.Fits (o : Opt) : Prop :=
  (o.tag = rfc1533Netmask ∨ o.tag = rfc2132SrvId → 4 ≤ o.data.length) ∧
    (o.tag = rfc2132MsgType → 1 ≤ o.data.length)

/-- Options that are read as they are meant: the values are there, encapsulations are known as such,
and there is no file to be loaded in between. -/
def Item.Fits : Item → Prop
  | entry e => ∀ o ∈ e, o.Fits ∧ o.tag ≠ rfc1533VendorEtherbootEncap
  | encap c => ∀ e ∈ c.entries, ∀ o ∈ e, o.tag ≠ rfc1533Extensionpath

/-! ## What the program knows -/

namespace Bootp

/-- What is at the pointers. -/
def settings (d : Bootp) (extpath : Option Nat) : Settings where
  netmask := d.net.netmask
  gateway := (d.net.arptable arpGateway).ipaddr
  reply := d.dhcpReply
  server := d.dhcpServer
  hostname := d.hostname.map fun p => d.data.slice p d.hostnamelen.toNat
  addparam := d.addparam.map fun p => d.data.slice p d.addparamlen.toNat
  vendorext := d.vendorextIsvalid
  extpath := extpath.map fun e => d.data.slice (e + 2) (d.data (e + 1)).toNat

/-- The pointers point at what is in front of `q`; that to the name of the host, which no reply takes
back, when `c` holds. -/
structure Within (d : Bootp) (c : Prop) (extpath : Option Nat) (q : Nat) : Prop where
  hostname : c → ∀ p ∈ d.hostname, p + d.hostnamelen.toNat ≤ q
  addparam : ∀ p ∈ d.addparam, p + d.addparamlen.toNat ≤ q
  extpath : ∀ e ∈ extpath, e + 2 + (d.data (e + 1)).toNat ≤ q

/-- What no option changes. -/
structure Frame (d d' : Bootp) : Prop where
  data : d'.data = d.data
  tftp : d'.tftp = d.tftp
  polls : d'.polls = d.polls
  xid : d'.xid = d.xid
  dhcpAddr : d'.dhcpAddr = d.dhcpAddr
  inEncapsulatedOptions : d'.inEncapsulatedOptions = d.inEncapsulatedOptions
  arptable : ∀ i, i ≠ arpGateway → d'.net.arptable i = d.net.arptable i
  gateway : (d'.net.arptable arpGateway).node = (d.net.arptable arpGateway).node
  packet : d'.net.packet = d.net.packet
  packetlen : d'.net.packetlen = d.net.packetlen
  sport : d'.net.sport = d.net.sport
  sent : d'.net.sent = d.net.sent

namespace Frame

variable {d d' d'' : Bootp}

theorem refl (d : Bootp) : Frame d d :=
  ⟨rfl, rfl, rfl, rfl, rfl, rfl, fun _ _ => rfl, rfl, rfl, rfl, rfl, rfl⟩

theorem trans (h : Frame d d') (h' : Frame d' d'') : Frame d d'' where
  data := h'.data.trans h.data
  tftp := h'.tftp.trans h.tftp
  polls := h'.polls.trans h.polls
  xid := h'.xid.trans h.xid
  dhcpAddr := h'.dhcpAddr.trans h.dhcpAddr
  inEncapsulatedOptions := h'.inEncapsulatedOptions.trans h.inEncapsulatedOptions
  arptable := fun i hi => (h'.arptable i hi).trans (h.arptable i hi)
  gateway := h'.gateway.trans h.gateway
  packet := h'.packet.trans h.packet
  packetlen := h'.packetlen.trans h.packetlen
  sport := h'.sport.trans h.sport
  sent := h'.sent.trans h.sent

theorem setIpaddr_self (s : Net) (i : Fin 3) (ipaddr : UInt32) :
    (s.setIpaddr i ipaddr).arptable i = ⟨ipaddr, (s.arptable i).node⟩ :=
  Function.update_self _ _ _

/-- The gateway is another one. -/
theorem setIpaddr (d : Bootp) (ipaddr : UInt32) :
    Frame d { d with net := d.net.setIpaddr arpGateway ipaddr } :=
  { refl d with
    arptable := fun _ hi => Function.update_of_ne hi _ _
    gateway := by rw [setIpaddr_self] }

/-- All that becomes of the network is another netmask and another gateway. -/
theorem net (h : Frame d d') : d'.net =
    { d.net.setIpaddr arpGateway (d'.net.arptable arpGateway).ipaddr with
      netmask := d'.net.netmask } := by
  have harp : d'.net.arptable =
      (d.net.setIpaddr arpGateway (d'.net.arptable arpGateway).ipaddr).arptable := by
    funext i
    by_cases hi : i = arpGateway
    · rw [hi, setIpaddr_self, ← h.gateway]
    · exact (h.arptable i hi).trans (Function.update_of_ne hi _ _).symm
  calc d'.net = ⟨d'.net.packet, d'.net.packetlen, d'.net.arptable, d'.net.netmask, d'.net.sport,
        d'.net.sent⟩ := rfl
    _ = ⟨d.net.packet, d.net.packetlen, (d.net.setIpaddr arpGateway
        (d'.net.arptable arpGateway).ipaddr).arptable, d'.net.netmask, d.net.sport, d.net.sent⟩ := by
      rw [← harp, h.packet, h.packetlen, h.sport, h.sent]

end Frame

end Bootp

/-! ## One option -/

/-- The option is at `p`, in front of the end of the buffer. -/
structure Placed (d : Bootp) (p : Nat) (o : Opt) : Prop where
  tag : d.data p = o.tag
  len : (d.data (p + 1)).toNat = o.data.length
  data : d.data.slice (p + 2) o.data.length = o.data
  within : p + 2 + o.data.length ≤ bootpdLen

section Option

variable {d : Bootp} {p : Nat} {o : Opt} {x : Option Nat}

theorem Bootp.byte_of_lt {d : Bootp} {p : Nat} (h : p < bootpdLen) : d.byte p = .ok (d.data p) :=
  if_pos h

theorem Placed.byte_tag (h : Placed d p o) : d.byte p = .ok o.tag := by
  have hwithin := h.within
  rw [Bootp.byte_of_lt (by omega), h.tag]

theorem Placed.byte_len (h : Placed d p o) :
    ∃ len : UInt8, d.byte (p + 1) = .ok len ∧ len.toNat = o.data.length := by
  have hwithin := h.within
  exact ⟨d.data (p + 1), Bootp.byte_of_lt (by omega), h.len⟩

theorem Placed.pieceAt (h : Placed d p o) {i : Nat} (hi : i < o.data.length) :
    MbBootTv.pieceAt o.data i = d.data (p + 2 + i) := by
  have hslice : MbBootTv.pieceAt (d.data.slice (p + 2) o.data.length) i = d.data (p + 2 + i) :=
    pieceAt_slice hi
  rwa [h.data] at hslice

theorem Placed.word (h : Placed d p o) (h4 : 4 ≤ o.data.length) :
    d.word (p + 2) = .ok ((MbBootTv.pieceAt o.data).le32 0) := by
  have hwithin := h.within
  rw [Bootp.word, if_neg (by omega)]
  exact congrArg Except.ok (Bytes.le32_congr fun i hi => by rw [Nat.zero_add, h.pieceAt (by omega)])

theorem Placed.slice_take (h : Placed d p o) (h4 : 4 ≤ o.data.length) :
    d.data.slice (p + 2) 4 = o.data.take 4 := by
  have happend := Bytes.slice_append d.data (p + 2) 4 (o.data.length - 4)
  rw [Nat.add_sub_cancel' h4, h.data] at happend
  rw [← happend, List.take_left' (Bytes.slice_length _ _ _)]

/-- What a step from `p` to `q` makes of the state. -/
structure Step (d d' : Bootp) (x x' : Option Nat) (p q : Nat) (f : Settings → Settings) : Prop where
  frame : d.Frame d'
  within : ∀ {c : Prop}, d.Within c x p → d'.Within c x' q
  settings : d'.settings x' = f (d.settings x)

theorem Step.trans {d' d'' : Bootp} {x' x'' : Option Nat} {q r : Nat} {f g : Settings → Settings}
    (h : Step d d' x x' p q f) (h' : Step d' d'' x' x'' q r g) :
    Step d d'' x x'' p r (fun σ => g (f σ)) where
  frame := h.frame.trans h'.frame
  within := fun hin => h'.within (h.within hin)
  settings := by rw [h'.settings, h.settings]

theorem Bootp.Within.mono {c : Prop} {q r : Nat} (h : d.Within c x q) (hr : q ≤ r) :
    d.Within c x r where
  hostname := fun hc p hp => (h.hostname hc p hp).trans hr
  addparam := fun p hp => (h.addparam p hp).trans hr
  extpath := fun e he => (h.extpath e he).trans hr

theorem Step.skip (d : Bootp) (x : Option Nat) {p q : Nat} (h : p ≤ q) : Step d d x x p q id where
  frame := .refl d
  within := fun hin => hin.mono h
  settings := rfl

/-- **One option**, but for those that `decode_rfc1533` handles itself. -/
theorem decodeOption_placed (h : Placed d p o) (hfits : d.inEncapsulatedOptions = false → o.Fits)
    (hext : o.tag ≠ rfc1533Extensionpath) :
    ∃ d', decodeOption o.tag p d = .ok d' ∧
      Step d d' x x p (p + 2 + o.data.length) (o.settle d.inEncapsulatedOptions) := by
  have hle : p ≤ p + 2 + o.data.length := by omega
  obtain ⟨len, hbyte, hlen⟩ := h.byte_len
  have hwithin := h.within
  have hframe := Bootp.Frame.refl d
  have hsettle : o.settle d.inEncapsulatedOptions (d.settings x) = _ := if_neg hext
  unfold decodeOption
  by_cases hmask : d.inEncapsulatedOptions = false ∧ o.tag = rfc1533Netmask
  · rw [if_pos hmask] at hsettle ⊢
    rw [h.word ((hfits hmask.1).1 (Or.inl hmask.2)), ok_bind]
    exact ⟨_, rfl, { hframe with }, fun hin => { hin.mono hle with }, hsettle.symm⟩
  rw [if_neg hmask] at hsettle ⊢
  by_cases hgate : d.inEncapsulatedOptions = false ∧ o.tag = rfc1533Gateway
  · rw [if_pos hgate] at hsettle ⊢
    rw [hbyte, ok_bind, hlen]
    by_cases h4 : 4 ≤ o.data.length
    · rw [if_pos h4] at hsettle ⊢
      rw [h.word h4, ok_bind]
      refine ⟨_, rfl, .setIpaddr d _, fun hin => { hin.mono hle with }, ?_⟩
      rw [hsettle]
      simp only [Bootp.settings, Bootp.Frame.setIpaddr_self]
      rfl
    · rw [if_neg h4] at hsettle ⊢
      exact ⟨d, rfl, hframe, fun hin => hin.mono hle, hsettle.symm⟩
  rw [if_neg hgate] at hsettle ⊢
  by_cases htype : d.inEncapsulatedOptions = false ∧ o.tag = rfc2132MsgType
  · rw [if_pos htype] at hsettle ⊢
    have hpos := (hfits htype.1).2 htype.2
    have hfirst : pieceAt o.data 0 = d.data (p + 2) := h.pieceAt hpos
    rw [Bootp.byte_of_lt (by omega), ok_bind, ← hfirst]
    exact ⟨_, rfl, { hframe with }, fun hin => { hin.mono hle with }, hsettle.symm⟩
  rw [if_neg htype] at hsettle ⊢
  by_cases hserver : d.inEncapsulatedOptions = false ∧ o.tag = rfc2132SrvId
  · rw [if_pos hserver] at hsettle ⊢
    rw [h.word ((hfits hserver.1).1 (Or.inr hserver.2)), ok_bind]
    exact ⟨_, rfl, { hframe with }, fun hin => { hin.mono hle with }, hsettle.symm⟩
  rw [if_neg hserver] at hsettle ⊢
  by_cases hhost : d.inEncapsulatedOptions = false ∧ o.tag = rfc1533Hostname
  · rw [if_pos hhost] at hsettle ⊢
    rw [hbyte, ok_bind]
    refine ⟨_, rfl, { hframe with }, fun hin => { hin.mono hle with hostname := ?_ }, ?_⟩
    · intro _ p' hp
      obtain rfl : p + 2 = p' := Option.some.inj hp
      exact Nat.add_le_add_left hlen.le _
    · rw [hsettle]
      simp only [Bootp.settings, Option.map_some, hlen, h.data]
  rw [if_neg hhost] at hsettle ⊢
  by_cases hmagic : o.tag = rfc1533VendorMagic
  · rw [if_pos hmagic] at hsettle ⊢
    rw [hbyte, ok_bind, hlen]
    by_cases h6 : 6 ≤ o.data.length
    · have hmajor : pieceAt o.data 4 = d.data (p + 6) := h.pieceAt (by omega)
      rw [if_neg (by omega), if_neg (by omega), h.slice_take (by omega)]
      by_cases hcookie : o.data.take 4 = vendorextMagic
      · rw [if_neg (not_not.mpr hcookie), Bootp.byte_of_lt (by omega), ok_bind, ← hmajor]
        by_cases hzero : pieceAt o.data 4 = 0
        · rw [if_pos ⟨h6, hcookie, hzero⟩] at hsettle
          rw [if_pos hzero]
          exact ⟨_, rfl, { hframe with }, fun hin => { hin.mono hle with }, hsettle.symm⟩
        · rw [if_neg fun hall => hzero hall.2.2] at hsettle
          rw [if_neg hzero]
          exact ⟨d, rfl, hframe, fun hin => hin.mono hle, hsettle.symm⟩
      · rw [if_neg fun hall => hcookie hall.2.1] at hsettle
        rw [if_pos hcookie]
        exact ⟨d, rfl, hframe, fun hin => hin.mono hle, hsettle.symm⟩
    · rw [if_neg fun hall => h6 hall.1] at hsettle
      rw [if_pos (by omega)]
      exact ⟨d, rfl, hframe, fun hin => hin.mono hle, hsettle.symm⟩
  rw [if_neg hmagic] at hsettle ⊢
  by_cases hparam : o.tag = rfc1533VendorAddparm
  · rw [if_pos hparam] at hsettle ⊢
    rw [hbyte, ok_bind]
    refine ⟨_, rfl, { hframe with }, fun hin => { hin.mono hle with addparam := ?_ }, ?_⟩
    · intro p' hp
      obtain rfl : p + 2 = p' := Option.some.inj hp
      exact Nat.add_le_add_left hlen.le _
    · rw [hsettle]
      simp only [Bootp.settings, Option.map_some, hlen, h.data]
  · rw [if_neg hparam] at hsettle ⊢
    exact ⟨d, rfl, hframe, fun hin => hin.mono hle, hsettle.symm⟩

end Option

/-! ## The loop -/

/-- These bytes are at `p`. -/
def Bootp.At (d : Bootp) (p : Nat) (l : List UInt8) : Prop :=
  d.data.slice p l.length = l ∧ p + l.length ≤ bootpdLen

section Loop

variable {load : List UInt8 → Bootp → Except Fault Bootp} {d d' : Bootp} {n p endp : Nat}
  {l l' : List UInt8} {o : Opt} {x y : Option Nat}

theorem Bootp.at_append_iff : d.At p (l ++ l') ↔ d.At p l ∧ d.At (p + l.length) l' := by
  unfold Bootp.At
  rw [slice_append_iff, List.length_append]
  constructor
  · rintro ⟨⟨h, h'⟩, hle⟩
    exact ⟨⟨h, by omega⟩, h', by omega⟩
  · rintro ⟨⟨h, -⟩, h', hle⟩
    exact ⟨⟨h, h'⟩, by omega⟩

theorem Bootp.At.of_frame (h : d.At p l) (hframe : d.Frame d') : d'.At p l := by
  unfold Bootp.At
  rw [hframe.data]
  exact h

theorem Bootp.At.head {c : UInt8} (h : d.At p (c :: l)) : d.data p = c ∧ p < bootpdLen := by
  obtain ⟨hslice, hle⟩ := h
  rw [List.length_cons] at hle
  exact ⟨(slice_cons_iff.mp hslice).1, by omega⟩

theorem Bootp.At.placed (h : d.At p (entryBytes (some o))) : Placed d p o := by
  obtain ⟨hslice, hle⟩ := h
  obtain ⟨htag, hrest⟩ := slice_cons_iff.mp hslice
  obtain ⟨hlen, hdata⟩ := slice_cons_iff.mp hrest
  have hmax := o.length_le
  exact {
    tag := htag
    len := by
      rw [hlen]
      exact UInt8.toNat_ofNat_of_lt' (by
        show _ < 2 ^ 8
        omega)
    data := hdata
    within := by
      rw [entryBytes, List.length_cons, List.length_cons] at hle
      omega }

theorem decodeLoop_done (h : endp ≤ p) : decodeLoop load (n + 1) p endp x d = .ok (endp, x, d) := by
  rw [decodeLoop, if_pos h]

theorem decodeLoop_end (h : d.At p (rfc1533End :: l)) (hp : p < endp) :
    decodeLoop load (n + 1) p endp x d = .ok (p, x, { d with endOfRfc1533 := some p }) := by
  obtain ⟨htag, hlt⟩ := h.head
  rw [decodeLoop, if_neg (by omega), Bootp.byte_of_lt hlt, ok_bind, htag, if_neg (by decide),
    if_pos rfl]
  rfl

theorem decodeLoop_pad (h : d.At p (entryBytes none)) (hp : p < endp) :
    decodeLoop load (n + 1) p endp x d = decodeLoop load n (p + 1) endp x d := by
  obtain ⟨htag, hlt⟩ := h.head
  rw [decodeLoop, if_neg (by omega), Bootp.byte_of_lt hlt, ok_bind, htag, if_pos rfl]

/-- The option with the name of a file. -/
theorem decodeLoop_extpath (h : Placed d p o) (hp : p < endp)
    (htag : o.tag = rfc1533Extensionpath) :
    decodeLoop load (n + 1) p endp x d =
      decodeLoop load n (p + 2 + o.data.length) endp (some p) d := by
  obtain ⟨len, hbyte, hlen⟩ := h.byte_len
  rw [decodeLoop, if_neg (by omega), h.byte_tag, ok_bind, if_neg o.tag_ne_pad, if_neg o.tag_ne_end,
    if_pos htag, pure_eq_ok, ok_bind]
  dsimp only
  rw [hbyte, ok_bind, hlen, Nat.add_right_comm]

theorem Placed.step_extpath (h : Placed d p o) (htag : o.tag = rfc1533Extensionpath) :
    Step d d x (some p) p (p + 2 + o.data.length) (o.settle false) where
  frame := .refl d
  within := fun hin => { hin.mono (by omega : p ≤ p + 2 + o.data.length) with
    extpath := fun e he => by
      obtain rfl : p = e := Option.some.inj he
      rw [h.len] }
  settings := by
    rw [Opt.settle, if_pos htag]
    simp only [Bootp.settings, Option.map_some, h.len, h.data]

variable (load endp)

/-- Any other option that is not an encapsulation. -/
theorem decodeLoop_option (y : Option Nat) (h : Placed d p o) (hp : p < endp)
    (hfits : d.inEncapsulatedOptions = false → o.Fits) (hext : o.tag ≠ rfc1533Extensionpath)
    (hencap : d.inEncapsulatedOptions = false → o.tag ≠ rfc1533VendorEtherbootEncap) :
    ∃ d', Step d d' y y p (p + 2 + o.data.length) (o.settle d.inEncapsulatedOptions) ∧
      decodeLoop load (n + 1) p endp x d =
        decodeLoop load n (p + 2 + o.data.length) endp x d' := by
  obtain ⟨d', hoption, hstep⟩ := decodeOption_placed (x := y) h hfits hext
  have hwithin := h.within
  have hbyte : d'.byte (p + 1) = .ok (d.data (p + 1)) := by
    rw [Bootp.byte_of_lt (by omega), hstep.frame.data]
  refine ⟨d', hstep, ?_⟩
  rw [decodeLoop, if_neg (by omega), h.byte_tag, ok_bind, if_neg o.tag_ne_pad, if_neg o.tag_ne_end,
    if_neg hext, if_neg fun hno => hencap hno.1 hno.2, hoption, ok_bind, pure_eq_ok, ok_bind]
  dsimp only
  rw [hbyte, ok_bind, h.len, Nat.add_right_comm]

/-- **Encapsulated options**, entry by entry. -/
theorem decodeLoop_entries {es : List (Option Opt)} (y : Option Nat)
    (hat : d.At p (encodeEntries es)) (hp : p + (encodeEntries es).length ≤ endp)
    (henc : d.inEncapsulatedOptions = true)
    (hext : ∀ e ∈ es, ∀ o ∈ e, o.tag ≠ rfc1533Extensionpath) :
    ∃ d', Step d d' y y p (p + (encodeEntries es).length) (es.foldl (settleEntry true)) ∧
      decodeLoop load (n + es.length) p endp x d =
        decodeLoop load n (p + (encodeEntries es).length) endp x d' := by
  induction es generalizing p d with
  | nil => exact ⟨d, .skip d y le_rfl, rfl⟩
  | cons e es ih =>
    have hbytes : encodeEntries (e :: es) = entryBytes e ++ encodeEntries es := List.flatMap_cons
    rw [hbytes, Bootp.at_append_iff] at hat
    rw [hbytes, List.length_append] at hp ⊢
    obtain ⟨hhead, hrest⟩ := hat
    have hone : ∃ d₁, Step d d₁ y y p (p + (entryBytes e).length) (settleEntry true · e) ∧
        decodeLoop load (n + (es.length + 1)) p endp x d =
          decodeLoop load (n + es.length) (p + (entryBytes e).length) endp x d₁ := by
      cases e with
      | none =>
        exact ⟨d, .skip d y (Nat.le_add_right _ _), decodeLoop_pad hhead (by
          rw [show (entryBytes none).length = 1 from rfl] at hp
          omega)⟩
      | some o =>
        have hlength : (entryBytes (some o)).length = 2 + o.data.length := by
          rw [entryBytes, List.length_cons, List.length_cons]
          omega
        have hnot : ∀ {P : Prop}, d.inEncapsulatedOptions = false → P := fun h => by
          rw [henc] at h
          cases h
        obtain ⟨d₁, hstep, hloop⟩ := decodeLoop_option load endp (n := n + es.length) (x := x) y
          hhead.placed (by omega) hnot (hext _ List.mem_cons_self o rfl) hnot
        rw [henc] at hstep
        rw [hlength, ← Nat.add_assoc]
        exact ⟨d₁, hstep, hloop⟩
    obtain ⟨d₁, hstep, hloop⟩ := hone
    obtain ⟨d', hstep', hloop'⟩ := ih (hrest.of_frame hstep.frame) (by omega)
      (hstep.frame.inEncapsulatedOptions.trans henc) fun e' he' => hext e' (List.mem_cons_of_mem _ he')
    rw [← Nat.add_assoc]
    exact ⟨d', hstep.trans hstep', hloop.trans hloop'⟩

theorem length_le_encodeEntries (es : List (Option Opt)) : es.length ≤ (encodeEntries es).length := by
  induction es with
  | nil => exact Nat.le_refl _
  | cons e es ih =>
    have hpos : 1 ≤ (entryBytes e).length := by
      cases e with
      | none => exact Nat.le_refl _
      | some o => exact Nat.le_add_left _ _
    rw [encodeEntries, List.flatMap_cons, List.length_append, List.length_cons]
    rw [encodeEntries] at ih
    omega

/-- **An encapsulation**, with or without an end of its own. -/
theorem decodeLoop_encap {c : Encap} (y : Option Nat) (h : Placed d p c.opt) (hp : p < endp)
    (henc : d.inEncapsulatedOptions = false) (hn : 257 ≤ n)
    (hext : ∀ e ∈ c.entries, ∀ o ∈ e, o.tag ≠ rfc1533Extensionpath) :
    ∃ d', Step d d' y y p (p + 2 + c.opt.data.length)
        (fun σ => c.entries.foldl (settleEntry true) σ) ∧
      decodeLoop load (n + 1) p endp x d =
        decodeLoop load n (p + 2 + c.opt.data.length) endp x d' := by
  have hentries := length_le_encodeEntries c.entries
  have hmax := c.length_le
  have hwithin := h.within
  have hlength : c.opt.data.length = (encodeEntries c.entries).length + c.tail.length :=
    List.length_append
  rw [List.length_append] at hmax
  obtain ⟨len, hbyte, hlen⟩ := h.byte_len
  let d₀ : Bootp := { d with inEncapsulatedOptions := true }
  obtain ⟨hat, htail⟩ : d₀.At (p + 2) (encodeEntries c.entries) ∧
      d₀.At (p + 2 + (encodeEntries c.entries).length) c.tail :=
    Bootp.at_append_iff.mp ⟨h.data, hwithin⟩
  obtain ⟨m, rfl⟩ : ∃ m, n = m + 2 + c.entries.length := ⟨n - 2 - c.entries.length, by omega⟩
  obtain ⟨d₁, hstep, hloop⟩ := decodeLoop_entries load (p + 2 + c.opt.data.length) (n := m + 2)
    (x := none) y hat (by omega) rfl hext
  -- The end of the encapsulation, where nothing is left to be loaded.
  have hstop : ∃ stop e, decodeLoop load (m + 2) (p + 2 + (encodeEntries c.entries).length)
      (p + 2 + c.opt.data.length) none d₁ = .ok (stop, none, { d₁ with endOfRfc1533 := e }) := by
    rcases c.tail_eq with hnil | ⟨junk, hjunk⟩
    · rw [hnil, List.length_nil] at hlength
      exact ⟨_, d₁.endOfRfc1533, decodeLoop_done (by omega)⟩
    · have hat₁ := htail.of_frame hstep.frame
      rw [hjunk] at hat₁ hlength
      rw [List.length_cons] at hlength
      exact ⟨_, _, decodeLoop_end hat₁ (by omega)⟩
  obtain ⟨stop, e, hstop⟩ := hstop
  refine ⟨{ d₁ with
      endOfRfc1533 := e
      extdata := stop
      extend := stop
      inEncapsulatedOptions := false }, ⟨{ hstep.frame with inEncapsulatedOptions := henc.symm },
    fun hin => ?_, hstep.settings⟩, ?_⟩
  · have hin₀ : d₀.Within _ y (p + 2) := { hin.mono (Nat.le_add_right _ _) with }
    exact { (hstep.within hin₀).mono (by omega) with }
  · have hbyte' : d₁.byte (p + 1) = .ok (d.data (p + 1)) := by
      rw [Bootp.byte_of_lt (by omega), hstep.frame.data]
    have htag : c.opt.tag ≠ rfc1533Extensionpath :=
      (by decide : rfc1533VendorEtherbootEncap ≠ rfc1533Extensionpath)
    rw [decodeLoop, if_neg (by omega), h.byte_tag, ok_bind, if_neg c.opt.tag_ne_pad,
      if_neg c.opt.tag_ne_end, if_neg htag, if_pos ⟨henc, rfl⟩, hbyte, ok_bind, hlen]
    show (decodeLoop load (m + 2 + c.entries.length) (p + 2) (p + 2 + c.opt.data.length) none d₀
      >>= _) = _
    rw [hloop, hstop, ok_bind]
    show (d₁.byte (p + 1) >>= _) = _
    rw [hbyte', ok_bind, h.len, Nat.add_right_comm p 2]

/-- **The options of a reply or a file**, item by item, as long as nothing is to be loaded. -/
theorem decodeLoop_items {items : List Item} (hat : d.At p (encodeItems items))
    (hp : p + (encodeItems items).length ≤ endp) (henc : d.inEncapsulatedOptions = false)
    (hn : 257 ≤ n) (hfits : ∀ i ∈ items, i.Fits) :
    ∃ d' x', Step d d' x x' p (p + (encodeItems items).length) (items.foldl Item.settle) ∧
      decodeLoop load (n + items.length) p endp x d =
        decodeLoop load n (p + (encodeItems items).length) endp x' d' := by
  induction items generalizing p d x with
  | nil => exact ⟨d, x, .skip d x le_rfl, rfl⟩
  | cons i items ih =>
    have hbytes : encodeItems (i :: items) = i.bytes ++ encodeItems items := List.flatMap_cons
    rw [hbytes, Bootp.at_append_iff] at hat
    rw [hbytes, List.length_append] at hp ⊢
    obtain ⟨hhead, hrest⟩ := hat
    have hone : ∃ d₁ x₁, Step d d₁ x x₁ p (p + i.bytes.length) (Item.settle · i) ∧
        decodeLoop load (n + (items.length + 1)) p endp x d =
          decodeLoop load (n + items.length) (p + i.bytes.length) endp x₁ d₁ := by
      have hi := hfits i List.mem_cons_self
      have hlength : ∀ o : Opt, (entryBytes (some o)).length = 2 + o.data.length := fun o => by
        rw [entryBytes, List.length_cons, List.length_cons]
        omega
      cases i with
      | entry e =>
        cases e with
        | none =>
          rw [Item.bytes, show (entryBytes none).length = 1 from rfl] at *
          exact ⟨d, x, .skip d x (Nat.le_add_right _ _), decodeLoop_pad hhead (by omega)⟩
        | some o =>
          obtain ⟨ho, hencap⟩ := hi o rfl
          have hplaced := hhead.placed
          rw [Item.bytes, hlength o, ← Nat.add_assoc] at *
          by_cases hext : o.tag = rfc1533Extensionpath
          · exact ⟨d, some p, hplaced.step_extpath hext, decodeLoop_extpath hplaced (by omega) hext⟩
          · obtain ⟨d₁, hstep, hloop⟩ := decodeLoop_option load endp (n := n + items.length) (x := x)
              x hplaced (by omega) (fun _ => ho) hext (fun _ => hencap)
            rw [henc] at hstep
            exact ⟨d₁, x, hstep, hloop⟩
      | encap c =>
        have hplaced := Bootp.At.placed hhead
        rw [Item.bytes, hlength c.opt, ← Nat.add_assoc] at *
        obtain ⟨d₁, hstep, hloop⟩ := decodeLoop_encap load endp (n := n + items.length) (x := x) x
          hplaced (by omega) henc (by omega) hi
        exact ⟨d₁, x, hstep, hloop⟩
    obtain ⟨d₁, x₁, hstep, hloop⟩ := hone
    obtain ⟨d', x', hstep', hloop'⟩ := ih (hrest.of_frame hstep.frame) (by omega)
      (hstep.frame.inEncapsulatedOptions.trans henc) fun j hj => hfits j (List.mem_cons_of_mem _ hj)
    rw [← Nat.add_assoc]
    exact ⟨d', x', hstep.trans hstep', hloop.trans hloop'⟩

theorem length_le_encodeItems (items : List Item) : items.length ≤ (encodeItems items).length := by
  induction items with
  | nil => exact Nat.le_refl _
  | cons i items ih =>
    have hpos : 1 ≤ i.bytes.length := by
      cases i with
      | entry e =>
        cases e with
        | none => exact Nat.le_refl _
        | some o => exact Nat.le_add_left _ _
      | encap c => exact Nat.le_add_left _ _
    rw [encodeItems, List.flatMap_cons, List.length_append, List.length_cons]
    rw [encodeItems] at ih
    omega

/-- **All the options**, up to their end or to the end of what there is. -/
theorem decodeLoop_all {items : List Item} {tail : List UInt8}
    (hat : d.At p (encodeItems items ++ tail)) (henc : d.inEncapsulatedOptions = false)
    (hfits : ∀ i ∈ items, i.Fits)
    (hend : p + (encodeItems items).length = endp ∨
      p + (encodeItems items).length < endp ∧ ∃ junk, tail = rfc1533End :: junk) :
    ∃ d' x', Step d d' x x' p (p + (encodeItems items).length) (items.foldl Item.settle) ∧
      decodeLoop load decodeFuel p endp x d = .ok (p + (encodeItems items).length, x', d') := by
  obtain ⟨hitems, htail⟩ := Bootp.at_append_iff.mp hat
  have hlength := length_le_encodeItems items
  have hwithin := hitems.2
  have hmax : bootpdLen = 1472 := rfl
  obtain ⟨n, hn⟩ : ∃ n, decodeFuel = n + 257 + items.length :=
    ⟨decodeFuel - 257 - items.length, by
      have hfuel : decodeFuel = 2 * bootpdLen := rfl
      omega⟩
  obtain ⟨d₁, x₁, hstep, hloop⟩ := decodeLoop_items load endp (n := n + 257) (x := x) hitems
    (by omega) henc (by omega) hfits
  rw [hn, hloop]
  rcases hend with hend | ⟨hlt, junk, rfl⟩
  · exact ⟨d₁, x₁, hstep, by rw [decodeLoop_done hend.ge, hend]⟩
  · exact ⟨{ d₁ with endOfRfc1533 := some (p + (encodeItems items).length) }, x₁,
      ⟨{ hstep.frame with }, fun hin => { hstep.within hin with }, hstep.settings⟩,
      decodeLoop_end (htail.of_frame hstep.frame) hlt⟩

end Loop

/-! ## A reply -/

/-- What is known before the options of a reply are read. -/
def Settings.reset (σ : Settings) : Settings := { σ with addparam := none, vendorext := 0 }

section Reply

variable {load : List UInt8 → Bootp → Except Fault Bootp} {d : Bootp} {items : List Item}

/-- The options are all read, and the file is loaded that the last extension path names, if there is
one: a name of 64 characters or more does not fit into `fname`. -/
theorem decodeReply_items (load : List UInt8 → Bootp → Except Fault Bootp)
    (hat : d.At bpVend (rfc1533Cookie ++ (encodeItems items ++ [rfc1533End])))
    (henc : d.inEncapsulatedOptions = false) (hfits : ∀ i ∈ items, i.Fits) :
    ∃ d', d.Frame d' ∧ d'.Within (d.hostname = none) none d'.extend ∧
      d'.extend = bpVend + 4 + (encodeItems items).length ∧ d'.extdata = d'.extend ∧
      d'.settings none = (items.foldl Item.settle (d.settings none).reset).forget ∧
      decodeReply load d =
        (items.foldl Item.settle (d.settings none).reset).extpath.elim (.ok d') fun name =>
          if fnameLen ≤ name.length then .error .overrun
          else load (name.takeWhile (· ≠ 0)) d' := by
  let d₀ : Bootp := { d with
    endOfRfc1533 := none
    vendorextIsvalid := 0
    addparam := none
    addparamlen := 0 }
  obtain ⟨hcookie, hoptions⟩ := Bootp.at_append_iff.mp hat
  have hslice : d.data.slice bpVend 4 = rfc1533Cookie := hcookie.1
  have hoptions₀ : d₀.At (bpVend + 4) (encodeItems items ++ [rfc1533End]) := hoptions
  have hwithin₀ : d₀.Within (d.hostname = none) none (bpVend + 4) := {
    hostname := fun hc p hp => by rw [show d₀.hostname = d.hostname from rfl, hc] at hp; cases hp
    addparam := fun p hp => by cases hp
    extpath := fun e he => by cases he }
  have hmax : bootpdLen = 1472 := rfl
  have hfit := hoptions.2
  rw [List.length_append, List.length_singleton] at hfit
  obtain ⟨d₁, x₁, hstep, hloop⟩ := decodeLoop_all load
    (bpVend + 4 + (dhcpOptLen + maxBootpExtlen)) (x := none) hoptions₀ henc hfits
    (Or.inr ⟨by
      have hsum : bpVend + 4 + (dhcpOptLen + maxBootpExtlen) = 1476 := rfl
      have hlen : rfc1533Cookie.length = 4 := rfl
      omega, [], rfl⟩)
  have hin := hstep.within hwithin₀
  have hsettings : d₁.settings x₁ = items.foldl Item.settle (d.settings none).reset := hstep.settings
  refine ⟨{ d₁ with
    extdata := bpVend + 4 + (encodeItems items).length
    extend := bpVend + 4 + (encodeItems items).length }, { hstep.frame with },
    { hin with extpath := fun e he => by cases he }, rfl, rfl, ?_, ?_⟩
  · rw [← hsettings]
    rfl
  · rw [← hsettings]
    unfold decodeReply
    dsimp only
    rw [if_neg (not_not.mpr hslice), hloop, ok_bind]
    cases x₁ with
    | none => rfl
    | some e =>
      have hle := hin.extpath e rfl
      have hlen : rfc1533Cookie.length = 4 := rfl
      have hinside : ¬bootpdLen < e + 2 + (d₁.data (e + 1)).toNat := by omega
      dsimp only [Bootp.settings, Option.map_some, Option.elim_some]
      unfold decodeEnd
      dsimp only
      rw [Bootp.byte_of_lt (by omega), ok_bind, if_neg hinside, Bytes.slice_length]

/-- **The options of a reply** are read as they are meant, if they do not name a file. -/
theorem reply_read (load : List UInt8 → Bootp → Except Fault Bootp)
    (hat : d.At bpVend (rfc1533Cookie ++ (encodeItems items ++ [rfc1533End])))
    (henc : d.inEncapsulatedOptions = false) (hfits : ∀ i ∈ items, i.Fits)
    (hext : (items.foldl Item.settle (d.settings none).reset).extpath = none) :
    ∃ d', decodeReply load d = .ok d' ∧ d.Frame d' ∧
      d'.settings none = items.foldl Item.settle (d.settings none).reset := by
  obtain ⟨d', hframe, -, -, -, hsettings, hreply⟩ := decodeReply_items load hat henc hfits
  rw [hext] at hreply
  exact ⟨d', hreply, hframe, hsettings.trans (by rw [Settings.forget, ← hext])⟩

/-- **A name that is too long** is what a reply overruns `fname` with, and nothing else. -/
theorem reply_overruns_iff (hat : d.At bpVend (rfc1533Cookie ++ (encodeItems items ++ [rfc1533End])))
    (henc : d.inEncapsulatedOptions = false) (hfits : ∀ i ∈ items, i.Fits)
    (hload : ∀ name d', load name d' ≠ .error .overrun) :
    decodeReply load d = .error .overrun ↔
      ∃ name ∈ (items.foldl Item.settle (d.settings none).reset).extpath, fnameLen ≤ name.length := by
  obtain ⟨d', -, -, -, -, -, hreply⟩ := decodeReply_items load hat henc hfits
  rw [hreply]
  cases (items.foldl Item.settle (d.settings none).reset).extpath with
  | none => simp
  | some name =>
    rw [Option.elim_some]
    by_cases hlong : fnameLen ≤ name.length
    · simp [hlong]
    · simp [hlong, hload]

/-- **Options without an end** that fill the buffer to its last byte, be it with pads, lead out of it.
-/
theorem reply_unended (load : List UInt8 → Bootp → Except Fault Bootp)
    (hat : d.At bpVend (rfc1533Cookie ++ encodeItems items))
    (henc : d.inEncapsulatedOptions = false) (hfits : ∀ i ∈ items, i.Fits)
    (hfull : bpVend + 4 + (encodeItems items).length = bootpdLen) :
    decodeReply load d = .error .outOfBounds := by
  let d₀ : Bootp := { d with
    endOfRfc1533 := none
    vendorextIsvalid := 0
    addparam := none
    addparamlen := 0 }
  obtain ⟨hcookie, hoptions⟩ := Bootp.at_append_iff.mp hat
  have hslice : d.data.slice bpVend 4 = rfc1533Cookie := hcookie.1
  have hoptions₀ : d₀.At (bpVend + 4) (encodeItems items) := hoptions
  have hsum : bpVend + 4 + (dhcpOptLen + maxBootpExtlen) = 1476 := rfl
  have hmax : bootpdLen = 1472 := rfl
  have hlength := length_le_encodeItems items
  obtain ⟨n, hn⟩ : ∃ n, decodeFuel = n + 257 + items.length :=
    ⟨decodeFuel - 257 - items.length, by
      have hfuel : decodeFuel = 2944 := rfl
      have hvend : bpVend = 236 := rfl
      omega⟩
  have hend : bpVend + 4 + (encodeItems items).length ≤
      bpVend + 4 + (dhcpOptLen + maxBootpExtlen) := by omega
  obtain ⟨d', x', -, hloop⟩ := decodeLoop_items load _ (n := n + 257) (x := none) hoptions₀ hend
    henc (Nat.le_add_left 257 n) hfits
  -- The loop goes on for four bytes behind the buffer.
  have hout : d'.byte (bpVend + 4 + (encodeItems items).length) = .error .outOfBounds := by
    rw [hfull, Bootp.byte, loadByte, if_neg (Nat.lt_irrefl _)]
  unfold decodeReply
  dsimp only
  rw [if_neg (not_not.mpr hslice), hn, hloop, decodeLoop, if_neg (by omega), hout]
  rfl

end Reply

/-- No reply has come, but for these options. -/
def blankBootp (vend : List UInt8) : Bootp where
  net := blankNet
  tftp := .initial
  polls := []
  data := putBytes (fun _ => 0) bpVend vend
  hostname := none
  hostnamelen := 0
  endOfRfc1533 := none
  addparam := none
  addparamlen := 0
  vendorextIsvalid := 0
  dhcpReply := 0
  dhcpServer := 0
  dhcpAddr := 0
  xid := 0
  extdata := 0
  extend := 0
  inEncapsulatedOptions := false

theorem at_blankBootp {vend : List UInt8} (h : bpVend + vend.length ≤ bootpdLen) :
    (blankBootp vend).At bpVend vend :=
  ⟨slice_copy_piece _ _ _, h⟩

/-- A netmask. -/
def maskItem : Item :=
  .entry (some ⟨rfc1533Netmask, [255, 255, 255, 0], by decide, by decide, by decide⟩)

/-- A file to be loaded. -/
def pathItem (name : List UInt8) (h : name.length ≤ 255) : Item :=
  .entry (some ⟨rfc1533Extensionpath, name, by decide, by decide, h⟩)

theorem maskItem_fits : maskItem.Fits := by
  intro o ho
  cases ho
  exact ⟨⟨fun _ => by decide, fun _ => by decide⟩, by decide⟩

theorem pathItem_fits {name : List UInt8} (h : name.length ≤ 255) : (pathItem name h).Fits := by
  intro o ho
  cases ho
  have hno : ¬(rfc1533Extensionpath = rfc1533Netmask ∨ rfc1533Extensionpath = rfc2132SrvId) := by
    decide
  have hno' : rfc1533Extensionpath ≠ rfc2132MsgType := by decide
  exact ⟨⟨fun htag => absurd htag hno, fun htag => absurd htag hno'⟩,
    (by decide : rfc1533Extensionpath ≠ rfc1533VendorEtherbootEncap)⟩

theorem reply_read_mask : ∃ d', decodeReply (fun _ d => .ok d)
      (blankBootp (rfc1533Cookie ++ (encodeItems [maskItem] ++ [rfc1533End]))) = .ok d' ∧
    d'.net.netmask = 0xFFFFFF := by
  have hfits : ∀ i ∈ [maskItem], i.Fits := List.forall_mem_singleton.mpr maskItem_fits
  obtain ⟨d', hreply, -, hsettings⟩ := reply_read (fun _ d => .ok d) (at_blankBootp (by decide)) rfl
    hfits rfl
  exact ⟨d', hreply, congrArg Settings.netmask hsettings⟩

theorem reply_overruns_iff_long : decodeReply (fun _ d => .ok d)
    (blankBootp (rfc1533Cookie ++
      (encodeItems [pathItem (List.replicate 64 97) (by decide)] ++ [rfc1533End]))) =
        .error .overrun :=
  (reply_overruns_iff (at_blankBootp (by decide)) rfl
    (List.forall_mem_singleton.mpr (pathItem_fits _)) (fun _ _ h => by cases h)).mpr
      ⟨_, rfl, by decide⟩

theorem encodeItems_pads_length (k : Nat) :
    (encodeItems (List.replicate k (.entry none))).length = k := by
  induction k with
  | zero => rfl
  | succ k ih =>
    rw [List.replicate_succ, encodeItems, List.flatMap_cons, List.length_append]
    exact (congrArg (1 + ·) ih).trans (Nat.add_comm 1 k)

theorem reply_unended_pads : decodeReply (fun _ d => .ok d)
    (blankBootp (rfc1533Cookie ++ encodeItems (List.replicate 1232 (.entry none)))) =
      .error .outOfBounds := by
  have hlength := encodeItems_pads_length 1232
  have hfits : ∀ i ∈ List.replicate 1232 (Item.entry none), i.Fits := fun i hi => by
    rw [List.eq_of_mem_replicate hi]
    exact fun o ho => by cases ho
  refine reply_unended _ (at_blankBootp ?_) rfl hfits ?_
  · rw [List.length_append, hlength]
    decide
  · rw [hlength]
    rfl

end MbBootTv
