import MbBootTv.Net.Udp

/-!
# Waiting for a reply

`await_reply` is entered with a frame on the wire and may be left many frames later, so what it
keeps is stated once as a rule (`awaitReply_rule`): an invariant that every frame keeps and a
postcondition of the frame that is taken. With it go the rules of the ARP retries and of
`udp_transmit`: a datagram leaves at most once, and then for the hardware address that the next hop
has answered with (`udpTransmit_sends`).
-/

namespace MbBootTv

/-! ## What is left alone -/

/-- The datagrams among the frames that have been transmitted. -/
def Net.ipSent (s : Net) : List Sent := s.sent.filter fun f => f.ptype = ethPIp

/-- While a reply is waited for, the table and the datagrams stay as they are. -/
structure Kept (s s' : Net) : Prop where
  arptable : s'.arptable = s.arptable
  netmask : s'.netmask = s.netmask
  sport : s'.sport = s.sport
  ipSent : s'.ipSent = s.ipSent

namespace Kept

variable {s s' s'' : Net}

theorem refl (s : Net) : Kept s s := ⟨rfl, rfl, rfl, rfl⟩

theorem trans (h : Kept s s') (h' : Kept s' s'') : Kept s s'' where
  arptable := h'.arptable.trans h.arptable
  sport := h'.sport.trans h.sport
  netmask := h'.netmask.trans h.netmask
  ipSent := h'.ipSent.trans h.ipSent

theorem clientIp (h : Kept s s') : s'.clientIp = s.clientIp := by
  rw [Net.clientIp, Net.clientIp, h.arptable]

theorem load (s : Net) (f : EthFrame) : Kept s (s.load f) := ⟨rfl, rfl, rfl, rfl⟩

theorem packet (s : Net) (packet : Bytes) (packetlen : Nat) :
    Kept s { s with packet, packetlen } := ⟨rfl, rfl, rfl, rfl⟩

/-- A frame that is no datagram. -/
theorem ethTransmit (s : Net) (dest : Node) {ptype : UInt16} (h : ptype ≠ ethPIp)
    (data : List UInt8) : Kept s (s.ethTransmit dest ptype data) where
  arptable := rfl
  netmask := rfl
  sport := rfl
  ipSent := by
    unfold Net.ipSent Net.ethTransmit
    rw [List.filter_append]
    simp [h]

end Kept

section Frames

variable {s s' : Net}

theorem deleteOptions_kept {iplen : Nat} (h : deleteOptions s iplen = .ok s') : Kept s s' := by
  unfold deleteOptions at h
  dsimp only at h
  split at h
  · cases h
    exact Kept.refl s
  · split at h
    · cases h
    · cases h
      exact Kept.packet s _ _

theorem inspectUdp_eq {ptype : UInt16} {iplen : Nat} {a : Option Arrived}
    (h : inspectUdp s ptype iplen = .ok (s', a)) : s' = s := by
  unfold inspectUdp at h
  split at h
  case isFalse =>
    cases h
    rfl
  case isTrue =>
    split at h
    · cases h
      rfl
    · split at h
      · cases h
        rfl
      · obtain ⟨c, -, hc⟩ := bind_eq_ok.mp h
        cases hc
        rfl

theorem inspect_kept {a : Option Arrived} (h : inspect s = .ok (s', a)) : Kept s s' := by
  by_cases htaken : IpTaken s
  · rw [inspect_of_ipTaken htaken] at h
    obtain ⟨s₁, hdel, hudp⟩ := bind_eq_ok.mp h
    rw [inspectUdp_eq hudp]
    exact deleteOptions_kept hdel
  · obtain ⟨a', ha', -⟩ := inspect_of_not_ipTaken htaken
    rw [ha'] at h
    cases h
    exact Kept.refl s

theorem answerArp_kept (s : Net) (a : Arrived) : Kept s (answerArp s a) := by
  unfold answerArp
  split
  · split
    · exact (Kept.packet s _ s.packetlen).trans (Kept.ethTransmit _ _ (by decide) _)
    · exact Kept.refl s
  · exact Kept.refl s

end Frames

/-! ## The rule of `await_reply` -/

section Rule

variable {reply : ReplyTo} {drain : Bool}

/-- **What `await_reply` keeps.** Every frame keeps the invariant, but the one that is taken, which
establishes the postcondition. -/
theorem awaitReply_rule (I Q : Net → Prop) (ok : EthFrame → Prop)
    (hnone : ∀ {s f s'}, I s → ok f → inspect (s.load f) = .ok (s', none) → I s')
    (hsome : ∀ {s f s' a taken s''}, I s → ok f → inspect (s.load f) = .ok (s', some a) →
      reply s' a = .ok (taken, s'') → if taken then Q s'' else I (answerArp s'' a))
    {polls rest : List Poll} {s s' : Net} {taken : Bool} (hI : I s)
    (hok : ∀ f, .frame f ∈ polls → ok f)
    (h : awaitReply reply drain polls s = .ok (taken, s', rest)) :
    (if taken then Q s' else I s') ∧ rest <:+ polls := by
  induction polls generalizing s with
  | nil => cases h
  | cons p polls ih =>
    have hok' : ∀ f, .frame f ∈ polls → ok f := fun f hf => hok f (List.mem_cons_of_mem _ hf)
    have hsuffix : ∀ {l : List Poll}, l <:+ polls → l <:+ p :: polls :=
      fun hl => hl.trans (List.suffix_cons p polls)
    cases p with
    | empty late =>
      rw [awaitReply] at h
      split at h
      · cases h
        exact ⟨hI, hsuffix List.suffix_rfl⟩
      · exact (ih hI hok' h).imp_right hsuffix
    | frame f =>
      rw [awaitReply] at h
      obtain ⟨⟨s₁, arrived⟩, hinspect, h⟩ := bind_eq_ok.mp h
      have hf : ok f := hok f List.mem_cons_self
      cases arrived with
      | none => exact (ih (hnone hI hf hinspect) hok' h).imp_right hsuffix
      | some a =>
        obtain ⟨⟨taken₁, s₂⟩, hreply, h⟩ := bind_eq_ok.mp h
        have hstep := hsome hI hf hinspect hreply
        cases taken₁ with
        | true =>
          cases h
          exact ⟨hstep, hsuffix List.suffix_rfl⟩
        | false => exact (ih hstep hok' h).imp_right hsuffix

/-- A reply that only looks. -/
theorem awaitReply_kept (hreply : ∀ {s a taken s'}, reply s a = .ok (taken, s') → s' = s)
    {polls rest : List Poll} {s s' : Net} {taken : Bool}
    (h : awaitReply reply drain polls s = .ok (taken, s', rest)) :
    Kept s s' ∧ rest <:+ polls := by
  have hrule := awaitReply_rule (Kept s) (Kept s) (fun _ => True)
    (fun hI _ hinspect => (hI.trans (Kept.load _ _)).trans (inspect_kept hinspect))
    (fun {_ _ _ a taken _} hI _ hinspect hr => by
      rw [hreply hr]
      have hkept := (hI.trans (Kept.load _ _)).trans (inspect_kept hinspect)
      cases taken with
      | true => exact hkept
      | false => exact hkept.trans (answerArp_kept _ _))
    (Kept.refl s) (fun _ _ => trivial) h
  simpa only [ite_self] using hrule

theorem rxQdrain_kept {polls rest : List Poll} {s s' : Net} (h : rxQdrain polls s = .ok (s', rest)) :
    Kept s s' ∧ rest <:+ polls := by
  unfold rxQdrain at h
  obtain ⟨⟨taken, s₁, polls₁⟩, hawait, h⟩ := bind_eq_ok.mp h
  cases h
  exact awaitReply_kept (fun hr => by cases hr; rfl) hawait

/-- The time is over at a poll that finds nothing. -/
theorem awaitReply_timeout {polls rest : List Poll} {s s' : Net}
    (h : awaitReply reply false polls s = .ok (false, s', rest)) :
    ∃ pre, polls = pre ++ .empty true :: rest := by
  induction polls generalizing s with
  | nil => cases h
  | cons p polls ih =>
    have hcons : (∃ pre, polls = pre ++ .empty true :: rest) →
        ∃ pre, p :: polls = pre ++ .empty true :: rest :=
      fun ⟨pre, hpre⟩ => ⟨p :: pre, by rw [hpre, List.cons_append]⟩
    cases p with
    | empty late =>
      cases late with
      | true =>
        cases h
        exact ⟨[], rfl⟩
      | false => exact hcons (ih h)
    | frame f =>
      rw [awaitReply] at h
      obtain ⟨⟨s₁, arrived⟩, -, h⟩ := bind_eq_ok.mp h
      cases arrived with
      | none => exact hcons (ih h)
      | some a =>
        obtain ⟨⟨taken₁, s₂⟩, -, h⟩ := bind_eq_ok.mp h
        cases taken₁ with
        | true => cases h
        | false => exact hcons (ih h)

end Rule

/-! ## `await_arp` -/

/-- A frame in which the machine with that address names its hardware address. -/
structure ArpReply (f : EthFrame) (ip : UInt32) (node : Node) : Prop where
  length_ge : 42 ≤ f.bytes.length
  ptype : etherType (pieceAt f.bytes) = ethPArp
  opcode : (pieceAt f.bytes).le16 20 = htons 2
  sipaddr : (pieceAt f.bytes).le32 28 = ip
  shwaddr : nodeAt (pieceAt f.bytes) 22 = node

theorem load_of_lt (s : Net) (f : EthFrame) {i : Nat} (h : i < f.bytes.length) :
    (s.load f).packet i = pieceAt f.bytes i := Bytes.copy_zero_of_lt h

theorem inspectUdp_ptype {s s' : Net} {ptype : UInt16} {iplen : Nat} {a : Arrived}
    (h : inspectUdp s ptype iplen = .ok (s', some a)) : a.ptype = ptype := by
  unfold inspectUdp at h
  split at h
  case isFalse =>
    cases h
    rfl
  case isTrue =>
    split at h
    · cases h
    · split at h
      · cases h
        rfl
      · obtain ⟨c, -, hc⟩ := bind_eq_ok.mp h
        rw [pure_eq_ok, Except.ok.injEq, Prod.mk.injEq] at hc
        split at hc
        · cases hc.2
          rfl
        · cases hc.2

/-- Only datagrams are looked into. -/
theorem inspect_some {s s' : Net} {a : Arrived} (h : inspect s = .ok (s', some a)) :
    a.ptype = etherType s.packet ∧ (a.ptype ≠ ethPIp → s' = s) := by
  by_cases htaken : IpTaken s
  · rw [inspect_of_ipTaken htaken] at h
    obtain ⟨s₁, -, hudp⟩ := bind_eq_ok.mp h
    have hptype := inspectUdp_ptype hudp
    exact ⟨hptype.trans htaken.ptype.symm, fun hne => absurd hptype hne⟩
  · obtain ⟨a', ha', -⟩ := inspect_of_not_ipTaken htaken
    have hs' : s' = s := by
      rw [ha'] at h
      cases h
      rfl
    refine ⟨?_, fun _ => hs'⟩
    unfold inspect at h
    split at h
    · cases h
    dsimp only at h
    split at h
    case isFalse =>
      cases h
      rfl
    case isTrue htype =>
      unfold inspectIp at h
      dsimp only at h
      split at h
      · cases h
      split at h
      · cases h
      split at h
      · cases h
      split at h
      · cases h
      obtain ⟨s₁, -, hudp⟩ := bind_eq_ok.mp h
      exact inspectUdp_ptype hudp

/-- **A reply that is taken** names the address that is stored. -/
theorem awaitArp_taken {s s' s'' : Net} {f : EthFrame} {a : Arrived} {ival : Fin 3} {ptr : UInt32}
    (hinspect : inspect (s.load f) = .ok (s', some a))
    (h : awaitArp ival ptr s' a = .ok (true, s'')) :
    ∃ node, ArpReply f ptr node ∧ s'' = { s' with
      arptable := Function.update s'.arptable ival { s'.arptable ival with node } } := by
  have hhlen : ethHlen = 14 := rfl
  obtain ⟨hptype, hsame⟩ := inspect_some hinspect
  unfold awaitArp at h
  rw [Except.ok.injEq] at h
  split at h
  · cases h
  case isFalse hshort =>
    rw [not_or, not_not, Nat.not_lt] at hshort
    obtain ⟨harp, hlen⟩ := hshort
    obtain rfl : s' = s.load f := hsame (by rw [harp]; decide)
    split at h
    · cases h
    case isFalse hfields =>
      rw [not_or, not_not, not_not] at hfields
      have hlength : (s.load f).packetlen = f.bytes.length := rfl
      have hload : ∀ i, i < 42 → (s.load f).packet i = pieceAt f.bytes i :=
        fun i hi => load_of_lt s f (by omega)
      refine ⟨nodeAt (s.load f).packet 22, ?_, (Prod.mk.inj h).2.symm⟩
      exact {
        length_ge := by omega
        ptype := by
          rw [← harp, hptype, etherType, etherType, hload 12 (by omega), hload 13 (by omega)]
        opcode := by
          rw [← hfields.1]
          exact Bytes.le16_congr fun i hi => (hload _ (by omega)).symm
        sipaddr := by
          rw [← hfields.2]
          exact Bytes.le32_congr fun i hi => (hload _ (by omega)).symm
        shwaddr := funext fun i => (hload _ (by omega)).symm }

/-- A reply that is not taken changes nothing. -/
theorem awaitArp_not_taken {s s' : Net} {a : Arrived} {ival : Fin 3} {ptr : UInt32}
    (h : awaitArp ival ptr s a = .ok (false, s')) : s' = s := by
  unfold awaitArp at h
  rw [Except.ok.injEq] at h
  split at h
  · cases h
    rfl
  · split at h
    · cases h
      rfl
    · cases h

/-- The entry `ival` has got another node, and everything else is as it was. -/
structure Resolved (ival : Fin 3) (node : Node) (s s' : Net) : Prop where
  arptable : s'.arptable =
    Function.update s.arptable ival { s.arptable ival with node }
  netmask : s'.netmask = s.netmask
  ipSent : s'.ipSent = s.ipSent

theorem Resolved.of_kept {ival : Fin 3} {node : Node} {s s₁ s' : Net} (hkept : Kept s s₁)
    (h : Resolved ival node s₁ s') : Resolved ival node s s' where
  arptable := by rw [h.arptable, hkept.arptable]
  netmask := h.netmask.trans hkept.netmask
  ipSent := h.ipSent.trans hkept.ipSent

theorem awaitReply_awaitArp {ival : Fin 3} {ptr : UInt32} {drain : Bool} {polls rest : List Poll}
    {s s' : Net} {taken : Bool}
    (h : awaitReply (awaitArp ival ptr) drain polls s = .ok (taken, s', rest)) :
    (if taken then ∃ f node, Poll.frame f ∈ polls ∧ ArpReply f ptr node ∧ Resolved ival node s s'
      else Kept s s') ∧ rest <:+ polls := by
  refine awaitReply_rule (Kept s)
    (fun s' => ∃ f node, Poll.frame f ∈ polls ∧ ArpReply f ptr node ∧ Resolved ival node s s')
    (fun f => Poll.frame f ∈ polls)
    (fun hI _ hinspect => (hI.trans (Kept.load _ _)).trans (inspect_kept hinspect)) ?_
    (Kept.refl s) (fun _ hf => hf) h
  intro s₁ f s₂ a taken₁ s₃ hI hf hinspect hreply
  have hkept := (hI.trans (Kept.load _ f)).trans (inspect_kept hinspect)
  cases taken₁ with
  | true =>
    obtain ⟨node, hsaid, rfl⟩ := awaitArp_taken hinspect hreply
    exact ⟨f, node, hf, hsaid, Resolved.of_kept hkept ⟨rfl, rfl, rfl⟩⟩
  | false =>
    rw [awaitArp_not_taken hreply]
    exact hkept.trans (answerArp_kept _ _)

/-- The retries: every round sends a request and waits for the reply. -/
theorem arpRetries_rule {ival : Fin 3} {destip : UInt32} {n : Nat} {polls rest : List Poll}
    {s s' : Net} {found : Bool} (h : arpRetries ival destip n polls s = .ok (found, s', rest)) :
    (if found then
      ∃ f node, Poll.frame f ∈ polls ∧ ArpReply f destip node ∧ Resolved ival node s s'
      else Kept s s') ∧ rest <:+ polls := by
  induction n generalizing polls s with
  | zero =>
    cases h
    exact ⟨Kept.refl _, List.suffix_rfl⟩
  | succ n ih =>
    rw [arpRetries] at h
    obtain ⟨⟨found₁, s₁, rest₁⟩, hawait, h⟩ := bind_eq_ok.mp h
    have hsent : Kept s (s.ethTransmit broadcastNode ethPArp (arpRequest s destip)) :=
      Kept.ethTransmit s _ (by decide) _
    obtain ⟨hwait, hsuffix⟩ := awaitReply_awaitArp hawait
    cases found₁ with
    | true =>
      cases h
      obtain ⟨f, node, hf, hsaid, hresolved⟩ := hwait
      exact ⟨⟨f, node, hf, hsaid, hresolved.of_kept hsent⟩, hsuffix⟩
    | false =>
      obtain ⟨hrest, hsuffix'⟩ := ih h
      refine ⟨?_, hsuffix'.trans hsuffix⟩
      cases found with
      | true =>
        obtain ⟨f, node, hf, hsaid, hresolved⟩ := hrest
        exact ⟨f, node, hsuffix.subset hf, hsaid, (hresolved.of_kept hwait).of_kept hsent⟩
      | false => exact (hsent.trans hwait).trans hrest

/-! ## `udp_transmit` -/

theorem ipDest_buildUdpHdr {client destip : UInt32} {srcsock destsock : UInt16} {ttl : UInt8}
    {len : Nat} {buf b : Bytes}
    (h : buildUdpHdr client destip srcsock destsock ttl len buf = .ok b) : ipDest b 0 = destip := by
  obtain ⟨c, -, hc⟩ := bind_eq_ok.mp h
  cases hc
  have hlow : ∀ i < 20, (putUdpHdr srcsock destsock len
      (buildIpHdr client destip ttl ipUdp 0 len buf)).putLe 26 2
        (if c = 0 then 0xFFFF else c).toNat (0 + i) =
      buildIpHdr client destip ttl ipUdp 0 len buf (0 + i) := fun i hi => by
    rw [Bytes.putLe_of_not_mem (by omega), putUdpHdr_of_lt _ _ _ _ (by omega)]
  exact (le32_field_congr hlow (by decide)).trans (buildIpHdr_dest ..)

theorem ipSent_ethTransmit (s : Net) (dest : Node) (data : List UInt8) :
    (s.ethTransmit dest ethPIp data).ipSent = s.ipSent ++ [⟨dest, ethPIp, data⟩] := by
  unfold Net.ipSent Net.ethTransmit
  rw [List.filter_append]
  rfl

/-- The hardware address that a datagram for `destip` goes to. -/
inductive Hop (s : Net) (polls : List Poll) (destip : UInt32) : Node → Prop
  | broadcast : destip = ipBroadcast → Hop s polls destip broadcastNode
  | known {i : Fin 3} : findArp s (nextHop s destip) = some i → (∃ j, (s.arptable i).node j ≠ 0) →
      Hop s polls destip (s.arptable i).node
  | learnt {i : Fin 3} {f : EthFrame} {node : Node} : findArp s (nextHop s destip) = some i →
      Poll.frame f ∈ polls → ArpReply f (nextHop s destip) node → Hop s polls destip node

theorem ipTransmit_rule {len : Nat} {buf : Bytes} {polls rest : List Poll} {s s' : Net}
    {sent : Bool} (h : ipTransmit len buf polls s = .ok (sent, s', rest)) :
    (if sent then ∃ node, Hop s polls (ipDest buf 0) node ∧
        s'.ipSent = s.ipSent ++ [⟨node, ethPIp, buf.slice 0 len⟩]
      else s'.ipSent = s.ipSent) ∧ rest <:+ polls := by
  unfold ipTransmit at h
  dsimp only at h
  by_cases hbroadcast : ipDest buf 0 = ipBroadcast
  · rw [if_pos hbroadcast] at h
    cases h
    exact ⟨⟨_, .broadcast hbroadcast, ipSent_ethTransmit ..⟩, List.suffix_rfl⟩
  rw [if_neg hbroadcast] at h
  cases hfind : findArp s (nextHop s (ipDest buf 0)) with
  | none =>
    rw [hfind] at h
    cases h
    exact ⟨rfl, List.suffix_rfl⟩
  | some i =>
    rw [hfind] at h
    dsimp only at h
    by_cases hunknown : ∀ j, (s.arptable i).node j = 0
    · rw [if_pos hunknown] at h
      obtain ⟨⟨found, s₁, rest₁⟩, harp, h⟩ := bind_eq_ok.mp h
      obtain ⟨hrule, hsuffix⟩ := arpRetries_rule harp
      cases found with
      | true =>
        cases h
        obtain ⟨f, node, hf, hsaid, hresolved⟩ := hrule
        have hnode : (s₁.arptable i).node = node := by
          rw [hresolved.arptable, Function.update_self]
        refine ⟨⟨node, .learnt hfind hf hsaid, ?_⟩, hsuffix⟩
        rw [ipSent_ethTransmit, hnode, hresolved.ipSent]
      | false =>
        cases h
        exact ⟨hrule.ipSent, hsuffix⟩
    · rw [if_neg hunknown] at h
      cases h
      exact ⟨⟨_, .known hfind (not_forall.mp hunknown), ipSent_ethTransmit ..⟩, List.suffix_rfl⟩

/-- **A datagram leaves once**, when `udp_transmit` says so, and for the hardware address of its
next hop: one that was in the table, or one from a frame with which that machine has answered in the
meantime. When `udp_transmit` says that it has not been sent, no datagram has. -/
theorem udpTransmit_sends {destip : UInt32} {srcsock destsock : UInt16} {len : Nat}
    {buf b : Bytes} {polls rest : List Poll} {s s' : Net} {sent : Bool}
    (h : udpTransmit destip srcsock destsock len buf polls s = .ok (sent, b, s', rest)) :
    (if sent then ∃ node, Hop s polls destip node ∧
        s'.ipSent = s.ipSent ++ [⟨node, ethPIp, b.slice 0 len⟩]
      else s'.ipSent = s.ipSent) ∧ rest <:+ polls := by
  unfold udpTransmit at h
  obtain ⟨b₁, hbuild, h⟩ := bind_eq_ok.mp h
  obtain ⟨⟨sent₁, s₁, rest₁⟩, hip, h⟩ := bind_eq_ok.mp h
  cases h
  have hrule := ipTransmit_rule hip
  rw [ipDest_buildUdpHdr hbuild] at hrule
  refine hrule.imp_left fun hsent => ?_
  cases sent with
  | true =>
    obtain ⟨node, hhop, hip⟩ := hsent
    refine ⟨node, ?_, hip⟩
    cases hhop with
    | broadcast hb => exact .broadcast hb
    | known hfind hnode => exact .known hfind hnode
    | learnt hfind hf hsaid => exact .learnt hfind hf hsaid
  | false => exact hsent

/-- A machine that knows a server, but not its hardware address. -/
def farNet : Net :=
  { blankNet with arptable := fun i => if i = arpServer then ⟨7, fun _ => 0⟩ else
      ⟨1, broadcastNode⟩ }

/-- The ARP reply of the server. -/
def arpFrame : EthFrame :=
  ⟨List.replicate 12 0 ++ [8, 6] ++ List.replicate 6 0 ++ [0, 2, 6, 6, 6, 6, 6, 6, 7, 0, 0, 0] ++
    List.replicate 10 0, by decide⟩

/-- The reply comes to the second request, and the datagram leaves for its sender. -/
theorem udpTransmit_sends_learnt :
    ∃ b s', udpTransmit 7 68 67 30 (fun _ => 7) [.empty true, .frame arpFrame] farNet =
        .ok (true, b, s', []) ∧
      s'.ipSent = farNet.ipSent ++ [⟨fun _ => 6, ethPIp, b.slice 0 30⟩] := by
  have hcheck : holds (udpTransmit 7 68 67 30 (fun _ => 7) [.empty true, .frame arpFrame] farNet)
      (fun x => x.1 && x.2.2.2.isEmpty) = true := by decide +kernel
  obtain ⟨⟨sent, b, s', rest⟩, hrun, hx⟩ := holds_iff.mp hcheck
  obtain ⟨rfl, hrest⟩ := Bool.and_eq_true_iff.mp hx
  obtain rfl := List.isEmpty_iff.mp hrest
  obtain ⟨⟨node, hhop, hsent⟩, -⟩ := udpTransmit_sends hrun
  refine ⟨b, s', hrun, ?_⟩
  have hserver : findArp farNet (nextHop farNet 7) = some arpServer := by decide
  cases hhop with
  | broadcast h => exact absurd h (by decide)
  | known hfind hnode =>
    obtain rfl := Option.some.inj (hfind.symm.trans hserver)
    obtain ⟨j, hj⟩ := hnode
    exact absurd rfl hj
  | learnt hfind hf hsaid =>
    simp only [List.mem_cons, List.not_mem_nil, or_false, reduceCtorEq, false_or,
      Poll.frame.injEq] at hf
    subst hf
    have hsix : ∀ i, nodeAt (pieceAt arpFrame.bytes) 22 i = 6 := by decide
    rw [hsent, ← hsaid.shwaddr, funext hsix]

/-! ## A route that is known -/

/-- The hardware address of the next hop on the way to `destip` is known. -/
def RoutedTo (s : Net) (destip : UInt32) : Prop :=
  destip = ipBroadcast ∨
    ∃ i, findArp s (nextHop s destip) = some i ∧ ∃ j, (s.arptable i).node j ≠ 0

section Routed

variable {s s' : Net} {destip : UInt32}

theorem RoutedTo.of_eq (h : RoutedTo s destip) (harp : s'.arptable = s.arptable)
    (hmask : s'.netmask = s.netmask) : RoutedTo s' destip := by
  have hhop : nextHop s' destip = nextHop s destip := by
    rw [nextHop, nextHop, Net.clientIp, Net.clientIp, harp, hmask]
  unfold RoutedTo findArp at h ⊢
  rwa [hhop, harp]

theorem RoutedTo.of_kept (h : RoutedTo s destip) (hkept : Kept s s') : RoutedTo s' destip :=
  h.of_eq hkept.arptable hkept.netmask

theorem Resolved.ipaddr {ival : Fin 3} {node : Node} (h : Resolved ival node s s') (j : Fin 3) :
    (s'.arptable j).ipaddr = (s.arptable j).ipaddr := by
  rw [h.arptable]
  by_cases hj : j = ival
  · subst hj
    rw [Function.update_self]
  · rw [Function.update_of_ne hj]

/-- Which entry a datagram needs does not depend on what is known of the nodes. -/
theorem Resolved.findArp {ival : Fin 3} {node : Node} (h : Resolved ival node s s') :
    MbBootTv.findArp s' (nextHop s' destip) = MbBootTv.findArp s (nextHop s destip) := by
  have hhop : nextHop s' destip = nextHop s destip := by
    rw [nextHop, nextHop, Net.clientIp, Net.clientIp, h.netmask, h.ipaddr, h.ipaddr]
  unfold MbBootTv.findArp
  simp only [hhop, h.ipaddr]

/-- No frame answers for the next hop with the hardware address zero. -/
def NoZeroNode (polls : List Poll) : Prop :=
  ∀ f ip node, Poll.frame f ∈ polls → ArpReply f ip node → ∃ j, node j ≠ 0

variable {len : Nat} {buf : Bytes} {polls rest : List Poll}

/-- On a known route nothing is waited for. -/
theorem ipTransmit_of_routedTo (len : Nat) (polls : List Poll) (h : RoutedTo s (ipDest buf 0)) :
    ∃ node, ipTransmit len buf polls s =
      .ok (true, s.ethTransmit node ethPIp (buf.slice 0 len), polls) := by
  unfold ipTransmit
  dsimp only
  by_cases hbroadcast : ipDest buf 0 = ipBroadcast
  · rw [if_pos hbroadcast]
    exact ⟨_, rfl⟩
  · obtain ⟨i, hfind, hnode⟩ := h.resolve_left hbroadcast
    rw [if_neg hbroadcast, hfind]
    dsimp only
    rw [if_neg (not_forall.mpr hnode)]
    exact ⟨_, rfl⟩

/-- The addresses in the table stay, and the netmask. -/
theorem ipTransmit_addresses {sent : Bool} (h : ipTransmit len buf polls s = .ok (sent, s', rest)) :
    s'.netmask = s.netmask ∧ ∀ j, (s'.arptable j).ipaddr = (s.arptable j).ipaddr := by
  unfold ipTransmit at h
  dsimp only at h
  split at h
  · cases h
    exact ⟨rfl, fun _ => rfl⟩
  cases hfind : findArp s (nextHop s (ipDest buf 0)) with
  | none =>
    rw [hfind] at h
    cases h
    exact ⟨rfl, fun _ => rfl⟩
  | some i =>
    rw [hfind] at h
    dsimp only at h
    split at h
    · obtain ⟨⟨found, s₁, rest₁⟩, harp, h⟩ := bind_eq_ok.mp h
      obtain ⟨hrule, -⟩ := arpRetries_rule harp
      cases found with
      | true =>
        cases h
        obtain ⟨f, node, -, -, hresolved⟩ := hrule
        exact ⟨hresolved.netmask, hresolved.ipaddr⟩
      | false =>
        cases h
        exact ⟨hrule.netmask, fun j => congrArg (fun table => (table j).ipaddr) hrule.arptable⟩
    · cases h
      exact ⟨rfl, fun _ => rfl⟩

theorem ipTransmit_ipaddr {sent : Bool} (h : ipTransmit len buf polls s = .ok (sent, s', rest))
    (j : Fin 3) : (s'.arptable j).ipaddr = (s.arptable j).ipaddr :=
  (ipTransmit_addresses h).2 j

/-- After a datagram the route is known. -/
theorem routedTo_of_ipTransmit (hzero : NoZeroNode polls)
    (h : ipTransmit len buf polls s = .ok (true, s', rest)) : RoutedTo s' (ipDest buf 0) := by
  unfold ipTransmit at h
  dsimp only at h
  by_cases hbroadcast : ipDest buf 0 = ipBroadcast
  · exact Or.inl hbroadcast
  rw [if_neg hbroadcast] at h
  cases hfind : findArp s (nextHop s (ipDest buf 0)) with
  | none =>
    rw [hfind] at h
    cases h
  | some i =>
    rw [hfind] at h
    dsimp only at h
    by_cases hunknown : ∀ j, (s.arptable i).node j = 0
    · rw [if_pos hunknown] at h
      obtain ⟨⟨found, s₁, rest₁⟩, harp, h⟩ := bind_eq_ok.mp h
      cases found with
      | true =>
        cases h
        obtain ⟨⟨f, node, hf, hsaid, hresolved⟩, -⟩ := arpRetries_rule harp
        have hrouted : RoutedTo s₁ (ipDest buf 0) := by
          refine Or.inr ⟨i, hresolved.findArp.trans hfind, ?_⟩
          rw [hresolved.arptable, Function.update_self]
          exact hzero f _ node hf hsaid
        exact hrouted.of_eq rfl rfl
      | false => cases h
    · rw [if_neg hunknown] at h
      cases h
      exact RoutedTo.of_eq (Or.inr ⟨i, hfind, not_forall.mp hunknown⟩) rfl rfl

end Routed

end MbBootTv
