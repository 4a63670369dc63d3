import MbBootTv.Net.Extension

/-!
# Where the address comes from

Whatever arrives, in whatever order: when `bootp` is done, the address of this machine is one that a
reply to its own transaction has offered (`bootp_lease`). What is read from the options, and what the
file has in which they go on, does not change it (`Later`).
-/

namespace MbBootTv

/-! ## A frame with a datagram -/

/-- Without its options the packet is what the frame has behind them. -/
theorem deleteOptions_load {s s' : Net} {f : EthFrame} {iplen : Nat} (h20 : 20 ≤ iplen)
    (h60 : iplen ≤ 60) (h : deleteOptions (s.load f) iplen = .ok s') :
    ∃ k, s'.packetlen + k = f.bytes.length ∧
      ∀ i, 34 ≤ i → i < s'.packetlen → s'.packet i = pieceAt f.bytes (i + k) := by
  have hhlen : ethHlen = 14 := rfl
  have hlength : (s.load f).packetlen = f.bytes.length := rfl
  rw [deleteOptions_eq h20 h60 (hlength.trans_le f.length_le)] at h
  split at h
  · cases h
    exact ⟨0, rfl, fun i _ hi => load_of_lt s f hi⟩
  · split at h
    · cases h
    case isFalse hroom =>
      cases h
      refine ⟨iplen - 20, by
        dsimp only
        omega, fun i hi hlt => ?_⟩
      dsimp only at hlt ⊢
      rw [Bytes.copy_of_mem (by omega) (by omega), load_of_lt s f (by omega)]
      exact congrArg _ (by omega)

/-- **What a datagram says is in its frame**, and nothing is left from what was in the buffer. -/
theorem inspect_udp_load {s s' : Net} {f : EthFrame} {a : Arrived}
    (h : inspect (s.load f) = .ok (s', some a)) (hudp : a.udp = true) :
    ∃ k, s'.packetlen + k = f.bytes.length ∧
      ∀ i, 34 ≤ i → i < s'.packetlen → s'.packet i = pieceAt f.bytes (i + k) := by
  by_cases htaken : IpTaken (s.load f)
  · obtain ⟨hge, hle⟩ := htaken.ipHdrLen_mem
    rw [inspect_of_ipTaken htaken] at h
    obtain ⟨s₁, hdelete, hinspect⟩ := bind_eq_ok.mp h
    rw [inspectUdp_eq hinspect]
    exact deleteOptions_load hge hle hdelete
  · obtain ⟨a', ha', hno⟩ := inspect_of_not_ipTaken htaken
    rw [ha'] at h
    cases h
    rw [hno a rfl] at hudp
    cases hudp

/-- A reply that offers the address `ip` in the transaction `xid`, behind an IP header with `k` bytes
of options. -/
structure Offer (f : EthFrame) (k : Nat) (xid ip : UInt32) : Prop where
  length_ge : 42 + bpVend + k ≤ f.bytes.length
  op : pieceAt f.bytes (42 + k) = bootpReply
  xid : (pieceAt f.bytes).le32 (46 + k) = xid
  yiaddr : (pieceAt f.bytes).le32 (58 + k) = ip
  siaddr : (pieceAt f.bytes).le32 (62 + k) ≠ 0

/-- **What `await_bootp` takes** is such a reply. -/
theorem awaitReply_awaitBootp {xid : UInt32} {polls rest : List Poll} {s s' : Net} {taken : Bool}
    (h : awaitReply (awaitBootp xid) false polls s = .ok (taken, s', rest)) :
    Kept s s' ∧ rest <:+ polls ∧
      (taken = true → ∃ f k, .frame f ∈ polls ∧ Offer f k xid (s'.packet.le32 58)) := by
  have hrule := awaitReply_rule (Kept s)
    (fun s' => Kept s s' ∧ ∃ f k, .frame f ∈ polls ∧ Offer f k xid (s'.packet.le32 58))
    (fun f => .frame f ∈ polls)
    (fun hI _ hinspect => (hI.trans (Kept.load _ _)).trans (inspect_kept hinspect)) ?_
    (Kept.refl s) (fun _ hf => hf) h
  · cases taken with
    | true => exact ⟨hrule.1.1, hrule.2, fun _ => hrule.1.2⟩
    | false => exact ⟨hrule.1, hrule.2, fun htaken => by cases htaken⟩
  intro s₁ f s₂ a taken₁ s₃ hI hf hinspect hreply
  have hkept := (hI.trans (Kept.load _ f)).trans (inspect_kept hinspect)
  obtain ⟨htaken, rfl⟩ := Prod.mk.inj (Except.ok.inj hreply)
  cases taken₁ with
  | false => exact hkept.trans (answerArp_kept _ _)
  | true =>
    obtain ⟨hudp, hlen, -, hop, hxid, hsiaddr, -⟩ := of_decide_eq_true htaken
    obtain ⟨k, hk, hbytes⟩ := inspect_udp_load hinspect hudp
    have hvend : bpVend = 236 := rfl
    have hword : ∀ p, 34 ≤ p → p + 4 ≤ s₂.packetlen →
        (pieceAt f.bytes).le32 (p + k) = s₂.packet.le32 p := fun p hp hle =>
      Bytes.le32_congr fun i hi => by
        rw [hbytes _ (by omega) (by omega)]
        exact congrArg _ (by omega)
    exact ⟨hkept, f, k, hf, {
      length_ge := by omega
      op := (hbytes 42 (by omega) (by omega)).symm.trans hop
      xid := (hword 46 (by omega) (by omega)).trans hxid
      yiaddr := hword 58 (by omega) (by omega)
      siaddr := by
        rw [hword 62 (by omega) (by omega)]
        exact hsiaddr }⟩

/-! ## What the options leave -/

/-- Polls have been taken, but the address of this machine is what it was. -/
structure Later (d d' : Bootp) : Prop where
  polls : d'.polls <:+ d.polls
  xid : d'.xid = d.xid
  clientIp : d'.net.clientIp = d.net.clientIp

/-- Any error will do. -/
abbrev anyFault : Fault → Prop := fun _ => True

theorem ends_any {α : Type} (x : Except Fault α) : Ends anyFault x fun _ => True := by
  cases x with
  | error e => trivial
  | ok a => trivial

namespace Later

variable {load : List UInt8 → Bootp → Except Fault Bootp} {d d' d'' : Bootp}

theorem refl (d : Bootp) : Later d d := ⟨List.suffix_rfl, rfl, rfl⟩

theorem trans (h : Later d d') (h' : Later d' d'') : Later d d'' where
  polls := h'.polls.trans h.polls
  xid := h'.xid.trans h.xid
  clientIp := h'.clientIp.trans h.clientIp

theorem of_eq (hpolls : d'.polls = d.polls) (hxid : d'.xid = d.xid) (hnet : d'.net = d.net) :
    Later d d' := ⟨hpolls ▸ List.suffix_rfl, hxid, congrArg Net.clientIp hnet⟩

/-- From another state with the same network. -/
theorem of_later {d₁ : Bootp} (h : Later d₁ d') (hpolls : d₁.polls = d.polls)
    (hxid : d₁.xid = d.xid) (hnet : d₁.net = d.net) : Later d d' :=
  (of_eq hpolls hxid hnet).trans h

theorem option (c : UInt8) (p : Nat) (d : Bootp) : Ends anyFault (decodeOption c p d) (Later d) := by
  unfold decodeOption
  refine .ite (fun _ => (ends_any _).bind fun _ _ _ => ⟨List.suffix_rfl, rfl, rfl⟩) fun _ => ?_
  refine .ite (fun _ => (ends_any _).bind fun _ _ _ => .ite (fun _ => ?_) fun _ => refl d)
    fun _ => ?_
  · refine (ends_any _).bind fun ipaddr _ _ => ⟨List.suffix_rfl, rfl, ?_⟩
    exact congrArg ArpEntry.ipaddr ((Bootp.Frame.setIpaddr d ipaddr).arptable arpClient (by decide))
  refine .ite (fun _ => (ends_any _).bind fun _ _ _ => of_eq rfl rfl rfl) fun _ => ?_
  refine .ite (fun _ => (ends_any _).bind fun _ _ _ => of_eq rfl rfl rfl) fun _ => ?_
  refine .ite (fun _ => (ends_any _).bind fun _ _ _ => of_eq rfl rfl rfl) fun _ => ?_
  refine .ite (fun _ => (ends_any _).bind fun _ _ _ => .ite (fun _ => refl d) fun _ =>
    .ite (fun _ => trivial) fun _ => .ite (fun _ => refl d) fun _ => ?_) fun _ => ?_
  · refine (ends_any _).bind fun major _ _ => ?_
    show Later d (if major = 0 then _ else _)
    by_cases hmajor : major = 0
    · rw [if_pos hmajor]
      exact of_eq rfl rfl rfl
    · rw [if_neg hmajor]
      exact refl d
  · exact .ite (fun _ => (ends_any _).bind fun _ _ _ => of_eq rfl rfl rfl) fun _ => refl d

theorem optionsEnd (hload : ∀ name d, Ends anyFault (load name d) (Later d)) (endp : Nat)
    (x : Option Nat) (d : Bootp) : Ends anyFault (decodeEnd load endp x d) (Later d) := by
  unfold decodeEnd
  cases x with
  | none => exact of_eq rfl rfl rfl
  | some e =>
    refine (ends_any _).bind fun _ _ _ => ?_
    split
    · trivial
    split
    · trivial
    · exact (hload _ _).mono fun d' _ h => h.of_later rfl rfl rfl

theorem loop (hload : ∀ name d, Ends anyFault (load name d) (Later d)) (n p endp : Nat)
    (x : Option Nat) (d : Bootp) :
    Ends anyFault (decodeLoop load n p endp x d) fun r => Later d r.2.2 := by
  induction n generalizing p endp x d with
  | zero => trivial
  | succ n ih =>
    rw [decodeLoop]
    split
    · exact refl d
    refine (ends_any _).bind fun c _ _ => ?_
    split
    · exact ih _ _ _ _
    split
    · exact of_eq rfl rfl rfl
    have hnext : ∀ x' d', Later d d' → Ends anyFault
        (d'.byte (p + 1) >>= fun len => decodeLoop load n (p + len.toNat + 2) endp x' d')
        fun r => Later d r.2.2 := fun x' d' hd => (ends_any _).bind fun len _ _ =>
      (ih _ _ _ _).mono fun r _ hr => hd.trans hr
    dsimp only
    split
    · exact hnext _ _ (refl d)
    split
    -- An encapsulation has a loop of its own.
    · refine (ends_any _).bind fun len _ _ => (ih _ _ _ _).bind fun r _ hr => ?_
      refine (optionsEnd hload r.1 r.2.1 r.2.2).bind fun d' _ hd => ?_
      have hlater : Later d d' := (hr.trans hd).of_later rfl rfl rfl
      exact hnext _ _ (hlater.trans (of_eq rfl rfl rfl))
    · exact (option c p d).bind fun d' _ hd => hnext _ _ hd

theorem block (hload : ∀ name d, Ends anyFault (load name d) (Later d)) (call : TftpCall)
    (d : Bootp) : Ends anyFault (decodeBlock load d call) fun r => Later d r.2 := by
  unfold decodeBlock
  split
  · exact refl d
  dsimp only
  generalize (if call.block = 1 then call.len - 4 else call.len).toNat = len
  split
  · trivial
  split
  · split
    · exact of_eq rfl rfl rfl
    · trivial
  · split
    · refine (loop hload _ _ _ _ _).bind fun r _ hr => ?_
      have hlater : Later d r.2.2 := hr.of_later rfl rfl rfl
      exact hlater.trans (of_eq rfl rfl rfl)
    · exact of_eq rfl rfl rfl

theorem blocks (hload : ∀ name d, Ends anyFault (load name d) (Later d)) (calls : List TftpCall)
    (rc : Int32) (d : Bootp) :
    Ends anyFault (decodeBlocks load calls rc d) fun r => Later d r.2 := by
  induction calls generalizing rc d with
  | nil => exact refl d
  | cons call calls ih =>
    rw [decodeBlocks]
    exact (block hload call d).bind fun r _ hr => (ih r.1 r.2).mono fun r' _ hr' => hr.trans hr'

/-- **A file with more options** does not change the address either. -/
theorem extension (n : Nat) (fname : List UInt8) (d : Bootp) :
    Ends anyFault (loadExtension n fname d) (Later d) := by
  induction n generalizing fname d with
  | zero => trivial
  | succ n ih =>
    rw [loadExtension]
    refine (ends_any _).bind fun r hrun _ => ?_
    obtain ⟨rc, calls, t, s, rest⟩ := r
    obtain ⟨⟨-, -, hspoken⟩, hsuffix⟩ := tftpCalls_talks rfl (by decide)
      (fun _ _ _ _ => tftpBlock_some_talks) hrun
    have hlater : Later d { d with
        tftp := t
        net := s
        polls := rest } := ⟨hsuffix, rfl, hspoken.ipaddr arpClient⟩
    exact (blocks ih calls 0 _).bind fun r _ hr => hlater.trans hr

theorem reply (hload : ∀ name d, Ends anyFault (load name d) (Later d)) (d : Bootp) :
    Ends anyFault (decodeReply load d) (Later d) := by
  unfold decodeReply
  dsimp only
  split
  · exact of_eq rfl rfl rfl
  · refine (loop hload _ _ _ _ _).bind fun r _ hr => ?_
    exact (optionsEnd hload _ _ _).mono fun d' _ hd => (hr.trans hd).of_later rfl rfl rfl

end Later

/-! ## Replies -/

theorem Net.setArp_clientIp (s : Net) {i : Fin 3} (ipaddr : UInt32) (h : i ≠ arpClient) :
    (s.setArp i ipaddr).clientIp = s.clientIp :=
  congrArg ArpEntry.ipaddr (Function.update_of_ne h.symm _ _)

/-- A reply that is taken: the address is the one that it offers, if it offers any. -/
theorem takeBootp_later {load : List UInt8 → Bootp → Except Fault Bootp}
    (hload : ∀ name d, Ends anyFault (load name d) (Later d)) (d : Bootp) :
    Ends anyFault (takeBootp load d) fun d' => d'.polls <:+ d.polls ∧ d'.xid = d.xid ∧
      d'.net.clientIp =
        if d.net.packet.le32 58 = 0 then d.net.clientIp else d.net.packet.le32 58 := by
  unfold takeBootp
  dsimp only
  -- The server and the gateway are other entries of the table.
  generalize hserver : (if d.net.packet.le32 62 ≠ 0 then d.net.setArp arpServer (d.net.packet.le32 62)
    else d.net) = s₁
  generalize hgateway : (if d.net.packet.le32 66 ≠ 0 then s₁.setArp arpGateway (d.net.packet.le32 66)
    else s₁) = s₂
  have hclient : s₂.clientIp = d.net.clientIp := by
    have h₁ : s₁.clientIp = d.net.clientIp := by
      rw [← hserver]
      split
      · exact d.net.setArp_clientIp _ (by decide)
      · rfl
    rw [← hgateway, ← h₁]
    split
    · exact s₁.setArp_clientIp _ (by decide)
    · rfl
  by_cases hzero : d.net.packet.le32 58 = 0
  · rw [if_neg (not_not.mpr hzero), if_pos hzero]
    exact ⟨List.suffix_rfl, rfl, hclient⟩
  · rw [if_pos hzero, if_neg hzero]
    refine (Later.reply hload _).mono fun d' _ hd => ⟨hd.polls, hd.xid, hd.clientIp.trans ?_⟩
    exact congrArg ArpEntry.ipaddr (Bootp.Frame.setIpaddr_self s₂ arpClient _)

/-- The address is what it was, or one that a reply has offered meanwhile. -/
structure Awaited (d d' : Bootp) : Prop where
  polls : d'.polls <:+ d.polls
  xid : d'.xid = d.xid
  clientIp : d'.net.clientIp = d.net.clientIp ∨ d'.net.clientIp ≠ 0 ∧
    ∃ f k, .frame f ∈ d.polls ∧ Offer f k d.xid d'.net.clientIp

namespace Awaited

variable {d d' d'' : Bootp}

theorem of_later (h : Later d d') : Awaited d d' := ⟨h.polls, h.xid, Or.inl h.clientIp⟩

theorem trans (h : Awaited d d') (h' : Awaited d' d'') : Awaited d d'' where
  polls := h'.polls.trans h.polls
  xid := h'.xid.trans h.xid
  clientIp := by
    rcases h'.clientIp with hsame | ⟨hne, f, k, hf, hoffer⟩
    · rw [hsame]
      exact h.clientIp
    · rw [h.xid] at hoffer
      exact Or.inr ⟨hne, f, k, h.polls.subset hf, hoffer⟩

theorem reply (d : Bootp) : Ends anyFault (awaitBootpReply d) fun r => Awaited d r.2 := by
  unfold awaitBootpReply
  refine (ends_any _).bind fun r hawait _ => ?_
  obtain ⟨taken, s, polls⟩ := r
  obtain ⟨hkept, hsuffix, hoffer⟩ := awaitReply_awaitBootp hawait
  cases taken with
  | false => exact of_later ⟨hsuffix, rfl, hkept.clientIp⟩
  | true =>
    obtain ⟨f, k, hf, hoffer⟩ := hoffer rfl
    refine (takeBootp_later (Later.extension _) _).bind fun d' _ hd => ?_
    obtain ⟨hpolls, hxid, hip⟩ := hd
    refine ⟨hpolls.trans hsuffix, hxid, ?_⟩
    dsimp only at hip
    split at hip
    · exact Or.inl (hip.trans hkept.clientIp)
    case isFalse hne =>
      show d'.net.clientIp = _ ∨ d'.net.clientIp ≠ 0 ∧ _
      rw [hip]
      exact Or.inr ⟨hne, f, k, hf, hoffer⟩

theorem transmit (ip : Bytes) (d : Bootp) :
    Ends anyFault (bootpTransmit ip d) fun r => Awaited d r.2 := by
  unfold bootpTransmit
  refine (ends_any _).bind fun r hsend _ => ?_
  obtain ⟨sent, ip', s, polls⟩ := r
  unfold udpTransmit at hsend
  obtain ⟨b, -, hsend⟩ := bind_eq_ok.mp hsend
  obtain ⟨⟨sent', s', polls'⟩, hip, hsend⟩ := bind_eq_ok.mp hsend
  cases hsend
  exact of_later ⟨(ipTransmit_rule hip).2, rfl,
    ipTransmit_ipaddr (s := { d.net with sport := bootpClient }) hip arpClient⟩

theorem offers (n : Nat) (d : Bootp) : Ends anyFault (bootpOffers n d) (Awaited d) := by
  induction n generalizing d with
  | zero => trivial
  | succ n ih =>
    rw [bootpOffers]
    refine (reply d).bind fun r _ hr => ?_
    obtain ⟨taken, d'⟩ := r
    cases taken with
    | true => exact (ih d').mono fun d'' _ hd => hr.trans hd
    | false => exact hr

theorem requests (n : Nat) (ip : Bytes) (d : Bootp) :
    Ends anyFault (bootpRequests n ip d) fun r => Awaited d r.2.2 := by
  induction n generalizing ip d with
  | zero => exact of_later (.refl d)
  | succ n ih =>
    rw [bootpRequests]
    refine (transmit ip d).bind fun r _ hsent => ?_
    obtain ⟨ip', d₁⟩ := r
    refine (reply { d₁ with dhcpReply := 0 }).bind fun r _ hreply => ?_
    obtain ⟨taken, d₂⟩ := r
    have hd₂ : Awaited d d₂ := hsent.trans ⟨hreply.polls, hreply.xid, hreply.clientIp⟩
    dsimp only
    split
    · exact (ih ip' d₂).mono fun r _ hr => hd₂.trans hr
    split
    · exact (ih ip' d₂).mono fun r _ hr => hd₂.trans hr
    · exact hd₂.trans (of_later (.of_eq rfl rfl rfl))

/-- An address that has not been there before. -/
theorem offered (h : Awaited d d') (hzero : d.net.clientIp = 0) (hne : d'.net.clientIp ≠ 0) :
    ∃ f k, .frame f ∈ d.polls ∧ Offer f k d.xid d'.net.clientIp := by
  rcases h.clientIp with hsame | ⟨-, hoffer⟩
  · exact absurd (hsame.trans hzero) hne
  · exact hoffer

theorem ne_zero (h : Awaited d d') (hne : d.net.clientIp ≠ 0) : d'.net.clientIp ≠ 0 := by
  rcases h.clientIp with hsame | ⟨hne', -⟩
  · rwa [hsame]
  · exact hne'

end Awaited

/-! ## The whole of `bootp` -/

/-- It is done, with an address from a reply. -/
structure Leased (d d' : Bootp) : Prop where
  xid : d'.xid = d.xid
  ne_zero : d'.net.clientIp ≠ 0
  offered : ∃ f k, .frame f ∈ d.polls ∧ Offer f k d.xid d'.net.clientIp

theorem bootpRounds_leased (id : DevId) (secs : Nat → UInt16) (n : Nat) (ip : Bytes) (d : Bootp) :
    Ends anyFault (bootpRounds id secs n ip d) fun r => r.1 = true → Leased d r.2 := by
  induction n generalizing ip d with
  | zero => exact fun h => by cases h
  | succ n ih =>
    rw [bootpRounds]
    refine (ends_any _).bind fun r hdrain _ => ?_
    obtain ⟨s, polls⟩ := r
    obtain ⟨-, hsuffix⟩ := rxQdrain_kept hdrain
    refine (Awaited.transmit ip _).bind fun r _ hsent => ?_
    obtain ⟨ip₁, d₁⟩ := r
    refine (Awaited.offers _ d₁).bind fun d₂ _ hoffers => ?_
    -- Since the table has been cleared.
    have hd₂ := hsent.trans hoffers
    have hcleared : s.forgetArp.clientIp = 0 := rfl
    have hlater : ∀ d' : Bootp, d'.polls <:+ polls → d'.xid = d.xid →
        ∀ r : Bool × Bootp, (r.1 = true → Leased d' r.2) → r.1 = true → Leased d r.2 := by
      intro d' hpolls hxid r hr htrue
      obtain ⟨hxid', hne, f, k, hf, hoffer⟩ := hr htrue
      rw [hxid] at hoffer
      exact ⟨hxid'.trans hxid, hne, f, k, (hpolls.trans hsuffix).subset hf, hoffer⟩
    have hdone : ∀ d' : Bootp, Awaited { d with net := s.forgetArp, polls } d' →
        d'.net.clientIp ≠ 0 → Leased d d' := by
      intro d' h hne
      obtain ⟨f, k, hf, hoffer⟩ := h.offered hcleared hne
      exact ⟨h.xid, hne, f, k, hsuffix.subset hf, hoffer⟩
    split
    · exact (ih ip₁ d₂).mono fun r _ hr => hlater d₂ hd₂.polls hd₂.xid r hr
    case isFalse hne =>
    split
    · exact fun _ => hdone d₂ hd₂ hne
    · refine (Awaited.requests _ _ { d₂ with dhcpReply := 0 }).bind fun r _ hrequests => ?_
      obtain ⟨done, ip₂, d₃⟩ := r
      have hd₃ := hd₂.trans (⟨hrequests.polls, hrequests.xid, hrequests.clientIp⟩ : Awaited d₂ d₃)
      dsimp only
      split
      · exact fun _ => hdone d₃ hd₃ (hrequests.ne_zero hne)
      · exact (ih _ d₃).mono fun r _ hr => hlater d₃ hd₃.polls hd₃.xid r hr

/-- **The address is from a reply** to the transaction, whatever else has arrived. -/
theorem bootp_lease {id : DevId} {starttime : UInt32} {secs : Nat → UInt16} {d d' : Bootp}
    (h : bootp id starttime secs d = .ok (true, d')) :
    d'.net.clientIp ≠ 0 ∧ ∃ f k, .frame f ∈ d.polls ∧ Offer f k d'.xid d'.net.clientIp := by
  unfold bootp at h
  obtain ⟨hxid, hne, hoffered⟩ := (bootpRounds_leased id secs maxBootpRetries _ _).ok_of_eq h rfl
  rw [← hxid] at hoffered
  exact ⟨hne, hoffered⟩

end MbBootTv
