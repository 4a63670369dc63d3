import MbBootTv.Net.Await
import MbBootTv.Net.Tftp

/-!
# Datagrams on the wire

What a frame means to somebody who waits for a datagram: it carries one (`Carries`), or it is
nothing to this machine (`Foreign`). Frames that `udp_transmit` makes carry what they were made
from, whatever has been in the buffer before.
-/

namespace MbBootTv

/-- A datagram with a zero behind it in the buffer. -/
def Padded (f : EthFrame) (d : Datagram) : Prop :=
  ∀ s s' : Net, inspect (s.load f) = .ok (s', some ⟨ethPIp, true, true⟩) →
    s'.packet (42 + d.payload.length) = 0

/-- A datagram that comes to its end before the packet does. -/
def Whole (f : EthFrame) (d : Datagram) : Prop :=
  ∀ s s' : Net, inspect (s.load f) = .ok (s', some ⟨ethPIp, true, true⟩) →
    42 + d.payload.length ≤ s'.packetlen

/-- **Every datagram that fits has a frame**, which is filled up with zeros when it is short. -/
theorem exists_carries (d : Datagram) (h : d.payload.length ≤ 1472) :
    ∃ f, Carries f d ∧ (d.payload.length < 18 → Padded f d) ∧ Whole f d := by
  have hmtu : 28 + d.payload.length ≤ ethMaxMtu := by
    show _ ≤ 1500
    omega
  have hdata : Bytes.slice (fun i => d.payload.getD (i - 28) 0) 28
      (28 + d.payload.length - 28) = d.payload := by
    rw [Nat.add_sub_cancel_left]
    refine Eq.trans (Bytes.slice_congr fun i _ => ?_) (Bytes.slice_getD d.payload)
    rw [Nat.add_sub_cancel_left, Nat.zero_add]
  obtain ⟨b, -, hb⟩ := buildUdpHdr_built d.src d.dest d.srcsock d.destsock 60
    (fun i => d.payload.getD (i - 28) 0) (Nat.le_add_right 28 _) hmtu
  obtain ⟨f, hf⟩ := exists_txFrame broadcastNode broadcastNode b hmtu
  have hhlen : ethHlen = 14 := rfl
  have hlen : f.bytes.length = max 60 (42 + d.payload.length) := by
    rw [hf, txFrame_length, Bytes.slice_length]
    omega
  refine ⟨f, fun s => ⟨s.load f, hb.inspect_load hf s, ?_⟩, fun hshort s s' hinspect => ?_,
    fun s s' hinspect => ?_⟩
  · have hbrought := hb.brought (Nat.le_add_right 28 _) hf s
    rwa [hdata] at hbrought
  · rw [hb.inspect_load hf s] at hinspect
    cases hinspect
    rw [load_of_lt s f (by omega), hf]
    exact txFrame_zero (by rw [Bytes.slice_length]; omega)
  · rw [hb.inspect_load hf s] at hinspect
    cases hinspect
    show _ ≤ f.bytes.length
    omega

/-- On the wire, what has been transmitted carries that datagram. -/
def Sent.Brings (x : Sent) (d : Datagram) : Prop :=
  ∀ src, ∃ f : EthFrame, f.bytes = txFrame x.dest src x.ptype x.data ∧ Carries f d

theorem Built.brings {client destip : UInt32} {srcsock destsock : UInt16} {len : Nat}
    {buf b : Bytes} (hb : Built client destip srcsock destsock len buf b) (h28 : 28 ≤ len)
    (hmtu : len ≤ ethMaxMtu) (node : Node) : Sent.Brings ⟨node, ethPIp, b.slice 0 len⟩
      ⟨client, destip, srcsock, destsock, buf.slice 28 (len - 28)⟩ := by
  intro src
  obtain ⟨f, hf⟩ := exists_txFrame node src b hmtu
  exact ⟨f, hf, fun s => ⟨s.load f, hb.inspect_load hf s, hb.brought h28 hf s⟩⟩

/-- A datagram says nothing about hardware addresses. -/
theorem Carries.not_arpReply {f : EthFrame} {d : Datagram} (h : Carries f d) (ip : UInt32)
    (node : Node) : ¬ArpReply f ip node := by
  intro harp
  have hlen := harp.length_ge
  obtain ⟨s', hinspect, -⟩ := h blankNet
  have hptype : ethPIp = etherType (blankNet.load f).packet := (inspect_some hinspect).1
  rw [etherType, load_of_lt _ _ (by omega), load_of_lt _ _ (by omega)] at hptype
  exact absurd (hptype.trans harp.ptype) (by decide)

/-- Neither a datagram for this machine nor anything that `await_reply` gets lost in. -/
def Foreign (client : UInt32) (f : EthFrame) : Prop :=
  ∀ s : Net, s.clientIp = client → ∃ s' a, inspect (s.load f) = .ok (s', a) ∧
    ∀ x ∈ a, x.udp = true → ipDest s'.packet ethHlen ≠ client

/-! ## `await_tftp` -/

section AwaitTftp

variable {client : UInt32} {port : UInt16} {polls rest : List Poll} {s s' : Net} {f : EthFrame}
  {d : Datagram}

theorem awaitTftp_of_brought (h : Brought s.packet d) :
    awaitTftp port s ⟨ethPIp, true, true⟩ = .ok (s.clientIp = d.dest ∧ d.destsock = port, s) := by
  unfold awaitTftp
  rw [h.dest, h.destsock]
  simp

/-- A datagram for this port is taken. -/
theorem awaitReply_carries (polls : List Poll) (hf : Carries f d) (hdest : s.clientIp = d.dest)
    (hport : d.destsock = port) :
    ∃ s', inspect (s.load f) = .ok (s', some ⟨ethPIp, true, true⟩) ∧ Kept s s' ∧
      Brought s'.packet d ∧
      awaitReply (awaitTftp port) false (.frame f :: polls) s = .ok (true, s', polls) := by
  obtain ⟨s₁, hinspect, hbrought⟩ := hf s
  have hkept : Kept s s₁ := (Kept.load s f).trans (inspect_kept hinspect)
  have htaken : decide (s₁.clientIp = d.dest ∧ d.destsock = port) = true :=
    decide_eq_true ⟨hkept.clientIp.trans hdest, hport⟩
  refine ⟨s₁, hinspect, hkept, hbrought, ?_⟩
  rw [awaitReply, hinspect, ok_bind]
  dsimp only
  rw [awaitTftp_of_brought hbrought, ok_bind, htaken]
  rfl

/-- A datagram for another port or another machine is not. -/
theorem awaitReply_carries_other (hf : Carries f d) (h : ¬(s.clientIp = d.dest ∧ d.destsock = port)) :
    ∃ s₁, Kept s s₁ ∧ awaitReply (awaitTftp port) false (.frame f :: polls) s =
      awaitReply (awaitTftp port) false polls s₁ := by
  obtain ⟨s₁, hinspect, hbrought⟩ := hf s
  have hkept : Kept s s₁ := (Kept.load s f).trans (inspect_kept hinspect)
  have htaken : decide (s₁.clientIp = d.dest ∧ d.destsock = port) = false :=
    decide_eq_false (by rwa [hkept.clientIp])
  refine ⟨s₁, hkept, ?_⟩
  rw [awaitReply, hinspect, ok_bind]
  dsimp only
  rw [awaitTftp_of_brought hbrought, ok_bind, htaken]
  show awaitReply _ false polls (answerArp s₁ ⟨ethPIp, true, true⟩) = _
  rw [answerArp, if_neg fun h => absurd h.1 (by decide)]

/-- Nor is what is no datagram for this machine. -/
theorem awaitReply_foreign (hf : Foreign client f) (hclient : s.clientIp = client) :
    ∃ s₁, Kept s s₁ ∧ awaitReply (awaitTftp port) false (.frame f :: polls) s =
      awaitReply (awaitTftp port) false polls s₁ := by
  obtain ⟨s₁, a, hinspect, hudp⟩ := hf s hclient
  have hkept : Kept s s₁ := (Kept.load s f).trans (inspect_kept hinspect)
  rw [awaitReply, hinspect, ok_bind]
  cases a with
  | none => exact ⟨s₁, hkept, rfl⟩
  | some a =>
    have hnot : decide (a.udp = true ∧ s₁.clientIp = ipDest s₁.packet ethHlen ∧
        udpDest s₁.packet ethHlen = port) = false := by
      refine decide_eq_false ?_
      rintro ⟨hu, hd, -⟩
      exact hudp a rfl hu (hd.symm.trans (hkept.clientIp.trans hclient))
    refine ⟨answerArp s₁ a, hkept.trans (answerArp_kept s₁ a), ?_⟩
    dsimp only
    unfold awaitTftp
    rw [ok_bind, hnot]
    rfl

/-- **What is taken** is a datagram for this port, when every frame is foreign or carries a datagram
of some kind. -/
theorem awaitReply_awaitTftp {P : Datagram → Prop} (hclient : s.clientIp = client)
    (hframes : ∀ f, Poll.frame f ∈ polls → Foreign client f ∨ ∃ d, Carries f d ∧ P d) {taken : Bool}
    (h : awaitReply (awaitTftp port) false polls s = .ok (taken, s', rest)) :
    Kept s s' ∧ rest <:+ polls ∧ (taken = true →
      ∃ d, P d ∧ d.dest = client ∧ d.destsock = port ∧ Brought s'.packet d) := by
  obtain ⟨hrule, hsuffix⟩ := awaitReply_rule (Kept s)
    (fun s' => Kept s s' ∧ ∃ d, P d ∧ d.dest = client ∧ d.destsock = port ∧ Brought s'.packet d)
    (fun f => Poll.frame f ∈ polls)
    (fun hI _ hinspect => (hI.trans (Kept.load _ _)).trans (inspect_kept hinspect))
    (by
      intro s₁ f s₂ a taken₁ s₃ hI hf hinspect hreply
      have hload := hI.trans (Kept.load s₁ f)
      have hkept := hload.trans (inspect_kept hinspect)
      obtain ⟨htaken, rfl⟩ := Prod.mk.inj (Except.ok.inj hreply)
      cases taken₁ with
      | false => exact hkept.trans (answerArp_kept _ _)
      | true =>
        obtain ⟨hudp, hdest, hport⟩ := of_decide_eq_true htaken
        have hclient₂ : ipDest s₂.packet ethHlen = client := by
          rw [← hdest, hkept.clientIp, hclient]
        refine ⟨hkept, ?_⟩
        rcases hframes f hf with hforeign | ⟨d, hd, hP⟩
        · obtain ⟨s₄, a', hinspect', hno⟩ := hforeign s₁ (hI.clientIp.trans hclient)
          rw [hinspect] at hinspect'
          cases hinspect'
          exact absurd hclient₂ (hno a rfl hudp)
        · obtain ⟨s₄, hinspect', hbrought⟩ := hd s₁
          rw [hinspect] at hinspect'
          cases hinspect'
          exact ⟨d, hP, hbrought.dest.symm.trans hclient₂, hbrought.destsock.symm.trans hport,
            hbrought⟩)
    (Kept.refl s) (fun _ hf => hf) h
  cases taken with
  | true => exact ⟨hrule.1, hsuffix, fun _ => hrule.2⟩
  | false => exact ⟨hrule, hsuffix, fun h => absurd h Bool.false_ne_true⟩

end AwaitTftp

end MbBootTv
