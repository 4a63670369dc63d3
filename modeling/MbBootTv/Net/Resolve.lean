import MbBootTv.Net.Datagram

/-!
# A server that can be reached

When the hardware address of the next hop is not known, `ip_transmit` asks for it before the datagram
leaves, up to 20 times. `Resolving` says which polls come in between, and `Leaves` after which polls a
datagram is on its way.
-/

namespace MbBootTv

/-! ## The reply -/

section Reply

variable {client ip : UInt32} {ival : Fin 3} {polls : List Poll} {s : Net} {f : EthFrame}
  {node : Node}

/-- The reply is taken, whatever is in the buffer. -/
theorem awaitReply_arpReply (ival : Fin 3) (polls : List Poll) (s : Net) (h : ArpReply f ip node) :
    ∃ s', awaitReply (awaitArp ival ip) false (.frame f :: polls) s = .ok (true, s', polls) ∧
      Resolved ival node s s' := by
  have hlen := h.length_ge
  have hload : ∀ i, i < 42 → (s.load f).packet i = pieceAt f.bytes i :=
    fun i hi => load_of_lt s f (by omega)
  have hptype : etherType (s.load f).packet = ethPArp := by
    rw [etherType, hload 12 (by decide), hload 13 (by decide)]
    exact h.ptype
  have hinspect : inspect (s.load f) = .ok (s.load f, some ⟨ethPArp, false, false⟩) := by
    have hlength : (s.load f).packetlen = f.bytes.length := rfl
    have hhlen : ethHlen = 14 := rfl
    unfold inspect
    rw [if_neg (by omega)]
    unfold etherType at hptype
    dsimp only
    rw [hptype, if_neg fun hip => absurd hip.1 (by decide)]
  have hopcode : (s.load f).packet.le16 20 = htons 2 :=
    (Bytes.le16_congr fun i hi => hload _ (by omega)).trans h.opcode
  have hsipaddr : (s.load f).packet.le32 28 = ip :=
    (Bytes.le32_congr fun i hi => hload _ (by omega)).trans h.sipaddr
  have hshwaddr : nodeAt (s.load f).packet 22 = node :=
    (funext fun i => hload _ (by omega)).trans h.shwaddr
  let entry : ArpEntry := { s.arptable ival with node }
  refine ⟨{ s.load f with arptable := Function.update s.arptable ival entry }, ?_, rfl, rfl, rfl⟩
  rw [awaitReply, hinspect, ok_bind]
  have hshort : ¬((⟨ethPArp, false, false⟩ : Arrived).ptype ≠ ethPArp ∨
      (s.load f).packetlen < ethHlen + 28) := by
    rintro (hne | hlt)
    · exact hne rfl
    · exact absurd hlen (Nat.not_le.mpr hlt)
  dsimp only
  unfold awaitArp
  rw [if_neg hshort, if_neg (by rw [hopcode, hsipaddr]; simp), hshwaddr]
  rfl

/-- A frame that is nothing to somebody who waits for the address `ip`. -/
def NoReply (client ip : UInt32) (f : EthFrame) : Prop :=
  (Foreign client f ∨ ∃ d, Carries f d) ∧ ∀ node, ¬ArpReply f ip node

theorem awaitReply_noReply (ival : Fin 3) (polls : List Poll) (hf : NoReply client ip f)
    (hclient : s.clientIp = client) :
    ∃ s₁, Kept s s₁ ∧ awaitReply (awaitArp ival ip) false (.frame f :: polls) s =
      awaitReply (awaitArp ival ip) false polls s₁ := by
  obtain ⟨hframe, hno⟩ := hf
  have hinspect : ∃ s₁ a, inspect (s.load f) = .ok (s₁, a) := by
    rcases hframe with hforeign | ⟨d, hd⟩
    · obtain ⟨s₁, a, h, -⟩ := hforeign s hclient
      exact ⟨s₁, a, h⟩
    · obtain ⟨s₁, h, -⟩ := hd s
      exact ⟨s₁, _, h⟩
  obtain ⟨s₁, a, hinspect⟩ := hinspect
  have hkept : Kept s s₁ := (Kept.load s f).trans (inspect_kept hinspect)
  rw [awaitReply, hinspect, ok_bind]
  cases a with
  | none => exact ⟨s₁, hkept, rfl⟩
  | some a =>
    obtain ⟨⟨taken, s₂⟩, hreply⟩ : ∃ r, awaitArp ival ip s₁ a = .ok r := ⟨_, rfl⟩
    cases taken with
    | true =>
      obtain ⟨node, hreply, -⟩ := awaitArp_taken hinspect hreply
      exact absurd hreply (hno node)
    | false =>
      rw [awaitArp_not_taken hreply] at hreply
      refine ⟨answerArp s₁ a, hkept.trans (answerArp_kept s₁ a), ?_⟩
      dsimp only
      rw [hreply]
      rfl

end Reply

/-! ## The retries -/

/-- The polls that bring a reply from `ip` to one of the next `n` requests, and those behind them. -/
inductive Resolving (client ip : UInt32) (rest : List Poll) : Nat → List Poll → Prop
  | found {n : Nat} {f : EthFrame} {node : Node} : ArpReply f ip node → (∃ j, node j ≠ 0) →
      Resolving client ip rest (n + 1) (.frame f :: rest)
  | quiet {n : Nat} {polls : List Poll} : Resolving client ip rest (n + 1) polls →
      Resolving client ip rest (n + 1) (.empty false :: polls)
  | other {n : Nat} {f : EthFrame} {polls : List Poll} : NoReply client ip f →
      Resolving client ip rest (n + 1) polls → Resolving client ip rest (n + 1) (.frame f :: polls)
  | late {n : Nat} {polls : List Poll} : Resolving client ip rest n polls →
      Resolving client ip rest (n + 1) (.empty true :: polls)

section Retries

variable {client ip : UInt32} {n : Nat} {polls rest : List Poll} {s : Net}

theorem Resolving.suffix (h : Resolving client ip rest n polls) : rest <:+ polls := by
  induction h with
  | found => exact List.suffix_cons _ _
  | quiet _ ih => exact ih.trans (List.suffix_cons _ _)
  | other _ _ ih => exact ih.trans (List.suffix_cons _ _)
  | late _ ih => exact ih.trans (List.suffix_cons _ _)

/-- Behind a request, with `n` more of them to go. -/
def arpWait (ival : Fin 3) (ip : UInt32) (n : Nat) (polls : List Poll) (s : Net) :
    Except Fault (Bool × Net × List Poll) := do
  let (found, s, polls) ← awaitReply (awaitArp ival ip) false polls s
  if found then return (true, s, polls) else arpRetries ival ip n polls s

theorem arpWait_skip {ival : Fin 3} {s₁ : Net} {p : Poll}
    (h : awaitReply (awaitArp ival ip) false (p :: polls) s =
      awaitReply (awaitArp ival ip) false polls s₁) :
    arpWait ival ip n (p :: polls) s = arpWait ival ip n polls s₁ := by
  rw [arpWait, arpWait, h]

theorem arpWait_resolving (ival : Fin 3) (h : Resolving client ip rest n polls)
    (hclient : s.clientIp = client) :
    ∃ node s', arpWait ival ip (n - 1) polls s = .ok (true, s', rest) ∧ Resolved ival node s s' ∧
      ∃ j, node j ≠ 0 := by
  induction h generalizing s with
  | @found n f node harp hnode =>
    obtain ⟨s', hawait, hresolved⟩ := awaitReply_arpReply ival rest s harp
    refine ⟨node, s', ?_, hresolved, hnode⟩
    rw [arpWait, hawait]
    rfl
  | @quiet n polls _ ih =>
    rw [arpWait_skip (rfl : awaitReply _ false (.empty false :: polls) s =
      awaitReply _ false polls s)]
    exact ih hclient
  | @other n f polls hno _ ih =>
    obtain ⟨s₁, hkept, hskip⟩ := awaitReply_noReply ival polls hno hclient
    rw [arpWait_skip hskip]
    obtain ⟨node, s', hwait, hresolved, hnode⟩ := ih (hkept.clientIp.trans hclient)
    exact ⟨node, s', hwait, hresolved.of_kept hkept, hnode⟩
  | @late n polls hrest ih =>
    have hkept : Kept s (s.ethTransmit broadcastNode ethPArp (arpRequest s ip)) :=
      Kept.ethTransmit s _ (by decide) _
    obtain ⟨node, s', hwait, hresolved, hnode⟩ :=
      ih (s := s.ethTransmit broadcastNode ethPArp (arpRequest s ip)) hclient
    refine ⟨node, s', ?_, hresolved.of_kept hkept, hnode⟩
    cases n with
    | zero => cases hrest
    | succ n => exact hwait

/-- **An address that is asked for** is found, when the reply comes in time. -/
theorem arpRetries_resolving (ival : Fin 3) (h : Resolving client ip rest n polls)
    (hclient : s.clientIp = client) :
    ∃ node s', arpRetries ival ip n polls s = .ok (true, s', rest) ∧ Resolved ival node s s' ∧
      ∃ j, node j ≠ 0 := by
  have hkept : Kept s (s.ethTransmit broadcastNode ethPArp (arpRequest s ip)) :=
    Kept.ethTransmit s _ (by decide) _
  obtain ⟨node, s', hwait, hresolved, hnode⟩ := arpWait_resolving ival h
    (s := s.ethTransmit broadcastNode ethPArp (arpRequest s ip)) hclient
  refine ⟨node, s', ?_, hresolved.of_kept hkept, hnode⟩
  cases n with
  | zero => cases h
  | succ n => exact hwait

end Retries

/-! ## The datagram -/

/-- A datagram for `destip` leaves when these polls have come, and `rest` is left of them. -/
def Leaves (s : Net) (destip : UInt32) (polls rest : List Poll) : Prop :=
  RoutedTo s destip ∧ rest = polls ∨
    ∃ i, destip ≠ ipBroadcast ∧ findArp s (nextHop s destip) = some i ∧
      (∀ j, (s.arptable i).node j = 0) ∧
        Resolving s.clientIp (nextHop s destip) rest maxArpRetries polls

section Leaves

variable {s s' : Net} {destip : UInt32} {polls rest : List Poll}

theorem Leaves.of_routedTo (polls : List Poll) (h : RoutedTo s destip) :
    Leaves s destip polls polls := Or.inl ⟨h, rfl⟩

theorem Leaves.suffix (h : Leaves s destip polls rest) : rest <:+ polls := by
  rcases h with ⟨-, rfl⟩ | ⟨i, -, -, -, hresolving⟩
  · exact List.suffix_rfl
  · exact hresolving.suffix

theorem Leaves.of_kept (h : Leaves s destip polls rest) (hkept : Kept s s') :
    Leaves s' destip polls rest := by
  have hhop : nextHop s' destip = nextHop s destip := by
    rw [nextHop, nextHop, Net.clientIp, Net.clientIp, hkept.arptable, hkept.netmask]
  rcases h with ⟨hrouted, rfl⟩ | ⟨i, hbroadcast, hfind, hnode, hresolving⟩
  · exact .of_routedTo _ (hrouted.of_kept hkept)
  · refine Or.inr ⟨i, hbroadcast, ?_, by rwa [hkept.arptable], by rwa [hhop, hkept.clientIp]⟩
    unfold findArp at hfind ⊢
    rwa [hhop, hkept.arptable]

/-- **A datagram on such polls** leaves, and then the route is known. -/
theorem ipTransmit_of_leaves {buf : Bytes} (len : Nat) (h : Leaves s (ipDest buf 0) polls rest) :
    ∃ s', ipTransmit len buf polls s = .ok (true, s', rest) ∧ RoutedTo s' (ipDest buf 0) := by
  rcases h with ⟨hrouted, rfl⟩ | ⟨i, hbroadcast, hfind, hunknown, hresolving⟩
  · obtain ⟨node, hnode⟩ := ipTransmit_of_routedTo len rest hrouted
    exact ⟨_, hnode, hrouted.of_eq rfl rfl⟩
  · obtain ⟨node, s₁, hretries, hresolved, hnode⟩ := arpRetries_resolving i hresolving rfl
    have hrouted : RoutedTo s₁ (ipDest buf 0) := by
      refine Or.inr ⟨i, hresolved.findArp.trans hfind, ?_⟩
      rw [hresolved.arptable, Function.update_self]
      exact hnode
    refine ⟨s₁.ethTransmit (s₁.arptable i).node ethPIp (buf.slice 0 len), ?_, hrouted.of_eq rfl rfl⟩
    unfold ipTransmit
    dsimp only
    rw [if_neg hbroadcast, hfind]
    dsimp only
    rw [if_pos hunknown, hretries]
    rfl

end Leaves

end MbBootTv
