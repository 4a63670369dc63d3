import MbBootTv.Boot.ConfigMeaning

/-!
# Disk boot and network boot (`diskboot.c`, `netboot.c`)

`diskboot` and `dhcp_callback` are two copies of one procedure. `bootOutcome` is what either does
with a configuration that has been read; they differ in the first value of `ramdisk_buf`, which is
`NULL` in the one and uninitialised in the other.

The text of the configuration is followed by the byte that the terminator overwrites.
-/

namespace MbBootTv

/-- What a pointer to a block points to; nothing when it is `NULL`. -/
abbrev Pointer := Option Bytes

/-- What a loader makes of a file name: the block and `*size`, or `NULL`. -/
abbrev Loader := List UInt8 → Option (Bytes × Int)

/-- The arguments of `boot_kernel`. -/
structure BootCall where
  kernel : Bytes
  kernelLen : Int
  ramdisk : Pointer
  ramdiskLen : Int
  options : List UInt8

/-- What `diskboot` and `dhcp_callback` do. -/
inductive Outcome
  | returned
  | networkBoot
  | booted (call : BootCall)

/-- The locals that hold what they find when they are not initialised. -/
structure Uninit where
  ramdiskBuf : Pointer
  ramdiskLen : Int

/-! ## The two procedures -/

/-- `diskboot` -/
def diskboot (diskReadFile : Loader) (config : Bytes) (len : Nat) (allowedTrynetwork : Bool)
    (u : Uninit) : Except Fault Outcome := do
  let (_, p) ← parseConfig config (len + 1) len (.fresh (some 0) none)
  if allowedTrynetwork && p.tryNetBoot ≠ some 0 then return .networkBoot
  if p.kernel 0 = 0 then return .returned
  match diskReadFile (cString p.kernel optionSize) with
  | none => return .returned
  | some (kernel, kernelLen) =>
    let options := cString p.options optionSize
    if p.ramdisk 0 ≠ 0 then
      match diskReadFile (cString p.ramdisk optionSize) with
      | none => return .returned
      | some (ramdisk, ramdiskLen) =>
        return .booted ⟨kernel, kernelLen, some ramdisk, ramdiskLen, options⟩
    else return .booted ⟨kernel, kernelLen, none, u.ramdiskLen, options⟩

/-- `dhcp_callback`, with the configuration that it has loaded. -/
def dhcpCallback (networkLoadFile : Loader) (config : Pointer) (len : Int) (u : Uninit) :
    Except Fault Outcome :=
  match config with
  | none => .ok .returned
  | some config =>
    if len < 0 then .ok .returned
    else do
      let (_, p) ← parseConfig config (len.toNat + 1) len.toNat (.fresh none (some 0))
      if p.forceDiskBoot ≠ some 0 then return .returned
      if p.kernel 0 = 0 then return .returned
      match networkLoadFile (cString p.kernel optionSize) with
      | none => return .returned
      | some (kernel, kernelLen) =>
        let options := cString p.options optionSize
        if p.ramdisk 0 ≠ 0 then
          match networkLoadFile (cString p.ramdisk optionSize) with
          | none => return .returned
          | some (ramdisk, ramdiskLen) =>
            return .booted ⟨kernel, kernelLen, some ramdisk, ramdiskLen, options⟩
        else return .booted ⟨kernel, kernelLen, u.ramdiskBuf, u.ramdiskLen, options⟩

/-! ## What they do with a configuration -/

/-- What is done with a configuration, when `ramdisk_buf` and `ramdisk_len` start as in `u`. -/
def bootOutcome (load : Loader) (c : Config) (u : Uninit) : Outcome :=
  if c.kernel = [] then .returned
  else
    match load c.kernel with
    | none => .returned
    | some (kernel, kernelLen) =>
      if c.ramdisk = [] then .booted ⟨kernel, kernelLen, u.ramdiskBuf, u.ramdiskLen, c.options⟩
      else
        match load c.ramdisk with
        | none => .returned
        | some (ramdisk, ramdiskLen) =>
          .booted ⟨kernel, kernelLen, some ramdisk, ramdiskLen, c.options⟩

theorem countWord_eq_zero {m : List UInt8} {ls : List (List UInt8)}
    (h : ∀ l ∈ ls, ¬ m <+: l) : countWord m ls = 0 :=
  List.countP_eq_zero.mpr fun l hl => by simpa using h l hl

section Outcome

variable {config : Bytes} {text : List UInt8}

/-- The part that the two procedures share. -/
theorem bootOutcome_of_parsed (load : Loader) {p : Parsed} {c : Config} (h : p.config = c)
    (u : Uninit) :
    (.ok (bootOutcome load c u) : Except Fault Outcome) =
      if p.kernel 0 = 0 then .ok .returned
      else match load (cString p.kernel optionSize) with
        | none => .ok .returned
        | some (kernel, kernelLen) =>
          if p.ramdisk 0 ≠ 0 then match load (cString p.ramdisk optionSize) with
            | none => .ok .returned
            | some (ramdisk, ramdiskLen) => .ok <| .booted
              ⟨kernel, kernelLen, some ramdisk, ramdiskLen, cString p.options optionSize⟩
          else .ok <| .booted
            ⟨kernel, kernelLen, u.ramdiskBuf, u.ramdiskLen, cString p.options optionSize⟩ := by
  subst h
  have hkernel : p.config.kernel = cString p.kernel optionSize := by rw [Parsed.config]
  have hramdisk : p.config.ramdisk = cString p.ramdisk optionSize := by rw [Parsed.config]
  have hoptions : p.config.options = cString p.options optionSize := by rw [Parsed.config]
  unfold bootOutcome
  rw [hkernel, hramdisk, hoptions]
  have hk : cString p.kernel optionSize = [] ↔ p.kernel 0 = 0 := cString_eq_nil_iff (by decide)
  have hr : cString p.ramdisk optionSize = [] ↔ p.ramdisk 0 = 0 := cString_eq_nil_iff (by decide)
  by_cases h0 : p.kernel 0 = 0
  · rw [if_pos (hk.mpr h0), if_pos h0]
  · rw [if_neg (mt hk.mp h0), if_neg h0]
    cases load (cString p.kernel optionSize) with
    | none => rfl
    | some k =>
      by_cases h1 : p.ramdisk 0 = 0
      · simp only [if_pos (hr.mpr h1), if_neg (not_not.mpr h1)]
      · simp only [if_neg (mt hr.mp h1), if_pos h1]
        cases load (cString p.ramdisk optionSize) with
        | none => rfl
        | some r => rfl

/-- **Disk boot**, from a text that does not ask for a network boot. -/
theorem diskboot_eq (htext : config.slice 0 text.length = text)
    (hno : ∀ l ∈ lines text, ¬ ascii "try-net-boot" <+: l) (load : Loader) (allowed : Bool)
    (u : Uninit) :
    ((∀ l ∈ lines text, l.length ≤ 1014) ∧ diskboot load config text.length allowed u =
        .ok (bootOutcome load (textConfig text (some 0) none) { u with ramdiskBuf := none })) ∨
      (¬ ∀ l ∈ lines text, l.length ≤ 1014) ∧
        diskboot load config text.length allowed u = .error .overrun := by
  unfold diskboot
  rcases parseConfig_cases htext (Nat.lt_succ_self _) (some 0) none with ⟨hall, b, p, hrun, hconfig⟩ | ⟨hnot, hrun⟩
  · refine Or.inl ⟨hall, ?_⟩
    have hcount : p.tryNetBoot = some 0 := by
      have : p.tryNetBoot = (textConfig text (some 0) none).tryNetBoot := by
        rw [← hconfig, Parsed.config]
      rw [this, textConfig, configOf, countWord_eq_zero hno]
      rfl
    rw [hrun, ok_bind, bootOutcome_of_parsed load hconfig]
    simp only [hcount, ne_eq, not_true_eq_false, decide_false, Bool.and_false,
      if_neg Bool.false_ne_true, pure_eq_ok]
  · exact Or.inr ⟨hnot, by rw [hrun, error_bind]⟩

/-- **Network boot**, from a text that does not force a disk boot. -/
theorem dhcpCallback_eq (htext : config.slice 0 text.length = text)
    (hno : ∀ l ∈ lines text, ¬ ascii "force-disk-boot" <+: l) (load : Loader) (u : Uninit) :
    ((∀ l ∈ lines text, l.length ≤ 1014) ∧ dhcpCallback load (some config) text.length u =
        .ok (bootOutcome load (textConfig text none (some 0)) u)) ∨
      (¬ ∀ l ∈ lines text, l.length ≤ 1014) ∧
        dhcpCallback load (some config) text.length u = .error .overrun := by
  unfold dhcpCallback
  simp only [Int.toNat_natCast, if_neg (Int.not_lt.mpr (Int.natCast_nonneg _))]
  rcases parseConfig_cases htext (Nat.lt_succ_self _) none (some 0) with ⟨hall, b, p, hrun, hconfig⟩ | ⟨hnot, hrun⟩
  · refine Or.inl ⟨hall, ?_⟩
    have hcount : p.forceDiskBoot = some 0 := by
      have : p.forceDiskBoot = (textConfig text none (some 0)).forceDiskBoot := by
        rw [← hconfig, Parsed.config]
      rw [this, textConfig, configOf, countWord_eq_zero hno]
      rfl
    rw [hrun, ok_bind, bootOutcome_of_parsed load hconfig]
    simp only [hcount, ne_eq, not_true_eq_false, if_false, pure_eq_ok]
  · exact Or.inr ⟨hnot, by rw [hrun, error_bind]⟩

end Outcome

/-! ## Agreement -/

/-- Both return, or both boot with the same kernel and options and the ramdisk that the
configuration names, and without a ramdisk when it names none. -/
def Agree (c : Config) (disk network : Except Fault Outcome) : Prop :=
  disk = .ok .returned ∧ network = .ok .returned ∨
    ∃ call call', disk = .ok (.booted call) ∧ network = .ok (.booted call') ∧
      call.kernel = call'.kernel ∧ call.kernelLen = call'.kernelLen ∧
      call.options = call'.options ∧
      (c.ramdisk ≠ [] ∧ call.ramdisk ≠ none ∧ call.ramdisk = call'.ramdisk ∧
          call.ramdiskLen = call'.ramdiskLen ∨
        c.ramdisk = [] ∧ call.ramdisk = none ∧ call'.ramdisk = none)

/-- The outcomes agree when what the pointer is initialised to does not matter, or is `NULL`. -/
theorem bootOutcome_agree_iff (load : Loader) (c : Config) (len : Int) (u : Uninit) :
    Agree c (.ok (bootOutcome load c ⟨none, len⟩)) (.ok (bootOutcome load c u)) ↔
      c.kernel = [] ∨ load c.kernel = none ∨ c.ramdisk ≠ [] ∨ u.ramdiskBuf = none := by
  unfold bootOutcome
  by_cases hk : c.kernel = []
  · rw [if_pos hk, if_pos hk]
    exact iff_of_true (Or.inl ⟨rfl, rfl⟩) (Or.inl hk)
  rw [if_neg hk, if_neg hk]
  rcases hload : load c.kernel with _ | ⟨kernel, kernelLen⟩
  · exact iff_of_true (Or.inl ⟨rfl, rfl⟩) (Or.inr (Or.inl rfl))
  by_cases hr : c.ramdisk = []
  · dsimp only
    rw [if_pos hr, if_pos hr]
    constructor
    · rintro (⟨h, -⟩ | ⟨call, call', hcall, hcall', -, -, -, ⟨hne, -⟩ | ⟨-, -, hnull⟩⟩)
      · cases h
      · exact absurd hr hne
      · cases hcall'
        exact Or.inr (Or.inr (Or.inr hnull))
    · rintro (h | h | h | h)
      · exact absurd h hk
      · cases h
      · exact absurd hr h
      · exact Or.inr ⟨_, _, rfl, rfl, rfl, rfl, rfl, Or.inr ⟨hr, rfl, h⟩⟩
  · dsimp only
    rw [if_neg hr, if_neg hr]
    refine iff_of_true ?_ (Or.inr (Or.inr (Or.inl hr)))
    rcases load c.ramdisk with _ | ⟨ramdisk, ramdiskLen⟩
    · exact Or.inl ⟨rfl, rfl⟩
    · exact Or.inr ⟨_, _, rfl, rfl, rfl, rfl, rfl, Or.inl ⟨hr, Option.some_ne_none _, rfl, rfl⟩⟩

/-- **The two agree** exactly when no line is longer than 1014 bytes, and nothing is booted, or a
ramdisk is named, or the uninitialised pointer of `dhcp_callback` is `NULL`. -/
theorem diskboot_agree_iff (load : Loader) (text : List UInt8) (config config' : Bytes)
    (allowed : Bool) (u u' : Uninit)
    (htext : config.slice 0 text.length = text) (htext' : config'.slice 0 text.length = text)
    (htry : ∀ l ∈ lines text, ¬ ascii "try-net-boot" <+: l)
    (hforce : ∀ l ∈ lines text, ¬ ascii "force-disk-boot" <+: l) :
    Agree (textConfig text none none) (diskboot load config text.length allowed u)
        (dhcpCallback load (some config') text.length u') ↔
      (∀ l ∈ lines text, l.length ≤ 1014) ∧
        ((textConfig text none none).kernel = [] ∨
          load (textConfig text none none).kernel = none ∨
          (textConfig text none none).ramdisk ≠ [] ∨ u'.ramdiskBuf = none) := by
  have hsame : ∀ (t f : Option Nat) (v : Uninit), bootOutcome load (textConfig text t f) v =
      bootOutcome load (textConfig text none none) v := fun _ _ _ => rfl
  rcases diskboot_eq htext htry load allowed u with ⟨hall, hdisk⟩ | ⟨hnot, hdisk⟩
  · rcases dhcpCallback_eq htext' hforce load u' with ⟨-, hnet⟩ | ⟨hnot, -⟩
    · rw [hdisk, hnet, hsame, hsame none (some 0)]
      exact (bootOutcome_agree_iff load _ _ _).trans (and_iff_right hall).symm
    · exact absurd hall hnot
  · rw [hdisk]
    refine iff_of_false ?_ fun h => hnot h.1
    rintro (⟨h, -⟩ | ⟨call, call', h, -⟩) <;> cases h

/-! ## A configuration without a ramdisk -/

/-- It names a kernel only. -/
def kernelText : List UInt8 := ascii "kernel /k"

/-- The text in memory. -/
def kernelConfig : Bytes := fun i => kernelText.getD i 0

/-- Only the kernel can be loaded. -/
def kernelLoader : Loader := fun name =>
  if name = ascii "/k" then some (fun _ => 0, 1024) else none

/-- The uninitialised pointer is not `NULL`. -/
def stray : Uninit := ⟨some fun _ => 0, 0⟩

theorem diskboot_agree_iff_kernelText :
    Agree (textConfig kernelText none none)
      (diskboot kernelLoader kernelConfig kernelText.length true stray)
      (dhcpCallback kernelLoader (some kernelConfig) kernelText.length ⟨none, 0⟩) :=
  (diskboot_agree_iff kernelLoader kernelText kernelConfig kernelConfig true stray ⟨none, 0⟩
    (by decide) (by decide +kernel) (by decide +kernel) (by decide +kernel)).mpr
      ⟨by decide, Or.inr (Or.inr (Or.inr rfl))⟩

/-- Both boot, the one without a ramdisk, and the other with whatever the pointer points to. -/
theorem not_agree_stray :
    (∀ l ∈ lines kernelText, ¬ ascii "try-net-boot" <+: l ∧ ¬ ascii "force-disk-boot" <+: l) ∧
      kernelConfig.slice 0 kernelText.length = kernelText ∧
      (∃ call call', diskboot kernelLoader kernelConfig kernelText.length true stray =
          .ok (.booted call) ∧ call.ramdisk = none ∧
        dhcpCallback kernelLoader (some kernelConfig) kernelText.length stray =
          .ok (.booted call') ∧ call'.ramdisk ≠ none) ∧
      ¬ Agree (textConfig kernelText none none)
        (diskboot kernelLoader kernelConfig kernelText.length true stray)
        (dhcpCallback kernelLoader (some kernelConfig) kernelText.length stray) := by
  have hdisk : holds (diskboot kernelLoader kernelConfig kernelText.length true stray)
      (fun | .booted call => call.ramdisk.isNone | _ => false) = true := by decide +kernel
  have hnet : holds (dhcpCallback kernelLoader (some kernelConfig) kernelText.length stray)
      (fun | .booted call => call.ramdisk.isSome | _ => false) = true := by decide +kernel
  obtain ⟨o, hd, ho⟩ := holds_iff.mp hdisk
  obtain ⟨o', hn, ho'⟩ := holds_iff.mp hnet
  match o, o', ho, ho' with
  | .booted call, .booted call', ho, ho' =>
    have hnone : call.ramdisk = none := Option.isNone_iff_eq_none.mp ho
    have hsome : call'.ramdisk ≠ none := Option.isSome_iff_ne_none.mp ho'
    refine ⟨by decide, by decide,
      ⟨call, call', hd, hnone, hn, hsome⟩, ?_⟩
    rw [hd, hn]
    rintro (⟨h, -⟩ | ⟨k, k', hk, hk', -, -, -, ⟨-, hne, -⟩ | ⟨-, -, hnull⟩⟩)
    · cases h
    · cases hk
      exact hne hnone
    · cases hk'
      exact hsome hnull

end MbBootTv
