import Mathlib.Data.List.Chain
import Mathlib.Data.List.Perm.Subperm
import MbBootTv.Lib.Reach

/-!
# The order of the boot attempts (`main.c`, `diskboot.c`, `netboot.c`)

`do_main`, disk boot and network boot call each other. The machine has the stack of these calls and
the statics that decide what comes next; what a disk, a file system, a file or a configuration
turns out to be is a free choice, and so is what `network_init` does with its two callbacks.

Every call goes from a lower to a higher `rank`, which bounds the stack, and a file system is
mounted or the disk active only under a few program points.
-/

namespace MbBootTv

/-! ## Activations -/

/-- Before and after the one call that a function makes. -/
inductive CallPc
  | start
  | called
  deriving DecidableEq

/-- The program points of `do_main`. -/
inductive MainPc
  | start
  | diskDone
  | networkDone
  deriving DecidableEq

/-- The program points of `try_disk_boot`, with the number of partitions that are left. -/
inductive DiskPc
  | opening
  | finding
  | loop (left : Nat)
  | config (left : Nat)
  | booted
  | closing
  deriving DecidableEq

/-- An activation of a function. -/
inductive Frame
  | doMain (pc : MainPc)
  | tryDiskBoot (trynetwork : Bool) (pc : DiskPc)
  | diskboot (allowedTrynetwork : Bool) (pc : CallPc)
  | tryNetworkBoot (pc : CallPc)
  | networkInit
  | dhcpCallback (pc : CallPc)
  | networkBootFailed (pc : CallPc)
  | bootKernel
  | spin
  deriving DecidableEq

/-- The statics. `disk_disable` calls `dev.disable` when it is set; `active` is whether the device
has been brought up and not disabled. -/
structure Globals where
  mounted : Bool
  disable : Bool
  active : Bool
  triedNetworkBoot : Nat

namespace Globals

/-- `disk_disable` -/
def diskDisable (g : Globals) : Globals :=
  { g with disable := false, active := g.active && !g.disable }

/-- `disk_open` clears `disk`, and `dev.disable` with it, before it disables the device. -/
def diskOpenFails (g : Globals) : Globals := diskDisable { g with disable := false }

/-- `disk_open` when the probe finds the drive. -/
def diskOpen (g : Globals) : Globals := { g.diskOpenFails with disable := true, active := true }

/-- `ext2fs_fs_close` -/
def fsClose (g : Globals) : Globals := { g with mounted := false }

/-- Nothing is mounted, and the disk is disabled. -/
def Quiet (g : Globals) : Prop := g.mounted = false ∧ g.active = false

end Globals

/-! ## Steps -/

/-- A step inside the function on top of the stack. -/
inductive LocalStep : Frame → Globals → Frame → Globals → Prop
  | diskOpen (t : Bool) (g : Globals) :
      LocalStep (.tryDiskBoot t .opening) g (.tryDiskBoot t .finding) g.diskOpen
  | partitions (t : Bool) (g : Globals) (n : Nat) :
      LocalStep (.tryDiskBoot t .finding) g (.tryDiskBoot t (.loop n)) g
  /-- `ext2fs_fs_open` finds no superblock. -/
  | noFileSystem (t : Bool) (g : Globals) (n : Nat) :
      LocalStep (.tryDiskBoot t (.loop (n + 1))) g (.tryDiskBoot t (.loop n)) g
  /-- `ext2fs_init_state` fails. -/
  | initFails (t : Bool) (g : Globals) (n : Nat) :
      LocalStep (.tryDiskBoot t (.loop (n + 1))) g (.tryDiskBoot t (.loop n)) g.fsClose
  | mount (t : Bool) (g : Globals) (n : Nat) :
      LocalStep (.tryDiskBoot t (.loop (n + 1))) g (.tryDiskBoot t (.config n))
        { g with mounted := true }
  | noConfig (t : Bool) (g : Globals) (n : Nat) :
      LocalStep (.tryDiskBoot t (.config n)) g (.tryDiskBoot t (.loop n)) g.fsClose
  | noneLeft (t : Bool) (g : Globals) :
      LocalStep (.tryDiskBoot t (.loop 0)) g (.tryDiskBoot t .closing) g
  | afterBoot (t : Bool) (g : Globals) :
      LocalStep (.tryDiskBoot t .booted) g (.tryDiskBoot t .closing) g.fsClose
  /-- `for (;;);` -/
  | spin (g : Globals) : LocalStep .spin g .spin g

/-- A call: the caller, where it goes on, and the function that is entered. -/
inductive CallStep : Frame → Globals → Frame → Frame → Globals → Prop
  | disk (g : Globals) :
      CallStep (.doMain .start) g (.doMain .diskDone) (.tryDiskBoot true .opening) g
  | network (g : Globals) :
      CallStep (.doMain .diskDone) g (.doMain .networkDone) (.tryNetworkBoot .start) g
  | giveUp (g : Globals) : CallStep (.doMain .networkDone) g (.doMain .networkDone) .spin g
  | config (t : Bool) (g : Globals) (n : Nat) :
      CallStep (.tryDiskBoot t (.config n)) g (.tryDiskBoot t .booted) (.diskboot t .start) g
  /-- `allowed_trynetwork && trynetboot` -/
  | tryNetBoot (g : Globals) :
      CallStep (.diskboot true .start) g (.diskboot true .called) (.tryNetworkBoot .start)
        g.fsClose.diskDisable
  | loaded (t : Bool) (g : Globals) :
      CallStep (.diskboot t .start) g (.diskboot t .called) .bootKernel g.fsClose.diskDisable
  | triedAlready (g : Globals) (h : g.triedNetworkBoot ≠ 0) :
      CallStep (.tryNetworkBoot .start) g (.tryNetworkBoot .called) .spin g
  | firstTry (g : Globals) (h : g.triedNetworkBoot = 0) :
      CallStep (.tryNetworkBoot .start) g (.tryNetworkBoot .called) .networkInit
        { g with triedNetworkBoot := g.triedNetworkBoot + 1 }
  | dhcp (g : Globals) : CallStep .networkInit g .networkInit (.dhcpCallback .start) g
  | failed (g : Globals) : CallStep .networkInit g .networkInit (.networkBootFailed .start) g
  | netLoaded (g : Globals) :
      CallStep (.dhcpCallback .start) g (.dhcpCallback .called) .bootKernel g
  | diskAgain (g : Globals) :
      CallStep (.networkBootFailed .start) g (.networkBootFailed .called)
        (.tryDiskBoot false .opening) g

/-- A return. -/
inductive ReturnStep : Frame → Globals → Globals → Prop
  | noDisk (t : Bool) (g : Globals) : ReturnStep (.tryDiskBoot t .opening) g g.diskOpenFails
  | noPartitions (t : Bool) (g : Globals) : ReturnStep (.tryDiskBoot t .finding) g g.diskDisable
  | diskClose (t : Bool) (g : Globals) : ReturnStep (.tryDiskBoot t .closing) g g.diskDisable
  | diskboot (t : Bool) (pc : CallPc) (g : Globals) : ReturnStep (.diskboot t pc) g g
  | tryNetworkBoot (g : Globals) : ReturnStep (.tryNetworkBoot .called) g g
  | networkInit (g : Globals) : ReturnStep .networkInit g g
  | dhcpCallback (pc : CallPc) (g : Globals) : ReturnStep (.dhcpCallback pc) g g
  | networkBootFailed (g : Globals) : ReturnStep (.networkBootFailed .called) g g
  /-- Not a kernel image. -/
  | bootKernel (g : Globals) : ReturnStep .bootKernel g g

/-- The stack, its top first, the statics, and how often `network_init` has been entered. -/
structure Machine where
  stack : List Frame
  globals : Globals
  networkInits : Nat

/-- `do_main` is entered. -/
def Machine.start : Machine := ⟨[.doMain .start], ⟨false, false, false, 0⟩, 0⟩

/-- A step, with the function that is entered by it. -/
inductive Machine.Step : Machine → Option Frame → Machine → Prop
  | inside {f f' : Frame} {g g' : Globals} (st : List Frame) (n : Nat) (h : LocalStep f g f' g') :
      Machine.Step ⟨f :: st, g, n⟩ none ⟨f' :: st, g', n⟩
  | call {f f' c : Frame} {g g' : Globals} (st : List Frame) (n : Nat)
      (h : CallStep f g f' c g') :
      Machine.Step ⟨f :: st, g, n⟩ (some c)
        ⟨c :: f' :: st, g', if c = .networkInit then n + 1 else n⟩
  | leave {f : Frame} {g g' : Globals} (st : List Frame) (n : Nat) (h : ReturnStep f g g') :
      Machine.Step ⟨f :: st, g, n⟩ none ⟨st, g', n⟩

/-! ## The order of the calls -/

namespace Frame

/-- Every call goes to a higher rank. -/
def rank : Frame → Nat
  | .doMain _ => 0
  | .tryDiskBoot true _ => 1
  | .diskboot true _ => 2
  | .tryNetworkBoot _ => 3
  | .networkInit => 4
  | .dhcpCallback _ => 5
  | .networkBootFailed _ => 5
  | .tryDiskBoot false _ => 6
  | .diskboot false _ => 7
  | .bootKernel => 8
  | .spin => 8

/-- A file system may be mounted here. -/
def MayMount : Frame → Prop
  | .tryDiskBoot _ (.config _) => True
  | .tryDiskBoot _ .booted => True
  | .diskboot _ .start => True
  | _ => False

/-- The disk may be active here. -/
def MayUseDisk : Frame → Prop
  | .tryDiskBoot _ .opening => False
  | .tryDiskBoot _ _ => True
  | .diskboot _ .start => True
  | _ => False

/-- `f` may have been called by `caller`, which goes on where it stands. -/
def CalledBy (f caller : Frame) : Prop :=
  caller.rank < f.rank ∧ ∀ t pc, f = .diskboot t pc → caller = .tryDiskBoot t .booted

/-- What `f` on top of the stack says of the statics. -/
structure Allows (f : Frame) (g : Globals) : Prop where
  mounted : g.mounted = true → f.MayMount
  active : g.active = true → f.MayUseDisk
  disable : g.disable = g.active

theorem Allows.quiet {f : Frame} {g : Globals} (h : f.Allows g) (hm : ¬ f.MayMount)
    (hd : ¬ f.MayUseDisk) : g.Quiet :=
  ⟨eq_false_of_ne_true fun hg => hm (h.mounted hg),
    eq_false_of_ne_true fun hg => hd (h.active hg)⟩

end Frame

namespace Globals

variable {g : Globals}

/-- The statics that allow every frame. -/
theorem Quiet.allows (h : g.Quiet) (hd : g.disable = g.active) (f : Frame) : f.Allows g :=
  ⟨fun hg => absurd (h.1.symm.trans hg) Bool.false_ne_true,
    fun hg => absurd (h.2.symm.trans hg) Bool.false_ne_true, hd⟩

theorem diskDisable_quiet (hm : g.mounted = false) (hd : g.disable = g.active) :
    g.diskDisable.Quiet ∧ g.diskDisable.disable = g.diskDisable.active := by
  unfold diskDisable Quiet
  rw [hd]
  cases g.active <;> simp [hm]

theorem fsClose_diskDisable_quiet (hd : g.disable = g.active) :
    g.fsClose.diskDisable.Quiet ∧ g.fsClose.diskDisable.disable = g.fsClose.diskDisable.active :=
  diskDisable_quiet rfl hd

/-- Nothing is lost when the disk is opened while it is disabled. -/
theorem diskOpenFails_quiet (h : g.Quiet) :
    g.diskOpenFails.Quiet ∧ g.diskOpenFails.disable = g.diskOpenFails.active := by
  obtain ⟨hm, ha⟩ := h
  unfold diskOpenFails diskDisable Quiet
  simp [hm, ha]

end Globals

open MbBootTv.Frame

/-- A step inside a function keeps its rank, and what it allows. -/
theorem LocalStep.allows {f f' : Frame} {g g' : Globals} (h : LocalStep f g f' g')
    (ha : f.Allows g) :
    f'.Allows g' ∧ f'.rank = f.rank ∧ (∀ t pc, f' ≠ .diskboot t pc) ∧
      g'.triedNetworkBoot = g.triedNetworkBoot := by
  cases h with
  | diskOpen t =>
    have hq := ha.quiet id id
    exact ⟨⟨fun hg => absurd (hq.1.symm.trans hg) Bool.false_ne_true, fun _ => trivial, rfl⟩,
      by cases t <;> rfl, nofun, rfl⟩
  | partitions t g n =>
    exact ⟨⟨ha.mounted, fun _ => trivial, ha.disable⟩, by cases t <;> rfl, nofun, rfl⟩
  | noFileSystem t g n =>
    exact ⟨⟨ha.mounted, fun _ => trivial, ha.disable⟩, by cases t <;> rfl, nofun, rfl⟩
  | initFails t g n =>
    exact ⟨⟨nofun, fun _ => trivial, ha.disable⟩, by cases t <;> rfl, nofun, rfl⟩
  | mount t g n =>
    exact ⟨⟨fun _ => trivial, fun _ => trivial, ha.disable⟩, by cases t <;> rfl, nofun, rfl⟩
  | noConfig t g n =>
    exact ⟨⟨nofun, fun _ => trivial, ha.disable⟩, by cases t <;> rfl, nofun, rfl⟩
  | noneLeft t g =>
    exact ⟨⟨ha.mounted, fun _ => trivial, ha.disable⟩, by cases t <;> rfl, nofun, rfl⟩
  | afterBoot t g =>
    exact ⟨⟨nofun, fun _ => trivial, ha.disable⟩, by cases t <;> rfl, nofun, rfl⟩
  | spin g => exact ⟨ha, rfl, nofun, rfl⟩

/-- A call goes to a higher rank, and into `network_init` only once. -/
theorem CallStep.allows {f f' c : Frame} {g g' : Globals} (h : CallStep f g f' c g')
    (ha : f.Allows g) :
    c.Allows g' ∧ f'.rank = f.rank ∧ c.CalledBy f' ∧
      (∀ t pc, f' = .diskboot t pc → ∃ pc', f = .diskboot t pc') ∧
      (c = .networkInit ∧ g.triedNetworkBoot = 0 ∧ g'.triedNetworkBoot = 1 ∨
        c ≠ .networkInit ∧ g'.triedNetworkBoot = g.triedNetworkBoot) := by
  cases h with
  | disk g =>
    exact ⟨(ha.quiet id id).allows ha.disable _, rfl, ⟨by decide, nofun⟩, nofun,
      Or.inr ⟨nofun, rfl⟩⟩
  | network g =>
    exact ⟨(ha.quiet id id).allows ha.disable _, rfl, ⟨by decide, nofun⟩, nofun,
      Or.inr ⟨nofun, rfl⟩⟩
  | giveUp g =>
    exact ⟨(ha.quiet id id).allows ha.disable _, rfl, ⟨by decide, nofun⟩, nofun,
      Or.inr ⟨nofun, rfl⟩⟩
  | config t g n =>
    refine ⟨⟨fun _ => trivial, fun _ => trivial, ha.disable⟩, by cases t <;> rfl, ⟨?_, ?_⟩, nofun,
      Or.inr ⟨nofun, rfl⟩⟩
    · cases t <;> decide
    · rintro t' pc ⟨⟩
      rfl
  | tryNetBoot g =>
    obtain ⟨hq, hd⟩ := Globals.fsClose_diskDisable_quiet ha.disable
    exact ⟨hq.allows hd _, rfl, ⟨by decide, nofun⟩, fun t pc h => by cases h; exact ⟨_, rfl⟩,
      Or.inr ⟨nofun, rfl⟩⟩
  | loaded t g =>
    obtain ⟨hq, hd⟩ := Globals.fsClose_diskDisable_quiet ha.disable
    exact ⟨hq.allows hd _, by cases t <;> rfl, ⟨by cases t <;> decide, nofun⟩,
      fun t pc h => by cases h; exact ⟨_, rfl⟩, Or.inr ⟨nofun, rfl⟩⟩
  | triedAlready g h =>
    exact ⟨(ha.quiet id id).allows ha.disable _, rfl, ⟨by decide, nofun⟩, nofun,
      Or.inr ⟨nofun, rfl⟩⟩
  | firstTry g h =>
    refine ⟨⟨ha.mounted, ha.active, ha.disable⟩, rfl, ⟨by decide, nofun⟩, nofun,
      Or.inl ⟨rfl, h, ?_⟩⟩
    rw [h]
  | dhcp g =>
    exact ⟨(ha.quiet id id).allows ha.disable _, rfl, ⟨by decide, nofun⟩, nofun,
      Or.inr ⟨nofun, rfl⟩⟩
  | failed g =>
    exact ⟨(ha.quiet id id).allows ha.disable _, rfl, ⟨by decide, nofun⟩, nofun,
      Or.inr ⟨nofun, rfl⟩⟩
  | netLoaded g =>
    exact ⟨(ha.quiet id id).allows ha.disable _, rfl, ⟨by decide, nofun⟩, nofun,
      Or.inr ⟨nofun, rfl⟩⟩
  | diskAgain g =>
    exact ⟨(ha.quiet id id).allows ha.disable _, rfl, ⟨by decide, nofun⟩, nofun,
      Or.inr ⟨nofun, rfl⟩⟩

/-- A return leaves what the caller allows. -/
theorem ReturnStep.allows {f caller : Frame} {g g' : Globals} (h : ReturnStep f g g')
    (ha : f.Allows g) (hc : f.CalledBy caller) :
    caller.Allows g' := by
  cases h with
  | noDisk t g =>
    obtain ⟨hq, hd⟩ := Globals.diskOpenFails_quiet (ha.quiet id id)
    exact hq.allows hd _
  | noPartitions t g =>
    obtain ⟨hq, hd⟩ := Globals.diskDisable_quiet (eq_false_of_ne_true ha.mounted) ha.disable
    exact hq.allows hd _
  | diskClose t g =>
    obtain ⟨hq, hd⟩ := Globals.diskDisable_quiet (eq_false_of_ne_true ha.mounted) ha.disable
    exact hq.allows hd _
  | diskboot t pc g =>
    -- The one caller closes everything again.
    obtain rfl := hc.2 t pc rfl
    exact ⟨fun _ => trivial, fun _ => trivial, ha.disable⟩
  | tryNetworkBoot g => exact (ha.quiet id id).allows ha.disable _
  | networkInit g => exact (ha.quiet id id).allows ha.disable _
  | dhcpCallback pc g => exact (ha.quiet id id).allows ha.disable _
  | networkBootFailed g => exact (ha.quiet id id).allows ha.disable _
  | bootKernel g => exact (ha.quiet id id).allows ha.disable _

theorem ReturnStep.tried {f : Frame} {g g' : Globals} (h : ReturnStep f g g') :
    g'.triedNetworkBoot = g.triedNetworkBoot := by
  cases h <;> rfl

/-! ## What every run keeps -/

/-- What holds of the machine in every run. -/
structure Machine.Inv (x : Machine) : Prop where
  calls : x.stack.IsChain Frame.CalledBy
  top : ∀ f ∈ x.stack.head?, f.Allows x.globals
  tried : x.networkInits = x.globals.triedNetworkBoot
  once : x.globals.triedNetworkBoot ≤ 1

theorem Machine.inv_start : Machine.start.Inv where
  calls := List.isChain_singleton _
  top f hf := by
    obtain rfl := Option.some.inj hf
    exact ⟨nofun, nofun, rfl⟩
  tried := rfl
  once := Nat.zero_le _

/-- The frame that a caller becomes is called by the same. -/
theorem Frame.CalledBy.resume {f f' caller : Frame} (h : f.CalledBy caller)
    (hr : f'.rank = f.rank) (hd : ∀ t pc, f' = .diskboot t pc → ∃ pc', f = .diskboot t pc') :
    f'.CalledBy caller :=
  ⟨hr ▸ h.1, fun t pc hf => by
    obtain ⟨pc', hf'⟩ := hd t pc hf
    exact h.2 t pc' hf'⟩

/-- The chain goes on when the frame on top changes, and its caller does not. -/
theorem isChain_resume {f f' : Frame} {st : List Frame} (h : (f :: st).IsChain Frame.CalledBy)
    (hr : f'.rank = f.rank) (hd : ∀ t pc, f' = .diskboot t pc → ∃ pc', f = .diskboot t pc') :
    (f' :: st).IsChain Frame.CalledBy := by
  cases st with
  | nil => exact List.isChain_singleton f'
  | cons caller st =>
    obtain ⟨hf, hst⟩ := List.isChain_cons_cons.mp h
    exact List.isChain_cons_cons.mpr ⟨hf.resume hr hd, hst⟩

/-- **The invariant is kept by every step.** -/
theorem Machine.Inv.step {x y : Machine} {e : Option Frame} (h : x.Inv)
    (hstep : Machine.Step x e y) : y.Inv := by
  obtain ⟨hcalls, htop, htried, honce⟩ := h
  cases hstep with
  | inside st n hl =>
    obtain ⟨ha, hr, hnot, ht⟩ := hl.allows (htop _ rfl)
    refine ⟨isChain_resume hcalls hr fun t pc hf => absurd hf (hnot t pc), ?_, ?_, ?_⟩
    · intro f hf
      obtain rfl := Option.some.inj hf
      exact ha
    · exact htried.trans ht.symm
    · exact ht.trans_le honce
  | call st n hc =>
    obtain ⟨ha, hr, hcalled, hd, hcount⟩ := hc.allows (htop _ rfl)
    refine ⟨List.isChain_cons_cons.mpr ⟨hcalled, isChain_resume hcalls hr hd⟩, ?_, ?_, ?_⟩
    · intro f hf
      obtain rfl := Option.some.inj hf
      exact ha
    · dsimp only at htried ⊢
      rcases hcount with ⟨hinit, h0, h1⟩ | ⟨hinit, hsame⟩
      · rw [if_pos hinit, htried, h0, h1]
      · rw [if_neg hinit, htried, hsame]
    · dsimp only at honce ⊢
      rcases hcount with ⟨-, -, h1⟩ | ⟨-, hsame⟩
      · rw [h1]
      · rw [hsame]
        exact honce
  | leave st n hr =>
    refine ⟨hcalls.tail, ?_, htried.trans hr.tried.symm, hr.tried.trans_le honce⟩
    cases st with
    | nil => exact nofun
    | cons caller st =>
      intro f hf
      obtain rfl := Option.some.inj hf
      exact hr.allows (htop _ rfl) (List.isChain_cons_cons.mp hcalls).1

/-! ## Main result -/

/-- A function on the way to a network boot. -/
def Frame.IsNetworkPath (f : Frame) : Prop := (∃ pc, f = .tryNetworkBoot pc) ∨ f = .networkInit

/-- An activation of `try_disk_boot`. -/
def Frame.isTryDiskBoot : Frame → Bool
  | .tryDiskBoot _ _ => true
  | _ => false

/-- The number of `try_disk_boot`s on the stack. -/
def Machine.diskBoots (x : Machine) : Nat := x.stack.countP Frame.isTryDiskBoot

theorem Frame.rank_of_isTryDiskBoot {f : Frame} (h : f.isTryDiskBoot = true) :
    f.rank ∈ [1, 6] := by
  cases f with
  | tryDiskBoot t pc => cases t <;> simp [Frame.rank]
  | _ => cases h

theorem Machine.Inv.pairwise_rank {x : Machine} (h : x.Inv) :
    x.stack.Pairwise fun callee caller => caller.rank < callee.rank := by
  have hchain : (x.stack.map Frame.rank).IsChain (· > ·) :=
    (List.isChain_map Frame.rank).mpr (h.calls.imp fun _ _ hc => hc.1)
  exact List.pairwise_map.mp (List.isChain_iff_pairwise.mp hchain)

/-- **Every run of `do_main`**: `network_init` is entered at most once, no network boot is tried
from `network_boot_failed`, at most two `try_disk_boot`s are active, and when `network_init` or
`boot_kernel` is entered no file system is mounted and the disk is disabled. -/
theorem doMain_run {x : Machine} (hrun : Reaches Machine.Step Machine.start x) :
    x.networkInits ≤ 1 ∧
      x.stack.Pairwise (fun callee caller =>
        (∃ pc, caller = .networkBootFailed pc) → ¬ callee.IsNetworkPath) ∧
      x.diskBoots ≤ 2 ∧
      ∀ f y, Machine.Step x (some f) y → f = .networkInit ∨ f = .bootKernel → y.globals.Quiet := by
  have hinv : x.Inv := hrun.invariant Machine.inv_start fun _ _ _ h hs => h.step hs
  have hranks := hinv.pairwise_rank
  refine ⟨hinv.tried ▸ hinv.once, ?_, ?_, ?_⟩
  · refine hranks.imp fun {callee caller} hlt => ?_
    rintro ⟨pc, rfl⟩ (⟨pc', rfl⟩ | rfl)
    · exact absurd hlt (Nat.not_lt.mpr (show 3 ≤ 5 by decide))
    · exact absurd hlt (Nat.not_lt.mpr (show 4 ≤ 5 by decide))
  · -- Their ranks are different, and there are two.
    have hnodup : ((x.stack.filter Frame.isTryDiskBoot).map Frame.rank).Nodup :=
      List.pairwise_map.mpr ((hranks.filter _).imp fun h => (Nat.ne_of_lt h).symm)
    have hsub : (x.stack.filter Frame.isTryDiskBoot).map Frame.rank ⊆ [1, 6] := by
      intro r hr
      obtain ⟨f, hf, rfl⟩ := List.mem_map.mp hr
      exact Frame.rank_of_isTryDiskBoot (List.mem_filter.mp hf).2
    have hle := (List.subperm_of_subset hnodup hsub).length_le
    rw [List.length_map] at hle
    rw [Machine.diskBoots, List.countP_eq_length_filter]
    exact hle
  · rintro f y hstep hf
    have hy := hinv.step hstep
    cases hstep with
    | call st n hc =>
      refine (hy.top f rfl).quiet ?_ ?_
      · rcases hf with rfl | rfl <;> exact id
      · rcases hf with rfl | rfl <;> exact id

/-- Both bounds are reached: the configuration asks for a network boot, which fails over to the
disk. -/
theorem doMain_run_failed_over :
    ∃ x, Reaches Machine.Step Machine.start x ∧ x.networkInits = 1 ∧ x.diskBoots = 2 ∧
      (x.networkInits ≤ 1 ∧ x.diskBoots ≤ 2) := by
  have hrun : Reaches Machine.Step Machine.start _ :=
    (Reaches.refl Machine.start)
      |>.tail (.call _ _ (.disk _))
      |>.tail (.inside _ _ (.diskOpen _ _))
      |>.tail (.inside _ _ (.partitions _ _ 1))
      |>.tail (.inside _ _ (.mount _ _ _))
      |>.tail (.call _ _ (.config _ _ _))
      |>.tail (.call _ _ (.tryNetBoot _))
      |>.tail (.call _ _ (.firstTry _ rfl))
      |>.tail (.call _ _ (.failed _))
      |>.tail (.call _ _ (.diskAgain _))
  obtain ⟨hinits, -, hboots, -⟩ := doMain_run hrun
  exact ⟨_, hrun, rfl, rfl, hinits, hboots⟩

end MbBootTv
