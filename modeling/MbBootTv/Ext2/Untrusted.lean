import MbBootTv.Ext2.Cycles
import MbBootTv.Ext2.DirScan
import MbBootTv.Ext2.Search

/-!
# Untrusted numbers

`ext2fs_fs_open` looks at the magic number of the superblock and at nothing else. The other fields
are divisors (`s_blocks_per_group`, the block size, `s_inodes_per_group`), the length of what is
read into buffers of `EXT2_MAX_BLOCK_SIZE` bytes, and, with the inode numbers that stand in
directories, an index into the group descriptors. A call is contained when nothing of that goes
wrong (`Contained`). Every call of a session is when the numbers it meets are in their ranges
(`session_contained`).
-/

namespace MbBootTv

open Relation Stage

/-! ## What can go wrong -/

/-- Not one of the faults that a number out of its range leads to. -/
def Harmless (f : Fault) : Prop := f ≠ .divByZero ∧ f ≠ .overrun ∧ f ≠ .groupIndex

/-- No division by zero, no block that is read past the end of its buffer, and no index behind the
group descriptors. -/
def Contained {α : Type} (x : Except Fault α) : Prop :=
  x ≠ .error .divByZero ∧ x ≠ .error .overrun ∧ x ≠ .error .groupIndex

theorem contained_of_ends {α : Type} {x : Except Fault α} {p : α → Prop} (h : Ends Harmless x p) :
    Contained x :=
  ⟨fun hx => (h.error_of_eq hx).1 rfl, fun hx => (h.error_of_eq hx).2.1 rfl,
    fun hx => (h.error_of_eq hx).2.2 rfl⟩

theorem harmless_outOfBounds : Harmless .outOfBounds := ⟨nofun, nofun, nofun⟩

theorem harmless_fuel : Harmless .fuel := ⟨nofun, nofun, nofun⟩

/-- It ends in an error that is harmless, or in any result. -/
abbrev Mild {α : Type} (x : Except Fault α) : Prop := Ends Harmless x fun _ => True

/-- The number of groups, as `ext2fs_init_state` computes it. -/
def SuperBlock.ngroups (sb : SuperBlock) : UInt32 :=
  (sb.sBlocksCount - sb.sFirstDataBlock + sb.sBlocksPerGroup - 1) / sb.sBlocksPerGroup

/-- The superblock can be divided by: by its blocks per group, and, once there is memory for the
group descriptors, by its block size. -/
def SuperBlock.Divides (env : Env) (sb : SuperBlock) : Prop :=
  sb.sBlocksPerGroup ≠ 0 ∧
    (env.blMalloc (sb.ngroups * groupDescSize) = true → sb.ext2BlockSize ≠ 0)

/-- The superblock that arrives, if any does and it has the magic number, can be divided by. -/
def MountFits (env : Env) : Prop :=
  ∀ (sb : SuperBlock) (b : Bufs),
    readBytes env (emptyBufs []) (1 * ext2MinBlockSize) superBlockSize = (some sb, b) →
      sb.sMagic = ext2SuperMagic → sb.Divides env

/-- What the scan at this stage finds is an inode of a group that is loaded. -/
def Stage.FindsLoaded (env : Env) (g : Stage) : Prop :=
  ∀ c len fuel ino b, g.component = some c →
    strlen (g.st.text g.region) (g.st.cap g.region) c = .ok len →
    g.search env fuel c len = .ok (ino, b) → ¬ sneg ino = true →
      g.st.mount.groupOf ino < g.st.mount.gdsCount

/-- The numbers that a call meets are in their ranges: the block size for one that reads, and for
one that opens the inodes per group, and every inode number on the way of the name. -/
def Event.Fits (s : St) (e : Event) : Prop :=
  match e.call with
  | .openFile name cap => s.mount.bs ≤ ext2MaxBlockSize ∧ s.mount.sb.sInodesPerGroup ≠ 0 ∧
      s.mount.groupOf ext2RootIno < s.mount.gdsCount ∧
      ∀ g, Passes e.env { s with name := name, nameCap := cap } g → g.FindsLoaded e.env
  | .read _ _ _ => s.mount.bs ≤ ext2MaxBlockSize
  | _ => True

/-- A call of an open descriptor, or of none, whose numbers are in their ranges. -/
def Fitting (x : Session) (e : Event) : Prop := e.call.OnOpen x.fds ∧ e.Fits x.st

/-! ## The mount -/

theorem contained_ok {α : Type} (a : α) : Contained (.ok a) := ⟨nofun, nofun, nofun⟩

/-- What follows does not fail. -/
theorem contained_bind_iff {α β : Type} {x : Except Fault α} {f : α → Except Fault β}
    (hf : ∀ a, ∃ b, f a = .ok b) : Contained (x >>= f) ↔ Contained x := by
  cases x with
  | error e => simp only [Contained, error_bind, ne_eq, Except.error.injEq]
  | ok a =>
    obtain ⟨b, hb⟩ := hf a
    rw [ok_bind, hb]
    exact iff_of_true (contained_ok b) (contained_ok a)

section Mount

variable {env : Env} {w : Option St} {sb : SuperBlock} {fetches : List Fetch}

theorem ext2fsInitState_contained_iff :
    Contained (ext2fsInitState env sb fetches) ↔ sb.Divides env := by
  unfold ext2fsInitState
  by_cases hbpg : sb.sBlocksPerGroup = 0
  · rw [if_pos hbpg]
    exact iff_of_false (fun h => h.1 rfl) fun h => h.1 hbpg
  rw [if_neg hbpg]
  show Contained (if (!env.blMalloc (sb.ngroups * groupDescSize)) = true then _ else _) ↔ _
  cases hmalloc : env.blMalloc (sb.ngroups * groupDescSize) with
  | false =>
    refine iff_of_true (contained_ok none) ⟨hbpg, fun h => ?_⟩
    rw [hmalloc] at h
    cases h
  | true =>
    by_cases hbs : sb.ext2BlockSize = 0
    · refine iff_of_false (fun h => h.1 ?_) fun h => h.2 hmalloc hbs
      exact if_pos hbs
    · refine iff_of_true ?_ ⟨hbpg, fun _ => hbs⟩
      show Contained (if sb.ext2BlockSize = 0 then _ else _)
      rw [if_neg hbs]
      dsimp only
      split
      · exact contained_ok none
      · exact contained_ok _

/-- **The mount is contained exactly when the superblock can be divided by.** -/
theorem ext2fsFsOpen_contained_iff : Contained (ext2fsFsOpen env w) ↔ MountFits env := by
  unfold MountFits ext2fsFsOpen
  rcases readBytes env (emptyBufs []) (1 * ext2MinBlockSize) superBlockSize with ⟨_ | sb, b⟩
  · exact iff_of_true (contained_ok _) nofun
  · dsimp only
    by_cases hmagic : SuperBlock.sMagic sb = ext2SuperMagic
    · rw [if_neg (not_not.mpr hmagic)]
      refine (contained_bind_iff fun s => ?_).trans (ext2fsInitState_contained_iff.trans
        ⟨fun h sb' b' hsb _ => ?_, fun h => h sb b rfl hmagic⟩)
      · cases s with
        | none => exact ⟨_, rfl⟩
        | some s => exact ⟨_, rfl⟩
      · cases hsb
        exact h
    · rw [if_pos hmagic]
      refine iff_of_true (contained_ok _) fun sb' b' hsb hmagic' => ?_
      cases hsb
      exact absurd hmagic' hmagic

end Mount

/-! ## Strings

They leave their arrays at worst. -/

section Strings

variable {b : Bytes} {cap s : Nat}

theorem loadByte_mild : Mild (loadByte b cap s) := by
  unfold loadByte
  split_ifs
  · exact trivial
  · exact harmless_outOfBounds

theorem scan_mild {stop : UInt8 → Bool} {n : Nat} : Mild (scan stop b s n) := by
  induction n generalizing s with
  | zero => exact harmless_outOfBounds
  | succ n ih =>
    unfold scan
    split_ifs
    · exact trivial
    · exact ih

theorem strlen_mild : Mild (strlen b cap s) := scan_mild.bind fun _ _ _ => trivial

theorem strtokSimple_mild {input last : Option Nat} {c : UInt8} :
    Mild (strtokSimple b cap input last c) := by
  unfold strtokSimple
  cases (input <|> last) with
  | none => exact trivial
  | some s =>
    refine loadByte_mild.bind fun x _ _ => ?_
    have hchr : Mild (strchr b cap (if x = c then s + 1 else s) c) :=
      scan_mild.bind fun _ _ _ => trivial
    refine hchr.bind fun t _ _ => ?_
    cases t <;> exact trivial

theorem strncmp_mild {s1 s2 : Nat → Except Fault UInt8} (h1 : ∀ i, Mild (s1 i))
    (h2 : ∀ i, Mild (s2 i)) {i n : Nat} : Mild (strncmp s1 s2 i n) := by
  induction n generalizing i with
  | zero => exact trivial
  | succ n ih =>
    unfold strncmp
    refine (h1 i).bind fun x _ _ => (h2 i).bind fun y _ _ => ?_
    split_ifs
    · exact trivial
    · exact trivial
    · exact trivial
    · exact ih

theorem nameMatches_mild {text : Bytes → Bytes} {component len : Nat} {blk : Bytes} {dp : Nat} :
    Mild (nameMatches text cap component len blk dp) := by
  unfold nameMatches
  refine loadByte_mild.bind fun x _ _ => ?_
  split_ifs
  · exact (strncmp_mild (fun _ => loadByte_mild) fun _ => loadByte_mild).bind fun _ _ _ => trivial
  · exact trivial

end Strings

/-! ## Opening

Whatever the blocks hold, a scan that goes from record to record stays where a block number and an
offset say. -/

section Open

variable {env : Env} {m : Mount} {ip : Inode} {text : Bytes → Bytes}
  {cap component len fuel n : Nat} {b : Bufs} {s : St}

/-- Nothing is known of the blocks. -/
abbrev AnyBlock : UInt32 → Bytes → Prop := fun _ _ => True

theorem hold_any (m : Mount) (b : Bufs) : b.Hold m AnyBlock := ⟨trivial, trivial⟩

theorem delivers_any (env : Env) (m : Mount) : Delivers env m AnyBlock := fun _ _ _ => trivial

theorem nameiSearch_mild_at (hm : m.Sound) {tail c : Bytes} {k o : Nat}
    (h : b.At m AnyBlock tail k o c) (hk : k * m.bs < 2 ^ 31) (ho : o < 2 ^ 31) :
    Mild (nameiSearch env m ip text cap component len fuel false b) := by
  induction fuel generalizing b c k o with
  | zero => exact harmless_fuel
  | succ fuel ih =>
    have hnext := readdiriNext_cases hm (dirReads_canRead hm (delivers_any env m) ip) h hk ho
    have hmax : m.bs ≤ 4096 := hm.fits
    have hlen (c : Bytes) (o : Nat) := (DirEntry.recLen (page tail c m.bs) o).toNat_lt
    unfold nameiSearch
    rw [show ext2Readdiri env m b ip false = readdiriNext env m b ip from rfl]
    generalize readdiriNext env m b ip = next at hnext
    cases hnext with
    | here b' hlt hat =>
      refine nameMatches_mild.bind fun found _ _ => ?_
      cases found with
      | true => exact trivial
      | false =>
        have := hlen c o
        exact ih hat hk (by omega)
    | block b' c' hge hmore hint hread hat =>
      refine nameMatches_mild.bind fun found _ _ => ?_
      cases found with
      | true => exact trivial
      | false =>
        have := hlen c' 0
        exact ih hat hint (by omega)
    | finished b' hge hend => exact trivial
    | unreadable b' hge hmore hread => exact trivial
    | outside hout => exact harmless_outOfBounds

/-- **A scan is contained**, whatever it is of. -/
theorem nameiSearch_mild (hm : m.Sound) :
    Mild (nameiSearch env m ip text cap component len fuel true b) := by
  rcases ext2Readdiri_rewind (dirReads_canRead hm (delivers_any env m) ip) (hold_any m b) with
    ⟨-, b', hnone⟩ | ⟨c, b', -, hat, hstart⟩
  · cases fuel with
    | zero => exact harmless_fuel
    | succ fuel =>
      unfold nameiSearch
      rw [hnone]
      exact trivial
  · have hstart' : ext2Readdiri env m b ip true = ext2Readdiri env m b' ip false := hstart
    rw [nameiSearch_congr hstart']
    exact nameiSearch_mild_at hm hat (by rw [Nat.zero_mul]; decide) (by decide)

theorem St.iget_mild {ino : UInt32} (hipg : s.mount.sb.sInodesPerGroup ≠ 0)
    (hgroup : s.mount.groupOf ino < s.mount.gdsCount) : Mild (s.iget env ino) := by
  obtain ⟨out, s', hget⟩ := St.iget_total env hipg hgroup
  rw [hget]
  exact trivial

/-- What the numbers on the mount allow. -/
structure Mount.InRange (m : Mount) : Prop where
  sound : m.Sound
  ipg : m.sb.sInodesPerGroup ≠ 0
  root : m.groupOf ext2RootIno < m.gdsCount

/-- **A walk is contained** when the numbers that it finds are. -/
theorem nameiLoop_mild {r : Region} {dir : Slot} {tok last : Option Nat}
    (hm : s.mount.InRange)
    (hfind : ∀ g, ReflTransGen (Next env) ⟨r, dir, tok, last, s⟩ g → g.FindsLoaded env) :
    Mild (nameiLoop env fuel r n dir tok last s) := by
  induction n generalizing dir tok last s with
  | zero =>
    cases tok with
    | none => exact trivial
    | some c => exact harmless_fuel
  | succ n ih =>
    cases tok with
    | none => exact trivial
    | some c =>
      rw [nameiLoop_some]
      refine strlen_mild.bind fun len hlen _ => ?_
      refine (nameiSearch_mild hm.sound).bind fun ⟨ino, b⟩ hsearch _ => ?_
      dsimp only
      split_ifs with hneg
      · exact trivial
      · have hgroup := hfind _ .refl c len fuel ino b rfl hlen hsearch hneg
        have hmild : Mild (St.iget env { s with bufs := b, table := s.table.leave dir } ino) :=
          St.iget_mild hm.ipg hgroup
        refine hmild.bind fun ⟨out, s₁⟩ hget _ => ?_
        cases out with
        | none => exact trivial
        | some dir' =>
          refine strtokSimple_mild.bind fun ⟨tok, last', mem⟩ htok _ => ih ?_ fun g hg => ?_
          · rw [St.setText_mount, (St.iget_spec hget).mount]
            exact hm
          · exact hfind g (.head (.component hlen hsearch hneg hget htok) hg)

theorem ext2Namei_mild {r : Region} {name : Nat} (hm : s.mount.InRange)
    (hfind : ∀ g₀ g, Begins env s r name g₀ → ReflTransGen (Next env) g₀ g → g.FindsLoaded env) :
    Mild (ext2Namei env fuel s r name) := by
  obtain ⟨s₁, hload⟩ := (loadRoot_ok_iff env).mpr fun _ => .inr ⟨hm.ipg, hm.root⟩
  unfold ext2Namei
  rw [hload, ok_bind]
  cases hroot : s₁.table.rootInode with
  | none => exact trivial
  | some root =>
    refine strtokSimple_mild.bind fun ⟨tok, last, mem⟩ htok _ => nameiLoop_mild ?_ fun g hg => ?_
    · rw [St.setText_mount, (loadRoot_spec hload).mount]
      exact hm
    · exact hfind _ g (.root hload hroot htok) hg

/-- The text of a link can be read, or not. -/
theorem linkText_mild {i : Slot} (hm : s.mount.Sound) : Mild (linkText env s i) := by
  unfold linkText
  dsimp only
  split_ifs with hblocks
  · have hzero : (0 : UInt32).toNat * s.mount.bs ≤
        (s.table.inodeTable i).inode.iSize.toNat := by
      rw [UInt32.toNat_zero, Nat.zero_mul]
      exact Nat.zero_le _
    obtain ⟨o, b', hread, -⟩ := ext2Breadi_possible hm (hold_any s.mount s.bufs)
      (delivers_any env s.mount) hzero s.bufs.blkbuf
    rw [hread]
    exact trivial
  · exact trivial

/-- The loop that follows links, from a stage that the open comes to. -/
theorem openLoop_mild {g : Stage} (hm : s.mount.InRange) (hp : Passes env s g)
    (hover : g.component = none) (hfind : ∀ g, Passes env s g → g.FindsLoaded env) :
    Mild (openLoop env fuel n g.dirInode g.st) := by
  induction n generalizing g with
  | zero =>
    unfold openLoop
    split_ifs
    · exact harmless_fuel
    · exact trivial
  | succ n ih =>
    have hmount := hp.keeps.mount
    unfold openLoop
    split_ifs with hlink
    · have hfollow : Mild (ext2FollowLink env fuel g.st g.dirInode) := by
        rw [ext2FollowLink_of_cutOff hp.keeps.cut]
        refine (linkText_mild (hmount ▸ hm.sound)).bind fun x htext _ => ?_
        obtain ⟨text, s₁⟩ := x
        cases text with
        | none => exact trivial
        | some text =>
          obtain ⟨r, p⟩ := text
          refine ext2Namei_mild ?_ fun g₀ g' hbegins hrun =>
            hfind g' (hp.link hover hlink htext hbegins hrun)
          rw [(linkText_spec htext).2.1]
          exact hmount ▸ hm
      refine hfollow.bind fun x hrun _ => ?_
      obtain ⟨out, s₁⟩ := x
      cases out with
      | none => exact trivial
      | some j =>
        obtain ⟨r, last, hp'⟩ := hp.follow hover hlink hrun
        exact ih hp' rfl
    · exact trivial

/-- **An open is contained** when the numbers on its way are in their ranges. -/
theorem ext2Open_mild (hm : s.mount.InRange) (hfind : ∀ g, Passes env s g → g.FindsLoaded env) :
    Mild (ext2Open env fuel s) := by
  unfold ext2Open
  have hnamei : Mild (ext2Namei env fuel s .name 0) :=
    ext2Namei_mild hm fun g₀ g hbegins hrun => hfind g ⟨g₀, hbegins, hrun⟩
  refine hnamei.bind fun ⟨out, s₁⟩ hrun _ => ?_
  cases out with
  | none => exact trivial
  | some i =>
    obtain ⟨g₀, last, hbegins, hpassed⟩ := ext2Namei_passes hrun
    exact openLoop_mild hm ⟨g₀, hbegins, hpassed⟩ rfl hfind

end Open

/-! ## Reading -/

section Read

variable {env : Env}

/-- **A read is contained** when the blocks fit the buffers. -/
theorem readSlot_mild {s : St} {i : Slot} {buf : Bytes} {size : UInt32} (hm : s.mount.Sound)
    (hpos : (s.table.inodeTable i).pos.toNat ≤ (s.table.inodeTable i).inode.iSize.toNat) :
    Mild (readSlot env s i buf size) := by
  obtain ⟨r, s', hread⟩ := readSlot_total env hm hpos buf size
  rw [hread]
  exact trivial

end Read

/-! ## Whole sessions -/

section Session

variable {x : Session} {e : Event} {m : Mount}

/-- One call. -/
theorem Session.Inv.mild (h : x.Inv m AnyBlock) (he : Fitting x e)
    (hm : m.bs ≤ ext2MaxBlockSize → m.Sound) :
    Mild (perform e.env e.fuel (some x.st) e.call) := by
  obtain ⟨env, fuel, call⟩ := e
  obtain ⟨hon, hfits⟩ := he
  have hmount := h.mount
  subst hmount
  cases call with
  | openFile name cap =>
    obtain ⟨hbs, hipg, hroot, hfind⟩ := hfits
    have hopen : Mild (ext2fsOpen env fuel (some x.st) name cap) := by
      unfold ext2fsOpen
      refine strlen_mild.bind fun len _ _ => ?_
      dsimp only
      split_ifs
      · exact trivial
      · have hmild : Mild (ext2Open env fuel { x.st with name := name, nameCap := cap }) :=
          ext2Open_mild ⟨hm hbs, hipg, hroot⟩ hfind
        refine hmild.bind fun ⟨out, s₁⟩ _ _ => ?_
        cases out <;> exact trivial
    exact hopen.bind fun _ _ _ => trivial
  | read fd buf size =>
    obtain ⟨i, hi, hfd⟩ := hon
    have hread : Mild (ext2fsRead env (some x.st) fd buf size) := by
      rw [ext2fsRead_of_eq hfd]
      exact (readSlot_mild (hm hfits) (h.isOpen i hi).pos).bind fun _ _ _ => trivial
    exact hread.bind fun _ _ _ => trivial
  | seek fd newpos =>
    obtain ⟨i, hi, hfd⟩ := hon
    have hseek : Mild (ext2fsSeek (some x.st) fd newpos) := by
      by_cases hge : 0x100000000 ≤ newpos
      · rw [ext2fsSeek_refused (Or.inr hge)]
        exact trivial
      · rw [ext2fsSeek_of_eq hfd hge]
        split_ifs <;> exact trivial
    exact hseek.bind fun _ _ _ => trivial
  | close fd =>
    obtain ⟨i, hi, hfd⟩ := hon
    have hclose : Mild (ext2fsClose (some x.st) fd) := by
      rw [ext2fsClose_of_eq hfd]
      exact trivial
    exact hclose.bind fun _ _ _ => trivial

/-- **A session is contained**, the mount and every call after it, if the superblock that it mounts
can be divided by, and the numbers that its calls meet are in their ranges. -/
theorem session_contained {env₀ : Env} {w : Option St} (hmount : MountFits env₀) :
    Contained (ext2fsFsOpen env₀ w) ∧
    ∀ s₀, ext2fsFsOpen env₀ w = .ok (0, some s₀) →
      ∀ x, Reaches (Session.Step Fitting) ⟨s₀, ∅⟩ x → ∀ e, Fitting x e →
        Contained (perform e.env e.fuel (some x.st) e.call) := by
  refine ⟨ext2fsFsOpen_contained_iff.mpr hmount, fun s₀ hopen x hrun e he => ?_⟩
  have hmounted := ext2fsFsOpen_spec hopen
  have hinv : x.Inv s₀.mount AnyBlock := (hmounted.inv trivial).run hrun fun _ e h =>
    ⟨delivers_any e.env s₀.mount, h.1.admissible⟩
  exact contained_of_ends (hinv.mild he hmounted.sound)

end Session

/-- The link to itself is opened, and nothing goes wrong. -/
theorem session_contained_self :
    ∃ s₀, ext2fsFsOpen selfEnv none = .ok (0, some s₀) ∧
      Contained (perform selfEnv 9 (some s₀) (.openFile pathF 2)) := by
  obtain ⟨s₀, hopen, hm⟩ := self_mounted
  have hcontained : Contained (ext2fsFsOpen selfEnv none) := by
    rw [hopen]
    exact contained_ok _
  have hmount : MountFits selfEnv := ext2fsFsOpen_contained_iff.mp hcontained
  refine ⟨s₀, hopen, (session_contained hmount).2 s₀ hopen ⟨s₀, ∅⟩ (.refl _)
    ⟨selfEnv, 9, .openFile pathF 2⟩ ⟨trivial, hm.small.sound.fits, hm.small.holds.ipg,
      (hm.small.holds.inode 2 hm.small.holds.root).1, ?_⟩⟩
  intro g hp c len fuel ino b hc hlen hsearch _
  have hstage := SelfStage.of_passes hopen hm hp
  obtain ⟨r, dir, tok, last, s⟩ := g
  obtain rfl : tok = some c := hc
  obtain ⟨N, b', hthree⟩ := hstage.search hm hlen
  cases nameiSearch_unique hsearch hthree
  rw [hstage.mount]
  exact (hm.small.holds.inode 3 (show 3 ∈ [2, 3, 4, 5, 6] by decide)).1

/-! ### Numbers out of their ranges -/

/-- The small file system with this superblock, and an inode number for `f`. -/
def untrustedEnv (sb : SuperBlock) (ino : UInt32) : Env :=
  wholeEnv smallPart (smallDisk sb (smallInode 0x81A4 5 0 5) (smallDir ino 102) zeros)

/-- How an open of `f` ends after a mount that succeeds. -/
def untrustedOpen (sb : SuperBlock) (ino : UInt32) : Option Fault :=
  match ext2fsFsOpen (untrustedEnv sb ino) none with
  | .ok (0, some s₀) =>
    match perform (untrustedEnv sb ino) 9 (some s₀) (.openFile pathF 2) with
    | .error f => some f
    | .ok _ => none
  | _ => none

theorem not_contained_of_untrustedOpen {sb : SuperBlock} {ino : UInt32} {f : Fault}
    (h : untrustedOpen sb ino = some f) : ∃ s₀,
      ext2fsFsOpen (untrustedEnv sb ino) none = .ok (0, some s₀) ∧
        perform (untrustedEnv sb ino) 9 (some s₀) (.openFile pathF 2) = .error f := by
  unfold untrustedOpen at h
  split at h
  next s₀ hopen =>
    split at h
    next f' hperform =>
      obtain rfl := Option.some_inj.mp h
      exact ⟨s₀, hopen, hperform⟩
    · cases h
  · cases h

/-- Three file systems that are mounted: without inodes in a group, with blocks of 8192 bytes, and
with an inode number that is in no group; and one without blocks in a group, which the mount
divides by. -/
theorem not_session_contained :
    (∃ s₀, ext2fsFsOpen (untrustedEnv (smallSuper 32 8192 0) 3) none = .ok (0, some s₀) ∧
      perform (untrustedEnv (smallSuper 32 8192 0) 3) 9 (some s₀) (.openFile pathF 2) =
        .error .divByZero) ∧
    (∃ s₀, ext2fsFsOpen (untrustedEnv ((smallSuper 32 8192 8).putLe 24 4 3) 3) none =
        .ok (0, some s₀) ∧
      perform (untrustedEnv ((smallSuper 32 8192 8).putLe 24 4 3) 3) 9 (some s₀)
        (.openFile pathF 2) = .error .overrun) ∧
    (∃ s₀, ext2fsFsOpen (untrustedEnv (smallSuper 32 8192 8) 99) none = .ok (0, some s₀) ∧
      perform (untrustedEnv (smallSuper 32 8192 8) 99) 9 (some s₀) (.openFile pathF 2) =
        .error .groupIndex) ∧
    ext2fsFsOpen (untrustedEnv (smallSuper 32 0 8) 3) none = .error .divByZero := by
  refine ⟨not_contained_of_untrustedOpen (by decide +kernel),
    not_contained_of_untrustedOpen (by decide +kernel),
    not_contained_of_untrustedOpen (by decide +kernel), ?_⟩
  have hcheck : (match ext2fsFsOpen (untrustedEnv (smallSuper 32 0 8) 3) none with
    | .error f => some f
    | .ok _ => none) = some Fault.divByZero := by decide +kernel
  split at hcheck
  next f hopen =>
    obtain rfl := Option.some_inj.mp hcheck
    exact hopen
  · cases hcheck

end MbBootTv
