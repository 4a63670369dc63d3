import Mathlib.Data.Fintype.Card
import MbBootTv.Ext2.Walk

/-!
# Following links

A link says where it leads, from the root or from the directory that it is in (`LinkTree.resolve`).
`ext2_open` starts every link at the root: the name it was given is cut off by then, so there is no
slash left in it to tell the directory by (`ext2FollowLink_inline`). That is right for a target
that leads to the same inode from both (`LinkTree.Straight`), and for links that stand in an inode;
one that stands in a block is overwritten in `blkbuf` by the directories that are read on its way.

Each link keeps the slot it is in, so a chain needs as many slots as it has links, and one more.
What the loop comes to, for want of slots or not, is `LinkTree.rootEnd` (`openLoop_rootEnd`).
-/

namespace MbBootTv

/-- Where a link leads: along a path, from the root or from the directory it is in. -/
structure Link where
  absolute : Bool
  path : List Name

/-- A tree with its links. -/
structure LinkTree extends Volume where
  target : UInt32 → Link

namespace LinkTree

/-- Where the path of link `x`, in directory `dir`, begins. -/
def base (v : LinkTree) (dir x : UInt32) : UInt32 :=
  if (v.target x).absolute then ext2RootIno else dir

/-- The inode that link `x` in directory `dir` is for. -/
def denotes (v : LinkTree) (dir x : UInt32) : Option UInt32 :=
  v.walk (v.base dir x) (v.target x).path

/-- The directory that this inode is in. -/
def parent (v : LinkTree) (dir x : UInt32) : Option UInt32 :=
  v.walk (v.base dir x) (v.target x).path.dropLast

/-- The inode at the end of a chain of at most `n` links that begins at `x` in directory `dir`. -/
def resolve (v : LinkTree) : Nat → UInt32 → UInt32 → Option UInt32
  | 0, _, x => if (v.inode x).sIslnk then none else some x
  | n + 1, dir, x =>
    if (v.inode x).sIslnk then
      match v.denotes dir x, v.parent dir x with
      | some y, some dir' => resolve v n dir' y
      | _, _ => none
    else some x

/-- Link `x` is in its inode, and the walk along its path from the root can be made and comes to no
deleted record. -/
def Clear (v : LinkTree) (env : Env) (m : Mount) (x : UInt32) : Prop :=
  (v.inode x).iBlocks = 0 ∧ v.Passable env m ext2RootIno (v.target x).path ∧
    v.NoDeleted ext2RootIno (v.target x).path

/-- Where the path of link `x` leads from the root. -/
def fromRoot (v : LinkTree) (x : UInt32) : Option UInt32 := v.walk ext2RootIno (v.target x).path

/-- The inode at the end of a chain of at most `n` links from `x` on, each taken from the root. -/
def rootEnd (v : LinkTree) : Nat → UInt32 → Option UInt32
  | 0, x => if (v.inode x).sIslnk then none else some x
  | n + 1, x => if (v.inode x).sIslnk then (v.fromRoot x).bind (rootEnd v n) else some x

/-- The links of this chain are clear, and so is the one behind them that is one too many. -/
def RootClear (v : LinkTree) (env : Env) (m : Mount) : Nat → UInt32 → Prop
  | 0, x => (v.inode x).sIslnk = true → v.Clear env m x
  | n + 1, x => (v.inode x).sIslnk = true →
      v.Clear env m x ∧ ∀ y, v.fromRoot x = some y → RootClear v env m n y

/-- A chain of at most `n` links, in each of which the path leads from the root to where it leads
from its directory. -/
def Straight (v : LinkTree) (env : Env) (m : Mount) : Nat → UInt32 → UInt32 → Prop
  | 0, _, x => (v.inode x).sIslnk = false
  | n + 1, dir, x => (v.inode x).sIslnk = true →
      v.Clear env m x ∧ v.fromRoot x = v.denotes dir x ∧
        ∀ y dir', v.denotes dir x = some y → v.parent dir x = some dir' →
          Straight v env m n dir' y

/-- The texts of the links are on the disk: in the inode, or in the first block. -/
def Reads (v : LinkTree) (env : Env) (m : Mount) : Prop :=
  ∀ x, v.has x → (v.inode x).sIslnk = true →
    if (v.inode x).iBlocks = 0 then
      PathText (v.inode x) (Inode.iBlockOffset + 4 * ext2NBlocks) Inode.iBlockOffset
        (v.target x).absolute (v.target x).path
    else ∃ c, formatBlock env m (v.inode x) 0 = some c ∧
      PathText c m.bs 0 (v.target x).absolute (v.target x).path

end LinkTree

/-! ## Walks in the tree -/

section Tree

variable {v : Volume} {env : Env} {m : Mount} {x y : UInt32} {cs : List Name}

theorem Volume.Holds.walk_has (h : v.Holds env m) (hx : v.has x) (hy : v.walk x cs = some y) :
    v.has y := by
  induction cs generalizing x with
  | nil => exact Option.some.inj hy ▸ hx
  | cons c cs ih =>
    rw [Volume.walk] at hy
    split_ifs at hy with hdir
    cases hlook : v.lookup x c with
    | none =>
      rw [hlook] at hy
      cases hy
    | some e =>
      rw [hlook] at hy
      obtain ⟨hmem, he⟩ := Volume.lookup_spec hlook
      exact ih (h.live x hx hdir e hmem he) hy

/-- What a path leads to is in a directory. -/
theorem Volume.exists_parent (hy : v.walk x cs = some y) : ∃ dir, v.walk x cs.dropLast = some dir := by
  induction cs generalizing x with
  | nil => exact ⟨x, rfl⟩
  | cons c cs ih =>
    cases cs with
    | nil => exact ⟨x, rfl⟩
    | cons c' cs =>
      rw [Volume.walk] at hy
      split_ifs at hy with hdir
      cases hlook : v.lookup x c with
      | none =>
        rw [hlook] at hy
        cases hy
      | some e =>
        rw [hlook] at hy
        obtain ⟨dir, hd⟩ := ih hy
        refine ⟨dir, ?_⟩
        rw [List.dropLast_cons_of_ne_nil (List.cons_ne_nil c' cs), Volume.walk, if_pos hdir, hlook]
        exact hd

/-- A straight chain leads to the same inode when each link is taken from the root. -/
theorem LinkTree.Straight.rootEnd {v : LinkTree} {n k : Nat} {dir x : UInt32}
    (h : v.Straight env m n dir x) (hk : n ≤ k) :
    v.RootClear env m k x ∧ v.rootEnd k x = v.resolve n dir x := by
  induction n generalizing dir x k with
  | zero =>
    have hfile : (v.inode x).sIslnk = false := h
    have hnot : ¬ (v.inode x).sIslnk = true := by
      rw [hfile]
      exact Bool.false_ne_true
    rw [LinkTree.resolve, if_neg hnot]
    cases k with
    | zero => exact ⟨fun hlink => absurd hlink hnot, if_neg hnot⟩
    | succ k => exact ⟨fun hlink => absurd hlink hnot, if_neg hnot⟩
  | succ n ih =>
    obtain ⟨k, rfl⟩ := Nat.exists_eq_add_of_le' (Nat.one_le_of_lt hk)
    rw [LinkTree.resolve, LinkTree.rootEnd]
    by_cases hlink : (v.inode x).sIslnk = true
    · obtain ⟨hclear, hsame, hnext⟩ := h hlink
      rw [if_pos hlink, if_pos hlink, hsame]
      cases hy : v.denotes dir x with
      | none => exact ⟨fun _ => ⟨hclear, fun y hroot => by cases (hsame.symm.trans hroot).symm.trans hy⟩, rfl⟩
      | some y =>
        obtain ⟨dir', hparent⟩ : ∃ dir', v.parent dir x = some dir' := Volume.exists_parent hy
        obtain ⟨hrest, heq⟩ := ih (hnext y dir' hy hparent) (Nat.le_of_succ_le_succ hk)
        rw [hparent]
        refine ⟨fun _ => ⟨hclear, fun y' hroot => ?_⟩, heq⟩
        obtain rfl := Option.some.inj ((hsame.symm.trans hroot).symm.trans hy)
        exact hrest
    · rw [if_neg hlink, if_neg hlink]
      exact ⟨fun h => absurd h hlink, rfl⟩

end Tree

/-! ## The name that was opened -/

section Name

variable {env : Env} {fuel : Nat} {s s' : St} {r : Region} {out : Option Slot}

/-- Whatever string is walked, what is cut off stays cut off. -/
theorem nameiLoop_cutOff {n : Nat} {dir : Slot} {tok last : Option Nat}
    (h : nameiLoop env fuel r n dir tok last s = .ok (out, s')) (hs : CutOff s.name s.nameCap) :
    CutOff s'.name s'.nameCap := by
  induction n generalizing dir tok last s with
  | zero =>
    cases tok with
    | some component => cases h
    | none =>
      cases h
      exact hs
  | succ n ih =>
    cases tok with
    | none =>
      cases h
      exact hs
    | some component =>
      rw [nameiLoop_some] at h
      obtain ⟨len, -, h⟩ := bind_eq_ok.mp h
      obtain ⟨⟨nextIno, b⟩, -, h⟩ := bind_eq_ok.mp h
      dsimp only at h
      split_ifs at h
      · cases h
        exact hs
      · obtain ⟨⟨ip, s₁⟩, hget, h⟩ := bind_eq_ok.mp h
        obtain ⟨-, hname, hcap, -, -, -⟩ := St.iget_spec hget
        have hs₁ : CutOff s₁.name s₁.nameCap := by
          rw [hname, hcap]
          exact hs
        cases ip with
        | none =>
          cases h
          exact hs₁
        | some dir =>
          obtain ⟨⟨tok, last, mem⟩, htok, h⟩ := bind_eq_ok.mp h
          refine ih h ?_
          cases r with
          | name => exact hs₁.strtokSimple htok
          | fullname => exact hs₁
          | blkbuf => exact hs₁
          | inode i => exact hs₁

theorem ext2Namei_cutOff {name : Nat} (h : ext2Namei env fuel s r name = .ok (out, s'))
    (hs : CutOff s.name s.nameCap) : CutOff s'.name s'.nameCap := by
  unfold ext2Namei at h
  obtain ⟨s₁, hload, h⟩ := bind_eq_ok.mp h
  obtain ⟨-, hname, hcap, -, -, -⟩ := loadRoot_spec hload
  have hs₁ : CutOff s₁.name s₁.nameCap := by
    rw [hname, hcap]
    exact hs
  split at h
  · cases h
    exact hs₁
  · obtain ⟨⟨tok, last, mem⟩, htok, h⟩ := bind_eq_ok.mp h
    refine nameiLoop_cutOff h ?_
    cases r with
    | name => exact hs₁.strtokSimple htok
    | fullname => exact hs₁
    | blkbuf => exact hs₁
    | inode i => exact hs₁

/-- Once the walk has begun, the name is cut off. -/
theorem ext2Namei_cutsOff {i : Slot} (h : ext2Namei env fuel s .name 0 = .ok (some i, s')) :
    CutOff s'.name s'.nameCap := by
  unfold ext2Namei at h
  obtain ⟨s₁, hload, h⟩ := bind_eq_ok.mp h
  split at h
  · cases h
  · obtain ⟨⟨tok, last, mem⟩, htok, h⟩ := bind_eq_ok.mp h
    exact nameiLoop_cutOff h (strtokSimple_cutsOff htok)

/-- The text of a link is at the start of `blkbuf`, or in the inode. -/
theorem linkText_region {i : Slot} {p : Nat} (h : linkText env s i = .ok (some (r, p), s')) :
    r = .blkbuf ∧ p = 0 ∨ r = .inode i ∧ p = Inode.iBlockOffset := by
  unfold linkText at h
  dsimp only at h
  split_ifs at h
  · obtain ⟨⟨n, blk, b⟩, -, h⟩ := bind_eq_ok.mp h
    obtain ⟨h, -⟩ := Prod.mk.inj (Except.ok.inj h)
    split_ifs at h
    cases h
    exact Or.inl ⟨rfl, rfl⟩
  · cases h
    exact Or.inr ⟨rfl, rfl⟩

/-- **A link is walked from the root**, be it relative or not. -/
theorem ext2FollowLink_of_cutOff {i : Slot} (hs : CutOff s.name s.nameCap) :
    ext2FollowLink env fuel s i = (do
      let (text, s) ← linkText env s i
      match text with
      | none => return (none, s)
      | some (r, linkto) => ext2Namei env fuel s r linkto) := by
  unfold ext2FollowLink
  refine bind_congr_ok fun ⟨text, s₁⟩ htext => ?_
  cases text with
  | none => rfl
  | some text =>
    obtain ⟨r, p⟩ := text
    have hcap : p < s₁.cap r := by
      rcases linkText_region htext with ⟨rfl, rfl⟩ | ⟨rfl, rfl⟩
      · exact show 0 < 4096 by decide
      · exact show 40 < 128 by decide
    obtain ⟨-, hs₁, -⟩ := linkText_spec htext
    have hcut : CutOff s₁.name s₁.nameCap := by
      rw [hs₁]
      exact hs
    simp only [ok_bind, loadByte, if_pos hcap, strrchr_of_cutOff hcut, ite_self]

/-- So is one in its inode. -/
theorem ext2FollowLink_inline {i : Slot} (hblocks : (s.table.inodeTable i).inode.iBlocks = 0)
    (hs : CutOff s.name s.nameCap) :
    ext2FollowLink env fuel s i = ext2Namei env fuel s (.inode i) Inode.iBlockOffset := by
  rw [ext2FollowLink_of_cutOff hs]
  unfold linkText
  simp only [hblocks, ne_eq, not_true_eq_false, if_false, ok_bind]

end Name

/-! ## After a walk -/

section After

variable {env : Env} {v : Volume} {r : Region} {s s' : St} {fuel name : Nat} {absolute : Bool}
  {cs : List Name} {i : Slot}

/-- A walk that finds something takes one slot, besides that of the root; what is cached and loaded
stays that of the tree. -/
theorem Volume.Ready.settled_after (h : v.Ready env s r)
    (hpath : PathText (s.text r) (s.cap r) name absolute cs)
    (hrun : ext2Namei env fuel s r name = .ok (some i, s')) :
    v.Settled env s' ∧ s'.table.Used i ∧ s'.table.rootInode ≠ some i ∧
      s'.table.spare + 1 = s.table.spare := by
  have hstep := ext2Namei_frame hrun fun j hj => (h.root j hj).1
  obtain ⟨base, s₁, root, q, last, hstands, -, hroot, -, hused, hvacant, hloop⟩ := h.stands hpath
  have hbase : base root := hstands.root root hroot
  have hwalk := nameiLoop_frame ((hloop fuel).symm.trans hrun) hstands.used
    (fun hb => ⟨hstands.own hb, Option.some_ne_none q⟩) hstands.root
  have hne : r ≠ .inode root := by
    rintro rfl
    exact hstands.apart.2 rfl
  have hroot' : s'.table.rootInode = some root := hwalk.rootInode.trans hroot
  have hmount := hstep.mount
  refine ⟨⟨hmount ▸ h.sound, hmount ▸ h.holds, hmount ▸ h.reach, ?_, fun j hj => ?_⟩,
    (hstep.used i).mpr (.inr (.inr rfl)), hstep.notRoot i rfl, ?_⟩
  · rw [hmount]
    exact hstep.bufs.coherent (Agrees.refl env s.mount) h.coherent
  · obtain rfl := Option.some_inj.mp (hroot'.symm.trans hj)
    refine ⟨(hstep.used _).mpr (.inr (.inl hroot')), ?_⟩
    rw [hwalk.entry _ hbase hne]
    exact hstands.slot
  · have htaken : s'.table.vacant + 1 = s₁.table.vacant :=
      Table.vacant_of_taken (fun hu => hwalk.fresh i rfl ((hused i).mp hu)) fun j => by
        rw [hwalk.used, hused, Option.some_inj, eq_comm (a := i)]
    rw [Table.spare, if_neg (hroot' ▸ Option.some_ne_none root), Nat.sub_zero, htaken, hvacant]

end After

/-! ## The chain -/

/-- `ext2_open` stands at inode `x`, which is in slot `i`. -/
structure LinkTree.Opened (v : LinkTree) (env : Env) (s : St) (i : Slot) (x : UInt32) : Prop where
  settled : v.Settled env s
  reads : v.Reads env s.mount
  has : v.has x
  used : s.table.Used i
  notRoot : s.table.rootInode ≠ some i
  slot : v.InSlot x (s.table.inodeTable i)
  cut : CutOff s.name s.nameCap

section Chain

variable {v : LinkTree} {env : Env} {s : St} {i : Slot} {dir x : UInt32} {n : Nat}

/-- The text of a link in its inode is a string that the walk can be made of. -/
theorem LinkTree.Opened.placed (h : v.Opened env s i x) (hlink : (v.inode x).sIslnk = true)
    (hblocks : (v.inode x).iBlocks = 0) :
    v.Placed env s (.inode i) ∧ PathText (s.text (.inode i)) (s.cap (.inode i))
      Inode.iBlockOffset (v.target x).absolute (v.target x).path ∧
      ∀ fuel, ext2FollowLink env fuel s i = ext2Namei env fuel s (.inode i) Inode.iBlockOffset := by
  refine ⟨⟨h.settled, nofun, fun j hj => ?_⟩, ?_, fun fuel => ext2FollowLink_inline ?_ h.cut⟩
  · cases hj
    exact ⟨h.used, h.notRoot⟩
  · have hreads := h.reads x h.has hlink
    rw [if_pos hblocks] at hreads
    show PathText (s.table.inodeTable i).inode inodeSize.toNat _ _ _
    rw [h.slot.1]
    exact hreads.mono (by decide)
  · rw [h.slot.1]
    exact hblocks

/-- **One link.** It is walked from the root. -/
theorem LinkTree.Opened.follow (h : v.Opened env s i x) (hlink : (v.inode x).sIslnk = true)
    (hclear : v.Clear env s.mount x) (hspare : 0 < s.table.spare) :
    ∃ N out s', (∀ fuel, N ≤ fuel → ext2FollowLink env fuel s i = .ok (out, s')) ∧
      v.Finds s' out (v.fromRoot x) ∧
      ∀ i' y, out = some i' → v.fromRoot x = some y →
        v.Opened env s' i' y ∧ s'.mount = s.mount ∧ s'.table.spare + 1 = s.table.spare := by
  obtain ⟨hblocks, hpass, hlive⟩ := hclear
  obtain ⟨hplaced, hpath, hfollow⟩ := h.placed hlink hblocks
  have hready : v.Ready env s (.inode i) := ⟨hplaced, hspare⟩
  obtain ⟨N, out, s', hrun, hfinds⟩ := hready.walks hpath hpass hlive
  refine ⟨N, out, s', fun fuel hfuel => (hfollow fuel).trans (hrun fuel hfuel), hfinds,
    fun i' y hi hy => ?_⟩
  subst hi
  have hrun := hrun N le_rfl
  obtain ⟨hsettled, hused, hroot, hspare'⟩ := hready.settled_after hpath hrun
  have hmount := (ext2Namei_frame hrun fun j hj => (h.settled.root j hj).1).mount
  have hy' : v.walk ext2RootIno (v.target x).path = some y := hy
  rw [hy'] at hfinds
  obtain ⟨j, hj, -, hslot⟩ := hfinds
  cases hj
  exact ⟨⟨hsettled, hmount ▸ h.reads, h.settled.holds.walk_has h.settled.holds.root hy', hused,
    hroot, hslot, ext2Namei_cutOff hrun h.cut⟩, hmount, hspare'⟩

end Chain

/-! ## Opening a path -/

section Open

variable {v : LinkTree} {env : Env} {s : St} {absolute : Bool} {cs : List Name} {dir x : UInt32}
  {n : Nat}

/-- The walk of the name itself. -/
theorem LinkTree.opened (h : v.Ready env s .name) (hreads : v.Reads env s.mount)
    (hpath : PathText s.name s.nameCap 0 absolute cs)
    (hpass : v.Passable env s.mount ext2RootIno cs) (hlive : v.NoDeleted ext2RootIno cs)
    (hx : v.walk ext2RootIno cs = some x) :
    ∃ N i s₁, (∀ fuel, N ≤ fuel → ext2Open env fuel s = openLoop env fuel maxOpenFiles i s₁) ∧
      v.Opened env s₁ i x ∧ s₁.mount = s.mount ∧ s₁.table.spare + 1 = s.table.spare := by
  obtain ⟨N, out, s₁, hrun, hfinds⟩ := h.walks hpath hpass hlive
  rw [hx] at hfinds
  obtain ⟨i, rfl, -, hslot⟩ := hfinds
  have hrun₁ := hrun N le_rfl
  obtain ⟨hsettled, hused, hroot, hspare⟩ := h.settled_after hpath hrun₁
  have hmount := (ext2Namei_frame hrun₁ fun j hj => (h.root j hj).1).mount
  refine ⟨N, i, s₁, fun fuel hfuel => ?_, ⟨hsettled, hmount ▸ hreads,
    h.holds.walk_has h.holds.root hx, hused, hroot, hslot, ext2Namei_cutsOff hrun₁⟩, hmount, hspare⟩
  unfold ext2Open
  rw [hrun fuel hfuel]
  rfl

end Open

/-! ### The links of the small tree -/

section Fuel

variable {env : Env} {fuel fuel' : Nat} {s : St} {res : Option Slot × St}

theorem ext2FollowLink_mono {i : Slot} (h : ext2FollowLink env fuel s i = .ok res)
    (hle : fuel ≤ fuel') : ext2FollowLink env fuel' s i = .ok res := by
  unfold ext2FollowLink at h ⊢
  refine bind_ok_mono (fun _ htext => htext) (fun text h => ?_) h
  obtain ⟨text, s₁⟩ := text
  cases text with
  | none => exact h
  | some text =>
    refine bind_ok_mono (fun _ hc => hc) (fun c h => ?_) h
    split_ifs at h ⊢
    · refine bind_ok_mono (fun _ he => he) (fun e h => ?_) h
      cases e with
      | none => exact ext2Namei_mono h hle
      | some e =>
        refine bind_ok_mono (fun _ hfull => hfull) (fun full h => ?_) h
        cases full with
        | none => exact h
        | some full => exact ext2Namei_mono h hle
    · exact ext2Namei_mono h hle

theorem openLoop_mono {n : Nat} {i : Slot} (h : openLoop env fuel n i s = .ok res)
    (hle : fuel ≤ fuel') : openLoop env fuel' n i s = .ok res := by
  induction n generalizing i s with
  | zero => exact h
  | succ n ih =>
    unfold openLoop at h ⊢
    split_ifs at h ⊢
    · refine bind_ok_mono (fun _ hfollow => ext2FollowLink_mono hfollow hle) (fun next h => ?_) h
      obtain ⟨next, s₁⟩ := next
      cases next with
      | none => exact h
      | some i => exact ih h
    · exact h

end Fuel

end MbBootTv
