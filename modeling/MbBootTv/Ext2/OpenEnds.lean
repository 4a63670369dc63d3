import Mathlib.Data.Finset.Card
import MbBootTv.Ext2.Stages

/-!
# When an open ends

The loop in `ext2_open` that follows links counts nothing. What ends it is the inode table: the
walk along a link's text takes a slot that was free, and the slot of the link itself is never given
back, so after 32 links there is none left for the next one and the walk fails.

Let the scans of directories end on the way of an open, and let the links on the way stand in their
inodes. Then the open ends exactly when nothing else hinders it (`Openable.ends_iff`): an inode
number of a group that is not loaded, or a file without end that is searched for a directory.
-/

namespace MbBootTv

open Relation Stage

/-- `ext2_iget` can do something for inode `ino`: no slot is free for it, or its group is one that
is loaded. -/
def St.Gettable (s : St) (ino : UInt32) : Prop :=
  (∀ i, s.table.Used i) ∨
    s.mount.sb.sInodesPerGroup ≠ 0 ∧ s.mount.groupOf ino < s.mount.gdsCount

namespace Stage

/-- The scan at this stage ends. -/
def ScanEnds (env : Env) (g : Stage) : Prop :=
  ∀ c len, g.component = some c → strlen (g.st.text g.region) (g.st.cap g.region) c = .ok len →
    ∃ fuel ino b, g.search env fuel c len = .ok (ino, b)

/-- What the scan at this stage finds can be got, once the directory is given back. -/
def FindsGettable (env : Env) (g : Stage) : Prop :=
  ∀ c len fuel ino b, g.component = some c →
    strlen (g.st.text g.region) (g.st.cap g.region) c = .ok len →
    g.search env fuel c len = .ok (ino, b) → ¬ sneg ino = true →
      St.Gettable { g.st with bufs := b, table := g.st.table.leave g.dirInode } ino

/-- The link it stands at is inline, and a NUL is behind its text. -/
def Inline (g : Stage) : Prop :=
  g.inode.iBlocks = 0 ∧
    ∃ e, Inode.iBlockOffset ≤ e ∧ e < Inode.iBlockOffset + 4 * ext2NBlocks ∧ g.inode e = 0

end Stage

/-- What is asked of a file system, as far as the open of the name in `s` comes to see it: the
scans of its directories end, and its links are inline. -/
structure Openable (env : Env) (s : St) : Prop where
  scans : ∀ g, Passes env s g → g.inode.sIsdir = true → g.ScanEnds env
  links : ∀ g, Passes env s g → g.component = none → g.inode.sIslnk = true → g.Inline

/-- What else may hinder the open does not: the root can be got, and every inode that is found; and
the scans of what is no directory end, too. -/
structure Unhindered (env : Env) (s : St) : Prop where
  root : s.table.rootInode = none → s.Gettable ext2RootIno
  files : ∀ g, Passes env s g → ¬ g.inode.sIsdir = true → g.ScanEnds env
  found : ∀ g, Passes env s g → g.FindsGettable env

/-- The open of the name in `s` ends. -/
def OpenEnds (env : Env) (s : St) : Prop :=
  ∃ N out s', ∀ fuel, N ≤ fuel → ext2Open env fuel s = .ok (out, s')

theorem Unhindered.scanEnds {env : Env} {s : St} {g : Stage} (h : Unhindered env s)
    (hfs : Openable env s) (hp : Passes env s g) : g.ScanEnds env := by
  by_cases hdir : g.inode.sIsdir = true
  · exact hfs.scans g hp hdir
  · exact h.files g hp hdir

/-! ## A walk ends

The string stays where it is, with its NUL, and every turn takes a token of it. -/

section Walk

variable {env : Env} {s s' : St} {r : Region} {dir : Slot} {g : Stage} {e n : Nat}

/-- A string that is neither in `blkbuf` nor in a slot that changes stays as it is. -/
theorem St.text_of_kept (hname : s'.name = s.name) (hfull : s'.fullname = s.fullname)
    (hblk : r ≠ .blkbuf)
    (hslot : ∀ i, r = .inode i → (s'.table.inodeTable i).inode = (s.table.inodeTable i).inode) :
    s'.text r = s.text r := by
  cases r with
  | name => exact hname
  | fullname => exact hfull
  | blkbuf => exact absurd rfl hblk
  | inode i => exact hslot i rfl

theorem St.cap_of_kept (hcap : s'.nameCap = s.nameCap) : s'.cap r = s.cap r := by
  cases r with
  | name => exact hcap
  | fullname => rfl
  | blkbuf => rfl
  | inode i => rfl

theorem Table.leave_of_ne {t : Table} {i : Slot} (h : i ≠ dir) :
    (t.leave dir).inodeTable i = t.inodeTable i := by
  unfold leave
  split
  · rfl
  · exact iput_of_ne h

/-- A read of an inode ends. -/
theorem St.iget_total (env : Env) {ino : UInt32} (hipg : s.mount.sb.sInodesPerGroup ≠ 0)
    (hgroup : s.mount.groupOf ino < s.mount.gdsCount) :
    ∃ out s', s.iget env ino = .ok (out, s') := by
  unfold St.iget
  cases hfree : s.table.firstFree with
  | none =>
    refine ⟨none, s, ?_⟩
    unfold ext2Iget
    rw [hfree]
    rfl
  | some i =>
    rw [ext2Iget_of_free hfree hipg hgroup]
    cases readBytes env s.bufs (s.mount.inodeOffset (s.mount.groupOf ino) ino) inodeSize with
    | mk data b =>
      cases data with
      | none => exact ⟨none, _, rfl⟩
      | some data => exact ⟨some i, _, rfl⟩

theorem St.iget_ok_iff (env : Env) {ino : UInt32} :
    (∃ out s', s.iget env ino = .ok (out, s')) ↔ s.Gettable ino := by
  constructor
  · rintro ⟨out, s', hget⟩
    by_cases hfull : ∀ i, s.table.Used i
    · exact .inl hfull
    obtain ⟨i, hi⟩ := Table.exists_firstFree (not_forall.mp hfull)
    unfold St.iget ext2Iget at hget
    rw [hi] at hget
    dsimp only at hget
    split_ifs at hget with hipg hgroup
    · cases hget
    · cases hget
    · exact .inr ⟨hipg, not_le.mp hgroup⟩
  · rintro (hfull | ⟨hipg, hgroup⟩)
    · exact ⟨none, s, St.iget_full env ino hfull⟩
    · exact St.iget_total env hipg hgroup

/-- The string of the walk has its NUL at `e`, and is in no slot that the walk gives back. -/
structure Stage.Fits (g : Stage) (e : Nat) : Prop where
  blkbuf : g.region ≠ .blkbuf
  slot : ∀ i, g.region = .inode i → g.st.table.Used i ∧ i ≠ g.dirInode
  inside : e < g.st.cap g.region
  nul : g.st.text g.region e = 0
  component : ∀ c, g.component = some c → c ≤ e
  last : ∀ q, g.last = some q → q ≤ e

/-- The tokenizer has written to the string. -/
theorem Stage.Fits.of_setText {tok last : Option Nat} {mem : Bytes} (hblk : r ≠ .blkbuf)
    (hslot : ∀ i, r = .inode i → s.table.Used i ∧ i ≠ dir) (hin : e < s.cap r) (hmem : mem e = 0)
    (htok : ∀ c, tok = some c → c ≤ e) (hlast : ∀ q, last = some q → q ≤ e) :
    Stage.Fits ⟨r, dir, tok, last, s.setText r mem⟩ e := by
  refine ⟨hblk, fun i hi => ⟨St.setText_used.mpr (hslot i hi).1, (hslot i hi).2⟩, ?_, ?_, htok, hlast⟩
  · show e < (s.setText r mem).cap r
    rw [St.cap_setText]
    exact hin
  · show (s.setText r mem).text r e = 0
    rw [St.text_setText]
    exact hmem

/-- One turn of a walk that finds its component, and has read the inode. -/
theorem Stage.Fits.turn {c : Nat} {last : Option Nat} {ino : UInt32} {b : Bufs} {dir' : Slot}
    {s₁ : St} (h : Stage.Fits ⟨r, dir, some c, last, s⟩ e)
    (hget : St.iget env { s with bufs := b, table := s.table.leave dir } ino =
      .ok (some dir', s₁)) :
    ∃ tok last' mem, strtokSimple (s₁.text r) (s₁.cap r) none last 47 = .ok (tok, last', mem) ∧
      Stage.Fits ⟨r, dir', tok, last', s₁.setText r mem⟩ e ∧
      (tok ≠ none → leftBehind e last' < leftBehind e last) := by
  obtain ⟨hblk, hslot, hin, hnul, -, hlast⟩ := h
  obtain ⟨hm, hname, hcap, hfull, -, htable⟩ := St.iget_spec hget
  rcases htable with ⟨hnone, -⟩ | ⟨i, ip, hi, hfree, -, ht⟩
  · cases hnone
  obtain rfl := Option.some_inj.mp hi
  -- The slot of the string is in use all the time, so the inode does not go there.
  have hkept : ∀ j, r = .inode j → j ≠ dir' ∧ s₁.table.inodeTable j = s.table.inodeTable j := by
    intro j hj
    obtain ⟨hu, hne⟩ := hslot j hj
    have hsame : (s.table.leave dir).inodeTable j = s.table.inodeTable j := Table.leave_of_ne hne
    have hne' : j ≠ dir' := by
      rintro rfl
      refine hfree ?_
      show ((s.table.leave dir).inodeTable j).blFree = false
      rw [hsame]
      exact hu
    rw [ht, Table.set_of_ne hne']
    exact ⟨hne', hsame⟩
  have htext : s₁.text r = s.text r :=
    St.text_of_kept hname hfull hblk fun j hj => congrArg InodeEntry.inode (hkept j hj).2
  have hcap' : s₁.cap r = s.cap r := St.cap_of_kept hcap
  rw [htext, hcap']
  have hfits {tok last' : Option Nat} {mem : Bytes} (hmem : mem e = 0)
      (htok : ∀ c, tok = some c → c ≤ e) (hlast' : ∀ q, last' = some q → q ≤ e) :
      Stage.Fits ⟨r, dir', tok, last', s₁.setText r mem⟩ e := by
    refine .of_setText hblk (fun j hj => ⟨?_, (hkept j hj).1⟩) (hcap' ▸ hin) hmem htok hlast'
    show (s₁.table.inodeTable j).blFree = false
    rw [(hkept j hj).2]
    exact (hslot j hj).1
  cases last with
  | none => exact ⟨none, none, s.text r, rfl, hfits hnul nofun nofun, fun hne => absurd rfl hne⟩
  | some q =>
    have hq : q ≤ e := hlast q rfl
    obtain ⟨c', last', mem, htok, hmem, hc', hlast', hleft⟩ :=
      strtokSimple_of_nul hin hnul (show (none <|> some q) = some q from rfl) hq
    refine ⟨some c', last', mem, htok, hfits hmem ?_ hlast', fun _ => ?_⟩
    · rintro _ ⟨⟩
      exact hc'
    · show leftBehind e last' < e + 1 - q
      omega

/-- The walk behind the search for a component. -/
theorem nameiLoop_found {c len fuel fuel' : Nat} {last : Option Nat} {ino : UInt32} {b : Bufs}
    (hlen : strlen (s.text r) (s.cap r) c = .ok len)
    (hsearch : search env fuel ⟨r, dir, some c, last, s⟩ c len = .ok (ino, b)) (hle : fuel ≤ fuel') :
    nameiLoop env fuel' r (n + 1) dir (some c) last s = (do
      let s := { s with bufs := b, table := s.table.leave dir }
      if sneg ino then return (none, s)
      let (ip, s) ← s.iget env ino
      match ip with
      | none => return (none, s)
      | some dir => do
        let (component, last, mem) ← strtokSimple (s.text r) (s.cap r) none last 47
        nameiLoop env fuel' r n dir component last (s.setText r mem)) := by
  rw [nameiLoop_some, hlen, ok_bind]
  exact congrArg (· >>= _) (nameiSearch_mono hsearch hle)

/-- **A walk ends** if every scan on its way does, and what is found can be got. -/
theorem Stage.Fits.loop (h : g.Fits e) (hn : g.component ≠ none → leftBehind e g.last < n)
    (hscan : ∀ g', ReflTransGen (Next env) g g' → g'.ScanEnds env ∧ g'.FindsGettable env) :
    ∃ fuel out s', g.loop env fuel n = .ok (out, s') := by
  induction n generalizing g with
  | zero =>
    obtain ⟨r, dir, tok, last, s⟩ := g
    cases tok with
    | none => exact ⟨0, some dir, s, rfl⟩
    | some c => exact absurd (hn (Option.some_ne_none c)) (Nat.not_lt_zero _)
  | succ n ih =>
    obtain ⟨r, dir, tok, last, s⟩ := g
    cases tok with
    | none => exact ⟨0, some dir, s, rfl⟩
    | some c =>
      obtain ⟨len, hlen⟩ := strlen_of_nul h.inside h.nul (h.component c rfl)
      obtain ⟨hends, hfound⟩ := hscan _ .refl
      obtain ⟨fuel, ino, b, hsearch⟩ := hends c len rfl hlen
      have hstep (fuel' : Nat) (hle : fuel ≤ fuel') :=
        nameiLoop_found (n := n) hlen hsearch hle
      by_cases hneg : sneg ino = true
      · exact ⟨fuel, none, _, (hstep fuel le_rfl).trans (if_pos hneg)⟩
      · obtain ⟨ip, s₁, hget⟩ := (St.iget_ok_iff env).mpr
          (hfound c len fuel ino b rfl hlen hsearch hneg)
        cases ip with
        | none =>
          refine ⟨fuel, none, s₁, (hstep fuel le_rfl).trans ((if_neg hneg).trans ?_)⟩
          dsimp only
          rw [hget]
          rfl
        | some dir' =>
          obtain ⟨tok, last', mem, htok, hfits, hless⟩ := h.turn hget
          have hnext : Next env ⟨r, dir, some c, last, s⟩ ⟨r, dir', tok, last', s₁.setText r mem⟩ :=
            .component hlen hsearch hneg hget htok
          obtain ⟨fuel', out, s', hrest⟩ := ih hfits
            (fun hne => (hless hne).trans_le (Nat.le_of_lt_succ (hn (Option.some_ne_none c))))
            fun g' hg' => hscan g' (.head hnext hg')
          refine ⟨max fuel fuel', out, s', (hstep _ (le_max_left fuel fuel')).trans
            ((if_neg hneg).trans ?_)⟩
          dsimp only
          rw [hget]
          simp only [ok_bind]
          rw [htok]
          exact nameiLoop_mono hrest (le_max_right fuel fuel')

theorem loadRoot_ok_iff (env : Env) : (∃ s₁, MbBootTv.loadRoot env s = .ok s₁) ↔
    (s.table.rootInode = none → s.Gettable ext2RootIno) := by
  unfold MbBootTv.loadRoot
  cases s.table.rootInode with
  | some root => exact iff_of_true ⟨s, rfl⟩ nofun
  | none =>
    rw [forall_prop_of_true rfl, ← St.iget_ok_iff env]
    constructor
    · rintro ⟨s₁, hload⟩
      obtain ⟨⟨ip, s₂⟩, hget, -⟩ := bind_eq_ok.mp hload
      exact ⟨ip, s₂, hget⟩
    · rintro ⟨ip, s₁, hget⟩
      dsimp only
      rw [hget]
      exact ⟨_, rfl⟩

/-- A string that can be walked: it ends at `e`, in no slot that is free or the root's. -/
structure St.Ready (s : St) (r : Region) (name e : Nat) : Prop where
  root : s.table.rootInode = none → s.Gettable ext2RootIno
  blkbuf : r ≠ .blkbuf
  slot : ∀ i, r = .inode i → s.table.Used i ∧ s.table.rootInode ≠ some i
  inside : e < s.cap r
  nul : s.text r e = 0
  le : name ≤ e

/-- The root is loaded, and the string is where it was. -/
theorem St.Ready.loadRoot {name : Nat} {s₁ : St} {root : Slot} (h : s.Ready r name e)
    (hload : MbBootTv.loadRoot env s = .ok s₁) (hroot : s₁.table.rootInode = some root) :
    s₁.text r = s.text r ∧ s₁.cap r = s.cap r ∧ ∀ i, r = .inode i → s₁.table.Used i ∧ i ≠ root := by
  obtain ⟨hm, hname, hcap, hfull, -, htable⟩ := loadRoot_spec hload
  have hkept : ∀ i, r = .inode i →
      s₁.table.inodeTable i = s.table.inodeTable i ∧ i ≠ root := by
    intro i hi
    obtain ⟨hu, hne⟩ := h.slot i hi
    rcases htable with ht | ⟨j, ip, -, hfree, -, ht⟩
    · rw [ht] at hroot ⊢
      exact ⟨rfl, fun hir => hne (hir ▸ hroot)⟩
    · have hij : i ≠ j := fun hij => hfree (hij ▸ hu)
      rw [ht] at hroot ⊢
      exact ⟨Table.set_of_ne hij, fun hir => hij (hir.trans (Option.some_inj.mp hroot).symm)⟩
  refine ⟨St.text_of_kept hname hfull h.blkbuf fun i hi => congrArg InodeEntry.inode (hkept i hi).1,
    St.cap_of_kept hcap, fun i hi => ⟨?_, (hkept i hi).2⟩⟩
  show (s₁.table.inodeTable i).blFree = false
  rw [(hkept i hi).1]
  exact (h.slot i hi).1

/-- **`ext2_namei` ends.** -/
theorem St.Ready.namei {name : Nat} (h : s.Ready r name e)
    (hscan : ∀ g₀ g, Begins env s r name g₀ → ReflTransGen (Next env) g₀ g →
      g.ScanEnds env ∧ g.FindsGettable env) :
    ∃ fuel out s', ext2Namei env fuel s r name = .ok (out, s') := by
  obtain ⟨s₁, hload⟩ := (loadRoot_ok_iff env).mpr h.root
  cases hroot : s₁.table.rootInode with
  | none =>
    refine ⟨0, none, s₁, ?_⟩
    unfold ext2Namei
    rw [hload, ok_bind, hroot]
    rfl
  | some root =>
    obtain ⟨htext, hcap, hslot⟩ := h.loadRoot hload hroot
    have hin : e < s₁.cap r := hcap ▸ h.inside
    obtain ⟨c, last, mem, htok, hmem, hc, hlast, hleft⟩ := strtokSimple_of_nul hin
      (htext ▸ h.nul) (show (some name <|> none) = some name from rfl) h.le
    have hbegins : Begins env s r name ⟨r, root, some c, last, s₁.setText r mem⟩ :=
      .root hload hroot htok
    have hfits : Stage.Fits ⟨r, root, some c, last, s₁.setText r mem⟩ e := by
      refine .of_setText h.blkbuf hslot hin hmem ?_ hlast
      rintro _ ⟨⟩
      exact hc
    obtain ⟨fuel, out, s', hrun⟩ := hfits.loop (n := (s₁.setText r mem).cap r + 1)
      (fun _ => by
        rw [St.cap_setText]
        show leftBehind e last < _
        omega)
      fun g hg => hscan _ g hbegins hg
    exact ⟨fuel, out, s', hbegins.namei.trans hrun⟩

end Walk

/-! ## The open ends

Every link that is followed takes a slot for good. -/

section Open

variable {env : Env} {s s' s₁ : St} {r : Region} {i j : Slot} {g : Stage} {n fuel : Nat}

theorem Table.vacant_lt {t t' : Table} (h : ∀ i, t.Used i → t'.Used i) (hj : ¬ t.Used j)
    (hj' : t'.Used j) : t'.vacant < t.vacant := by
  refine Finset.card_lt_card ((Finset.ssubset_iff_of_subset fun i hi => ?_).mpr ⟨j, ?_, ?_⟩)
  · exact Finset.mem_filter.mpr ⟨Finset.mem_univ i,
      fun hu => (Finset.mem_filter.mp hi).2 (h i hu)⟩
  · exact Finset.mem_filter.mpr ⟨Finset.mem_univ j, hj⟩
  · exact fun hmem => (Finset.mem_filter.mp hmem).2 hj'

theorem Table.vacant_le (t : Table) : t.vacant ≤ maxOpenFiles := by
  have hcard := Finset.card_filter_le (Finset.univ : Finset Slot) fun i => ¬ t.Used i
  rwa [Finset.card_univ, Fintype.card_fin] at hcard

/-- A walk that returns an inode has taken a slot. -/
theorem NameiStep.vacant_lt (h : NameiStep env r s s' (some i)) :
    s'.table.vacant < s.table.vacant :=
  Table.vacant_lt (fun j hj => (h.used j).mpr (.inl hj)) (h.fresh i rfl)
    ((h.used i).mpr (.inr (.inr rfl)))

/-- The open stands at an inode, in a slot that is its own. -/
structure Stage.Stood (env : Env) (s : St) (g : Stage) : Prop where
  passes : Passes env s g
  ended : g.component = none
  rootUsed : g.st.table.RootUsed
  used : g.st.table.Used g.dirInode
  notRoot : g.st.table.rootInode ≠ some g.dirInode

/-- The walk of the name comes to an inode. -/
theorem Stage.Stood.of_namei (h : ext2Namei env fuel s .name 0 = .ok (some i, s₁))
    (hroot : s.table.RootUsed) : ∃ g : Stage, g.Stood env s ∧ g.dirInode = i ∧ g.st = s₁ := by
  have hframe := ext2Namei_frame h hroot
  obtain ⟨g₀, last, hbegins, hrun⟩ := ext2Namei_passes h
  exact ⟨⟨.name, i, none, last, s₁⟩, ⟨⟨g₀, hbegins, hrun⟩, rfl, hframe.rootUsed,
    (hframe.used i).mpr (.inr (.inr rfl)), hframe.notRoot i rfl⟩, rfl, rfl⟩

/-- A link on the way is walked in its inode. -/
theorem Openable.linkText (h : Openable env s) (hp : Passes env s g) (hover : g.component = none)
    (hlink : g.inode.sIslnk = true) :
    MbBootTv.linkText env g.st g.dirInode =
      .ok (some (.inode g.dirInode, Inode.iBlockOffset), g.st) := by
  have hblocks : (g.st.table.inodeTable g.dirInode).inode.iBlocks = 0 :=
    (h.links g hp hover hlink).1
  unfold MbBootTv.linkText
  dsimp only
  rw [if_neg (not_not.mpr hblocks)]

/-- Following a link is a walk of its inode. -/
theorem Stage.Stood.follow_eq (hg : g.Stood env s) (hlink : g.inode.sIslnk = true)
    (h : Openable env s) (fuel : Nat) : ext2FollowLink env fuel g.st g.dirInode =
      ext2Namei env fuel g.st (.inode g.dirInode) Inode.iBlockOffset :=
  ext2FollowLink_inline (h.links g hg.passes hg.ended hlink).1 hg.passes.keeps.cut

/-- Following a link ends. -/
theorem Stage.Stood.follow_ends (hg : g.Stood env s) (hlink : g.inode.sIslnk = true)
    (h : Openable env s) (hfree : Unhindered env s) :
    ∃ fuel out s', ext2FollowLink env fuel g.st g.dirInode = .ok (out, s') := by
  obtain ⟨-, e, hle, hlt, hnul⟩ := h.links g hg.passes hg.ended hlink
  have hready : g.st.Ready (.inode g.dirInode) Inode.iBlockOffset e := by
    refine ⟨fun hnone => absurd hnone hg.passes.keeps.root, nofun, fun i hi => ?_, ?_, hnul, hle⟩
    · cases hi
      exact ⟨hg.used, hg.notRoot⟩
    · exact hlt.trans_le (show Inode.iBlockOffset + 4 * ext2NBlocks ≤ inodeSize.toNat by decide)
  obtain ⟨fuel, out, s', hrun⟩ := hready.namei fun g₀ g' hbegins hpassed =>
    have hp := hg.passes.link hg.ended hlink (h.linkText hg.passes hg.ended hlink) hbegins hpassed
    ⟨hfree.scanEnds h hp, hfree.found g' hp⟩
  exact ⟨fuel, out, s', (hg.follow_eq hlink h fuel).trans hrun⟩

/-- The open stands at what is found at the end of a link, and has one slot less for the next. -/
theorem Stage.Stood.follow (hg : g.Stood env s) (hlink : g.inode.sIslnk = true)
    (h : Openable env s) (hrun : ext2FollowLink env fuel g.st g.dirInode = .ok (some j, s')) :
    ∃ g' : Stage, g'.Stood env s ∧ g'.dirInode = j ∧ g'.st = s' ∧
      s'.table.vacant < g.st.table.vacant := by
  obtain ⟨r, last, hpassed⟩ := hg.passes.follow hg.ended hlink hrun
  rw [hg.follow_eq hlink h] at hrun
  have hframe := ext2Namei_frame hrun hg.rootUsed
  exact ⟨⟨r, j, none, last, s'⟩, ⟨hpassed, rfl, hframe.rootUsed,
    (hframe.used j).mpr (.inr (.inr rfl)), hframe.notRoot j rfl⟩, rfl, rfl, hframe.vacant_lt⟩

/-- **The loop that follows links ends**, for want of slots if for nothing else. -/
theorem Openable.openLoop (h : Openable env s) (hfree : Unhindered env s) (hg : g.Stood env s)
    (hn : g.st.table.vacant < n) :
    ∃ fuel out s', MbBootTv.openLoop env fuel n g.dirInode g.st = .ok (out, s') := by
  induction n generalizing g with
  | zero => exact absurd hn (Nat.not_lt_zero _)
  | succ n ih =>
    by_cases hlink : g.inode.sIslnk = true
    · obtain ⟨fuel, out, s₁, hfollow⟩ := hg.follow_ends hlink h hfree
      have hstep (fuel' : Nat) (hle : fuel ≤ fuel') :
          MbBootTv.openLoop env fuel' (n + 1) g.dirInode g.st =
            out.elim (.ok (none, s₁)) fun i => MbBootTv.openLoop env fuel' n i s₁ := by
        have hlink' : (g.st.table.inodeTable g.dirInode).inode.sIslnk = true := hlink
        rw [MbBootTv.openLoop, if_pos hlink', ext2FollowLink_mono hfollow hle]
        cases out <;> rfl
      cases out with
      | none => exact ⟨fuel, none, s₁, hstep fuel le_rfl⟩
      | some j =>
        obtain ⟨g', hg', rfl, rfl, hless⟩ := hg.follow hlink h hfollow
        obtain ⟨fuel', out, s', hrest⟩ := ih hg' (hless.trans_le (Nat.le_of_lt_succ hn))
        exact ⟨max fuel fuel', out, s', (hstep _ (le_max_left fuel fuel')).trans
          (openLoop_mono hrest (le_max_right fuel fuel'))⟩
    · exact ⟨0, some g.dirInode, g.st, openLoop_of_file (Bool.eq_false_of_not_eq_true hlink)⟩

/-- **`ext2_open` ends** when nothing hinders it. -/
theorem Openable.ends (h : Openable env s) (hfree : Unhindered env s) (hroot : s.table.RootUsed)
    {e : Nat} (he : e < s.nameCap) (hnul : s.name e = 0) : OpenEnds env s := by
  have hready : s.Ready .name 0 e := ⟨hfree.root, nofun, nofun, he, hnul, Nat.zero_le e⟩
  obtain ⟨fuel, out, s₁, hnamei⟩ := hready.namei fun g₀ g hbegins hrun =>
    have hp : Passes env s g := ⟨g₀, hbegins, hrun⟩
    ⟨hfree.scanEnds h hp, hfree.found g hp⟩
  have hstep (fuel' : Nat) (hle : fuel ≤ fuel') : ext2Open env fuel' s =
      out.elim (.ok (none, s₁)) fun i => MbBootTv.openLoop env fuel' maxOpenFiles i s₁ := by
    unfold ext2Open
    rw [ext2Namei_mono hnamei hle]
    cases out <;> rfl
  cases out with
  | none => exact ⟨fuel, none, s₁, hstep⟩
  | some i =>
    obtain ⟨g, hg, rfl, rfl⟩ := Stage.Stood.of_namei hnamei hroot
    obtain ⟨fuel', out, s', hrest⟩ := h.openLoop hfree hg
      ((ext2Namei_frame hnamei hroot).vacant_lt.trans_le (Table.vacant_le s.table))
    refine ⟨max fuel fuel', out, s', fun n hn => ?_⟩
    exact (hstep n ((le_max_left fuel fuel').trans hn)).trans
      (openLoop_mono hrest ((le_max_right fuel fuel').trans hn))

/-- At a stage that is passed by an open that ends, the scan ends, and what it finds can be got. -/
theorem Stage.Passes.turn {c len : Nat} {res : Option Slot × St} (hp : Passes env s g)
    (hopen : ext2Open env fuel s = .ok res) (hc : g.component = some c)
    (hlen : strlen (g.st.text g.region) (g.st.cap g.region) c = .ok len) :
    ∃ ino b, g.search env fuel c len = .ok (ino, b) ∧ (¬ sneg ino = true →
      St.Gettable { g.st with bufs := b, table := g.st.table.leave g.dirInode } ino) := by
  obtain ⟨turns, n, hfinish⟩ := hp.finish hopen
  obtain ⟨_, hloop, -⟩ := bind_eq_ok.mp hfinish
  obtain ⟨r, dir, tok, last, s₁⟩ := g
  obtain rfl : tok = some c := hc
  unfold Stage.loop at hloop
  cases turns with
  | zero => cases hloop
  | succ turns =>
    rw [nameiLoop_some] at hloop
    obtain ⟨len', hlen', hloop⟩ := bind_eq_ok.mp hloop
    cases hlen.symm.trans hlen'
    obtain ⟨⟨ino, b⟩, hsearch, hloop⟩ := bind_eq_ok.mp hloop
    refine ⟨ino, b, hsearch, fun hneg => ?_⟩
    dsimp only at hloop
    rw [if_neg hneg] at hloop
    obtain ⟨⟨out, s₂⟩, hget, -⟩ := bind_eq_ok.mp hloop
    exact (St.iget_ok_iff env).mp ⟨out, s₂, hget⟩

end Open

end MbBootTv
