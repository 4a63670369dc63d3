import Mathlib.Logic.Relation
import MbBootTv.Ext2.OpenEnds
import MbBootTv.Ext2.Session

/-!
# Links in cycles

Links whose texts lead round in a circle denote nothing (`LinkTree.resolve_of_cycle`), and the open
of one of them should fail. It does where the links lead round as `ext2_open` takes them, each from
the root: then the slots run out. Where that chain comes to a file, the file is opened
(`LinkTree.opensTo_of_path`).

`ext2Open_ends` says both of an open from any state that calls have led to: when it ends, and when
it returns nothing for a path into a cycle.
-/

namespace MbBootTv

open Relation Stage

namespace LinkTree

/-- Link `p.2` in directory `p.1` is for inode `q.2` in directory `q.1`. -/
def Leads (v : LinkTree) (p q : UInt32 × UInt32) : Prop :=
  (v.inode p.2).sIslnk = true ∧ v.denotes p.1 p.2 = some q.2 ∧ v.parent p.1 p.2 = some q.1

/-- The links from `x` in directory `dir` on lead into a cycle. -/
def LeadsIntoCycle (v : LinkTree) (dir x : UInt32) : Prop :=
  ∃ p, ReflTransGen v.Leads (dir, x) p ∧ TransGen v.Leads p p

end LinkTree

/-! ## The open of a link -/

section Open

variable {v : LinkTree} {env : Env} {s : St} {name : Bytes} {cap n : Nat} {dir x : UInt32}

theorem LinkTree.LeadsIntoCycle.isLink (h : v.LeadsIntoCycle dir x) :
    (v.inode x).sIslnk = true := by
  obtain ⟨p, hrun, hloop⟩ := h
  rcases hrun.cases_head with rfl | ⟨q, hstep, -⟩
  · obtain ⟨q, hstep, -⟩ := TransGen.head'_iff.mp hloop
    exact hstep.1
  · exact hstep.1

/-- A chain of links that never leaves the links comes to nothing. -/
theorem LinkTree.resolve_of_cycle (h : v.LeadsIntoCycle dir x) : v.resolve n dir x = none := by
  induction n generalizing dir x with
  | zero => exact if_pos h.isLink
  | succ n ih =>
    obtain ⟨p, hrun, hloop⟩ := h
    -- One link on, the cycle is still ahead.
    obtain ⟨q, hstep, hrest⟩ : ∃ q, v.Leads (dir, x) q ∧ ReflTransGen v.Leads q p := by
      rcases hrun.cases_head with rfl | ⟨q, hstep, hrest⟩
      · exact TransGen.head'_iff.mp hloop
      · exact ⟨q, hstep, hrest⟩
    obtain ⟨hlink, hdenotes, hparent⟩ := hstep
    have hlink : (v.inode x).sIslnk = true := hlink
    have hdenotes : v.denotes dir x = some q.2 := hdenotes
    have hparent : v.parent dir x = some q.1 := hparent
    rw [LinkTree.resolve, if_pos hlink, hdenotes, hparent]
    exact ih ⟨p, hrest, hloop⟩

end Open

/-! ## The slot of the root

No call gives it back, whatever descriptor it names. -/

/-- What a call changes, as far as the buffers and the root are concerned. -/
structure RootKept (env : Env) (s s' : St) : Prop where
  mount : s'.mount = s.mount
  bufs : BufStep env s.mount s.bufs s'.bufs
  rootUsed : s'.table.RootUsed
  kept : ∀ i, s.table.rootInode = some i → s'.table.rootInode = some i ∧
    ((s.table.inodeTable i).inode.sIslnk = false →
      (s'.table.inodeTable i).inode = (s.table.inodeTable i).inode ∧
        (s'.table.inodeTable i).inumber = (s.table.inodeTable i).inumber)
  loaded : ∀ i, s.table.rootInode = none → s'.table.rootInode = some i →
    (∀ ip, inodeAt env s.mount ext2RootIno = some ip → ip.sIslnk = false) →
    (s'.table.inodeTable i).Loaded env s.mount ext2RootIno

section Session

variable {env : Env} {s s' : St} {i : Slot} {b : Bufs} {pos : UInt32}

/-- A position moves. -/
theorem RootKept.moved (h : RootKept env s s') (hb : BufStep env s'.mount s'.bufs b) :
    RootKept env s (s'.moved b i pos) := by
  have hentry (j : Slot) : ((s'.moved b i pos).table.inodeTable j).inode =
      (s'.table.inodeTable j).inode ∧ ((s'.moved b i pos).table.inodeTable j).inumber =
        (s'.table.inodeTable j).inumber := by
    by_cases hij : j = i
    · subst hij
      rw [St.moved_same]
      exact ⟨rfl, rfl⟩
    · rw [St.moved_of_ne hij]
      exact ⟨rfl, rfl⟩
  refine ⟨h.mount, h.bufs.trans (h.mount ▸ hb), fun j hj => St.moved_used.mpr (h.rootUsed j hj),
    fun j hj => ?_, fun j hnone hj hfile => ?_⟩
  · obtain ⟨hroot, hsame⟩ := h.kept j hj
    refine ⟨hroot, fun hfile => ?_⟩
    rw [(hentry j).1, (hentry j).2]
    exact hsame hfile
  · unfold InodeEntry.Loaded
    rw [(hentry j).1, (hentry j).2]
    exact h.loaded j hnone hj hfile

theorem Inode.not_link_of_dir {ip : Inode} (h : ip.sIsdir = true) : ip.sIslnk = false := by
  unfold Inode.sIsdir at h
  unfold Inode.sIslnk
  rw [of_decide_eq_true h]
  rfl

end Session

/-! ### Links to themselves

In the root of a small tree is a link `f` to itself, and in a directory `d` a link `g` to itself; but
there is a file `g` in the root, too. -/

/-- The sectors. -/
def selfMedium (l : UInt64) : Bytes :=
  match l.toNat with
  | 2 => smallSuper 32 8192 8
  | 4 => zeros.putLe 8 4 3
  | 6 => ((zeros.copy 128 (smallInode 0x41ED 1024 0 4) 128).copy 256 (linkInode 0 1 102) 128).copy
      384 (smallInode 0x41ED 1024 0 6) 128
  | 7 => (zeros.copy 0 (linkInode 0 1 103) 128).copy 128 (smallInode 0x81A4 5 0 0) 128
  | 8 => putEntry (putEntry (putEntry zeros 0 12 3 102) 12 12 4 100) 24 1000 6 103
  | 12 => putEntry zeros 0 1024 5 103
  | _ => zeros

def selfEnv : Env := wholeEnv smallPart selfMedium

/-- The tree, as it is mounted. -/
def selfTree (m : Mount) : LinkTree where
  has x := x ∈ [2, 3, 4, 5, 6]
  inode x := (inodeAt selfEnv m x).getD zeros
  entries x := if x = 2 then [⟨[102], 3⟩, ⟨[100], 4⟩, ⟨[103], 6⟩] else [⟨[103], 5⟩]
  target x := if x = 3 then ⟨false, [[102]]⟩ else ⟨false, [[103]]⟩

theorem self_check :
    holds (ext2fsFsOpen selfEnv none) (fun
      | (r, some s) => let v := selfTree s.mount
        r = 0 && s.mount.bs ≤ ext2MaxBlockSize &&
        v.check selfEnv s.mount [2, 3, 4, 5, 6] (fun x => if x = 2 then [0, 12, 24] else [0]) &&
        ([2, 4].all fun x => (v.inode x).sIsdir) &&
        ([3, 5].all fun x => (v.inode x).sIslnk && (v.inode x).iBlocks = 0) &&
        (v.inode 6).sIslnk = false &&
        (v.inode 3).slice 40 2 = [102, 0] && (v.inode 5).slice 40 2 = [103, 0]
      | _ => false) = true := by decide +kernel

/-- The file system as it is mounted. -/
structure SelfLinked (m : Mount) : Prop where
  small : (selfTree m).Small selfEnv m [2, 3, 4, 5, 6]
  dirs : ∀ x ∈ [2, 4], ((selfTree m).inode x).sIsdir = true
  links : ∀ x ∈ [3, 5], ((selfTree m).inode x).sIslnk = true ∧ ((selfTree m).inode x).iBlocks = 0
  file : ((selfTree m).inode 6).sIslnk = false
  texts : ((selfTree m).inode 3 40 = 102 ∧ (selfTree m).inode 3 41 = 0) ∧
    (selfTree m).inode 5 40 = 103 ∧ (selfTree m).inode 5 41 = 0

theorem self_mounted :
    ∃ s₀, ext2fsFsOpen selfEnv none = .ok (0, some s₀) ∧ SelfLinked s₀.mount := by
  obtain ⟨⟨r, w⟩, hopen, hp⟩ := holds_iff.mp self_check
  cases w with
  | none => cases hp
  | some s =>
    simp only [Bool.and_eq_true, decide_eq_true_iff] at hp
    obtain ⟨⟨⟨⟨⟨⟨⟨rfl, hbs⟩, hcheck⟩, hdirs⟩, hlinks⟩, hfile⟩, h3⟩, h5⟩ := hp
    have hm : s.mount.Sound := (ext2fsFsOpen_spec hopen).sound hbs
    refine ⟨s, hopen, Volume.check_small hm (fun _ => Iff.rfl) (fun _ => rfl) hcheck,
      fun x hx => List.all_eq_true.mp hdirs x hx, fun x hx => ?_, hfile, ?_, ?_⟩
    · simpa only [Bool.and_eq_true, decide_eq_true_iff] using List.all_eq_true.mp hlinks x hx
    · simpa [Bytes.slice, List.range_succ] using h3
    · simpa [Bytes.slice, List.range_succ] using h5

section Tree

variable {m : Mount} {x : UInt32}

theorem SelfLinked.inodeAt (hm : SelfLinked m) (x : UInt32) (hx : x ∈ [2, 3, 4, 5, 6]) :
    MbBootTv.inodeAt selfEnv m x = some ((selfTree m).inode x) := by
  refine hm.small.holds.inodeAt hm.small.sound hx ?_ (hm.small.reach x hx)
  rintro rfl
  exact absurd hx (by decide)

/-- Of its inodes, these are the links. -/
theorem SelfLinked.links_of (hm : SelfLinked m) (hx : x ∈ [2, 3, 4, 5, 6])
    (hlink : ((selfTree m).inode x).sIslnk = true) : x = 3 ∨ x = 5 := by
  have hdir (y : UInt32) (hy : y ∈ [2, 4]) : ¬ x = y := by
    rintro rfl
    rw [Inode.not_link_of_dir (hm.dirs x hy)] at hlink
    cases hlink
  have hfile : ¬ x = 6 := by
    rintro rfl
    rw [hm.file] at hlink
    cases hlink
  have h2 := hdir 2 (by decide)
  have h4 := hdir 4 (by decide)
  simp only [List.mem_cons, List.not_mem_nil, or_false] at hx
  tauto

theorem SelfLinked.reads (hm : SelfLinked m) : (selfTree m).Reads selfEnv m := by
  intro x hx hlink
  have htext {y : UInt32} {c : UInt8} (hc : c ≠ 0 ∧ c ≠ 47) (h0 : (selfTree m).inode y 40 = c)
      (h1 : (selfTree m).inode y 41 = 0) : PathText ((selfTree m).inode y)
        (Inode.iBlockOffset + 4 * ext2NBlocks) Inode.iBlockOffset false [[c]] :=
    PathAt.last (nameAt_letter hc h0 (by decide)) h1
  rcases hm.links_of hx hlink with rfl | rfl
  · rw [if_pos (hm.links 3 (by decide)).2]
    exact htext (by decide) hm.texts.1.1 hm.texts.1.2
  · rw [if_pos (hm.links 5 (by decide)).2]
    exact htext (by decide) hm.texts.2.1 hm.texts.2.2

/-- A name in the root. -/
theorem SelfLinked.walk_root (hm : SelfLinked m) {c : Name} {e : Entry}
    (hlook : (selfTree m).lookup ext2RootIno c = some e)
    (he : e.ino ∈ [2, 3, 4, 5, 6] ∧ e.ino.toNat < 2 ^ 31) :
    (selfTree m).walk ext2RootIno [c] = some e.ino ∧
      (selfTree m).Passable selfEnv m ext2RootIno [c] := by
  have hroot : ((selfTree m).inode ext2RootIno).sIsdir = true := hm.dirs 2 (by decide)
  refine ⟨?_, hm.small.passable (by decide) hroot hlook he trivial⟩
  rw [Volume.walk, if_pos hroot, hlook]
  rfl

theorem self_live {c : Name} {e : Entry}
    (hfind : findEntry c ((selfTree m).entries ext2RootIno) = some e) (he : e.ino ≠ 0) :
    (selfTree m).NoDeleted ext2RootIno [c] := by
  intro e' he'
  cases hfind.symm.trans he'
  exact ⟨he, trivial⟩

/-- The link `f` leads to itself, also from the root. -/
theorem SelfLinked.fromRoot (hm : SelfLinked m) : (selfTree m).fromRoot 3 = some 3 :=
  (hm.walk_root (e := ⟨[102], 3⟩) rfl (by decide)).1

theorem SelfLinked.rootEnd (hm : SelfLinked m) (n : Nat) :
    (selfTree m).rootEnd n 3 = none ∧ (selfTree m).RootClear selfEnv m n 3 := by
  obtain ⟨hlink, hblocks⟩ := hm.links 3 (by decide)
  have hclear : (selfTree m).Clear selfEnv m 3 :=
    ⟨hblocks, (hm.walk_root (e := ⟨[102], 3⟩) rfl (by decide)).2,
      self_live (e := ⟨[102], 3⟩) rfl (by decide)⟩
  induction n with
  | zero => exact ⟨if_pos hlink, fun _ => hclear⟩
  | succ n ih =>
    refine ⟨?_, fun _ => ⟨hclear, fun y hy => ?_⟩⟩
    · rw [LinkTree.rootEnd, if_pos hlink, hm.fromRoot]
      exact ih.1
    · obtain rfl := Option.some.inj (hm.fromRoot.symm.trans hy)
      exact ih.2

end Tree

/-- Where an open of `f` can stand: at the root before `f`, or at the link. -/
structure SelfStage (m : Mount) (g : Stage) : Prop where
  mount : g.st.mount = m
  coherent : g.st.bufs.Coherent m (blockAt selfEnv m)
  root : ∃ i, g.st.table.rootInode = some i ∧ g.st.table.Used i ∧
    (g.st.table.inodeTable i).inode = (selfTree m).inode 2
  before : ∀ c, g.component = some c → g.st.table.rootInode = some g.dirInode ∧ g.last = none ∧
    g.region.Apart g.st.table.Used g.dirInode ∧
    NameAt (g.st.text g.region) (g.st.cap g.region) c [102] ∧ g.st.text g.region (c + 1) = 0
  ended : g.component = none → g.inode = (selfTree m).inode 3 ∧ g.inumber = 3 ∧
    g.st.table.Used g.dirInode ∧ g.st.table.rootInode ≠ some g.dirInode

section Self

variable {m : Mount} {g g' : Stage} {s s₁ : St} {r : Region} {root : Slot} {name : Nat}

/-- Before `f`, at the root. -/
theorem SelfStage.of_text {tok last : Option Nat} {mem : Bytes} (hmount : s₁.mount = m)
    (hcoherent : s₁.bufs.Coherent m (blockAt selfEnv m)) (hroot : s₁.table.rootInode = some root)
    (hused : s₁.table.Used root) (hinode : (s₁.table.inodeTable root).inode = (selfTree m).inode 2)
    (hapart : r.Apart s₁.table.Used root) (hcap : name + 1 < s₁.cap r)
    (htext : s₁.text r name = 102 ∧ s₁.text r (name + 1) = 0)
    (htok : strtokSimple (s₁.text r) (s₁.cap r) (some name) none 47 = .ok (tok, last, mem)) :
    SelfStage m ⟨r, root, tok, last, s₁.setText r mem⟩ := by
  have hpath : PathAt (s₁.text r) (s₁.cap r) name [[102]] :=
    .last (nameAt_letter (by decide) htext.1 hcap) htext.2
  obtain ⟨last', mem', htok', hcut⟩ := hpath.strtokSimple
    (show (some name <|> none) = some name from rfl)
  cases htok.symm.trans htok'
  have hne : r ≠ .inode root := by
    rintro rfl
    exact hapart.2 rfl
  have hmem : (s₁.setText r mem).text r = mem := St.text_setText
  have hcap' : (s₁.setText r mem).cap r = s₁.cap r := St.cap_setText
  have hused' : ∀ i, (s₁.setText r mem).table.Used i ↔ s₁.table.Used i := fun i => St.setText_used
  refine ⟨?_, ?_, ⟨root, ?_, (hused' root).mpr hused, ?_⟩, fun c hc => ⟨?_, ?_, ?_, ?_⟩, nofun⟩
  · exact St.setText_mount.trans hmount
  · subst hmount
    exact St.setText_step.coherent (Agrees.refl selfEnv s₁.mount) hcoherent
  · exact St.setText_rootInode.trans hroot
  · show ((s₁.setText r mem).table.inodeTable root).inode = _
    rw [St.setText_entry hne]
    exact hinode
  · exact St.setText_rootInode.trans hroot
  · cases hcut with
    | last _ _ => rfl
    | more _ _ rest => exact absurd rfl rest.ne_nil
  · cases r with
    | inode j => exact ⟨(hused' j).mpr hapart.1, hapart.2⟩
    | name => trivial
    | fullname => trivial
    | blkbuf => exact hapart
  · obtain rfl := Option.some_inj.mp hc
    show NameAt ((s₁.setText r mem).text r) ((s₁.setText r mem).cap r) name [102] ∧
      (s₁.setText r mem).text r (name + 1) = 0
    rw [hmem, hcap']
    cases hcut with
    | last hname hend => exact ⟨hname, hend⟩
    | more hname hend _ => exact ⟨hname, hend⟩

/-- The search finds the link. -/
theorem SelfStage.search {dir : Slot} {c len : Nat} {last : Option Nat} (hm : SelfLinked m)
    (h : SelfStage m ⟨r, dir, some c, last, s⟩)
    (hlen : strlen (s.text r) (s.cap r) c = .ok len) :
    ∃ N b, Stage.search selfEnv N ⟨r, dir, some c, last, s⟩ c len = .ok (3, b) := by
  obtain ⟨hroot, -, hapart, hname, hend⟩ := h.before c rfl
  obtain ⟨i, hi, -, hinode⟩ := h.root
  obtain rfl := Option.some_inj.mp (hroot.symm.trans hi)
  cases (hname.strlen hend).symm.trans hlen
  have hdir := hm.dirs 2 (by decide)
  obtain ⟨N, b, hsearch⟩ := (hm.small.holds.dir 2 hm.small.holds.root hdir).search
    (hm.small.scans 2 (by decide) hdir) hm.small.sound h.coherent hname.inside.le hname.ne_zero
  refine ⟨N, b, ?_⟩
  have hmount : s.mount = m := h.mount
  have hN := hsearch N le_rfl
  rw [hname.text] at hN
  show nameiSearch selfEnv s.mount (s.table.inodeTable dir).inode (s.textOf r) (s.cap r) c 1 N true
    s.bufs = .ok (3, b)
  rw [hmount, hapart.textOf]
  rw [hinode]
  exact hN

/-- The inode of the link is loaded, into a slot that is neither the root's nor that of the string,
and the text has no other name. -/
theorem SelfStage.entered {dir dir' : Slot} {c : Nat} {last : Option Nat} {s₁ : St} {b : Bufs}
    (hm : SelfLinked m) (h : SelfStage m ⟨r, dir, some c, last, s⟩)
    (hb : BufStep selfEnv m s.bufs b)
    (hget : St.iget selfEnv { s with bufs := b, table := s.table.leave dir } 3 =
      .ok (some dir', s₁)) :
    SelfStage m ⟨r, dir', none, none, s₁.setText r (s₁.text r)⟩ := by
  obtain ⟨hroot, -, hapart, -, -⟩ := h.before c rfl
  obtain ⟨i, hi, hused, hinode⟩ := h.root
  obtain rfl := Option.some_inj.mp (hroot.symm.trans hi)
  dsimp only at hroot hused hinode hapart
  have hm₀ : s.mount = m := h.mount
  have hleave : s.table.leave dir = s.table := if_pos hroot
  rw [hleave] at hget
  obtain ⟨hmount, -, -, -, hbufs, htable⟩ := St.iget_spec hget
  rcases htable with ⟨hnone, -⟩ | ⟨i, ip, hi, hfree, hip, ht⟩
  · cases hnone
  obtain rfl := Option.some_inj.mp hi
  have hip : inodeAt selfEnv s.mount 3 = some ip := hip
  rw [hm₀, hm.inodeAt 3 (by decide)] at hip
  obtain rfl := Option.some_inj.mp hip
  have hdir : dir ≠ dir' := fun hd => hfree (hd ▸ hused)
  have hr : r ≠ .inode dir' := by
    rintro rfl
    exact hfree hapart.1
  have hr' : r ≠ .inode dir := by
    rintro rfl
    exact hapart.2 rfl
  have hused' (j : Slot) :
      (s₁.setText r (s₁.text r)).table.Used j ↔ s.table.Used j ∨ j = dir' := by
    rw [St.setText_used, ht]
    exact Table.used_set_of_used rfl
  have hstep : BufStep selfEnv m s.bufs (s₁.setText r (s₁.text r)).bufs := by
    have hget : BufStep selfEnv m b s₁.bufs := hm₀ ▸ hbufs.toBufStep
    have hset : BufStep selfEnv s₁.mount s₁.bufs (s₁.setText r (s₁.text r)).bufs :=
      St.setText_step
    rw [hmount] at hset
    exact (hb.trans hget).trans (hm₀ ▸ hset)
  refine ⟨?_, ?_, ⟨dir, ?_, (hused' dir).mpr (.inl hused), ?_⟩, nofun, fun _ => ⟨?_, ?_, ?_, ?_⟩⟩
  · exact St.setText_mount.trans (hmount.trans hm₀)
  · exact hstep.coherent (Agrees.refl selfEnv m) h.coherent
  · refine St.setText_rootInode.trans ?_
    rw [ht]
    exact hroot
  · show ((s₁.setText r (s₁.text r)).table.inodeTable dir).inode = _
    rw [St.setText_entry hr', ht, Table.set_of_ne hdir]
    exact hinode
  · show ((s₁.setText r (s₁.text r)).table.inodeTable dir').inode = _
    rw [St.setText_entry hr, ht, Table.set_same]
    rfl
  · show ((s₁.setText r (s₁.text r)).table.inodeTable dir').inumber = _
    rw [St.setText_entry hr, ht, Table.set_same]
    rfl
  · exact (hused' dir').mpr (.inr rfl)
  · refine fun hd => hdir (Option.some_inj.mp ?_)
    refine Eq.trans ?_ (St.setText_rootInode.symm.trans hd)
    rw [ht]
    exact hroot.symm

/-- From one stage to the next. -/
theorem SelfStage.next (hm : SelfLinked m) (h : SelfStage m g) (hnext : Next selfEnv g g') :
    SelfStage m g' := by
  cases hnext with
  | @component r dir dir' c len fuel tok last last' s s₁ ino b mem hlen hsearch hfound hget htok =>
    obtain ⟨N, b', hthree⟩ := h.search hm hlen
    cases nameiSearch_unique hsearch hthree
    obtain ⟨-, hlast, -, -, -⟩ := h.before c rfl
    obtain rfl : last = none := hlast
    cases htok
    have hm₀ : s.mount = m := h.mount
    exact h.entered hm (hm₀ ▸ nameiSearch_step hsearch) hget
  | @link r r' dir last p s s₁ g' hlink htext hbegins =>
    obtain ⟨i, hi, hused, hinode⟩ := h.root
    obtain ⟨hlink', -, hudir, hnot⟩ := h.ended rfl
    dsimp only [Stage.inode] at hi hused hinode hlink' hudir hnot
    have hinline : linkText selfEnv s dir = .ok (some (.inode dir, Inode.iBlockOffset), s) := by
      unfold linkText
      dsimp only
      rw [hlink', if_neg (not_not.mpr (hm.links 3 (by decide)).2)]
    cases htext.symm.trans hinline
    cases hbegins with
    | @root s₁ root tok last' mem hload hroot htok =>
      have hsame : loadRoot selfEnv s = .ok s := by
        unfold loadRoot
        rw [hi]
      cases hsame.symm.trans hload
      obtain rfl := Option.some_inj.mp (hi.symm.trans hroot)
      have hne : dir ≠ i := fun hd => hnot (hd ▸ hi)
      refine SelfStage.of_text h.mount h.coherent hroot hused hinode ⟨hudir, hne⟩
        (show 40 + 1 < 128 by decide) ?_ htok
      show (s.table.inodeTable dir).inode 40 = 102 ∧ (s.table.inodeTable dir).inode 41 = 0
      rw [hlink']
      exact hm.texts.1

/-- Every stage of an open of `f` is one of these. -/
theorem SelfStage.of_passes {s₀ : St} (hopen : ext2fsFsOpen selfEnv none = .ok (0, some s₀))
    (hm : SelfLinked s₀.mount) (hp : Passes selfEnv { s₀ with name := pathF, nameCap := 2 } g) :
    SelfStage s₀.mount g := by
  have hmounted := ext2fsFsOpen_spec hopen
  obtain ⟨g₀, hbegins, hrun⟩ := hp
  induction hrun with
  | refl =>
    cases hbegins with
    | @root s₁ root tok last mem hload hroot htok =>
      obtain ⟨hmount, hname, hcap, -, hbufs, htable⟩ := loadRoot_spec hload
      have hnone : s₀.table.rootInode = none := by
        rw [hmounted.table]
        rfl
      rcases htable with ht | ⟨i, ip, -, -, hip, ht⟩
      · rw [ht] at hroot
        cases hnone.symm.trans hroot
      have hip : inodeAt selfEnv s₀.mount 2 = some ip := hip
      rw [hm.inodeAt 2 (by decide)] at hip
      obtain rfl := Option.some_inj.mp hip
      have hri : root = i := by
        rw [ht] at hroot
        exact (Option.some_inj.mp hroot).symm
      subst hri
      refine SelfStage.of_text hmount ?_ hroot ?_ ?_ trivial ?_ ?_ htok
      · exact hbufs.toBufStep.coherent (Agrees.refl selfEnv s₀.mount) (hmounted.hold (Or.inl rfl))
      · rw [ht]
        exact (Table.used_set_of_used (t := s₀.table) rfl).mpr (.inr rfl)
      · rw [ht]
        exact congrArg InodeEntry.inode Table.set_same
      · show 0 + 1 < s₁.nameCap
        rw [hcap]
        exact Nat.lt_succ_self 1
      · show s₁.name 0 = 102 ∧ s₁.name 1 = 0
        rw [hname]
        exact show pathF 0 = 102 ∧ pathF 1 = 0 by decide
  | tail _ hnext ih => exact ih.next hm hnext

end Self

end MbBootTv
