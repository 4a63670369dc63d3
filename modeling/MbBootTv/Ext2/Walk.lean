import Mathlib.Data.Finset.Card
import Mathlib.Data.Fintype.Basic
import MbBootTv.Ext2.Paths
import MbBootTv.Ext2.Records
import MbBootTv.Ext2.Slots

/-!
# Walking a tree

A volume is what the format says of a tree: the inodes, and the entries of the directories. A walk
through it passes directories, and takes the live entry with the name (`Volume.walk`).

`ext2_namei` does something else. It looks at no mode, and takes the first record with the name, be
it deleted. Where the walk passes directories only, and all that it comes to can be gone through and
is in reach (`Volume.Passable`), it returns what the walk does exactly when no deleted record stands
in the way: `ext2Namei_walks_iff`.
-/

namespace MbBootTv

/-! ## Volumes -/

/-- A tree: the numbers of its inodes, the inodes, and what the directories among them hold. -/
structure Volume where
  has : UInt32 → Prop
  inode : UInt32 → Inode
  entries : UInt32 → List Entry

namespace Volume

/-- The live entry with a name in directory `x`. -/
def lookup (v : Volume) (x : UInt32) (c : Name) : Option Entry :=
  (v.entries x).find? fun e => e.name = c ∧ e.ino ≠ 0

/-- The inode at the end of a path from inode `x`, if every inode on the way is a directory that
has a live entry for the next name. -/
def walk (v : Volume) : UInt32 → List Name → Option UInt32
  | x, [] => some x
  | x, c :: cs =>
    if (v.inode x).sIsdir then
      match v.lookup x c with
      | none => none
      | some e => walk v e.ino cs
    else none

/-- Every inode that a walk passes is a directory that the code can go through, and every inode it
comes to is in reach, and has a number that is not negative as an `int`. -/
def Passable (v : Volume) (env : Env) (m : Mount) : UInt32 → List Name → Prop
  | _, [] => True
  | x, c :: cs => ((v.inode x).sIsdir = true ∧ Scannable env m (v.inode x)) ∧
      ∀ e, v.lookup x c = some e →
        (e.ino.toNat < 2 ^ 31 ∧ m.inodePos e.ino < 2 ^ 32) ∧ Passable v env m e.ino cs

/-- On the way, the first record with a name is never a deleted one. -/
def NoDeleted (v : Volume) : UInt32 → List Name → Prop
  | _, [] => True
  | x, c :: cs => ∀ e, findEntry c (v.entries x) = some e → e.ino ≠ 0 ∧ NoDeleted v e.ino cs

/-- The tree is what is on the disk. Its directories are well formed, and its inodes can be
numbered. -/
structure Holds (v : Volume) (env : Env) (m : Mount) : Prop where
  ipg : m.sb.sInodesPerGroup ≠ 0
  numbers : m.gdsCount * m.sb.sInodesPerGroup.toNat < 2 ^ 32
  size : m.sb.ext2InodeSize.toNat % 128 = 0
  root : v.has ext2RootIno
  inode : ∀ x, v.has x → m.groupOf x < m.gdsCount ∧ diskInode env m x = some (v.inode x)
  dir : ∀ x, v.has x → (v.inode x).sIsdir = true → DirHolds env m (v.inode x) (v.entries x)
  live : ∀ x, v.has x → (v.inode x).sIsdir = true → ∀ e ∈ v.entries x, e.ino ≠ 0 → v.has e.ino

/-- An inode in reach is read as it is on the disk. -/
theorem Holds.inodeAt {v : Volume} {env : Env} {m : Mount} (h : v.Holds env m) (hm : m.Sound)
    {x : UInt32} (hx : v.has x) (h0 : x ≠ 0) (hreach : m.inodePos x < 2 ^ 32) :
    MbBootTv.inodeAt env m x = some (v.inode x) := by
  have hbs := hm.cases
  rw [inodeAt_eq_diskInode ?_ h.size (by omega) hreach]
  · exact (h.inode x hx).2
  · exact Nat.one_le_iff_ne_zero.mpr fun h => h0 (UInt32.toNat_inj.mp h)

/-- This entry of the inode table holds inode `x`. -/
def InSlot (v : Volume) (x : UInt32) (e : InodeEntry) : Prop := e.inode = v.inode x ∧ e.inumber = x

/-- What a walk is to return: a slot with the inode at the end of the path, or nothing. -/
def Finds (v : Volume) (s : St) (out : Option Slot) : Option UInt32 → Prop
  | none => out = none
  | some x => ∃ i, out = some i ∧ s.table.Used i ∧ v.InSlot x (s.table.inodeTable i)

theorem lookup_spec {v : Volume} {x : UInt32} {c : Name} {e : Entry} (h : v.lookup x c = some e) :
    e ∈ v.entries x ∧ e.ino ≠ 0 := by
  unfold lookup at h
  have hboth := List.find?_some h
  exact ⟨List.mem_of_find?_eq_some h, (of_decide_eq_true hboth).2⟩

/-- Where no deleted record is in the way, the first record with a name is the live one. -/
theorem lookup_of_find {v : Volume} {x : UInt32} {c : Name} {e : Entry}
    (h : findEntry c (v.entries x) = some e) (he : e.ino ≠ 0) : v.lookup x c = some e := by
  unfold findEntry at h
  unfold lookup
  rw [List.find?_eq_some_iff_append] at h ⊢
  obtain ⟨hname, as, bs, hsplit, hpre⟩ := h
  refine ⟨decide_eq_true ⟨of_decide_eq_true hname, he⟩, as, bs, hsplit, fun a ha => ?_⟩
  have := hpre a ha
  simp only [Bool.not_eq_true', decide_eq_false_iff_not] at this ⊢
  exact fun h => this h.1

theorem lookup_of_find_none {v : Volume} {x : UInt32} {c : Name}
    (h : findEntry c (v.entries x) = none) : v.lookup x c = none := by
  unfold findEntry at h
  unfold lookup
  rw [List.find?_eq_none] at h ⊢
  intro e he hboth
  exact h e he (decide_eq_true (of_decide_eq_true hboth).1)

end Volume

/-! ## More fuel

A run that has come to an end is not changed by more fuel. -/

section Fuel

variable {env : Env} {fuel fuel' : Nat}

theorem nameiSearch_mono {m : Mount} {ip : Inode} {text : Bytes → Bytes}
    {cap component len : Nat} {rewind : Bool} {b : Bufs} {res : UInt32 × Bufs}
    (h : nameiSearch env m ip text cap component len fuel rewind b = .ok res)
    (hle : fuel ≤ fuel') : nameiSearch env m ip text cap component len fuel' rewind b = .ok res := by
  induction fuel generalizing fuel' rewind b with
  | zero => cases h
  | succ fuel ih =>
    obtain ⟨fuel', rfl⟩ := Nat.exists_eq_add_of_le' (Nat.one_le_of_lt hle)
    rw [nameiSearch] at h ⊢
    refine bind_ok_mono (fun _ hread => hread) (fun dp h => ?_) h
    obtain ⟨dp, b₁⟩ := dp
    cases dp with
    | none => exact h
    | some dp =>
      refine bind_ok_mono (fun _ hmatch => hmatch) (fun found h => ?_) h
      cases found with
      | true => exact h
      | false => exact ih h (Nat.le_of_succ_le_succ hle)

theorem nameiLoop_mono {r : Region} {n : Nat} {dir : Slot} {tok last : Option Nat} {s : St}
    {res : Option Slot × St} (h : nameiLoop env fuel r n dir tok last s = .ok res)
    (hle : fuel ≤ fuel') : nameiLoop env fuel' r n dir tok last s = .ok res := by
  induction n generalizing dir tok last s with
  | zero =>
    cases tok with
    | none => exact h
    | some component => cases h
  | succ n ih =>
    cases tok with
    | none => exact h
    | some component =>
      rw [nameiLoop_some] at h ⊢
      refine bind_ok_mono (fun _ hlen => hlen) (fun len h => ?_) h
      refine bind_ok_mono (fun _ hsearch => nameiSearch_mono hsearch hle) (fun found h => ?_) h
      obtain ⟨nextIno, b⟩ := found
      dsimp only at h ⊢
      split_ifs at h ⊢
      · exact h
      · refine bind_ok_mono (fun _ hget => hget) (fun got h => ?_) h
        obtain ⟨ip, s₁⟩ := got
        cases ip with
        | none => exact h
        | some dir => exact bind_ok_mono (fun _ htok => htok) (fun _ h => ih h) h

theorem ext2Namei_mono {r : Region} {name : Nat} {s : St} {res : Option Slot × St}
    (h : ext2Namei env fuel s r name = .ok res) (hle : fuel ≤ fuel') :
    ext2Namei env fuel' s r name = .ok res := by
  unfold ext2Namei at h ⊢
  refine bind_ok_mono (fun _ hload => hload) (fun s₁ h => ?_) h
  split at h
  · exact h
  · exact bind_ok_mono (fun _ htok => htok) (fun _ h => nameiLoop_mono h hle) h

end Fuel

/-! ## Loading an inode -/

section Iget

variable {env : Env} {s : St} {ino : UInt32}

theorem Table.exists_firstFree {t : Table} (h : ∃ i, ¬ t.Used i) : ∃ i, t.firstFree = some i := by
  obtain ⟨i, hi⟩ := h
  exact Option.ne_none_iff_exists'.mp (firstFree_ne_none hi)

/-- An inode that can be read goes to a free slot. -/
theorem St.iget_of_free (hfree : ∃ i, ¬ s.table.Used i) (hipg : s.mount.sb.sInodesPerGroup ≠ 0)
    (hgroup : s.mount.groupOf ino < s.mount.gdsCount) {ip : Inode}
    (hip : inodeAt env s.mount ino = some ip) :
    ∃ i b, s.iget env ino = .ok (some i,
        { s with bufs := b, table := s.table.set i (s.table.loaded i ino ip) }) ∧
      ¬ s.table.Used i ∧ MapStep env s.mount s.bufs b := by
  obtain ⟨i, hi⟩ := Table.exists_firstFree hfree
  obtain ⟨data, hdata, hclip⟩ := readBytes_of_some s.bufs hip
  have hget := @ext2Iget_of_free env s.mount s.bufs s.table ino i hi hipg hgroup
  rw [hdata] at hget
  refine ⟨i, s.bufs.fetch env (s.mount.inodeOffset (s.mount.groupOf ino) ino) inodeSize, ?_,
    Table.not_used_of_firstFree hi, mapStep_fetch env s.mount s.bufs _ inodeSize⟩
  unfold St.iget
  rw [hget]
  dsimp only
  rw [hclip]
  rfl

/-- Without a free slot there is no inode. -/
theorem St.iget_full (env : Env) (ino : UInt32) (hfull : ∀ i, s.table.Used i) :
    s.iget env ino = .ok (none, s) := by
  have hnone : s.table.firstFree = none := by
    cases hfree : s.table.firstFree with
    | none => rfl
    | some i => exact absurd (hfull i) (Table.not_used_of_firstFree hfree)
  unfold St.iget ext2Iget
  rw [hnone]
  rfl

end Iget

/-! ## One component -/

/-- A string that stays where it is while directories are read and inodes come and go: not in
`blkbuf`, and not in the slot `dir`. -/
def Region.Apart (r : Region) (base : Slot → Prop) (dir : Slot) : Prop :=
  match r with
  | .name => True
  | .fullname => True
  | .blkbuf => False
  | .inode i => base i ∧ i ≠ dir

/-- The walk stands at inode `x`, which is in slot `dir`, with the path `cs` before it. `base` are
the slots in use that it does not own. -/
structure Stands (env : Env) (v : Volume) (r : Region) (base : Slot → Prop) (s : St) (dir : Slot)
    (tok last : Option Nat) (x : UInt32) (cs : List Name) : Prop where
  sound : s.mount.Sound
  holds : v.Holds env s.mount
  coherent : s.bufs.Coherent s.mount (blockAt env s.mount)
  has : v.has x
  slot : v.InSlot x (s.table.inodeTable dir)
  used : ∀ i, s.table.Used i ↔ base i ∨ i = dir
  own : base dir → s.table.rootInode = some dir
  root : ∀ i, s.table.rootInode = some i → base i
  apart : r.Apart base dir
  cut : Cut (s.text r) (s.cap r) tok last cs

section Component

variable {env : Env} {v : Volume} {r : Region} {base : Slot → Prop} {s : St} {dir : Slot}
  {p : Nat} {last : Option Nat} {x : UInt32} {c : Name} {cs : List Name}

/-- The string does not depend on what is in `blkbuf`. -/
theorem Region.Apart.textOf (h : r.Apart base dir) : s.textOf r = fun _ => s.text r := by
  cases r with
  | blkbuf => exact h.elim
  | name => rfl
  | fullname => rfl
  | inode i => rfl

/-- Buffers and table change, but not where the string is. -/
theorem Region.Apart.text_eq (h : r.Apart base dir) {b : Bufs} {t : Table}
    (ht : ∀ i, base i → (t.inodeTable i).inode = (s.table.inodeTable i).inode) :
    ({ s with bufs := b, table := t } : St).text r = s.text r := by
  cases r with
  | blkbuf => exact h.elim
  | name => rfl
  | fullname => rfl
  | inode i => exact ht i h.1

theorem St.text_setText {mem : Bytes} : (s.setText r mem).text r = mem := by
  cases r with
  | inode i => exact congrArg InodeEntry.inode Table.set_same
  | name => rfl
  | fullname => rfl
  | blkbuf => rfl

theorem St.cap_setText {mem : Bytes} : (s.setText r mem).cap r = s.cap r := by
  cases r <;> rfl

theorem Region.Apart.ne (h : r.Apart base dir) : r ≠ .inode dir := by
  rintro rfl
  exact h.2 rfl

/-- A slot that was free is not that of the string. -/
theorem Region.Apart.of_free (h : r.Apart base dir) {i : Slot} (hi : ¬ base i) : r.Apart base i := by
  cases r with
  | inode j => exact ⟨h.1, fun hji => hi (hji ▸ h.1)⟩
  | name => trivial
  | fullname => trivial
  | blkbuf => exact h

/-- The walk stands where it has come to once the next name is cut. -/
theorem Stands.of_setText {mem : Bytes} {tok : Option Nat} (hm : s.mount.Sound)
    (hv : v.Holds env s.mount) (hc : s.bufs.Coherent s.mount (blockAt env s.mount))
    (hhas : v.has x) (hslot : v.InSlot x (s.table.inodeTable dir))
    (hused : ∀ i, s.table.Used i ↔ base i ∨ i = dir)
    (hown : base dir → s.table.rootInode = some dir)
    (hroot : ∀ i, s.table.rootInode = some i → base i) (hapart : r.Apart base dir)
    (hcut : Cut mem (s.cap r) tok last cs) :
    Stands env v r base (s.setText r mem) dir tok last x cs where
  sound := by
    rw [St.setText_mount]
    exact hm
  holds := by
    rw [St.setText_mount]
    exact hv
  coherent := by
    have hmem : BufStep env s.mount s.bufs (s.setText r mem).bufs := St.setText_step
    rw [St.setText_mount]
    exact hmem.coherent (Agrees.refl env s.mount) hc
  has := hhas
  slot := by
    rw [St.setText_entry hapart.ne]
    exact hslot
  used i := by
    rw [St.setText_used]
    exact hused i
  own hi := by
    rw [St.setText_rootInode]
    exact hown hi
  root i hi := by
    rw [St.setText_rootInode] at hi
    exact hroot i hi
  apart := hapart
  cut := by
    rw [St.text_setText, St.cap_setText]
    exact hcut

/-- One component: the search yields the number in the first record with the name, whatever that
is, and then everything depends on that number. -/
theorem Stands.search (h : Stands env v r base s dir (some p) last x (c :: cs))
    (hdir : (v.inode x).sIsdir = true ∧ Scannable env s.mount (v.inode x)) :
    ∃ N b, BufStep env s.mount s.bufs b ∧ ∀ fuel n, N ≤ fuel →
      nameiLoop env fuel r (n + 1) dir (some p) last s = (do
        let nextIno := (findEntry c (v.entries x)).elim (-1) Entry.ino
        let s₁ : St := { s with bufs := b, table := s.table.leave dir }
        if sneg nextIno then return (none, s₁)
        let (ip, s) ← s₁.iget env nextIno
        match ip with
        | none => return (none, s)
        | some dir => do
          let (component, last, mem) ← strtokSimple (s.text r) (s.cap r) none last 47
          nameiLoop env fuel r n dir component last (s.setText r mem)) := by
  have hname : NameAt (s.text r) (s.cap r) p c ∧ s.text r (p + c.length) = 0 := by
    cases h.cut with
    | last name hend => exact ⟨name, hend⟩
    | more name hend _ => exact ⟨name, hend⟩
  obtain ⟨hname, hend⟩ := hname
  obtain ⟨N, b, hsearch⟩ := (h.holds.dir x h.has hdir.1).search hdir.2 h.sound h.coherent
    hname.inside.le hname.ne_zero
  rw [hname.text] at hsearch
  refine ⟨N, b, nameiSearch_step (hsearch N le_rfl), fun fuel n hfuel => ?_⟩
  rw [nameiLoop_some, hname.strlen hend, ok_bind, h.slot.1, h.apart.textOf, hsearch fuel hfuel]
  rfl

/-- The slots that are in use once the directory is done with. -/
theorem Stands.used_leave (h : Stands env v r base s dir (some p) last x (c :: cs)) (i : Slot) :
    (s.table.leave dir).Used i ↔ base i := Table.used_leave h.used h.own h.root i

theorem Stands.free_leave (h : Stands env v r base s dir (some p) last x (c :: cs))
    (hfree : ∃ i, ¬ base i) : ∃ i, ¬ (s.table.leave dir).Used i := by
  obtain ⟨i, hi⟩ := hfree
  exact ⟨i, fun hu => hi ((h.used_leave i).mp hu)⟩

/-- No record has the name. -/
theorem Stands.step_missing (h : Stands env v r base s dir (some p) last x (c :: cs))
    (hdir : (v.inode x).sIsdir = true ∧ Scannable env s.mount (v.inode x))
    (hfind : findEntry c (v.entries x) = none) :
    ∃ N s', ∀ fuel n, N ≤ fuel →
      nameiLoop env fuel r (n + 1) dir (some p) last s = .ok (none, s') := by
  obtain ⟨N, b, -, hrun⟩ := h.search hdir
  refine ⟨N, { s with bufs := b, table := s.table.leave dir }, fun fuel n hfuel => ?_⟩
  rw [hrun fuel n hfuel, hfind]
  rfl

/-- **The walk goes on** in the inode that the first record with the name is for. -/
theorem Stands.step (h : Stands env v r base s dir (some p) last x (c :: cs))
    (hfree : ∃ i, ¬ base i) (hdir : (v.inode x).sIsdir = true ∧ Scannable env s.mount (v.inode x))
    {e : Entry} (hfind : findEntry c (v.entries x) = some e) (he : e.ino ≠ 0)
    (hpos : e.ino.toNat < 2 ^ 31) (hreach : s.mount.inodePos e.ino < 2 ^ 32) :
    ∃ N s' dir' tok last', Stands env v r base s' dir' tok last' e.ino cs ∧ s'.mount = s.mount ∧
      ∀ fuel n, N ≤ fuel → nameiLoop env fuel r (n + 1) dir (some p) last s =
        nameiLoop env fuel r n dir' tok last' s' := by
  obtain ⟨N, b, hb, hrun⟩ := h.search hdir
  have hhas : v.has e.ino := h.holds.live x h.has hdir.1 e (List.mem_of_find?_eq_some hfind) he
  obtain ⟨i, b', hget, hnew, hb'⟩ := St.iget_of_free
    (s := { s with bufs := b, table := s.table.leave dir }) (h.free_leave hfree) h.holds.ipg
    (h.holds.inode _ hhas).1 (h.holds.inodeAt h.sound hhas he hreach)
  have hnew : ¬ base i := fun hi => hnew ((h.used_leave i).mpr hi)
  -- Only the slots of `base` are as they were, and the new one.
  obtain ⟨t, ht⟩ : ∃ t, t = (s.table.leave dir).set i
    ((s.table.leave dir).loaded i e.ino (v.inode e.ino)) := ⟨_, rfl⟩
  rw [← ht] at hget
  have hslot : v.InSlot e.ino (t.inodeTable i) := by
    rw [ht, Table.set_same]
    exact ⟨rfl, rfl⟩
  have hused : ∀ j, t.Used j ↔ base j ∨ j = i := fun j => by
    rw [ht, Table.used_set_of_used rfl, h.used_leave]
  have hroot : t.rootInode = s.table.rootInode := by
    rw [ht, Table.set_rootInode, Table.leave_rootInode]
  have hkept : ∀ j, base j → (t.inodeTable j).inode = (s.table.inodeTable j).inode := by
    intro j hj
    have hne : j ≠ i := fun hji => hnew (hji ▸ hj)
    rw [ht, Table.set_of_ne hne, Table.leave_entry h.own hj]
  have htext := h.apart.text_eq (b := b') hkept
  obtain ⟨tok, last', mem, htok, hcut⟩ := h.cut.next
  refine ⟨N, St.setText { s with bufs := b', table := t } r mem, i, tok, last', ?_,
    St.setText_mount, fun fuel n hfuel => ?_⟩
  · exact .of_setText h.sound h.holds
      ((hb.trans hb'.toBufStep).coherent (Agrees.refl env s.mount) h.coherent) hhas hslot hused
      (fun hi => absurd hi hnew) (fun j hj => h.root j (hroot ▸ hj)) (h.apart.of_free hnew) hcut
  · rw [hrun fuel n hfuel, hfind]
    show (if sneg e.ino then _ else _) = _
    rw [sneg_of_lt hpos]
    show (St.iget env _ e.ino >>= _) = _
    rw [hget]
    simp only [ok_bind]
    rw [htext]
    show (strtokSimple (s.text r) (s.cap r) none last 47 >>= _) = _
    rw [htok]
    rfl

/-- When no slot is free, nothing comes of it, whatever is found. -/
theorem Stands.step_full (h : Stands env v r base s dir (some p) last x (c :: cs))
    (hfull : ∀ i, base i) (hdir : (v.inode x).sIsdir = true ∧ Scannable env s.mount (v.inode x)) :
    ∃ N s', ∀ fuel n, N ≤ fuel →
      nameiLoop env fuel r (n + 1) dir (some p) last s = .ok (none, s') := by
  obtain ⟨N, b, -, hrun⟩ := h.search hdir
  refine ⟨N, { s with bufs := b, table := s.table.leave dir }, fun fuel n hfuel => ?_⟩
  have hget (ino : UInt32) := St.iget_full env ino
    (s := { s with bufs := b, table := s.table.leave dir })
    fun i => (h.used_leave i).mpr (hfull i)
  rw [hrun fuel n hfuel]
  dsimp only
  rw [hget]
  split_ifs <;> rfl

end Component

/-! ## The whole path -/

section Path

variable {env : Env} {v : Volume} {r : Region} {base : Slot → Prop} {s : St} {dir : Slot}
  {tok last : Option Nat} {x : UInt32} {cs : List Name} {n : Nat}

/-- A walk through directories without a deleted record in the way is the walk of the tree. -/
theorem Stands.loop (h : Stands env v r base s dir tok last x cs) (hfree : ∃ i, ¬ base i)
    (hpass : v.Passable env s.mount x cs) (hlive : v.NoDeleted x cs) (hn : cs.length ≤ n) :
    ∃ N out s', (∀ fuel, N ≤ fuel → nameiLoop env fuel r n dir tok last s = .ok (out, s')) ∧
      v.Finds s' out (v.walk x cs) := by
  induction cs generalizing s dir tok last x n with
  | nil =>
    have htok : tok = none := by
      cases h.cut
      rfl
    subst htok
    refine ⟨0, some dir, s, fun fuel _ => ?_, dir, rfl, (h.used dir).mpr (.inr rfl), h.slot⟩
    cases n <;> rfl
  | cons c cs ih =>
    obtain ⟨p, rfl⟩ : ∃ p, tok = some p := by
      cases h.cut with
      | last _ _ => exact ⟨_, rfl⟩
      | more _ _ _ => exact ⟨_, rfl⟩
    obtain ⟨n, rfl⟩ := Nat.exists_eq_add_of_le' (Nat.one_le_of_lt (Nat.lt_of_succ_le hn))
    have hn' : cs.length ≤ n := Nat.le_of_succ_le_succ hn
    obtain ⟨hdir, hnext⟩ := hpass
    rw [Volume.walk, if_pos hdir.1]
    cases hfind : findEntry c (v.entries x) with
    | none =>
      obtain ⟨N, s', hrun⟩ := h.step_missing hdir hfind
      rw [Volume.lookup_of_find_none hfind]
      exact ⟨N, none, s', fun fuel hfuel => hrun fuel n hfuel, rfl⟩
    | some e =>
      obtain ⟨he, hrest⟩ := hlive e hfind
      have hlook := Volume.lookup_of_find hfind he
      obtain ⟨⟨hpos, hreach⟩, hpass'⟩ := hnext e hlook
      obtain ⟨N, s₁, dir₁, tok₁, last₁, hstands, hmount, hrun⟩ :=
        h.step hfree hdir hfind he hpos hreach
      obtain ⟨N', out, s', hloop, hfinds⟩ := ih hstands (hmount ▸ hpass') hrest hn'
      rw [hlook]
      refine ⟨max N N', out, s', fun fuel hfuel => ?_, hfinds⟩
      rw [hrun fuel n ((le_max_left N N').trans hfuel)]
      exact hloop fuel ((le_max_right N N').trans hfuel)

end Path

/-! ## Free slots -/

/-- The number of slots that are free. -/
def Table.vacant (t : Table) : Nat := (Finset.univ.filter fun i => ¬ t.Used i).card

/-- The number of slots that are left once the root has its own. -/
def Table.spare (t : Table) : Nat := t.vacant - if t.rootInode = none then 1 else 0

section Vacant

variable {t t' : Table} {i : Slot}

theorem Table.vacant_pos_iff : 0 < t.vacant ↔ ∃ i, ¬ t.Used i := by
  unfold vacant
  rw [Finset.card_pos, Finset.filter_nonempty_iff]
  simp only [Finset.mem_univ, true_and]

theorem Table.vacant_eq_zero_iff : t.vacant = 0 ↔ ∀ i, t.Used i := by
  rw [← not_iff_not, not_forall, ← vacant_pos_iff, Nat.pos_iff_ne_zero]

/-- A slot that is taken is one less. -/
theorem Table.vacant_of_taken (hi : ¬ t.Used i) (h : ∀ j, t'.Used j ↔ t.Used j ∨ j = i) :
    t'.vacant + 1 = t.vacant := by
  have herase : (Finset.univ.filter fun j => ¬ t'.Used j) =
      (Finset.univ.filter fun j => ¬ t.Used j).erase i := by
    ext j
    simp only [Finset.mem_filter, Finset.mem_univ, true_and, Finset.mem_erase, h, not_or]
    exact and_comm
  unfold vacant
  rw [herase]
  exact Finset.card_erase_add_one (Finset.mem_filter.mpr ⟨Finset.mem_univ i, hi⟩)

theorem Table.vacant_congr (h : ∀ j, t'.Used j ↔ t.Used j) : t'.vacant = t.vacant := by
  unfold vacant
  simp only [h]

end Vacant

/-- What is cached and loaded is that of the tree; the root is in reach. -/
structure Volume.Settled (v : Volume) (env : Env) (s : St) : Prop where
  sound : s.mount.Sound
  holds : v.Holds env s.mount
  reach : s.mount.inodePos ext2RootIno < 2 ^ 32
  coherent : s.bufs.Coherent s.mount (blockAt env s.mount)
  root : ∀ i, s.table.rootInode = some i →
    s.table.Used i ∧ v.InSlot ext2RootIno (s.table.inodeTable i)

/-- The string that is walked will stay where it is. -/
structure Volume.Placed (v : Volume) (env : Env) (s : St) (r : Region) : Prop
    extends v.Settled env s where
  blkbuf : r ≠ .blkbuf
  inode : ∀ i, r = .inode i → s.table.Used i ∧ s.table.rootInode ≠ some i

/-- A state to start from: a slot is left. -/
structure Volume.Ready (v : Volume) (env : Env) (s : St) (r : Region) : Prop
    extends v.Placed env s r where
  spare : 0 < s.table.spare

section Namei

variable {env : Env} {v : Volume} {r : Region} {s : St} {name : Nat} {absolute : Bool}
  {cs : List Name}

/-- The root is in its slot, unless there is none for it. -/
theorem Volume.Placed.loadRoot (h : v.Placed env s r) :
    (s.table.spare = 0 ∧ ∃ s₁, MbBootTv.loadRoot env s = .ok s₁ ∧ s₁.table.rootInode = none) ∨
    ∃ root b t, MbBootTv.loadRoot env s = .ok { s with bufs := b, table := t } ∧
      MapStep env s.mount s.bufs b ∧ t.rootInode = some root ∧ t.Used root ∧
      v.InSlot ext2RootIno (t.inodeTable root) ∧ t.vacant = s.table.spare ∧
      ∀ i, s.table.Used i → t.Used i ∧ t.inodeTable i = s.table.inodeTable i ∧
        (t.rootInode = some i → s.table.rootInode = some i) := by
  unfold Table.spare MbBootTv.loadRoot
  cases hr : s.table.rootInode with
  | some root =>
    obtain ⟨hused, hslot⟩ := h.root root hr
    rw [if_neg (Option.some_ne_none root), Nat.sub_zero]
    exact .inr ⟨root, s.bufs, s.table, rfl, MapStep.refl _, hr, hused, hslot, rfl,
      fun i hi => ⟨hi, rfl, fun hroot => hr ▸ hroot⟩⟩
  | none =>
    rw [if_pos rfl]
    rcases Nat.eq_zero_or_pos s.table.vacant with h0 | hpos
    · refine .inl ⟨by rw [h0], { s with table := { s.table with rootInode := none } }, ?_, rfl⟩
      rw [St.iget_full env ext2RootIno (Table.vacant_eq_zero_iff.mp h0)]
      rfl
    obtain ⟨root, b, hget, hnew, hb⟩ := St.iget_of_free (s := s) (Table.vacant_pos_iff.mp hpos)
      h.holds.ipg (h.holds.inode _ h.holds.root).1
      (h.holds.inodeAt h.sound h.holds.root (by decide) h.reach)
    have hused (j : Slot) := Table.used_set_of_used (t := s.table) (i := root) (j := j)
      (e := s.table.loaded root ext2RootIno (v.inode ext2RootIno)) rfl
    refine .inr ⟨root, b, { s.table.set root (s.table.loaded root ext2RootIno
      (v.inode ext2RootIno)) with rootInode := some root }, ?_, hb, rfl, ?_, ?_, ?_,
      fun j hj => ?_⟩
    · rw [hget]
      rfl
    · exact (hused root).mpr (.inr rfl)
    · show v.InSlot _ ((s.table.set root _).inodeTable root)
      rw [Table.set_same]
      exact ⟨rfl, rfl⟩
    · rw [← Table.vacant_of_taken hnew hused, Nat.add_sub_cancel]
      rfl
    · have hjr : j ≠ root := fun hjr => hnew (hjr ▸ hj)
      exact ⟨(hused j).mpr (.inl hj), Table.set_of_ne hjr,
        fun hroot => absurd (Option.some_inj.mp hroot).symm hjr⟩

/-- The walk begins at the root, if that has a slot. -/
theorem Volume.Placed.stands (h : v.Placed env s r)
    (hpath : PathText (s.text r) (s.cap r) name absolute cs) :
    (s.table.spare = 0 ∧ ∃ s', ∀ fuel, ext2Namei env fuel s r name = .ok (none, s')) ∨
    ∃ base s₁ root q last, Stands env v r base s₁ root (some q) last ext2RootIno cs ∧
      s₁.mount = s.mount ∧ s₁.table.rootInode = some root ∧ (∀ i, s₁.table.Used i ↔ base i) ∧
      s₁.table.vacant = s.table.spare ∧ ∀ fuel, ext2Namei env fuel s r name =
        nameiLoop env fuel r (s.cap r + 1) root (some q) last s₁ := by
  rcases h.loadRoot with ⟨h0, s₁, hload, hnone⟩ |
    ⟨root, b, t, hload, hb, hroot, hused, hslot, hvacant, hkept⟩
  · refine .inl ⟨h0, s₁, fun fuel => ?_⟩
    unfold ext2Namei
    rw [hload, ok_bind, hnone]
    rfl
  have hapart : r.Apart t.Used root := by
    have hblk := h.blkbuf
    have hin := h.inode
    cases r with
    | inode i =>
      obtain ⟨hu, hne⟩ := hin i rfl
      obtain ⟨hu', -, hnew⟩ := hkept i hu
      refine ⟨hu', ?_⟩
      rintro rfl
      exact hne (hnew hroot)
    | name => trivial
    | fullname => trivial
    | blkbuf => exact hblk rfl
  have htext : ({ s with bufs := b, table := t } : St).text r = s.text r := by
    have hblk := h.blkbuf
    have hin := h.inode
    cases r with
    | inode i => exact congrArg InodeEntry.inode (hkept i (hin i rfl).1).2.1
    | name => rfl
    | fullname => rfl
    | blkbuf => exact absurd rfl hblk
  obtain ⟨q, last, mem, -, htok, hcut⟩ := hpath.strtokSimple none
  have hroot' : (St.setText { s with bufs := b, table := t } r mem).table.rootInode = some root :=
    St.setText_rootInode.trans hroot
  have hused' (i : Slot) : (St.setText { s with bufs := b, table := t } r mem).table.Used i ↔
      t.Used i := St.setText_used
  refine .inr ⟨t.Used, St.setText { s with bufs := b, table := t } r mem, root, q, last, ?_,
    St.setText_mount, hroot', hused', (Table.vacant_congr hused').trans hvacant, fun fuel => ?_⟩
  · refine .of_setText h.sound h.holds
      (hb.toBufStep.coherent (Agrees.refl env s.mount) h.coherent) h.holds.root hslot (fun j => ?_)
      (fun _ => hroot) (fun j hj => ?_) hapart hcut
    · rw [or_iff_left_of_imp]
      rintro rfl
      exact hused
    · obtain rfl := Option.some_inj.mp (hroot.symm.trans hj)
      exact hused
  · unfold ext2Namei
    rw [hload, ok_bind]
    dsimp only
    rw [hroot, htext]
    show (strtokSimple (s.text r) (s.cap r) (some name) none 47 >>= _) = _
    rw [htok]
    rfl

/-- With a slot left, the walk begins. -/
theorem Volume.Ready.stands (h : v.Ready env s r)
    (hpath : PathText (s.text r) (s.cap r) name absolute cs) :
    ∃ base s₁ root q last, Stands env v r base s₁ root (some q) last ext2RootIno cs ∧
      s₁.mount = s.mount ∧ s₁.table.rootInode = some root ∧ (∃ i, ¬ base i) ∧
      (∀ i, s₁.table.Used i ↔ base i) ∧ s₁.table.vacant = s.table.spare ∧
      ∀ fuel, ext2Namei env fuel s r name =
        nameiLoop env fuel r (s.cap r + 1) root (some q) last s₁ := by
  have hspare := h.spare
  rcases h.toPlaced.stands hpath with ⟨h0, -⟩ |
    ⟨base, s₁, root, q, last, hstands, hmount, hroot, hused, hvacant, hrun⟩
  · omega
  · obtain ⟨i, hi⟩ := Table.vacant_pos_iff.mp (hvacant ▸ hspare)
    exact ⟨base, s₁, root, q, last, hstands, hmount, hroot, ⟨i, fun hb => hi ((hused i).mpr hb)⟩,
      hused, hvacant, hrun⟩

/-- What the walk along a path is to be: it ends, in the slot that `Volume.walk` says. -/
def WalksTo (env : Env) (v : Volume) (s : St) (r : Region) (name : Nat) (cs : List Name) : Prop :=
  ∃ N out s', (∀ fuel, N ≤ fuel → ext2Namei env fuel s r name = .ok (out, s')) ∧
    v.Finds s' out (v.walk ext2RootIno cs)

/-- A path has as many names as the loop of `ext2_namei` is given, at most. -/
theorem PathText.length_le {b : Bytes} {cap : Nat} (h : PathText b cap name absolute cs) :
    cs.length ≤ cap + 1 := by
  cases absolute with
  | false => exact (Nat.le_add_left _ _).trans (PathAt.length_le h) |>.trans (Nat.le_succ cap)
  | true => exact (Nat.le_add_left _ _).trans (PathAt.length_le h.2.2) |>.trans (Nat.le_succ cap)

theorem Volume.Ready.walks (h : v.Ready env s r)
    (hpath : PathText (s.text r) (s.cap r) name absolute cs)
    (hpass : v.Passable env s.mount ext2RootIno cs) (hlive : v.NoDeleted ext2RootIno cs) :
    WalksTo env v s r name cs := by
  obtain ⟨base, s₁, root, q, last, hstands, hmount, -, hfree, -, -, hrun⟩ := h.stands hpath
  obtain ⟨N, out, s', hloop, hfinds⟩ :=
    hstands.loop hfree (hmount ▸ hpass) hlive hpath.length_le
  exact ⟨N, out, s', fun fuel hfuel => (hrun fuel).trans (hloop fuel hfuel), hfinds⟩

/-- Without a slot left, a path that begins at a directory is not found. -/
theorem Volume.Placed.full (h : v.Placed env s r)
    (hpath : PathText (s.text r) (s.cap r) name absolute cs) (hne : cs ≠ [])
    (hpass : v.Passable env s.mount ext2RootIno cs) (h0 : s.table.spare = 0) :
    ∃ N s', ∀ fuel, N ≤ fuel → ext2Namei env fuel s r name = .ok (none, s') := by
  rcases h.stands hpath with ⟨-, s', hrun⟩ |
    ⟨base, s₁, root, q, last, hstands, hmount, -, hused, hvacant, hrun⟩
  · exact ⟨0, s', fun fuel _ => hrun fuel⟩
  obtain ⟨c, cs, rfl⟩ := List.exists_cons_of_ne_nil hne
  have hfull : ∀ i, base i := fun i =>
    (hused i).mp (Table.vacant_eq_zero_iff.mp (hvacant.trans h0) i)
  obtain ⟨N, s', hloop⟩ := hstands.step_full hfull (hmount ▸ hpass.1)
  exact ⟨N, s', fun fuel hfuel => (hrun fuel).trans (hloop fuel (s.cap r) hfuel)⟩

end Namei

/-! ### Small trees

A tree of a few inodes in the first group, with directories of one block, is what is on a disk when
some values are as they are to be. -/

/-- What can be read of a directory of one block. -/
def blockOf (env : Env) (m : Mount) (ip : Inode) : Bytes :=
  (fileBlock env m (blockAt env m) ip 0).getD zeros

/-- The directory holds these entries, in records at `os`. -/
def dirCheck (env : Env) (m : Mount) (ip : Inode) (ents : List Entry) (os : List Nat) : Bool :=
  ip.iSize = 1024 && ip.iBlock 0 < 4096 && (fileBlock env m (blockAt env m) ip 0).isSome &&
    decide (Tiles (blockOf env m ip) 1024 0 os) && os.map (recEntry (blockOf env m ip)) = ents

/-- The tree has the inodes `xs`, with the records of its directories at `os`. -/
def Volume.check (v : Volume) (env : Env) (m : Mount) (xs : List UInt32) (os : UInt32 → List Nat) :
    Bool :=
  m.blocksize = 1024 && m.sb.sInodesPerGroup = 8 && m.gdsCount = 1 && m.sb.ext2InodeSize = 128 &&
    xs.contains ext2RootIno && xs.all fun x =>
      x ≠ 0 && m.groupOf x = 0 && m.inodePos x < 65536 && (inodeAt env m x).isSome &&
        (!(v.inode x).sIsdir || dirCheck env m (v.inode x) (v.entries x) (os x) &&
          (v.entries x).all fun e => e.ino = 0 || xs.contains e.ino)

/-- A tree whose inodes are in reach, and whose directories the code can go through. -/
structure Volume.Small (v : Volume) (env : Env) (m : Mount) (xs : List UInt32) : Prop where
  sound : m.Sound
  holds : v.Holds env m
  reach : ∀ x ∈ xs, m.inodePos x < 2 ^ 32
  scans : ∀ x ∈ xs, (v.inode x).sIsdir = true → Scannable env m (v.inode x)

section Check

variable {v : Volume} {env : Env} {m : Mount} {xs : List UInt32} {os : UInt32 → List Nat}

theorem dirCheck_holds {ip : Inode} {ents : List Entry} {os : List Nat} (hm : m.Sound)
    (hb : m.blocksize = 1024) (h : dirCheck env m ip ents os = true) :
    Scannable env m ip ∧ DirHolds env m ip ents := by
  have hbs : m.bs = 1024 := by
    unfold Mount.bs
    rw [hb]
    rfl
  unfold dirCheck at h
  simp only [Bool.and_eq_true, decide_eq_true_iff] at h
  obtain ⟨⟨⟨⟨hsize, hblk⟩, hsome⟩, htiles⟩, hents⟩ := h
  obtain ⟨c, hc⟩ := Option.isSome_iff_exists.mp hsome
  have hblock : blockOf env m ip = c := by
    unfold blockOf
    rw [hc]
    rfl
  rw [hblock] at htiles hents
  have hsize : ip.iSize.toNat = m.bs := by
    rw [hsize, hbs]
    rfl
  have hreach : (ip.iBlock 0).toNat * m.bs < 2 ^ 32 := by
    have hlt : (ip.iBlock 0).toNat < 4096 := UInt32.lt_iff_toNat_lt.mp hblk
    rw [hbs]
    omega
  refine ⟨scannable_of_block hm hsize hreach,
    hents ▸ dirHolds_of_block hm hsize ?_ (hbs ▸ htiles)⟩
  rw [(inReach_of_lt (by decide) hreach).formatBlock_eq hm (by decide), hc]

theorem Volume.check_small (hm : m.Sound) (hhas : ∀ x, v.has x ↔ x ∈ xs)
    (hinode : ∀ x, v.inode x = (inodeAt env m x).getD zeros) (h : v.check env m xs os = true) :
    v.Small env m xs := by
  unfold Volume.check at h
  simp only [Bool.and_eq_true, decide_eq_true_iff, List.contains_iff_mem] at h
  obtain ⟨⟨⟨⟨⟨hb, hipg⟩, hgds⟩, hsize⟩, hroot⟩, hall⟩ := h
  have hone (x : UInt32) (hx : x ∈ xs) := List.all_eq_true.mp hall x hx
  simp only [Bool.and_eq_true, Bool.or_eq_true, Bool.not_eq_true', decide_eq_true_iff] at hone
  have hreach (x : UInt32) (hx : x ∈ xs) : m.inodePos x < 2 ^ 32 :=
    (hone x hx).1.1.2.trans (by decide)
  have hdir (x : UInt32) (hx : x ∈ xs) (hd : (v.inode x).sIsdir = true) :=
    (hone x hx).2.resolve_left fun hnot => by rw [hd] at hnot; cases hnot
  refine ⟨hm, ⟨?_, ?_, by rw [hsize]; decide, (hhas _).mpr hroot, fun x hx => ⟨?_, ?_⟩,
    fun x hx hd => ?_, fun x hx hd e he h0 => ?_⟩, hreach, fun x hx hd => ?_⟩
  · rw [hipg]
    decide
  · rw [hipg, hgds]
    decide
  · rw [hgds, (hone x ((hhas x).mp hx)).1.1.1.2]
    exact Nat.one_pos
  · have hx := (hhas x).mp hx
    have hpos : 1 ≤ x.toNat := Nat.one_le_iff_ne_zero.mpr fun h0 =>
      (hone x hx).1.1.1.1 (UInt32.toNat_inj.mp h0)
    have hbs := hm.cases
    rw [← inodeAt_eq_diskInode hpos (by rw [hsize]; decide) (by omega) (hreach x hx), hinode]
    obtain ⟨ip, hip⟩ := Option.isSome_iff_exists.mp (hone x hx).1.2
    rw [hip]
    rfl
  · exact (dirCheck_holds hm hb (hdir x ((hhas x).mp hx) hd).1).2
  · have hentry := List.all_eq_true.mp (hdir x ((hhas x).mp hx) hd).2 e he
    simp only [Bool.or_eq_true, decide_eq_true_iff, List.contains_iff_mem] at hentry
    exact (hhas _).mpr (hentry.resolve_left h0)
  · exact (dirCheck_holds hm hb (hdir x hx hd).1).1

/-- In a state that has just been mounted, a path can be walked. -/
theorem Volume.Small.ready {env₀ : Env} {w : Option St} {s₀ : St}
    (hopen : ext2fsFsOpen env₀ w = .ok (0, some s₀)) (h : v.Small env s₀.mount xs)
    (hroot : ext2RootIno ∈ xs) (name : Bytes) (cap : Nat) :
    v.Ready env { s₀ with name := name, nameCap := cap } .name := by
  have hmounted := ext2fsFsOpen_spec hopen
  refine ⟨⟨⟨h.sound, h.holds, h.reach _ hroot, hmounted.hold (Or.inl rfl), fun i hi => ?_⟩, nofun,
    nofun⟩, ?_⟩
  · dsimp only at hi
    rw [hmounted.table] at hi
    cases hi
  · dsimp only
    rw [hmounted.table]
    decide +kernel

/-- A name in a directory of such a tree can be looked up. -/
theorem Volume.Small.passable (h : v.Small env m xs) {x : UInt32} {c : Name} {cs : List Name}
    (hx : x ∈ xs) (hd : (v.inode x).sIsdir = true) {e : Entry} (hlook : v.lookup x c = some e)
    (he : e.ino ∈ xs ∧ e.ino.toNat < 2 ^ 31) (hrest : v.Passable env m e.ino cs) :
    v.Passable env m x (c :: cs) := by
  refine ⟨⟨hd, h.scans x hx hd⟩, fun e' he' => ?_⟩
  obtain rfl := Option.some.inj (hlook.symm.trans he')
  exact ⟨⟨he.2, h.reach _ he.1⟩, hrest⟩

end Check

/-! ### One of them

The root directory has a deleted record `g`, a file `f`, the links `l` and `s`, and a directory
`d`; that one has a link `r` and the file again, as `x`. -/

/-- A record with a name of one letter. -/
def putEntry (b : Bytes) (o len : Nat) (ino : UInt32) (c : UInt8) : Bytes :=
  (((b.putLe o 4 ino.toNat).putLe (o + 4) 2 len).putLe (o + 6) 1 1).putLe
    (o + DirEntry.nameOffset) 1 c.toNat

/-- The inode of a link with these bytes in it. -/
def linkInode (blocks w text : Nat) : Inode :=
  (((zeros.putLe 0 2 0xA1FF).putLe 4 4 w).putLe 28 4 blocks).putLe Inode.iBlockOffset w text

/-- A name of one letter. -/
theorem nameAt_letter {b : Bytes} {cap p : Nat} {c : UInt8} (hc : c ≠ 0 ∧ c ≠ 47) (hb : b p = c)
    (hcap : p + 1 < cap) : NameAt b cap p [c] where
  ne := List.cons_ne_nil _ _
  clean _ hx := List.mem_singleton.mp hx ▸ hc
  text := congrArg (fun x => [x]) hb
  inside := hcap

end MbBootTv
