import MbBootTv.Ext2.Files
import MbBootTv.Ext2.ReadBlock

/-!
# The slots of the inode table

Which slots are in use, and what each operation does to them. A path walk gives back every slot it
takes but the one it returns (`nameiLoop_frame`); following a link does not, because the slot of
the link itself is never given back (`openLoop_frame`).
-/

namespace MbBootTv

/-! ## The table -/

namespace Table

variable {t : Table} {i j : Slot} {e : InodeEntry}

/-- Slot `i` is in use. -/
def Used (t : Table) (i : Slot) : Prop := (t.inodeTable i).blFree = false

instance : Decidable (t.Used i) := inferInstanceAs (Decidable (_ = _))

@[simp] theorem set_same : (t.set i e).inodeTable i = e := Function.update_self _ _ _

theorem set_of_ne (h : j ≠ i) : (t.set i e).inodeTable j = t.inodeTable j :=
  Function.update_of_ne h _ _

@[simp] theorem set_rootInode : (t.set i e).rootInode = t.rootInode := rfl

/-- A change of an entry that leaves `bl_free` alone. -/
theorem used_set_of_eq (h : e.blFree = (t.inodeTable i).blFree) : (t.set i e).Used j ↔ t.Used j := by
  unfold Used
  by_cases hj : j = i
  · subst hj
    rw [set_same, h]
  · rw [set_of_ne hj]

theorem used_set_of_used (h : e.blFree = false) : (t.set i e).Used j ↔ t.Used j ∨ j = i := by
  unfold Used
  by_cases hj : j = i
  · subst hj
    simp [h]
  · simp [set_of_ne hj, hj]

theorem used_iput : (ext2Iput t i).Used j ↔ t.Used j ∧ j ≠ i := by
  unfold Used ext2Iput
  by_cases hj : j = i
  · subst hj
    simp
  · simp [set_of_ne hj, hj]

theorem iput_of_ne (h : j ≠ i) : (ext2Iput t i).inodeTable j = t.inodeTable j := set_of_ne h

theorem not_used_of_firstFree (h : t.firstFree = some i) : ¬ t.Used i := by
  unfold firstFree at h
  have := List.find?_some h
  rw [Used, this]
  exact Bool.noConfusion

theorem firstFree_ne_none (h : ¬ t.Used i) : t.firstFree ≠ none := by
  unfold firstFree
  rw [ne_eq, List.find?_eq_none]
  intro hall
  have := hall i (List.mem_finRange i)
  exact h (by simpa [Used] using this)

end Table

/-! ## `ext2_iget` -/

/-- The group of inode `ino`. -/
def Mount.groupOf (m : Mount) (ino : UInt32) : Nat := ((ino - 1) / m.sb.sInodesPerGroup).toNat

/-- What `ext2_iget` reads for inode `ino`; the offset is a word of 32 bits. -/
def inodeAt (env : Env) (m : Mount) (ino : UInt32) : Option Inode :=
  bytesAt env (m.inodeOffset (m.groupOf ino) ino) inodeSize

/-- The entry of slot `i` with inode `ino` in it. -/
def Table.loaded (t : Table) (i : Slot) (ino : UInt32) (ip : Inode) : InodeEntry :=
  { t.inodeTable i with inode := ip, inumber := ino, blFree := false, oldMode := ip.iMode }

/-- This entry of the inode table holds inode `ino` as it is read. -/
def InodeEntry.Loaded (env : Env) (m : Mount) (ino : UInt32) (e : InodeEntry) : Prop :=
  inodeAt env m ino = some e.inode ∧ e.inumber = ino

/-- With a free slot and a group that is loaded, everything depends on the read. -/
theorem ext2Iget_of_free {env : Env} {m : Mount} {b : Bufs} {t : Table} {ino : UInt32} {i : Slot}
    (hfree : t.firstFree = some i) (hipg : m.sb.sInodesPerGroup ≠ 0)
    (hgroup : m.groupOf ino < m.gdsCount) :
    ext2Iget env m b t ino =
      match readBytes env b (m.inodeOffset (m.groupOf ino) ino) inodeSize with
      | (none, b) => .ok (none, b, t)
      | (some data, b) =>
        .ok (some i, b, t.set i (t.loaded i ino (Bytes.clip data inodeSize.toNat))) := by
  unfold ext2Iget
  rw [hfree]
  exact (if_neg hipg).trans (if_neg (not_le.mpr hgroup))

/-- An inode goes to the first free slot, or nothing happens to the table. -/
theorem ext2Iget_spec {env : Env} {m : Mount} {b b' : Bufs} {t t' : Table} {ino : UInt32}
    {out : Option Slot} (h : ext2Iget env m b t ino = .ok (out, b', t')) :
    MapStep env m b b' ∧
      (out = none ∧ t' = t ∧ (t.firstFree = none ∨ inodeAt env m ino = none) ∨
        ∃ i ip, out = some i ∧ t.firstFree = some i ∧ inodeAt env m ino = some ip ∧
          t' = t.set i (t.loaded i ino ip)) := by
  unfold ext2Iget at h
  cases hfree : t.firstFree with
  | none =>
    rw [hfree] at h
    obtain ⟨rfl, rfl, rfl⟩ := by simpa using h
    exact ⟨MapStep.refl _, Or.inl ⟨rfl, rfl, Or.inl rfl⟩⟩
  | some i =>
    rw [hfree] at h
    dsimp only at h
    split_ifs at h
    have hfetch := mapStep_fetch env m b (m.inodeOffset (m.groupOf ino) ino) inodeSize
    cases hip : inodeAt env m ino with
    | none =>
      have hread := readBytes_of_none b hip
      simp only [Mount.groupOf] at hread
      rw [hread] at h
      obtain ⟨rfl, rfl, rfl⟩ := by simpa using h
      exact ⟨hfetch, Or.inl ⟨rfl, rfl, Or.inr rfl⟩⟩
    | some ip =>
      obtain ⟨data, hdata, hclip⟩ := readBytes_of_some b hip
      simp only [Mount.groupOf] at hdata
      rw [hdata] at h
      obtain ⟨rfl, rfl, rfl⟩ := by simpa using h
      exact ⟨hfetch, Or.inr ⟨i, ip, rfl, rfl, rfl, by rw [hclip]; rfl⟩⟩

/-! ## Searching a directory -/

section Search

variable {env : Env} {m : Mount} {b b' : Bufs} {ip : Inode}

theorem readDirBlock_step {blkno : UInt32} {ok : Bool}
    (h : readDirBlock env m b ip blkno = .ok (ok, b')) : BufStep env m b b' := by
  unfold readDirBlock at h
  obtain ⟨⟨r, blk, b₁⟩, hread, h⟩ := bind_eq_ok.mp h
  obtain ⟨-, rfl⟩ := Prod.mk.inj (Except.ok.inj h)
  exact (ext2Breadi_step hread).toBufStep.trans (bufStep_of_eq rfl rfl rfl)

theorem nextDirEntry_step {dp : Option Nat} (h : nextDirEntry b = .ok (dp, b')) :
    BufStep env m b b' := by
  unfold nextDirEntry at h
  dsimp only at h
  split_ifs at h
  obtain ⟨-, rfl⟩ := Prod.mk.inj (Except.ok.inj h)
  exact bufStep_of_eq rfl rfl rfl

theorem readdiriNext_step {dp : Option Nat} (h : readdiriNext env m b ip = .ok (dp, b')) :
    BufStep env m b b' := by
  have hoff (b : Bufs) (d : UInt32) : BufStep env m b { b with diroffset := d } :=
    bufStep_of_eq rfl rfl rfl
  unfold readdiriNext at h
  dsimp only at h
  by_cases hend : sle m.blocksize b.blockoffset = true
  · rw [if_pos hend] at h
    split_ifs at h
    · obtain ⟨-, rfl⟩ := Prod.mk.inj (Except.ok.inj h)
      exact hoff _ _
    · obtain ⟨⟨ok, b₁⟩, hblock, h⟩ := bind_eq_ok.mp h
      have hstep := (hoff _ _).trans (readDirBlock_step hblock)
      cases ok with
      | false =>
        obtain ⟨-, rfl⟩ := Prod.mk.inj (Except.ok.inj h)
        exact hstep
      | true =>
        have hzero : BufStep env m b₁ { b₁ with blockoffset := 0 } := bufStep_of_eq rfl rfl rfl
        exact hstep.trans (hzero.trans (nextDirEntry_step h))
  · rw [if_neg hend] at h
    exact nextDirEntry_step h

theorem ext2Readdiri_step {rewind : Bool} {dp : Option Nat}
    (h : ext2Readdiri env m b ip rewind = .ok (dp, b')) : BufStep env m b b' := by
  unfold ext2Readdiri at h
  split_ifs at h
  · obtain ⟨⟨ok, b₁⟩, hblock, h⟩ := bind_eq_ok.mp h
    have hrewind : BufStep env m b { b with diroffset := 0, blockoffset := 0 } :=
      bufStep_of_eq rfl rfl rfl
    have hstep := hrewind.trans (readDirBlock_step hblock)
    cases ok with
    | false =>
      obtain ⟨-, rfl⟩ := Prod.mk.inj (Except.ok.inj h)
      exact hstep
    | true => exact hstep.trans (readdiriNext_step h)
  · exact readdiriNext_step h

theorem nameiSearch_step {text : Bytes → Bytes} {cap component len fuel : Nat} {rewind : Bool}
    {ino : UInt32}
    (h : nameiSearch env m ip text cap component len fuel rewind b = .ok (ino, b')) :
    BufStep env m b b' := by
  induction fuel generalizing rewind b with
  | zero => exact absurd h (by simp [nameiSearch])
  | succ fuel ih =>
    unfold nameiSearch at h
    obtain ⟨⟨dp, b₁⟩, hread, h⟩ := bind_eq_ok.mp h
    have hstep := ext2Readdiri_step hread
    cases dp with
    | none =>
      obtain ⟨-, rfl⟩ := Prod.mk.inj (Except.ok.inj h)
      exact hstep
    | some dp =>
      obtain ⟨found, -, h⟩ := bind_eq_ok.mp h
      cases found with
      | true =>
        obtain ⟨-, rfl⟩ := Prod.mk.inj (Except.ok.inj h)
        exact hstep
      | false => exact hstep.trans (ih h)

end Search

/-! ## Walking a path -/

namespace St

variable {s : St} {r : Region} {mem : Bytes} {i : Slot}

@[simp] theorem setText_mount : (s.setText r mem).mount = s.mount := by cases r <;> rfl

@[simp] theorem setText_nameCap : (s.setText r mem).nameCap = s.nameCap := by cases r <;> rfl

@[simp] theorem setText_rootInode : (s.setText r mem).table.rootInode = s.table.rootInode := by
  cases r <;> rfl

theorem setText_used : (s.setText r mem).table.Used i ↔ s.table.Used i := by
  cases r with
  | inode j => exact Table.used_set_of_eq rfl
  | name => rfl
  | fullname => rfl
  | blkbuf => rfl

theorem setText_entry (h : r ≠ .inode i) :
    (s.setText r mem).table.inodeTable i = s.table.inodeTable i := by
  cases r with
  | inode j => exact Table.set_of_ne fun hij => h (by rw [hij])
  | name => rfl
  | fullname => rfl
  | blkbuf => rfl

theorem setText_step {env : Env} : BufStep env s.mount s.bufs (s.setText r mem).bufs := by
  cases r with
  | blkbuf => exact bufStep_of_eq rfl rfl rfl
  | name => exact BufStep.refl _
  | fullname => exact BufStep.refl _
  | inode j => exact BufStep.refl _

end St

/-- `ext2_iget` on the whole state touches the buffers and at most one slot, a free one. -/
structure IgetStep (env : Env) (ino : UInt32) (s s' : St) (out : Option Slot) : Prop where
  mount : s'.mount = s.mount
  name : s'.name = s.name
  nameCap : s'.nameCap = s.nameCap
  fullname : s'.fullname = s.fullname
  bufs : MapStep env s.mount s.bufs s'.bufs
  table : out = none ∧ s'.table = s.table ∨
    ∃ i ip, out = some i ∧ ¬ s.table.Used i ∧ inodeAt env s.mount ino = some ip ∧
      s'.table = s.table.set i (s.table.loaded i ino ip)

theorem St.iget_spec {env : Env} {s s' : St} {ino : UInt32} {out : Option Slot}
    (h : s.iget env ino = .ok (out, s')) : IgetStep env ino s s' out := by
  unfold St.iget at h
  obtain ⟨⟨ip, b, t⟩, higet, h⟩ := bind_eq_ok.mp h
  obtain ⟨rfl, rfl⟩ := Prod.mk.inj (Except.ok.inj h)
  obtain ⟨hstep, hout⟩ := ext2Iget_spec higet
  refine ⟨rfl, rfl, rfl, rfl, hstep, ?_⟩
  rcases hout with ⟨hnone, ht, -⟩ | ⟨i, ip, hi, hfree, hip, ht⟩
  · exact Or.inl ⟨hnone, ht⟩
  · exact Or.inr ⟨i, ip, hi, Table.not_used_of_firstFree hfree, hip, ht⟩

/-- The table when `ext2_namei` is done with the directory in slot `dir`. -/
def Table.leave (t : Table) (dir : Slot) : Table :=
  if t.rootInode = some dir then t else ext2Iput t dir

section Leave

variable {t : Table} {dir : Slot} {base : Slot → Prop}

theorem Table.leave_rootInode : (t.leave dir).rootInode = t.rootInode := by
  unfold leave
  split <;> rfl

theorem Table.used_leave (hused : ∀ i, t.Used i ↔ base i ∨ i = dir)
    (hdir : base dir → t.rootInode = some dir) (hroot : ∀ i, t.rootInode = some i → base i)
    (i : Slot) : (t.leave dir).Used i ↔ base i := by
  unfold leave
  by_cases hr : t.rootInode = some dir
  · rw [if_pos hr, hused, or_iff_left_of_imp]
    rintro rfl
    exact hroot _ hr
  · rw [if_neg hr, Table.used_iput, hused]
    constructor
    · rintro ⟨hb | hb, hne⟩
      · exact hb
      · exact absurd hb hne
    · intro hb
      refine ⟨Or.inl hb, ?_⟩
      rintro rfl
      exact hr (hdir hb)

theorem Table.leave_entry (hdir : base dir → t.rootInode = some dir) {i : Slot} (hi : base i) :
    (t.leave dir).inodeTable i = t.inodeTable i := by
  unfold leave
  by_cases hr : t.rootInode = some dir
  · rw [if_pos hr]
  · rw [if_neg hr]
    refine Table.iput_of_ne ?_
    rintro rfl
    exact hr (hdir hi)

end Leave

theorem nameiLoop_some {env : Env} {fuel n : Nat} {r : Region} {dir : Slot} {component : Nat}
    {last : Option Nat} {s : St} :
    nameiLoop env fuel r (n + 1) dir (some component) last s = (do
      let len ← strlen (s.text r) (s.cap r) component
      let (nextIno, b) ← nameiSearch env s.mount (s.table.inodeTable dir).inode (s.textOf r)
        (s.cap r) component len fuel true s.bufs
      let s := { s with bufs := b, table := s.table.leave dir }
      if sneg nextIno then return (none, s)
      let (ip, s) ← s.iget env nextIno
      match ip with
      | none => return (none, s)
      | some dir => do
        let (component, last, mem) ← strtokSimple (s.text r) (s.cap r) none last 47
        nameiLoop env fuel r n dir component last (s.setText r mem)) := rfl

/-- A walk of the string in region `r`, from `s` to `s'`, that returns `out`. `base` are the slots
in use that it does not own: these it leaves alone, except for a string kept in one of them. -/
structure WalkStep (env : Env) (r : Region) (base : Slot → Prop) (s s' : St)
    (out : Option Slot) : Prop where
  mount : s'.mount = s.mount
  nameCap : s'.nameCap = s.nameCap
  bufs : BufStep env s.mount s.bufs s'.bufs
  rootInode : s'.table.rootInode = s.table.rootInode
  used : ∀ i, s'.table.Used i ↔ base i ∨ out = some i
  entry : ∀ i, base i → r ≠ .inode i → s'.table.inodeTable i = s.table.inodeTable i
  fresh : ∀ i, out = some i → ¬ base i

/-- A walk that ends where it stands. -/
theorem walkStep_end {env : Env} {r : Region} {dir : Slot} {s : St} {base : Slot → Prop}
    (hused : ∀ i, s.table.Used i ↔ base i ∨ i = dir) (hdir : ¬ base dir) :
    WalkStep env r base s s (some dir) where
  mount := rfl
  nameCap := rfl
  bufs := BufStep.refl _
  rootInode := rfl
  used i := by rw [hused, Option.some_inj, eq_comm (a := dir)]
  entry _ _ _ := rfl
  fresh i hi hb := by
    obtain rfl := Option.some_inj.mp hi
    exact hdir hb

/-- **A walk gives back every slot it takes but the one it returns.** It owns the slot of the
directory it stands in, unless that is the root; there it has at least one component to go. -/
theorem nameiLoop_frame {env : Env} {fuel n : Nat} {r : Region} {dir : Slot}
    {component last : Option Nat} {s s' : St} {out : Option Slot} {base : Slot → Prop}
    (h : nameiLoop env fuel r n dir component last s = .ok (out, s'))
    (hused : ∀ i, s.table.Used i ↔ base i ∨ i = dir)
    (hdir : base dir → s.table.rootInode = some dir ∧ component ≠ none)
    (hroot : ∀ i, s.table.rootInode = some i → base i) : WalkStep env r base s s' out := by
  induction n generalizing dir component last s with
  | zero =>
    cases component with
    | some c => exact absurd h (by simp [nameiLoop])
    | none =>
      obtain ⟨rfl, rfl⟩ := by simpa [nameiLoop] using h
      exact walkStep_end hused fun hb => (hdir hb).2 rfl
  | succ n ih =>
    cases component with
    | none =>
      obtain ⟨rfl, rfl⟩ := by simpa [nameiLoop] using h
      exact walkStep_end hused fun hb => (hdir hb).2 rfl
    | some component =>
      rw [nameiLoop_some] at h
      obtain ⟨len, -, h⟩ := bind_eq_ok.mp h
      obtain ⟨⟨nextIno, b⟩, hsearch, h⟩ := bind_eq_ok.mp h
      have hb := nameiSearch_step hsearch
      -- The directory is given back, and then only `base` is in use.
      have hleft : ∀ i, (s.table.leave dir).Used i ↔ base i := Table.used_leave hused (fun hb => (hdir hb).1) hroot
      have hkept : ∀ i, base i → (s.table.leave dir).inodeTable i = s.table.inodeTable i :=
        fun i hi => Table.leave_entry (fun hb => (hdir hb).1) hi
      have hlr : (s.table.leave dir).rootInode = s.table.rootInode := Table.leave_rootInode
      dsimp only at h
      generalize s.table.leave dir = t at hleft hkept hlr h
      by_cases hneg : sneg nextIno = true
      · rw [if_pos hneg] at h
        obtain ⟨rfl, rfl⟩ := Prod.mk.inj (Except.ok.inj h)
        exact ⟨rfl, rfl, hb, hlr, fun i => by simp [hleft], fun i hi _ => hkept i hi, by simp⟩
      rw [if_neg hneg] at h
      obtain ⟨⟨out₁, s₁⟩, higet, h⟩ := bind_eq_ok.mp h
      obtain ⟨hm₁, -, hcap₁, -, hb₁, hout⟩ := St.iget_spec higet
      dsimp only at hm₁ hcap₁ hb₁ hout h
      have hbufs : BufStep env s.mount s.bufs s₁.bufs := hb.trans hb₁.toBufStep
      rcases hout with ⟨rfl, ht₁⟩ | ⟨i, ip, rfl, hfree, -, ht₁⟩
      · obtain ⟨rfl, rfl⟩ := Prod.mk.inj (Except.ok.inj h)
        exact ⟨hm₁, hcap₁, hbufs, by rw [ht₁, hlr], fun i => by simp [ht₁, hleft],
          fun i hi _ => by rw [ht₁, hkept i hi], by simp⟩
      · -- The next directory is in a slot that nobody has; the walk goes on from there.
        obtain ⟨⟨component', last', mem⟩, -, h⟩ := bind_eq_ok.mp h
        have hfree' : ¬ base i := fun hi => hfree ((hleft i).mpr hi)
        have hr₁ : (s₁.setText r mem).table.rootInode = s.table.rootInode := by
          rw [St.setText_rootInode, ht₁, Table.set_rootInode, hlr]
        have hrest := ih h
          (fun j => by rw [St.setText_used, ht₁, Table.used_set_of_used rfl, hleft])
          (fun hi => absurd hi hfree')
          (fun j hj => hroot j (hr₁ ▸ hj))
        obtain ⟨hmount, hcap, hbufs', hroot', hused', hentry, hfresh⟩ := hrest
        rw [St.setText_mount, hm₁] at hbufs'
        refine ⟨by rw [hmount, St.setText_mount, hm₁], by rw [hcap, St.setText_nameCap, hcap₁], ?_,
          hroot'.trans hr₁, hused', fun j hj hr => ?_, hfresh⟩
        · exact (hbufs.trans (hm₁ ▸ St.setText_step)).trans hbufs'
        · have hne : j ≠ i := by
            rintro rfl
            exact hfree' hj
          rw [hentry j hj hr, St.setText_entry hr, ht₁, Table.set_of_ne hne, hkept j hj]

/-! ## From the root -/

/-- The root is loaded at most once, into a free slot. -/
structure RootStep (env : Env) (s s' : St) : Prop where
  mount : s'.mount = s.mount
  name : s'.name = s.name
  nameCap : s'.nameCap = s.nameCap
  fullname : s'.fullname = s.fullname
  bufs : MapStep env s.mount s.bufs s'.bufs
  table : s'.table = s.table ∨
    ∃ i ip, s.table.rootInode = none ∧ ¬ s.table.Used i ∧
      inodeAt env s.mount ext2RootIno = some ip ∧
      s'.table = { s.table.set i (s.table.loaded i ext2RootIno ip) with rootInode := some i }

theorem loadRoot_spec {env : Env} {s s' : St} (h : loadRoot env s = .ok s') :
    RootStep env s s' := by
  unfold loadRoot at h
  cases hr : s.table.rootInode with
  | some i =>
    rw [hr] at h
    obtain rfl := Except.ok.inj h
    exact ⟨rfl, rfl, rfl, rfl, MapStep.refl _, Or.inl rfl⟩
  | none =>
    rw [hr] at h
    obtain ⟨⟨out, s₁⟩, higet, h⟩ := bind_eq_ok.mp h
    obtain rfl := Except.ok.inj h
    obtain ⟨hm, hname, hcap, hfull, hbufs, hout⟩ := St.iget_spec higet
    refine ⟨hm, hname, hcap, hfull, hbufs, ?_⟩
    rcases hout with ⟨rfl, ht⟩ | ⟨i, ip, rfl, hfree, hip, ht⟩
    · left
      dsimp only
      rw [ht, ← hr]
    · right
      exact ⟨i, ip, hr, hfree, hip, by dsimp only; rw [ht]⟩

/-- `ext2_namei` of a string in region `r`: what is in use afterwards is what was in use, the root
and the slot it returns. -/
structure NameiStep (env : Env) (r : Region) (s s' : St) (out : Option Slot) : Prop where
  mount : s'.mount = s.mount
  nameCap : s'.nameCap = s.nameCap
  bufs : BufStep env s.mount s.bufs s'.bufs
  root : ∀ i, s.table.rootInode = some i → s'.table.rootInode = some i
  rootNew : ∀ i, s'.table.rootInode = some i → s.table.Used i → s.table.rootInode = some i
  used : ∀ i, s'.table.Used i ↔ s.table.Used i ∨ s'.table.rootInode = some i ∨ out = some i
  entry : ∀ i, s.table.Used i → r ≠ .inode i → s'.table.inodeTable i = s.table.inodeTable i
  fresh : ∀ i, out = some i → ¬ s.table.Used i
  notRoot : ∀ i, out = some i → s'.table.rootInode ≠ some i
  loaded : ∀ i, s.table.rootInode = none → s'.table.rootInode = some i → r ≠ .inode i →
    (s'.table.inodeTable i).Loaded env s.mount ext2RootIno

/-- The root is in use. -/
def Table.RootUsed (t : Table) : Prop := ∀ i, t.rootInode = some i → t.Used i

/-- The first token of a string is always there, be it empty. -/
theorem strtokSimple_ne_none {b mem : Bytes} {cap p : Nat} {last tok last' : Option Nat} {c : UInt8}
    (h : strtokSimple b cap (some p) last c = .ok (tok, last', mem)) : tok ≠ none := by
  unfold strtokSimple at h
  obtain ⟨x, -, h⟩ := bind_eq_ok.mp h
  obtain ⟨t, -, h⟩ := bind_eq_ok.mp h
  cases t with
  | none =>
    cases h
    exact Option.some_ne_none _
  | some t =>
    cases h
    exact Option.some_ne_none _

theorem ext2Namei_frame {env : Env} {fuel name : Nat} {s s' : St} {r : Region} {out : Option Slot}
    (h : ext2Namei env fuel s r name = .ok (out, s')) (hroot : s.table.RootUsed) :
    NameiStep env r s s' out := by
  unfold ext2Namei at h
  obtain ⟨s₁, hload, h⟩ := bind_eq_ok.mp h
  obtain ⟨hm₁, -, hcap₁, -, hb₁, ht₁⟩ := loadRoot_spec hload
  -- The slots in use once the root is loaded.
  have hused₁ : ∀ i, s₁.table.Used i ↔ s.table.Used i ∨ s₁.table.rootInode = some i := by
    intro i
    rcases ht₁ with ht₁ | ⟨j, ip, -, -, -, ht₁⟩
    · rw [ht₁, or_iff_left_of_imp (hroot i)]
    · rw [ht₁]
      exact (Table.used_set_of_used rfl).trans (by rw [Option.some_inj, eq_comm])
  have hnew₁ : ∀ i, s₁.table.rootInode = some i → s.table.Used i → s.table.rootInode = some i := by
    intro i hi hu
    rcases ht₁ with ht₁ | ⟨j, ip, -, hfree, -, ht₁⟩
    · rwa [ht₁] at hi
    · rw [ht₁] at hi
      obtain rfl := Option.some_inj.mp hi
      exact absurd hu hfree
  have hkeep₁ : ∀ i, s.table.rootInode = some i → s₁.table.rootInode = some i := by
    intro i hi
    rcases ht₁ with ht₁ | ⟨j, ip, hnone, -, -, -⟩
    · rw [ht₁, hi]
    · rw [hnone] at hi
      exact absurd hi (Option.some_ne_none i).symm
  have hentry₁ : ∀ i, s.table.Used i → s₁.table.inodeTable i = s.table.inodeTable i := by
    intro i hi
    rcases ht₁ with ht₁ | ⟨j, ip, -, hfree, -, ht₁⟩
    · rw [ht₁]
    · have hne : i ≠ j := by
        rintro rfl
        exact hfree hi
      rw [ht₁]
      exact Table.set_of_ne hne
  cases hr : s₁.table.rootInode with
  | none =>
    rw [hr] at h
    obtain ⟨rfl, rfl⟩ := Prod.mk.inj (Except.ok.inj h)
    exact ⟨hm₁, hcap₁, hb₁.toBufStep, hkeep₁, hnew₁, fun i => by simp [hused₁],
      fun i hi _ => hentry₁ i hi, by simp, by simp, fun i _ hi _ => by simp [hr] at hi⟩
  | some root =>
    rw [hr] at h
    obtain ⟨⟨component, last, mem⟩, htok, h⟩ := bind_eq_ok.mp h
    have hr₂ : (s₁.setText r mem).table.rootInode = s₁.table.rootInode := St.setText_rootInode
    have hwalk : WalkStep env r s₁.table.Used _ s' out := nameiLoop_frame h
      (fun i => by
        rw [St.setText_used, or_iff_left_of_imp]
        rintro rfl
        exact (hused₁ i).mpr (Or.inr hr))
      (fun _ => ⟨by rw [hr₂, hr], strtokSimple_ne_none htok⟩)
      (fun i hi => (hused₁ i).mpr (Or.inr (hr₂ ▸ hi)))
    obtain ⟨hmount, hcap, hbufs, hroot', hused, hentry, hfresh⟩ := hwalk
    rw [hr₂] at hroot'
    rw [St.setText_mount, hm₁] at hbufs
    refine ⟨by rw [hmount, St.setText_mount, hm₁], by rw [hcap, St.setText_nameCap, hcap₁],
      (hb₁.toBufStep.trans (hm₁ ▸ St.setText_step)).trans hbufs, fun i hi => ?_, fun i hi => ?_,
      fun i => by rw [hused, hused₁, hroot', or_assoc], fun i hi hne => ?_,
      fun i hi hu => hfresh i hi ((hused₁ i).mpr (Or.inl hu)), fun i hi hroot => ?_,
      fun i hnone hi hne => ?_⟩
    · rw [hroot']
      exact hkeep₁ i hi
    · rw [hroot'] at hi
      exact hnew₁ i hi
    · rw [hentry i ((hused₁ i).mpr (Or.inl hi)) hne, St.setText_entry hne, hentry₁ i hi]
    · exact hfresh i hi ((hused₁ i).mpr (Or.inr (hroot' ▸ hroot)))
    · have hi₁ : s₁.table.rootInode = some i := hroot' ▸ hi
      rw [hentry i ((hused₁ i).mpr (Or.inr hi₁)) hne, St.setText_entry hne]
      rcases ht₁ with ht₁ | ⟨j, ip, -, -, hip, ht₁⟩
      · rw [ht₁, hnone] at hi₁
        cases hi₁
      · rw [ht₁] at hi₁ ⊢
        obtain rfl := Option.some_inj.mp hi₁
        show ((s.table.set j _).inodeTable j).Loaded env s.mount ext2RootIno
        rw [Table.set_same]
        exact ⟨hip, rfl⟩

/-! ## Opening -/

/-- Where the text of a link stands: not in the inode table, or in the inode of the link. -/
theorem linkText_spec {env : Env} {s s' : St} {i : Slot} {text : Option (Region × Nat)}
    (h : linkText env s i = .ok (text, s')) :
    BufStep env s.mount s.bufs s'.bufs ∧ s' = { s with bufs := s'.bufs } ∧
      ∀ r p, text = some (r, p) → ∀ j, r = .inode j → j = i := by
  unfold linkText at h
  dsimp only at h
  split_ifs at h with hblocks
  · obtain ⟨⟨r, blk, b⟩, hread, h⟩ := bind_eq_ok.mp h
    have hstep := (ext2Breadi_step hread).toBufStep
    have hkeep : BufStep env s.mount b { b with blkbuf := blk } := bufStep_of_eq rfl rfl rfl
    obtain ⟨rfl, rfl⟩ := Prod.mk.inj (Except.ok.inj h)
    refine ⟨hstep.trans hkeep, rfl, fun r' p htext j hj => ?_⟩
    split_ifs at htext
    obtain ⟨rfl, -⟩ := Prod.mk.inj (Option.some.inj htext)
    exact absurd hj (by simp)
  · obtain ⟨rfl, rfl⟩ := Prod.mk.inj (Except.ok.inj h)
    refine ⟨BufStep.refl _, rfl, fun r p htext j hj => ?_⟩
    obtain ⟨rfl, -⟩ := Prod.mk.inj (Option.some.inj htext)
    exact (Region.inode.inj hj).symm

/-- Following the link in slot `i`: the walk of a string that stands in no other slot. -/
theorem ext2FollowLink_frame {env : Env} {fuel : Nat} {s s' : St} {i : Slot} {out : Option Slot}
    (h : ext2FollowLink env fuel s i = .ok (out, s')) (hroot : s.table.RootUsed) :
    (out = none ∧ ∃ b, BufStep env s.mount s.bufs b ∧ s' = { s with bufs := b }) ∨
      ∃ r, (∀ j, r = .inode j → j = i) ∧ NameiStep env r s s' out := by
  unfold ext2FollowLink at h
  obtain ⟨⟨text, s₁⟩, htext, h⟩ := bind_eq_ok.mp h
  obtain ⟨hbufs, hs₁, hregion⟩ := linkText_spec htext
  -- A walk from a state that differs from `s` in the buffers and `fullname` only.
  have hwalk : ∀ (r : Region) (p : Nat) (full : Bytes), (∀ j, r = .inode j → j = i) →
      ext2Namei env fuel { s₁ with fullname := full } r p = .ok (out, s') →
      ∃ r, (∀ j, r = .inode j → j = i) ∧ NameiStep env r s s' out := by
    intro r p full hr hnamei
    have hframe := ext2Namei_frame hnamei (by rw [hs₁]; exact hroot)
    refine ⟨r, hr, ?_⟩
    obtain ⟨h1, h2, h3, h4, h5, h6, h7, h8, h9, h10⟩ := hframe
    rw [hs₁] at h1 h2 h3 h4 h5 h6 h7 h8 h10
    exact ⟨h1, h2, hbufs.trans h3, h4, h5, h6, h7, h8, h9, h10⟩
  cases text with
  | none =>
    obtain ⟨rfl, rfl⟩ := Prod.mk.inj (Except.ok.inj h)
    exact Or.inl ⟨rfl, _, hbufs, hs₁⟩
  | some text =>
    obtain ⟨r, p⟩ := text
    have hr := hregion r p rfl
    obtain ⟨c, -, h⟩ := bind_eq_ok.mp h
    split_ifs at h with hc
    · obtain ⟨e, -, h⟩ := bind_eq_ok.mp h
      cases e with
      | none => exact Or.inr (hwalk r p s₁.fullname hr h)
      | some e =>
        obtain ⟨full, -, h⟩ := bind_eq_ok.mp h
        cases full with
        | none =>
          obtain ⟨rfl, rfl⟩ := Prod.mk.inj (Except.ok.inj h)
          exact Or.inl ⟨rfl, _, hbufs, hs₁⟩
        | some full => exact Or.inr (hwalk .fullname 0 full (by simp) h)
    · exact Or.inr (hwalk r p s₁.fullname hr h)

/-- `ext2_open` from `s` to `s'`, with `start` the slots that it owns already: it takes slots and
gives back none, returns one that nobody else has, and changes no open file. -/
structure OpenStep (env : Env) (start : Slot → Prop) (s s' : St) (out : Option Slot) : Prop where
  mount : s'.mount = s.mount
  bufs : BufStep env s.mount s.bufs s'.bufs
  root : ∀ i, s.table.rootInode = some i → s'.table.rootInode = some i
  rootNew : ∀ i, s'.table.rootInode = some i → s.table.Used i → s.table.rootInode = some i
  rootUsed : s'.table.RootUsed
  used : ∀ i, s.table.Used i ∨ out = some i → s'.table.Used i
  entry : ∀ i, s.table.Used i → (s.table.inodeTable i).inode.sIslnk = false →
    s'.table.inodeTable i = s.table.inodeTable i
  fresh : ∀ i, out = some i → s.table.Used i → start i
  file : ∀ i, out = some i → (s'.table.inodeTable i).inode.sIslnk = false
  loaded : ∀ i, s.table.rootInode = none → s'.table.rootInode = some i →
    (∀ ip, inodeAt env s.mount ext2RootIno = some ip → ip.sIslnk = false) →
    (s'.table.inodeTable i).Loaded env s.mount ext2RootIno

section Compose

variable {env : Env} {r : Region} {s s₁ s' : St} {i : Slot} {out : Option Slot}
  {start : Slot → Prop}

theorem NameiStep.rootUsed (h : NameiStep env r s s' out) : s'.table.RootUsed :=
  fun i hi => (h.used i).mpr (Or.inr (Or.inl hi))

/-- A string that stands in no open file leaves the open files as they are. -/
theorem NameiStep.entry_of_file (h : NameiStep env r s s' out)
    (hr : ∀ j, r = .inode j → s.table.Used j ∧ (s.table.inodeTable j).inode.sIslnk = true)
    (hu : s.table.Used i) (hfile : (s.table.inodeTable i).inode.sIslnk = false) :
    s'.table.inodeTable i = s.table.inodeTable i := by
  refine h.entry i hu fun hri => ?_
  rw [(hr i hri).2] at hfile
  exact absurd hfile.symm Bool.false_ne_true

/-- The root is loaded into a slot in which no string stands. -/
theorem NameiStep.loaded_root (h : NameiStep env r s s' out)
    (hr : ∀ j, r = .inode j → s.table.Used j ∧ (s.table.inodeTable j).inode.sIslnk = true)
    (hnone : s.table.rootInode = none) (hi : s'.table.rootInode = some i) :
    (s'.table.inodeTable i).Loaded env s.mount ext2RootIno := by
  refine h.loaded i hnone hi fun hri => ?_
  cases hnone.symm.trans (h.rootNew i hi (hr i hri).1)

/-- An open that fails in the walk. -/
theorem NameiStep.failed (h : NameiStep env r s s' none)
    (hr : ∀ j, r = .inode j → s.table.Used j ∧ (s.table.inodeTable j).inode.sIslnk = true) :
    OpenStep env start s s' none :=
  ⟨h.mount, h.bufs, h.root, h.rootNew, h.rootUsed,
    fun i hi => (h.used i).mpr (hi.imp_right fun hi => Or.inr hi),
    fun _ hu hfile => h.entry_of_file hr hu hfile, by simp, by simp,
    fun _ hnone hi _ => h.loaded_root hr hnone hi⟩

/-- An open that goes on from the slot that the walk returned. -/
theorem NameiStep.openStep (h : NameiStep env r s s₁ (some i))
    (hr : ∀ j, r = .inode j → s.table.Used j ∧ (s.table.inodeTable j).inode.sIslnk = true)
    (hrest : OpenStep env (· = i) s₁ s' out) : OpenStep env start s s' out := by
  have hused : ∀ j, s.table.Used j → s₁.table.Used j := fun j hj => (h.used j).mpr (Or.inl hj)
  refine ⟨hrest.mount.trans h.mount, h.bufs.trans (h.mount ▸ hrest.bufs),
    fun j hj => hrest.root j (h.root j hj),
    fun j hj hu => h.rootNew j (hrest.rootNew j hj (hused j hu)) hu, hrest.rootUsed,
    fun j hj => hrest.used j (hj.imp_left (hused j)), fun j hu hfile => ?_, fun j hj hu => ?_,
    hrest.file, fun j hnone hj hfile => ?_⟩
  · have hentry := h.entry_of_file hr hu hfile
    rw [hrest.entry j (hused j hu) (by rw [hentry]; exact hfile), hentry]
  · obtain rfl := hrest.fresh j hj (hused j hu)
    exact absurd hu (h.fresh j rfl)
  · cases hs₁ : s₁.table.rootInode with
    | none =>
      rw [← h.mount] at hfile ⊢
      exact hrest.loaded j hs₁ hj hfile
    | some k =>
      obtain rfl := Option.some_inj.mp ((hrest.root k hs₁).symm.trans hj)
      have hloaded := h.loaded_root hr hnone hs₁
      rw [hrest.entry k (h.rootUsed k hs₁) (hfile _ hloaded.1)]
      exact hloaded

/-- An open that ends where it stands. -/
theorem openStep_end (hlnk : (s.table.inodeTable i).inode.sIslnk = false)
    (hroot : s.table.RootUsed) (hi : s.table.Used i) : OpenStep env (· = i) s s (some i) where
  mount := rfl
  bufs := BufStep.refl _
  root _ h := h
  rootNew _ h _ := h
  rootUsed := hroot
  used _ hj := hj.elim id fun hj => Option.some_inj.mp hj ▸ hi
  entry _ _ _ := rfl
  fresh _ hj _ := (Option.some_inj.mp hj).symm
  file _ hj := Option.some_inj.mp hj ▸ hlnk
  loaded _ hnone hj := absurd (hnone.symm.trans hj).symm (Option.some_ne_none _)

theorem openLoop_of_file {fuel n : Nat} (hlnk : (s.table.inodeTable i).inode.sIslnk = false) :
    openLoop env fuel n i s = .ok (some i, s) := by
  unfold openLoop
  rw [if_neg (by rw [hlnk]; exact Bool.false_ne_true)]

end Compose

/-- **Opening takes slots and gives back none.** Each link on the way keeps the one it is in. -/
theorem openLoop_frame {env : Env} {fuel n : Nat} {i : Slot} {s s' : St} {out : Option Slot}
    (h : openLoop env fuel n i s = .ok (out, s')) (hroot : s.table.RootUsed)
    (hi : s.table.Used i) : OpenStep env (· = i) s s' out := by
  induction n generalizing i s with
  | zero =>
    cases hlnk : (s.table.inodeTable i).inode.sIslnk with
    | true =>
      rw [openLoop, if_pos hlnk] at h
      cases h
    | false =>
      rw [openLoop_of_file hlnk] at h
      obtain ⟨rfl, rfl⟩ := Prod.mk.inj (Except.ok.inj h)
      exact openStep_end hlnk hroot hi
  | succ n ih =>
    cases hlnk : (s.table.inodeTable i).inode.sIslnk with
    | true =>
      rw [openLoop, if_pos hlnk] at h
      obtain ⟨⟨out₁, s₁⟩, hfollow, h⟩ := bind_eq_ok.mp h
      rcases ext2FollowLink_frame hfollow hroot with ⟨rfl, b, hb, rfl⟩ | ⟨r, hr, hnamei⟩
      · obtain ⟨rfl, rfl⟩ := Prod.mk.inj (Except.ok.inj h)
        exact ⟨rfl, hb, fun _ h => h, fun _ h _ => h, hroot, fun j hj => by simpa using hj,
          fun _ _ _ => rfl, by simp, by simp,
          fun _ hnone hj _ => absurd (hnone.symm.trans hj).symm (Option.some_ne_none _)⟩
      · have hlink : ∀ j, r = .inode j →
            s.table.Used j ∧ (s.table.inodeTable j).inode.sIslnk = true := by
          intro j hj
          rw [hr j hj]
          exact ⟨hi, hlnk⟩
        cases out₁ with
        | none =>
          obtain ⟨rfl, rfl⟩ := Prod.mk.inj (Except.ok.inj h)
          exact hnamei.failed hlink
        | some i₁ =>
          exact hnamei.openStep hlink
            (ih h hnamei.rootUsed ((hnamei.used i₁).mpr (Or.inr (Or.inr rfl))))
    | false =>
      rw [openLoop_of_file hlnk] at h
      obtain ⟨rfl, rfl⟩ := Prod.mk.inj (Except.ok.inj h)
      exact openStep_end hlnk hroot hi

/-- `ext2_open` returns a slot that nobody has. -/
theorem ext2Open_frame {env : Env} {fuel : Nat} {s s' : St} {out : Option Slot}
    (h : ext2Open env fuel s = .ok (out, s')) (hroot : s.table.RootUsed) :
    OpenStep env (fun _ => False) s s' out := by
  unfold ext2Open at h
  obtain ⟨⟨out₁, s₁⟩, hnamei, h⟩ := bind_eq_ok.mp h
  have hframe := ext2Namei_frame hnamei hroot
  cases out₁ with
  | none =>
    obtain ⟨rfl, rfl⟩ := Prod.mk.inj (Except.ok.inj h)
    exact hframe.failed (by simp)
  | some i =>
    exact hframe.openStep (by simp)
      (openLoop_frame h hframe.rootUsed ((hframe.used i).mpr (Or.inr (Or.inr rfl))))

end MbBootTv
