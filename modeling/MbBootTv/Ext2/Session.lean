import Mathlib.Data.Finset.Basic
import Mathlib.Data.Finset.Filter
import MbBootTv.Lib.Reach
import MbBootTv.Ext2.Mount
import MbBootTv.Ext2.ReadFile
import MbBootTv.Ext2.Slots

/-!
# Sessions

A session is any sequence of the calls that `ext2fs.c` offers on a mounted file system. Which
descriptors are open is not part of the program's state, so a session keeps account of it beside
the state: a descriptor is open from the `ext2fs_open` that stored it to the `ext2fs_close` of it.

What a call may ask for is a parameter of `Session.Step`; `Session.Inv` holds in every run whose
calls name open descriptors, or descriptors that are refused.
-/

namespace MbBootTv

/-! ## Calls -/

/-- A call on the mounted file system. -/
inductive Call
  | openFile (name : Bytes) (cap : Nat)
  | read (fd : UInt32) (buf : Bytes) (size : UInt32)
  | seek (fd : UInt32) (newpos : UInt64)
  | close (fd : UInt32)

/-- What comes back. -/
inductive Reply
  | opened (fd : Option Slot)
  | read (r : ReadResult)
  | status (ret : Int)

/-- Make a call. -/
def perform (env : Env) (fuel : Nat) (w : Option St) : Call → Except Fault (Reply × Option St)
  | .openFile name cap => do
    let (fd, w) ← ext2fsOpen env fuel w name cap
    return (.opened fd, w)
  | .read fd buf size => do
    let (r, w) ← ext2fsRead env w fd buf size
    return (.read r, w)
  | .seek fd newpos => do
    let (ret, w) ← ext2fsSeek w fd newpos
    return (.status ret, w)
  | .close fd => do
    let (ret, w) ← ext2fsClose w fd
    return (.status ret, w)

/-- The open descriptors after a call. -/
def Call.track : Call → Reply → Finset Slot → Finset Slot
  | .openFile _ _, .opened (some i), fds => insert i fds
  | .close fd, .status 0, fds => fds.filter fun i => (i : Nat) ≠ fd.toNat
  | _, _, fds => fds

/-- A mounted file system, and the descriptors that are open. -/
structure Session where
  st : St
  fds : Finset Slot

/-- A call with its surroundings; `fuel` bounds the directory entries it looks at. -/
structure Event where
  env : Env
  fuel : Nat
  call : Call

/-- One call that `guard` allows. -/
def Session.Step (guard : Session → Event → Prop) (x : Session) (e : Event) (y : Session) : Prop :=
  guard x e ∧ ∃ reply, perform e.env e.fuel (some x.st) e.call = .ok (reply, some y.st) ∧
    y.fds = e.call.track reply x.fds

/-- `fd` is an open descriptor. -/
def OpenFd (fds : Finset Slot) (fd : UInt32) : Prop := ∃ i ∈ fds, (i : Nat) = fd.toNat

/-- A call whose descriptor is open. -/
def Call.OnOpen (fds : Finset Slot) : Call → Prop
  | .openFile _ _ => True
  | .read fd _ _ => OpenFd fds fd
  | .seek fd _ => OpenFd fds fd
  | .close fd => OpenFd fds fd

/-- A call whose descriptor is open, or refused by the check of its argument. -/
def Call.Admissible (fds : Finset Slot) : Call → Prop
  | .openFile _ _ => True
  | .read fd _ _ => OpenFd fds fd ∨ maxOpenFiles < fd.toNat
  | .seek fd newpos => OpenFd fds fd ∨ maxOpenFiles < fd.toNat ∨ 0x100000000 ≤ newpos
  | .close fd => OpenFd fds fd ∨ maxOpenFiles < fd.toNat

theorem Call.OnOpen.admissible {fds : Finset Slot} {call : Call} (h : call.OnOpen fds) :
    call.Admissible fds := by
  cases call with
  | openFile name cap => exact h
  | read fd buf size => exact Or.inl h
  | seek fd newpos => exact Or.inl h
  | close fd => exact Or.inl h

/-! ## What the calls do to the state -/

theorem checkFd_of_eq {fd : UInt32} {i : Slot} (h : (i : Nat) = fd.toNat) :
    checkFd fd = .ok (some i) := by
  unfold checkFd
  rw [dif_pos (h ▸ i.isLt)]
  congr 2
  exact Fin.ext h.symm

theorem checkFd_of_gt {fd : UInt32} (h : maxOpenFiles < fd.toNat) : checkFd fd = .ok none := by
  unfold checkFd
  rw [dif_neg (by omega), if_neg (by omega)]

section Descriptors

variable {env : Env} {s : St} {fd : UInt32} {i : Slot} {buf : Bytes} {size : UInt32}
  {newpos : UInt64}

theorem ext2fsRead_of_eq (h : (i : Nat) = fd.toNat) :
    ext2fsRead env (some s) fd buf size = (do
      let (r, s) ← readSlot env s i buf size
      return (r, some s)) := by
  unfold ext2fsRead
  rw [checkFd_of_eq h]
  rfl

theorem ext2fsRead_refused (h : maxOpenFiles < fd.toNat) :
    ext2fsRead env (some s) fd buf size = .ok (⟨-1, size, buf⟩, some s) := by
  unfold ext2fsRead
  rw [checkFd_of_gt h]
  rfl

theorem ext2fsSeek_of_eq (h : (i : Nat) = fd.toNat) (hlt : ¬ 0x100000000 ≤ newpos) :
    ext2fsSeek (some s) fd newpos =
      if newpos > (s.table.inodeTable i).inode.iSize.toUInt64 then .ok (-1, some s)
      else .ok (0, some (s.moved s.bufs i newpos.toUInt32)) := by
  unfold ext2fsSeek
  dsimp only
  rw [if_neg hlt, checkFd_of_eq h]
  rfl

theorem ext2fsSeek_refused (h : maxOpenFiles < fd.toNat ∨ 0x100000000 ≤ newpos) :
    ext2fsSeek (some s) fd newpos = .ok (-1, some s) := by
  unfold ext2fsSeek
  dsimp only
  by_cases hge : 0x100000000 ≤ newpos
  · rw [if_pos hge]
  · rw [if_neg hge, checkFd_of_gt (h.resolve_right hge)]
    rfl

theorem ext2fsClose_of_eq (h : (i : Nat) = fd.toNat) :
    ext2fsClose (some s) fd = .ok (0, some
      (if s.table.rootInode = some i then s else { s with table := ext2Iput s.table i })) := by
  unfold ext2fsClose
  rw [checkFd_of_eq h]
  simp only [ok_bind]
  split_ifs <;> rfl

theorem ext2fsClose_refused (h : maxOpenFiles < fd.toNat) :
    ext2fsClose (some s) fd = .ok (-1, some s) := by
  unfold ext2fsClose
  rw [checkFd_of_gt h]
  rfl

/-! A call that succeeds, whatever its descriptor. -/

end Descriptors

theorem openStep_none (env : Env) (start : Slot → Prop) {s : St} (hroot : s.table.RootUsed) :
    OpenStep env start s s none :=
  ⟨rfl, BufStep.refl _, fun _ h => h, fun _ h _ => h, hroot, fun i hi => by simpa using hi,
    fun _ _ _ => rfl, by simp, by simp,
    fun _ hnone hj _ => absurd (hnone.symm.trans hj).symm (Option.some_ne_none _)⟩

theorem ext2fsOpen_spec {env : Env} {fuel cap : Nat} {s : St} {name : Bytes} {fd : Option Slot}
    {w : Option St} (h : ext2fsOpen env fuel (some s) name cap = .ok (fd, w))
    (hroot : s.table.RootUsed) :
    ∃ s₁, OpenStep env (fun _ => False) s s₁ fd ∧
      w = some (fd.elim s₁ fun i => s₁.moved s₁.bufs i 0) := by
  unfold ext2fsOpen at h
  obtain ⟨len, -, h⟩ := bind_eq_ok.mp h
  dsimp only at h
  split_ifs at h with hlen
  · obtain ⟨rfl, rfl⟩ := Prod.mk.inj (Except.ok.inj h)
    exact ⟨s, openStep_none env _ hroot, rfl⟩
  · obtain ⟨⟨out, s₁⟩, hopen, h⟩ := bind_eq_ok.mp h
    obtain ⟨h1, h2, h3, h4, h5, h6, h7, h8, h9, h10⟩ := ext2Open_frame hopen hroot
    have hstep : OpenStep env (fun _ => False) s s₁ out :=
      ⟨h1, h2, h3, h4, h5, h6, h7, h8, h9, h10⟩
    cases out with
    | none =>
      obtain ⟨rfl, rfl⟩ := Prod.mk.inj (Except.ok.inj h)
      exact ⟨s₁, hstep, rfl⟩
    | some i =>
      obtain ⟨rfl, rfl⟩ := Prod.mk.inj (Except.ok.inj h)
      exact ⟨s₁, hstep, rfl⟩

namespace St

variable {s : St} {b : Bufs} {i j : Slot} {pos : UInt32}

theorem moved_used : (s.moved b i pos).table.Used j ↔ s.table.Used j := Table.used_set_of_eq rfl

theorem moved_same :
    (s.moved b i pos).table.inodeTable i = { s.table.inodeTable i with pos := pos } :=
  Table.set_same

theorem moved_of_ne (h : j ≠ i) :
    (s.moved b i pos).table.inodeTable j = s.table.inodeTable j :=
  Table.set_of_ne h

end St

/-! ## The invariant -/

/-- The entry of an open descriptor. -/
structure InodeEntry.IsOpen (e : InodeEntry) : Prop where
  used : e.blFree = false
  file : e.inode.sIslnk = false
  pos : e.pos.toNat ≤ e.inode.iSize.toNat

/-- What holds throughout a session on the file system `m`, of which `R` says what the blocks can
hold. -/
structure Session.Inv (m : Mount) (R : UInt32 → Bytes → Prop) (x : Session) : Prop where
  mount : x.st.mount = m
  hold : x.st.bufs.Hold m R
  rootUsed : x.st.table.RootUsed
  isOpen : ∀ i ∈ x.fds, (x.st.table.inodeTable i).IsOpen

namespace Session.Inv

variable {m : Mount} {R : UInt32 → Bytes → Prop} {env : Env} {s : St} {fds : Finset Slot}

/-- The position of an open descriptor moves, in the file. -/
theorem moved (h : Inv m R ⟨s, fds⟩) {b : Bufs} (hb : BufStep env m s.bufs b)
    (ha : Delivers env m R) {i : Slot} (hi : i ∈ fds) {pos : UInt32}
    (hpos : pos.toNat ≤ (s.table.inodeTable i).inode.iSize.toNat) :
    Inv m R ⟨s.moved b i pos, fds⟩ where
  mount := h.mount
  hold := hb.hold R ha h.hold
  rootUsed j hj := St.moved_used.mpr (h.rootUsed j hj)
  isOpen j hj := by
    dsimp only
    by_cases hij : j = i
    · subst hij
      rw [St.moved_same]
      exact ⟨(h.isOpen j hj).used, (h.isOpen j hj).file, hpos⟩
    · rw [St.moved_of_ne hij]
      exact h.isOpen j hj

theorem openFile (h : Inv m R ⟨s, fds⟩) (ha : Delivers env m R) {fuel cap : Nat}
    {name : Bytes} {fd : Option Slot} {s' : St}
    (hcall : ext2fsOpen env fuel (some s) name cap = .ok (fd, some s')) :
    Inv m R ⟨s', Call.track (.openFile name cap) (.opened fd) fds⟩ := by
  obtain ⟨s₁, hstep, hs'⟩ := ext2fsOpen_spec hcall h.rootUsed
  have hmount : s.mount = m := h.mount
  have hbufs : BufStep env m s.bufs s₁.bufs := hmount ▸ hstep.bufs
  have hhold : s₁.bufs.Hold m R := hbufs.hold R ha h.hold
  -- The files that were open are as they were.
  have hkept : ∀ j ∈ fds, (s₁.table.inodeTable j).IsOpen := by
    intro j hj
    have hjo := h.isOpen j hj
    rw [hstep.entry j hjo.used hjo.file]
    exact hjo
  cases fd with
  | none =>
    obtain rfl := Option.some.inj hs'
    exact ⟨hstep.mount.trans h.mount, hhold, hstep.rootUsed, hkept⟩
  | some i =>
    rw [Option.elim_some] at hs'
    obtain rfl := Option.some.inj hs'
    refine ⟨hstep.mount.trans h.mount, hhold,
      fun j hj => St.moved_used.mpr (hstep.rootUsed j hj), fun j hj => ?_⟩
    dsimp only
    by_cases hij : j = i
    · subst hij
      rw [St.moved_same]
      exact ⟨hstep.used j (Or.inr rfl), hstep.file j rfl, Nat.zero_le _⟩
    · rw [St.moved_of_ne hij]
      exact hkept j ((Finset.mem_insert.mp hj).resolve_left hij)

theorem close (h : Inv m R ⟨s, fds⟩) {fd : UInt32} {i : Slot} (hi : (i : Nat) = fd.toNat) :
    Inv m R ⟨if s.table.rootInode = some i then s else { s with table := ext2Iput s.table i },
      Call.track (.close fd) (.status 0) fds⟩ := by
  have hmem : ∀ j ∈ Call.track (.close fd) (.status 0) fds, j ∈ fds ∧ j ≠ i := by
    intro j hj
    obtain ⟨hj, hne⟩ := Finset.mem_filter.mp hj
    refine ⟨hj, ?_⟩
    rintro rfl
    exact hne hi
  by_cases hr : s.table.rootInode = some i
  · rw [if_pos hr]
    exact ⟨h.mount, h.hold, h.rootUsed, fun j hj => h.isOpen j (hmem j hj).1⟩
  · rw [if_neg hr]
    refine ⟨h.mount, h.hold, fun j hj => ?_, fun j hj => ?_⟩
    · refine Table.used_iput.mpr ⟨h.rootUsed j hj, ?_⟩
      rintro rfl
      exact hr hj
    · dsimp only
      rw [Table.iput_of_ne (hmem j hj).2]
      exact h.isOpen j (hmem j hj).1

end Session.Inv

/-- **The invariant is kept by every admissible call**, on whatever sectors the disk refuses. -/
theorem Session.Inv.step {m : Mount} {R : UInt32 → Bytes → Prop} {env : Env} {fuel : Nat}
    {call : Call} {reply : Reply} {x y : Session} (h : x.Inv m R) (ha : Delivers env m R)
    (hadm : call.Admissible x.fds)
    (hcall : perform env fuel (some x.st) call = .ok (reply, some y.st))
    (hfds : y.fds = call.track reply x.fds) : y.Inv m R := by
  obtain ⟨s, fds⟩ := x
  obtain ⟨s', fds'⟩ := y
  dsimp only at hfds hcall hadm
  subst hfds
  cases call with
  | openFile name cap =>
    obtain ⟨⟨fd, w⟩, hopen, hcall⟩ := bind_eq_ok.mp hcall
    obtain ⟨rfl, rfl⟩ := Prod.mk.inj (Except.ok.inj hcall)
    exact h.openFile ha hopen
  | read fd buf size =>
    obtain ⟨⟨r, w⟩, hread, hcall⟩ := bind_eq_ok.mp hcall
    obtain ⟨rfl, rfl⟩ := Prod.mk.inj (Except.ok.inj hcall)
    rcases hadm with ⟨i, hi, hfd⟩ | hgt
    · rw [ext2fsRead_of_eq hfd] at hread
      obtain ⟨⟨r', s₁⟩, hslot, hread⟩ := bind_eq_ok.mp hread
      cases hread
      have hpos := (h.isOpen i hi).pos
      obtain ⟨hstep, ⟨-, hsize, hs₁⟩ | ⟨-, hs₁⟩⟩ := readSlot_step hslot hpos
      · rw [hs₁]
        refine h.moved (h.mount ▸ hstep) ha hi ?_
        have := (s.table.inodeTable i).inode.iSize.toNat_lt
        dsimp only at hpos
        rw [UInt32.toNat_add, Nat.mod_eq_of_lt (by omega)]
        omega
      · rw [hs₁, ← St.moved_self s s'.bufs i]
        exact h.moved (h.mount ▸ hstep) ha hi hpos
    · rw [ext2fsRead_refused hgt] at hread
      cases hread
      exact h
  | seek fd newpos =>
    obtain ⟨⟨ret, w⟩, hseek, hcall⟩ := bind_eq_ok.mp hcall
    obtain ⟨rfl, rfl⟩ := Prod.mk.inj (Except.ok.inj hcall)
    by_cases hrefused : maxOpenFiles < fd.toNat ∨ 0x100000000 ≤ newpos
    · rw [ext2fsSeek_refused hrefused] at hseek
      cases hseek
      exact h
    · rw [not_or] at hrefused
      obtain ⟨i, hi, hfd⟩ := hadm.resolve_right (not_or.mpr hrefused)
      rw [ext2fsSeek_of_eq hfd hrefused.2] at hseek
      split_ifs at hseek with hsize
      · cases hseek
        exact h
      · cases hseek
        refine h.moved (BufStep.refl _) ha hi ?_
        rw [gt_iff_lt, UInt64.not_lt, UInt64.le_iff_toNat_le, UInt32.toNat_toUInt64] at hsize
        rw [UInt64.toNat_toUInt32]
        exact (Nat.mod_le _ _).trans hsize
  | close fd =>
    obtain ⟨⟨ret, w⟩, hclose, hcall⟩ := bind_eq_ok.mp hcall
    obtain ⟨rfl, rfl⟩ := Prod.mk.inj (Except.ok.inj hcall)
    rcases hadm with ⟨i, hi, hfd⟩ | hgt
    · rw [ext2fsClose_of_eq hfd] at hclose
      cases hclose
      exact h.close hfd
    · rw [ext2fsClose_refused hgt] at hclose
      cases hclose
      exact h

/-- Mounting establishes the invariant. -/
theorem Mounted.inv {s : St} (h : Mounted s) {R : UInt32 → Bytes → Prop}
    (hR : R (-1) fun _ => 0) : Session.Inv s.mount R ⟨s, ∅⟩ where
  mount := rfl
  hold := h.hold hR
  rootUsed i hi := by
    dsimp only at hi
    rw [h.table] at hi
    cases hi
  isOpen i hi := absurd hi (Finset.notMem_empty i)

/-- **A session keeps the invariant**, if its calls are admissible and what they can read is what
`R` says. -/
theorem Session.Inv.run {m : Mount} {R : UInt32 → Bytes → Prop}
    {guard : Session → Event → Prop} {x y : Session} (h : x.Inv m R)
    (hrun : Reaches (Session.Step guard) x y)
    (hguard : ∀ x e, guard x e → Delivers e.env m R ∧ e.call.Admissible x.fds) : y.Inv m R := by
  refine hrun.invariant h fun x e y hx ⟨hcall, reply, hperform, hfds⟩ => ?_
  obtain ⟨ha, hadm⟩ := hguard _ _ hcall
  exact hx.step ha hadm hperform hfds

end MbBootTv
