import Mathlib.Data.Finset.Card
import Mathlib.Data.Fintype.Basic
import MbBootTv.Ext2.Medium
import MbBootTv.Ext2.Session

/-!
# The account of the slots

As long as no path ends at a symbolic link and no call names a descriptor that is closed, the slots
in use are those of the open descriptors and the root's, after every call. A path that does end at
a link costs a slot for good, and a closed descriptor below 33 is taken for an open one.
-/

namespace MbBootTv

/-- The slots in use are those of the root and of the open descriptors. -/
def Session.Accounted (x : Session) : Prop :=
  ∀ i, x.st.table.Used i ↔ x.st.table.rootInode = some i ∨ i ∈ x.fds

/-- The walk of the path `name` does not end at a symbolic link. -/
def NoLink (env : Env) (fuel : Nat) (s : St) (name : Bytes) (cap : Nat) : Prop :=
  ∀ i s', ext2Namei env fuel { s with name := name, nameCap := cap } .name 0 =
    .ok (some i, s') → (s'.table.inodeTable i).inode.sIslnk = false

/-- A call that is accounted for: it names an open descriptor, or one that is refused, and opens no
symbolic link. -/
def Accountable (x : Session) (e : Event) : Prop :=
  e.call.Admissible x.fds ∧
    match e.call with
    | .openFile name cap => NoLink e.env e.fuel x.st name cap
    | _ => True

/-- What comes back from a call that fails. -/
def Call.failure : Call → Reply
  | .openFile _ _ => .opened none
  | .read _ buf size => .read ⟨-1, size, buf⟩
  | .seek _ _ => .status (-1)
  | .close _ => .status (-1)

/-! ## What the calls do to the account -/

namespace Session.Accounted

variable {env : Env} {s s' : St} {fds : Finset Slot}

theorem moved (h : Accounted ⟨s, fds⟩) (b : Bufs) (i : Slot) (pos : UInt32) :
    Accounted ⟨s.moved b i pos, fds⟩ := fun j => St.moved_used.trans (h j)

/-- A walk adds the slot that it returns, and the root's. -/
theorem namei (h : Accounted ⟨s, fds⟩) {r : Region} {out : Option Slot}
    (hstep : NameiStep env r s s' out) (i : Slot) :
    s'.table.Used i ↔ s'.table.rootInode = some i ∨ i ∈ fds ∨ out = some i := by
  have hi : s.table.Used i ↔ s.table.rootInode = some i ∨ i ∈ fds := h i
  rw [hstep.used i, hi]
  constructor
  · rintro ((hroot | hfd) | hroot | hout)
    · exact Or.inl (hstep.root i hroot)
    · exact Or.inr (Or.inl hfd)
    · exact Or.inl hroot
    · exact Or.inr (Or.inr hout)
  · rintro (hroot | hfd | hout)
    · exact Or.inr (Or.inl hroot)
    · exact Or.inl (Or.inr hfd)
    · exact Or.inr (Or.inr hout)

theorem openFile (h : Accounted ⟨s, fds⟩) (hroot : s.table.RootUsed) {fuel cap : Nat}
    {name : Bytes} {fd : Option Slot} (hlink : NoLink env fuel s name cap)
    (hcall : ext2fsOpen env fuel (some s) name cap = .ok (fd, some s')) :
    Accounted ⟨s', Call.track (.openFile name cap) (.opened fd) fds⟩ := by
  unfold ext2fsOpen at hcall
  obtain ⟨len, -, hcall⟩ := bind_eq_ok.mp hcall
  by_cases hlen : ext2fsPathMaxlen ≤ len
  · rw [if_pos hlen] at hcall
    cases hcall
    exact h
  rw [if_neg hlen] at hcall
  obtain ⟨⟨out, s₁⟩, hopen, hcall⟩ := bind_eq_ok.mp hcall
  unfold ext2Open at hopen
  obtain ⟨⟨out₁, s₂⟩, hnamei, hopen⟩ := bind_eq_ok.mp hopen
  have hstep := ext2Namei_frame hnamei hroot
  have hused := Accounted.namei (s := { s with name := name, nameCap := cap }) h hstep
  cases out₁ with
  | none =>
    cases hopen
    cases hcall
    intro i
    simpa [Call.track] using hused i
  | some i =>
    -- The slot that the walk returns holds no link, so it is the one that is stored.
    dsimp only at hopen
    rw [openLoop_of_file (hlink i s₂ hnamei)] at hopen
    cases hopen
    cases hcall
    refine moved (fun j => ?_) s₁.bufs i 0
    rw [hused j, Option.some_inj, eq_comm (a := i)]
    show _ ↔ _ ∨ j ∈ insert i fds
    rw [Finset.mem_insert, or_comm (a := j = i)]

theorem close (h : Accounted ⟨s, fds⟩) {fd : UInt32} {i : Slot} (hi : (i : Nat) = fd.toNat) :
    Accounted ⟨if s.table.rootInode = some i then s else { s with table := ext2Iput s.table i },
      Call.track (.close fd) (.status 0) fds⟩ := by
  intro j
  have hj : s.table.Used j ↔ s.table.rootInode = some j ∨ j ∈ fds := h j
  have hmem : j ∈ Call.track (.close fd) (.status 0) fds ↔ j ∈ fds ∧ j ≠ i := by
    show j ∈ fds.filter _ ↔ _
    rw [Finset.mem_filter, ← hi, ne_eq, Fin.val_inj]
  dsimp only
  rw [hmem]
  by_cases hr : s.table.rootInode = some i
  · rw [if_pos hr, hj, hr]
    by_cases hij : i = j
    · simp [hij]
    · simp [hij, Ne.symm hij]
  · rw [if_neg hr]
    show (ext2Iput s.table i).Used j ↔ s.table.rootInode = some j ∨ _
    rw [Table.used_iput, hj]
    constructor
    · rintro ⟨hroot | hfd, hne⟩
      · exact Or.inl hroot
      · exact Or.inr ⟨hfd, hne⟩
    · rintro (hroot | ⟨hfd, hne⟩)
      · refine ⟨Or.inl hroot, ?_⟩
        rintro rfl
        exact hr hroot
      · exact ⟨Or.inr hfd, hne⟩

end Session.Accounted

/-- **A call that is accounted for keeps the account.** -/
theorem Session.Accounted.step {m : Mount} {R : UInt32 → Bytes → Prop} {env : Env} {fuel : Nat}
    {call : Call} {reply : Reply} {x y : Session} (h : x.Accounted) (hinv : x.Inv m R)
    (hcall : Accountable x ⟨env, fuel, call⟩)
    (hperform : perform env fuel (some x.st) call = .ok (reply, some y.st))
    (hfds : y.fds = call.track reply x.fds) : y.Accounted := by
  obtain ⟨s, fds⟩ := x
  obtain ⟨s', fds'⟩ := y
  obtain ⟨hadm, hlink⟩ := hcall
  dsimp only at hfds hperform hadm
  subst hfds
  cases call with
  | openFile name cap =>
    obtain ⟨⟨fd, w⟩, hopen, hperform⟩ := bind_eq_ok.mp hperform
    cases hperform
    exact h.openFile hinv.rootUsed hlink hopen
  | read fd buf size =>
    obtain ⟨⟨r, w⟩, hread, hperform⟩ := bind_eq_ok.mp hperform
    cases hperform
    rcases hadm with ⟨i, hi, hfd⟩ | hgt
    · rw [ext2fsRead_of_eq hfd] at hread
      obtain ⟨⟨r', s₁⟩, hslot, hread⟩ := bind_eq_ok.mp hread
      cases hread
      obtain ⟨-, ⟨-, -, hs'⟩ | ⟨-, hs'⟩⟩ := readSlot_step hslot (hinv.isOpen i hi).pos
      · rw [hs']
        exact h.moved _ i _
      · rw [hs']
        exact h
    · rw [ext2fsRead_refused hgt] at hread
      cases hread
      exact h
  | seek fd newpos =>
    obtain ⟨⟨ret, w⟩, hseek, hperform⟩ := bind_eq_ok.mp hperform
    cases hperform
    by_cases hrefused : maxOpenFiles < fd.toNat ∨ 0x100000000 ≤ newpos
    · rw [ext2fsSeek_refused hrefused] at hseek
      cases hseek
      exact h
    · obtain ⟨i, hi, hfd⟩ := hadm.resolve_right hrefused
      rw [ext2fsSeek_of_eq hfd (not_or.mp hrefused).2] at hseek
      split_ifs at hseek
      · cases hseek
        exact h
      · cases hseek
        exact h.moved _ i _
  | close fd =>
    obtain ⟨⟨ret, w⟩, hclose, hperform⟩ := bind_eq_ok.mp hperform
    cases hperform
    rcases hadm with ⟨i, hi, hfd⟩ | hgt
    · rw [ext2fsClose_of_eq hfd] at hclose
      cases hclose
      exact h.close hfd
    · rw [ext2fsClose_refused hgt] at hclose
      cases hclose
      exact h

/-- A call that is accounted for and names no open descriptor fails, and leaves everything as it
is. -/
theorem perform_of_not_open {env : Env} {fuel : Nat} {x : Session} {call : Call}
    (hcall : Accountable x ⟨env, fuel, call⟩) (hclosed : ¬ call.OnOpen x.fds) :
    perform env fuel (some x.st) call = .ok (call.failure, some x.st) := by
  obtain ⟨hadm, -⟩ := hcall
  cases call with
  | openFile name cap => exact absurd trivial hclosed
  | read fd buf size =>
    rw [perform, ext2fsRead_refused (hadm.resolve_left hclosed)]
    rfl
  | seek fd newpos =>
    rw [perform, ext2fsSeek_refused (hadm.resolve_left hclosed)]
    rfl
  | close fd =>
    rw [perform, ext2fsClose_refused (hadm.resolve_left hclosed)]
    rfl

/-! ## Whole sessions -/

/-- The account, with the invariant of a session whatever the blocks hold. -/
def AccountInv (m : Mount) (x : Session) : Prop := x.Inv m (fun _ _ => True) ∧ x.Accounted

/-- **The account of a session.** After any calls that are accounted for, the slots in use are the
root's and those of the open descriptors, so at most one more than there are descriptors; and the
next call that names no open descriptor fails without touching a slot. -/
theorem session_accounted {env₀ : Env} {w : Option St} {s₀ : St}
    (hopen : ext2fsFsOpen env₀ w = .ok (0, some s₀)) {x : Session}
    (hrun : Reaches (Session.Step Accountable) ⟨s₀, ∅⟩ x) :
    (∀ i, x.st.table.Used i ↔ x.st.table.rootInode = some i ∨ i ∈ x.fds) ∧
    (Finset.univ.filter fun i => x.st.table.Used i).card ≤ x.fds.card + 1 ∧
    ∀ e, Accountable x e → ¬ e.call.OnOpen x.fds →
      perform e.env e.fuel (some x.st) e.call = .ok (e.call.failure, some x.st) := by
  have hmounted := ext2fsFsOpen_spec hopen
  have hstart : Session.Accounted ⟨s₀, ∅⟩ := by
    intro i
    simp [hmounted.table, emptyTable, Table.Used]
  have hboth : AccountInv s₀.mount x := by
    refine hrun.invariant ⟨hmounted.inv trivial, hstart⟩ ?_
    rintro x e y ⟨hinv, hacc⟩ ⟨hcall, reply, hperform, hfds⟩
    exact ⟨hinv.step (fun _ _ _ => trivial) hcall.1 hperform hfds,
      hacc.step hinv hcall hperform hfds⟩
  have hacc := hboth.2
  refine ⟨hacc, ?_, fun e hcall hclosed => perform_of_not_open hcall hclosed⟩
  -- The root's slot is one at most.
  cases hr : x.st.table.rootInode with
  | none =>
    refine (Finset.card_le_card fun i hi => ?_).trans (Nat.le_succ _)
    have hi := (hacc i).mp (Finset.mem_filter.mp hi).2
    rw [hr] at hi
    exact hi.resolve_left (Option.some_ne_none i).symm
  | some root =>
    refine (Finset.card_le_card (t := insert root x.fds) fun i hi => ?_).trans
      (Finset.card_insert_le root x.fds)
    have hi := (hacc i).mp (Finset.mem_filter.mp hi).2
    rw [hr, Option.some_inj] at hi
    exact Finset.mem_insert.mpr (hi.imp_left Eq.symm)

theorem accounted_check :
    holds (do
      let (r, w) ← ext2fsFsOpen (wholeEnv smallPart letters) none
      match w with
      | none => .error .fuel
      | some s =>
        let (i, s₁) ← ext2Namei (wholeEnv smallPart letters) 9
          { s with name := pathF, nameCap := 2 } .name 0
        let (fd, w') ← ext2fsOpen (wholeEnv smallPart letters) 9 w pathF 2
        return (r, s, i, s₁, fd, w')) (fun
        | (r, _, some i, s₁, fd, some _) => r = 0 && fd = some 1 &&
          (s₁.table.inodeTable i).inode.sIslnk = false
        | _ => false) = true := by decide +kernel

theorem session_accounted_small :
    ∃ x : Session, (1 : Slot) ∈ x.fds ∧
      (∀ i, x.st.table.Used i ↔ x.st.table.rootInode = some i ∨ i ∈ x.fds) ∧
      (Finset.univ.filter fun i => x.st.table.Used i).card ≤ x.fds.card + 1 := by
  obtain ⟨⟨r, s, i, s₁, fd, w'⟩, hrun, hp⟩ := holds_iff.mp accounted_check
  obtain ⟨⟨r, w⟩, hopen, hrun⟩ := bind_eq_ok.mp hrun
  rcases w with _ | s
  · cases hrun
  obtain ⟨⟨i, s₁⟩, hnamei, hrun⟩ := bind_eq_ok.mp hrun
  obtain ⟨⟨fd, w'⟩, hfile, hrun⟩ := bind_eq_ok.mp hrun
  cases hrun
  rcases i with _ | i
  · exact absurd hp Bool.false_ne_true
  rcases w' with _ | s'
  · exact absurd hp Bool.false_ne_true
  simp only [Bool.and_eq_true, decide_eq_true_iff] at hp
  obtain ⟨⟨rfl, rfl⟩, hlink⟩ := hp
  have hstep : Session.Step Accountable ⟨s, ∅⟩
      ⟨wholeEnv smallPart letters, 9, .openFile pathF 2⟩ ⟨s', {1}⟩ := by
    refine ⟨⟨trivial, fun j t hj => ?_⟩, .opened (some 1), by
      simp only [perform, hfile, ok_bind, pure_eq_ok], rfl⟩
    obtain ⟨hij, rfl⟩ := Prod.mk.inj (Except.ok.inj (hnamei.symm.trans hj))
    obtain rfl := Option.some.inj hij
    exact hlink
  obtain ⟨hacc, hcard, -⟩ := session_accounted hopen ((Reaches.refl _).tail hstep)
  exact ⟨_, Finset.mem_singleton_self 1, hacc, hcard⟩

/-! ### A link, and a descriptor that was never opened -/

/-- The small file system with a link to `g`, which is not there, under the name `f`. -/
def linkEnv : Env := wholeEnv smallPart (fileDisk (smallInode 0xA1FF 1 0 103))

theorem link_check :
    holds (do
      let (r, w) ← ext2fsFsOpen linkEnv none
      let (fd, w₁) ← ext2fsOpen linkEnv 9 w pathF 2
      let (p, w₂) ← ext2fsSeek w 5 0
      return (r, w, fd, w₁, p, w₂)) (fun
        | (r, some _, fd, some s, p, some _) => r = 0 && fd = none && p = 0 &&
          s.table.Used 1 && s.table.rootInode = some 0
        | _ => false) = true := by decide +kernel

/-- Opening the link fails and leaves its slot in use; and a descriptor that nobody has opened is
taken for an open one. -/
theorem not_session_accounted :
    ∃ s₀ s, ext2fsFsOpen linkEnv none = .ok (0, some s₀) ∧
      perform linkEnv 9 (some s₀) (.openFile pathF 2) = .ok (.opened none, some s) ∧
      ¬ (∀ i, s.table.Used i ↔ s.table.rootInode = some i ∨ i ∈ (∅ : Finset Slot)) ∧
      ¬ OpenFd ∅ 5 ∧ ∃ s', perform linkEnv 9 (some s₀) (.seek 5 0) = .ok (.status 0, some s') := by
  obtain ⟨⟨r, w, fd, w₁, p, w₂⟩, hrun, hp⟩ := holds_iff.mp link_check
  obtain ⟨⟨r, w⟩, hopen, hrun⟩ := bind_eq_ok.mp hrun
  obtain ⟨⟨fd, w₁⟩, hfile, hrun⟩ := bind_eq_ok.mp hrun
  obtain ⟨⟨p, w₂⟩, hseek, hrun⟩ := bind_eq_ok.mp hrun
  cases hrun
  rcases w with _ | s₀
  · exact absurd hp Bool.false_ne_true
  rcases w₁ with _ | s
  · exact absurd hp Bool.false_ne_true
  rcases w₂ with _ | s'
  · exact absurd hp Bool.false_ne_true
  simp only [Bool.and_eq_true, decide_eq_true_iff] at hp
  obtain ⟨⟨⟨⟨rfl, rfl⟩, rfl⟩, hused⟩, hroot⟩ := hp
  refine ⟨s₀, s, hopen, by simp only [perform, hfile, ok_bind, pure_eq_ok], fun hacc => ?_, ?_,
    s', by simp only [perform, hseek, ok_bind, pure_eq_ok]⟩
  · have h1 := (hacc 1).mp hused
    rw [hroot] at h1
    exact absurd h1 (by decide)
  · rintro ⟨i, hi, -⟩
    exact Finset.notMem_empty i hi

end MbBootTv
