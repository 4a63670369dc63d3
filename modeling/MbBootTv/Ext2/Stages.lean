import MbBootTv.Ext2.Links

/-!
# The stages of an open

An open is a run of stages, one for each turn of the loop in `ext2_namei` and one for each inode
that a walk ends at (`Stage.Next`): a component that is found leads to the next turn, and a link
that is followed to the first turn of another walk. By the time a link is followed the name is cut
off, so every link is walked from the root.

What is said of every stage that an open passes is said of every scan that it makes, and of every
link that it comes to. At each of them the rest of the open is the same (`Stage.Passes.finish`).
-/

namespace MbBootTv

open Relation

/-- Where `ext2_open` stands: in `ext2_namei` of a string in `region`, at the inode in `dirInode`,
before a turn for `component`; or, when there is none, behind the last turn. -/
structure Stage where
  region : Region
  dirInode : Slot
  component : Option Nat
  last : Option Nat
  st : St

namespace Stage

/-- The inode it stands at. -/
def inode (g : Stage) : Inode := (g.st.table.inodeTable g.dirInode).inode

/-- The number of this inode. -/
def inumber (g : Stage) : UInt32 := (g.st.table.inodeTable g.dirInode).inumber

/-- The scan of this inode for a component of `len` bytes, of at most `fuel` entries. -/
def search (env : Env) (fuel : Nat) (g : Stage) (component len : Nat) :
    Except Fault (UInt32 × Bufs) :=
  nameiSearch env g.st.mount g.inode (g.st.textOf g.region) (g.st.cap g.region) component len fuel
    true g.st.bufs

/-- The rest of the walk, in at most `n` turns. -/
def loop (env : Env) (fuel n : Nat) (g : Stage) : Except Fault (Option Slot × St) :=
  nameiLoop env fuel g.region n g.dirInode g.component g.last g.st

/-- The rest of the open, over at most `n` more links. -/
def finish (env : Env) (fuel turns n : Nat) (g : Stage) : Except Fault (Option Slot × St) := do
  let (ip, s) ← g.loop env fuel turns
  match ip with
  | none => return (none, s)
  | some i => openLoop env fuel n i s

/-- The first stage of the walk of the string at `name`. -/
inductive Begins (env : Env) (s : St) (r : Region) (name : Nat) : Stage → Prop
  | root {s₁ : St} {root : Slot} {tok last : Option Nat} {mem : Bytes}
      (hload : loadRoot env s = .ok s₁) (hroot : s₁.table.rootInode = some root)
      (htok : strtokSimple (s₁.text r) (s₁.cap r) (some name) none 47 = .ok (tok, last, mem)) :
      Begins env s r name ⟨r, root, tok, last, s₁.setText r mem⟩

/-- From a stage to the next one: a component that is found, or a link that is followed. -/
inductive Next (env : Env) : Stage → Stage → Prop
  | component {r : Region} {dir dir' : Slot} {c len fuel : Nat} {tok last last' : Option Nat}
      {s s₁ : St} {ino : UInt32} {b : Bufs} {mem : Bytes}
      (hlen : strlen (s.text r) (s.cap r) c = .ok len)
      (hsearch : search env fuel ⟨r, dir, some c, last, s⟩ c len = .ok (ino, b))
      (hfound : ¬ sneg ino = true)
      (hget : St.iget env { s with bufs := b, table := s.table.leave dir } ino =
        .ok (some dir', s₁))
      (htok : strtokSimple (s₁.text r) (s₁.cap r) none last 47 = .ok (tok, last', mem)) :
      Next env ⟨r, dir, some c, last, s⟩ ⟨r, dir', tok, last', s₁.setText r mem⟩
  | link {r r' : Region} {dir : Slot} {last : Option Nat} {p : Nat} {s s₁ : St} {g : Stage}
      (hlink : (s.table.inodeTable dir).inode.sIslnk = true)
      (htext : linkText env s dir = .ok (some (r', p), s₁)) (hbegins : Begins env s₁ r' p g) :
      Next env ⟨r, dir, none, last, s⟩ g

/-- The open of the name in `s` comes to this stage. -/
def Passes (env : Env) (s : St) (g : Stage) : Prop :=
  ∃ g₀, Begins env s .name 0 g₀ ∧ ReflTransGen (Next env) g₀ g

end Stage

open Stage

/-! ## The stages and the code -/

section Code

variable {env : Env} {fuel n : Nat} {s s' : St} {r : Region} {i : Slot} {g g' : Stage}

/-- A walk that returns an inode ends at a stage. -/
theorem nameiLoop_passes {dir : Slot} {tok last : Option Nat}
    (h : nameiLoop env fuel r n dir tok last s = .ok (some i, s')) :
    ∃ last', ReflTransGen (Next env) ⟨r, dir, tok, last, s⟩ ⟨r, i, none, last', s'⟩ := by
  induction n generalizing dir tok last s with
  | zero =>
    cases tok with
    | some c => cases h
    | none =>
      cases h
      exact ⟨last, .refl⟩
  | succ n ih =>
    cases tok with
    | none =>
      cases h
      exact ⟨last, .refl⟩
    | some c =>
      rw [nameiLoop_some] at h
      obtain ⟨len, hlen, h⟩ := bind_eq_ok.mp h
      obtain ⟨⟨ino, b⟩, hsearch, h⟩ := bind_eq_ok.mp h
      dsimp only at h
      split_ifs at h with hneg
      · cases h
      · obtain ⟨⟨ip, s₁⟩, hget, h⟩ := bind_eq_ok.mp h
        cases ip with
        | none => cases h
        | some dir' =>
          obtain ⟨⟨tok', last', mem⟩, htok, h⟩ := bind_eq_ok.mp h
          obtain ⟨last'', hrest⟩ := ih h
          exact ⟨last'', .head (.component hlen hsearch hneg hget htok) hrest⟩

theorem ext2Namei_passes {name : Nat} (h : ext2Namei env fuel s r name = .ok (some i, s')) :
    ∃ g₀ last, Begins env s r name g₀ ∧ ReflTransGen (Next env) g₀ ⟨r, i, none, last, s'⟩ := by
  unfold ext2Namei at h
  obtain ⟨s₁, hload, h⟩ := bind_eq_ok.mp h
  cases hroot : s₁.table.rootInode with
  | none =>
    rw [hroot] at h
    cases h
  | some root =>
    rw [hroot] at h
    obtain ⟨⟨tok, last, mem⟩, htok, h⟩ := bind_eq_ok.mp h
    obtain ⟨last', hrun⟩ := nameiLoop_passes h
    exact ⟨_, last', .root hload hroot htok, hrun⟩

theorem Stage.Begins.namei {name : Nat} (h : Begins env s r name g) :
    ext2Namei env fuel s r name = g.loop env fuel (g.st.cap r + 1) := by
  obtain ⟨hload, hroot, htok⟩ := h
  unfold ext2Namei
  rw [hload, ok_bind, hroot]
  dsimp only
  rw [htok, ok_bind, St.cap_setText]
  rfl

/-- Two scans of one inode for one component find the same. -/
theorem nameiSearch_unique {m : Mount} {ip : Inode} {text : Bytes → Bytes}
    {cap component len fuel' : Nat} {rewind : Bool} {b : Bufs} {res res' : UInt32 × Bufs}
    (h : nameiSearch env m ip text cap component len fuel rewind b = .ok res)
    (h' : nameiSearch env m ip text cap component len fuel' rewind b = .ok res') : res = res' :=
  Except.ok.inj ((nameiSearch_mono h (le_max_left fuel fuel')).symm.trans
    (nameiSearch_mono h' (le_max_right fuel fuel')))

/-! ## What holds at every stage -/

/-- The mount is that of the start, the root has its slot, and the name is cut off. -/
structure Stage.Keeps (s : St) (g : Stage) : Prop where
  mount : g.st.mount = s.mount
  root : g.st.table.rootInode ≠ none
  cut : CutOff g.st.name g.st.nameCap

/-- A walk cuts the name off, or leaves it alone. -/
theorem Stage.Begins.keeps {name : Nat} (h : Begins env s r name g) (hs : CutOff s.name s.nameCap) :
    g.Keeps s := by
  cases h with
  | @root s₁ root tok last mem hload hroot htok =>
    obtain ⟨hmount, hname, hcap, -, -, -⟩ := loadRoot_spec hload
    have hs₁ : CutOff s₁.name s₁.nameCap := by
      rw [hname, hcap]
      exact hs
    have hroot' : (s₁.setText r mem).table.rootInode = some root := St.setText_rootInode.trans hroot
    refine ⟨St.setText_mount.trans hmount, hroot' ▸ Option.some_ne_none root, ?_⟩
    cases r with
    | name => exact hs₁.strtokSimple htok
    | fullname => exact hs₁
    | blkbuf => exact hs₁
    | inode i => exact hs₁

theorem Stage.Begins.keeps_name (h : Begins env s .name 0 g) : g.Keeps s := by
  obtain ⟨hload, hroot, htok⟩ := h
  exact ⟨(loadRoot_spec hload).mount, hroot ▸ Option.some_ne_none _, strtokSimple_cutsOff htok⟩

theorem Stage.Keeps.next (h : g.Keeps s) (hnext : Next env g g') : g'.Keeps s := by
  obtain ⟨hmount, hroot, hcut⟩ := h
  cases hnext with
  | @component r _ _ _ _ _ _ _ _ _ s₁ _ _ mem _ _ _ hget htok =>
    obtain ⟨hm, hname, hcap, -, -, htable⟩ := St.iget_spec hget
    refine ⟨?_, ?_, ?_⟩
    · rw [St.setText_mount, hm]
      exact hmount
    · rw [St.setText_rootInode]
      rcases htable with ⟨-, ht⟩ | ⟨i, ip, -, -, -, ht⟩
      · rw [ht, Table.leave_rootInode]
        exact hroot
      · rw [ht, Table.set_rootInode, Table.leave_rootInode]
        exact hroot
    · have hs₁ : CutOff s₁.name s₁.nameCap := by
        rw [hname, hcap]
        exact hcut
      cases r with
      | name => exact hs₁.strtokSimple htok
      | fullname => exact hs₁
      | blkbuf => exact hs₁
      | inode i => exact hs₁
  | @link _ _ _ _ _ t t₁ _ _ htext hbegins =>
    obtain ⟨-, ht, -⟩ := linkText_spec htext
    have hcut₁ : CutOff t₁.name t₁.nameCap := by
      rw [ht]
      exact hcut
    have hmount₁ : t₁.mount = s.mount := by
      rw [ht]
      exact hmount
    obtain ⟨hm, hr, hc⟩ := hbegins.keeps hcut₁
    exact ⟨hm.trans hmount₁, hr, hc⟩

theorem Stage.Passes.keeps (h : Passes env s g) : g.Keeps s := by
  obtain ⟨g₀, hbegins, hrun⟩ := h
  induction hrun with
  | refl => exact hbegins.keeps_name
  | tail _ hnext ih => exact ih.next hnext

end Code

/-! ## Links -/

section Links

variable {env : Env} {fuel n p : Nat} {s s' s₁ : St} {r : Region} {i j : Slot} {g g' : Stage}

/-- The stages of the walk along a link are passed, too. -/
theorem Stage.Passes.link {g₀ : Stage} (hp : Passes env s g) (hover : g.component = none)
    (hlink : g.inode.sIslnk = true) (htext : linkText env g.st g.dirInode = .ok (some (r, p), s₁))
    (hbegins : Begins env s₁ r p g₀) (hrun : ReflTransGen (Next env) g₀ g') : Passes env s g' := by
  obtain ⟨g₁, hfirst, hpassed⟩ := hp
  obtain ⟨r, dir, tok, last, t⟩ := g
  obtain rfl : tok = none := hover
  exact ⟨g₁, hfirst, hpassed.trans (.head (.link hlink htext hbegins) hrun)⟩

/-- The open comes to what is found at the end of a link. -/
theorem Stage.Passes.follow (hp : Passes env s g) (hover : g.component = none)
    (hlink : g.inode.sIslnk = true)
    (hrun : ext2FollowLink env fuel g.st g.dirInode = .ok (some j, s')) :
    ∃ r last, Passes env s ⟨r, j, none, last, s'⟩ := by
  rw [ext2FollowLink_of_cutOff hp.keeps.cut] at hrun
  obtain ⟨⟨text, s₁⟩, htext, hrun⟩ := bind_eq_ok.mp hrun
  cases text with
  | none => cases hrun
  | some text =>
    obtain ⟨r, p⟩ := text
    obtain ⟨g₀, last, hbegins, hpassed⟩ := ext2Namei_passes hrun
    exact ⟨r, last, hp.link hover hlink htext hbegins hpassed⟩

/-- One stage on, the rest of the open is the same. -/
theorem Stage.Next.finish {turns : Nat} {res : Option Slot × St} (hcut : CutOff g.st.name g.st.nameCap)
    (hnext : Next env g g') (hrun : g.finish env fuel turns n = .ok res) :
    ∃ turns' n', g'.finish env fuel turns' n' = .ok res := by
  obtain ⟨⟨out, s₁⟩, hloop, hrest⟩ := bind_eq_ok.mp hrun
  cases hnext with
  | component hlen hsearch hfound hget htok =>
    cases turns with
    | zero => cases hloop
    | succ turns =>
      unfold Stage.loop at hloop
      rw [nameiLoop_some] at hloop
      obtain ⟨len, hlen', hloop⟩ := bind_eq_ok.mp hloop
      cases hlen.symm.trans hlen'
      obtain ⟨⟨ino, b⟩, hsearch', hloop⟩ := bind_eq_ok.mp hloop
      cases nameiSearch_unique hsearch hsearch'
      dsimp only at hloop
      rw [if_neg hfound] at hloop
      obtain ⟨⟨ip, s₂⟩, hget', hloop⟩ := bind_eq_ok.mp hloop
      cases hget.symm.trans hget'
      obtain ⟨⟨tok, last, mem⟩, htok', hloop⟩ := bind_eq_ok.mp hloop
      cases htok.symm.trans htok'
      exact ⟨turns, n, bind_eq_ok.mpr ⟨(out, s₁), hloop, hrest⟩⟩
  | @link r r' dir last p t t₁ g' hlink htext hbegins =>
    have hhere : Stage.loop env fuel turns ⟨r, dir, none, last, t⟩ = .ok (some dir, t) := by
      unfold Stage.loop
      cases turns <;> rfl
    cases hhere.symm.trans hloop
    cases n with
    | zero =>
      dsimp only at hrest
      rw [MbBootTv.openLoop, if_pos hlink] at hrest
      cases hrest
    | succ n =>
      dsimp only at hrest
      rw [MbBootTv.openLoop, if_pos hlink, ext2FollowLink_of_cutOff hcut] at hrest
      obtain ⟨⟨ip, s₂⟩, hfollow, hrest⟩ := bind_eq_ok.mp hrest
      obtain ⟨⟨text, s₃⟩, htext', hfollow⟩ := bind_eq_ok.mp hfollow
      cases htext.symm.trans htext'
      have hloop : g'.loop env fuel _ = .ok (ip, s₂) := hbegins.namei.symm.trans hfollow
      exact ⟨_, n, bind_eq_ok.mpr ⟨(ip, s₂), hloop, hrest⟩⟩

/-- **At every stage that is passed, the rest of the open is the same.** -/
theorem Stage.Passes.finish {res : Option Slot × St} (hp : Passes env s g)
    (hopen : ext2Open env fuel s = .ok res) : ∃ turns n, g.finish env fuel turns n = .ok res := by
  obtain ⟨g₀, hbegins, hrun⟩ := hp
  induction hrun with
  | refl =>
    unfold ext2Open at hopen
    rw [hbegins.namei] at hopen
    exact ⟨_, _, hopen⟩
  | tail hpassed hnext ih =>
    obtain ⟨turns, n, hfinish⟩ := ih
    exact hnext.finish (Stage.Passes.keeps ⟨g₀, hbegins, hpassed⟩).cut hfinish

end Links

end MbBootTv
