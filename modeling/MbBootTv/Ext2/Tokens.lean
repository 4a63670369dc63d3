import MbBootTv.Ext2.Walk
import MbBootTv.IsoStrings

/-!
# The components of any string

A walk asks `strtok_simple` for one component after another, until it returns null. On a path in
memory these are its names (`PathAt`). Any other string has components too: what stands between its
slashes, when it is not empty. `strtok_simple` steps over one slash in each call, and what is left
up to the next slash is a token, be it empty; `walksComponents_iff` says for which strings the
tokens are the components, so that `ext2_namei` takes the string for the path that it names.
-/

namespace MbBootTv

/-! ## Tokens and components -/

/-- The components of a string: the pieces between its slashes that are not empty. -/
def components (l : List UInt8) : List Name := (l.splitOn 47).filter fun p => !p.isEmpty

/-- `strtok_simple` with `input`, and then with null until it returns null. At most `n` calls. -/
def strtokRun (cap : Nat) : Nat → Bytes → Option Nat → Option Nat → Except Fault (List Name)
  | 0, _, _, _ => .error .fuel
  | n + 1, b, input, last => do
    let (tok, last, b) ← strtokSimple b cap input last 47
    match tok with
    | none => return []
    | some t => do
      let len ← strlen b cap t
      let ts ← strtokRun cap n b none last
      return b.slice t len :: ts

/-- What is left of a string behind at most one slash. -/
def behindSlash (l : List UInt8) : List UInt8 := if l.head? = some 47 then l.tail else l

/-- The tokens, by the pieces between the slashes: an empty piece is stepped over when one is
behind it, and that one is a token then. -/
def tokenPieces : List Name → List Name
  | [] => []
  | [p] => [p]
  | p :: q :: ps => if p.isEmpty then q :: tokenPieces ps else p :: tokenPieces (q :: ps)

/-- With a slash in front of it, the string does not end in a slash and has no three in a row. -/
structure Tokenizable (l : List UInt8) : Prop where
  ending : (47 :: l).getLast? ≠ some 47
  slashes : ¬ [47, 47, 47] <:+: 47 :: l

/-! ## One call -/

section Calls

variable {b : Bytes} {cap s q : Nat} {l w rest : List UInt8} {input last : Option Nat}

theorem firstIndex_word {v : UInt8} (hw : v ∉ w) :
    firstIndex v (w ++ v :: rest) = some w.length := by
  induction w with
  | nil => simp [firstIndex]
  | cons c w ih =>
    obtain ⟨hc, hw⟩ := not_or.mp (List.mem_cons.not.mp hw)
    rw [List.cons_append, firstIndex, if_neg (Ne.symm hc), ih hw]
    rfl

theorem StringAt.strlen (h : StringAt b cap s l) : strlen b cap s = .ok l.length := by
  simp [MbBootTv.strlen, h.scan_nul]

/-- A string that is cut at a slash is two strings. -/
theorem StringAt.cut (h : StringAt b cap s (w ++ 47 :: rest)) :
    StringAt (b.fill (s + w.length) 0 1) cap s w ∧
      StringAt (b.fill (s + w.length) 0 1) cap (s + w.length + 1) rest := by
  have hin := h.inside
  have hbytes := h.bytes
  have hnul := h.nul
  simp only [List.length_append, List.length_cons] at hin hbytes hnul
  rw [← Bytes.slice_append] at hbytes
  obtain ⟨hword, hrest⟩ := List.append_inj hbytes (by simp)
  rw [Bytes.slice_succ] at hrest
  have hclean : 0 ∉ w ∧ 0 ∉ rest := by
    have := h.no_nul
    simp only [List.mem_append, List.mem_cons, not_or] at this
    exact ⟨this.1, this.2.2⟩
  refine ⟨⟨?_, Bytes.fill_of_mem le_rfl (Nat.lt_succ_self _), by omega, hclean.1⟩,
    ⟨?_, ?_, by omega, hclean.2⟩⟩
  · rw [← hword]
    simp only [Bytes.slice_length]
    exact Bytes.slice_congr fun j hj => if_neg (by omega)
  · rw [Bytes.slice_congr fun j _ => Bytes.fill_of_ge (by omega)]
    exact (List.cons.inj hrest).2
  · rw [Bytes.fill_of_ge (by omega)]
    rw [show s + w.length + 1 + rest.length = s + (w.length + (rest.length + 1)) by omega]
    exact hnul

/-- Where a token starts. -/
theorem StringAt.behindSlash (h : StringAt b cap s l) :
    StringAt b cap (if b s = 47 then s + 1 else s) (behindSlash l) := by
  cases l with
  | nil =>
    have hnul : b s = 0 := h.nul
    rw [hnul]
    exact h
  | cons c l =>
    have hhead : b s = c := h.getD (Nat.zero_le _)
    by_cases hc : c = 47
    · simp only [MbBootTv.behindSlash, hhead, hc, List.head?_cons, if_true, List.tail_cons]
      exact h.tail
    · simp only [MbBootTv.behindSlash, hhead, hc, List.head?_cons, Option.some_inj, if_false]
      exact h

theorem StringAt.lt (h : StringAt b cap s l) : s < cap :=
  (Nat.le_add_right s l.length).trans_lt h.inside

/-- The last token of a string. -/
theorem StringAt.strtok_last (h : StringAt b cap s l) (hs : (input <|> last) = some s)
    (hl : 47 ∉ MbBootTv.behindSlash l) :
    strtokSimple b cap input last 47 =
      .ok (some (if b s = 47 then s + 1 else s), none, b) := by
  unfold strtokSimple
  rw [hs]
  simp only [loadByte, if_pos h.lt, ok_bind, h.behindSlash.strchr_eq,
    firstIndex_eq_none_iff.mpr hl]
  rfl

/-- A token with a slash behind it. -/
theorem StringAt.strtok_word (h : StringAt b cap s l) (hs : (input <|> last) = some s)
    (hl : MbBootTv.behindSlash l = w ++ 47 :: rest) (hw : 47 ∉ w)
    (hq : (if b s = 47 then s + 1 else s) = q) :
    strtokSimple b cap input last 47 =
      .ok (some q, some (q + w.length + 1), b.fill (q + w.length) 0 1) := by
  have hstart := h.behindSlash
  rw [hq, hl] at hstart
  unfold strtokSimple
  rw [hs]
  simp only [loadByte, if_pos h.lt, ok_bind, hq, hstart.strchr_eq, firstIndex_word hw]
  rfl

end Calls

/-! ## All the calls -/

section Pieces

variable {l w rest : List UInt8}

theorem splitOn_slash (h : l.head? = some 47) :
    l.splitOn 47 = [] :: (behindSlash l).splitOn 47 := by
  unfold behindSlash
  rw [if_pos h]
  cases l with
  | nil => cases h
  | cons c l =>
    obtain rfl : c = 47 := Option.some_inj.mp h
    have hnil : (47 : UInt8) ∉ [] := List.not_mem_nil
    exact List.splitOn_append_cons_self_of_not_mem hnil l

theorem tokenPieces_last (hl : 47 ∉ behindSlash l) :
    tokenPieces (l.splitOn 47) = [behindSlash l] := by
  by_cases h : l.head? = some 47
  · rw [splitOn_slash h, List.splitOn_eq_singleton hl]
    rfl
  · unfold behindSlash at hl ⊢
    rw [if_neg h] at hl ⊢
    rw [List.splitOn_eq_singleton hl]
    rfl

theorem tokenPieces_word (hl : behindSlash l = w ++ 47 :: rest) (hw : 47 ∉ w) :
    tokenPieces (l.splitOn 47) = w :: tokenPieces (rest.splitOn 47) := by
  have hsplit : (w ++ 47 :: rest).splitOn 47 = w :: rest.splitOn 47 :=
    List.splitOn_append_cons_self_of_not_mem hw rest
  by_cases h : l.head? = some 47
  · rw [splitOn_slash h, hl, hsplit]
    rfl
  · unfold behindSlash at hl
    rw [if_neg h] at hl
    rw [hl, hsplit]
    -- What does not begin with a slash begins with a piece that is not empty.
    have hne : w.isEmpty = false := by
      cases w with
      | nil => exact absurd (by rw [hl]; rfl) h
      | cons c w => rfl
    cases hrest : rest.splitOn 47 with
    | nil => exact absurd hrest (List.splitOn_ne_nil 47 rest)
    | cons q ps => rw [tokenPieces, hne, if_neg Bool.false_ne_true]

/-- A string goes on behind its first word, or it has one word. -/
theorem word_cases (l : List UInt8) :
    47 ∉ behindSlash l ∨ ∃ w rest, behindSlash l = w ++ 47 :: rest ∧ 47 ∉ w ∧
      rest.length < l.length := by
  by_cases h : 47 ∈ behindSlash l
  · obtain ⟨w, rest, hl, hw⟩ := List.eq_append_cons_of_mem h
    refine Or.inr ⟨w, rest, hl, hw, ?_⟩
    have hle : (behindSlash l).length ≤ l.length := by
      unfold behindSlash
      split_ifs <;> simp
    rw [hl, List.length_append, List.length_cons] at hle
    omega
  · exact Or.inl h

/-- **The tokens of a string.** -/
theorem StringAt.strtokRun {b : Bytes} {cap s n : Nat} {input last : Option Nat}
    (h : StringAt b cap s l) (hs : (input <|> last) = some s) (hn : l.length + 2 ≤ n) :
    strtokRun cap n b input last = .ok (tokenPieces (l.splitOn 47)) := by
  induction n generalizing b input last s l with
  | zero => omega
  | succ n ih =>
    unfold MbBootTv.strtokRun
    have hstart := h.behindSlash
    rcases word_cases l with hlast | ⟨w, rest, hl, hw, hlen⟩
    · obtain ⟨n, rfl⟩ : ∃ n', n = n' + 1 := ⟨n - 1, by omega⟩
      simp only [h.strtok_last hs hlast, ok_bind, hstart.strlen, tokenPieces_last hlast]
      have hdone : MbBootTv.strtokRun cap (n + 1) b none none = .ok [] := rfl
      rw [hdone, ok_bind, hstart.bytes]
      rfl
    · rw [hl] at hstart
      obtain ⟨hword, hrest⟩ := hstart.cut
      have hlast {q : Nat} : (none <|> some q) = some q := rfl
      have hnext := ih hrest hlast (by omega)
      simp only [h.strtok_word hs hl hw rfl, ok_bind, hword.strlen, tokenPieces_word hl hw, hnext,
        hword.bytes]
      rfl

end Pieces

/-! ## Where the tokens are the components -/

section Condition

variable {l w m rest : List UInt8}

theorem filter_tokenPieces (ps : List Name) :
    ((tokenPieces ps).filter fun p => !p.isEmpty) = ps.filter fun p => !p.isEmpty := by
  induction ps using tokenPieces.induct with
  | case1 => rfl
  | case2 p => rfl
  | case3 p q ps hp ih => simp [tokenPieces, hp, List.filter_cons, ih]
  | case4 p q ps hp ih =>
    rw [tokenPieces, if_neg hp, List.filter_cons, ih, List.filter_cons (x := p)]

/-- The tokens are the components exactly when none is empty. -/
theorem tokenPieces_eq_iff :
    tokenPieces (l.splitOn 47) = components l ↔ [] ∉ tokenPieces (l.splitOn 47) := by
  rw [components, ← filter_tokenPieces, eq_comm, List.filter_eq_self]
  constructor
  · intro h hmem
    simpa using h [] hmem
  · intro h p hp
    cases p with
    | nil => exact absurd hp h
    | cons c p => rfl

/-- Three slashes do not begin in a word. -/
theorem slashes_word_append (hw : 47 ∉ w) :
    [47, 47, 47] <:+: w ++ m ↔ [47, 47, 47] <:+: m := by
  induction w with
  | nil => rfl
  | cons c w ih =>
    obtain ⟨hc, hw⟩ := not_or.mp (List.mem_cons.not.mp hw)
    rw [List.cons_append, List.infix_cons_iff, ih hw, or_iff_right]
    exact fun hpre => hc (List.cons_prefix_cons.mp hpre).1

/-- Nor in front of one. -/
theorem slashes_cons_word (hw : 47 ∉ w) (hne : w ≠ []) :
    [47, 47, 47] <:+: 47 :: (w ++ m) ↔ [47, 47, 47] <:+: m := by
  cases w with
  | nil => exact absurd rfl hne
  | cons c w =>
    rw [List.infix_cons_iff, slashes_word_append hw, or_iff_right]
    intro hpre
    have hsecond := (List.cons_prefix_cons.mp hpre).2
    exact hw (List.mem_cons.mpr (Or.inl (List.cons_prefix_cons.mp hsecond).1))

theorem tokenizable_iff_behindSlash : Tokenizable l ↔
    (47 :: behindSlash l).getLast? ≠ some 47 ∧ (behindSlash l).head? ≠ some 47 ∧
      ¬ [47, 47, 47] <:+: 47 :: behindSlash l := by
  have hfields : Tokenizable l ↔
      (47 :: l).getLast? ≠ some 47 ∧ ¬ [47, 47, 47] <:+: 47 :: l :=
    ⟨fun h => ⟨h.ending, h.slashes⟩, fun h => ⟨h.1, h.2⟩⟩
  rw [hfields]
  unfold behindSlash
  by_cases h : l.head? = some 47
  · rw [if_pos h]
    cases l with
    | nil => cases h
    | cons c l =>
      obtain rfl : c = 47 := Option.some_inj.mp h
      have hhead : [47, 47, 47] <+: 47 :: 47 :: l ↔ l.head? = some 47 := by
        cases l with
        | nil => simp
        | cons d l => simp [List.cons_prefix_cons, eq_comm]
      rw [List.infix_cons_iff, hhead, not_or, List.tail_cons, List.getLast?_cons_cons]
  · rw [if_neg h]
    exact and_congr_right fun _ => (and_iff_right h).symm

/-- **No token is empty** under a condition on the string. -/
theorem tokenPieces_ne_nil_iff : [] ∉ tokenPieces (l.splitOn 47) ↔ Tokenizable l := by
  induction hn : l.length using Nat.strong_induction_on generalizing l with
  | _ n ih =>
    rw [tokenizable_iff_behindSlash]
    rcases word_cases l with hlast | ⟨w, rest, hl, hw, hlen⟩
    · rw [tokenPieces_last hlast]
      generalize behindSlash l = l' at hlast
      cases l' with
      | nil => simp
      | cons c l' =>
        have hslashes : ¬ [47, 47, 47] <:+: 47 :: (c :: l' ++ []) := by
          rw [slashes_cons_word hlast (List.cons_ne_nil c l')]
          simp
        rw [List.append_nil] at hslashes
        refine iff_of_true (by simp) ⟨fun hend => ?_, fun hhead => ?_, hslashes⟩
        · rw [List.getLast?_cons_cons] at hend
          exact hlast (List.mem_of_getLast? hend)
        · exact hlast (List.mem_of_mem_head? hhead)
    · rw [tokenPieces_word hl hw, hl, List.mem_cons, not_or, ih rest.length (hn ▸ hlen) rfl]
      cases w with
      | nil => simp
      | cons c w =>
        have hhead : c ≠ 47 := fun hc => hw (by simp [hc])
        have hend : (47 :: (c :: w ++ 47 :: rest)).getLast? = (47 :: rest).getLast? := by
          simp [List.getLast?_cons, List.getLast?_append]
        rw [hend, slashes_cons_word hw (List.cons_ne_nil c w)]
        simp only [List.cons_append, List.head?_cons, ne_eq, Option.some_inj, hhead,
          not_false_eq_true, true_and, reduceCtorEq]
        exact ⟨fun h => ⟨h.ending, h.slashes⟩, fun h => ⟨h.1, h.2⟩⟩

end Condition

/-! ## A string that stays where it is -/

/-- A string that a walk from the root does not write over, and that is in none of the directories
it reads: not in `blkbuf`, and in an inode only when that is in use and not the root. -/
def Region.Steady (r : Region) (t : Table) : Prop :=
  match r with
  | .name => True
  | .fullname => True
  | .blkbuf => False
  | .inode i => t.Used i ∧ t.rootInode ≠ some i

/-- A string that `ext2_iget` does not write over. -/
def Region.Held (r : Region) (t : Table) : Prop :=
  match r with
  | .name => True
  | .fullname => True
  | .blkbuf => False
  | .inode i => t.Used i

/-- The entry of slot `i` with other bytes for its inode. -/
def Table.putInode (t : Table) (i : Slot) (mem : Bytes) : Table :=
  t.set i { t.inodeTable i with inode := mem }

section Table

variable {t : Table} {i j : Slot} {mem : Bytes} {e : InodeEntry}

theorem Table.set_putInode (h : j ≠ i) :
    (t.putInode i mem).set j e = (t.set j e).putInode i mem := by
  unfold putInode
  rw [set_of_ne h.symm]
  unfold set
  rw [Function.update_comm h.symm]

theorem Table.putInode_of_ne (h : j ≠ i) : (t.putInode i mem).inodeTable j = t.inodeTable j :=
  set_of_ne h

theorem Table.firstFree_putInode : (t.putInode i mem).firstFree = t.firstFree := by
  unfold firstFree
  refine congrArg (fun p => List.find? p _) (funext fun j => ?_)
  by_cases hj : j = i
  · subst hj
    unfold putInode
    rw [set_same]
  · rw [putInode_of_ne hj]

theorem Table.leave_putInode (h : i ≠ j) :
    (t.putInode i mem).leave j = (t.leave j).putInode i mem := by
  unfold leave
  by_cases hr : t.rootInode = some j
  · rw [if_pos hr, if_pos (show (t.putInode i mem).rootInode = some j from hr)]
  · rw [if_neg hr, if_neg (show ¬ (t.putInode i mem).rootInode = some j from hr)]
    unfold ext2Iput
    rw [putInode_of_ne h.symm, set_putInode h.symm]

/-- `ext2_iget` does not look at the inodes that are in use. -/
theorem ext2Iget_putInode {env : Env} {m : Mount} {b : Bufs} {ino : UInt32} (h : t.Used i) :
    ext2Iget env m b (t.putInode i mem) ino =
      (ext2Iget env m b t ino).map fun x => (x.1, x.2.1, x.2.2.putInode i mem) := by
  unfold ext2Iget
  rw [Table.firstFree_putInode]
  cases hfree : t.firstFree with
  | none => rfl
  | some j =>
    have hne : j ≠ i := by
      rintro rfl
      exact Table.not_used_of_firstFree hfree h
    dsimp only
    split_ifs
    · rfl
    · rfl
    · cases hread : readBytes env b (m.inodeOffset ((ino - 1) / m.sb.sInodesPerGroup).toNat ino)
          inodeSize with
      | mk data b' =>
        cases data with
        | none => rfl
        | some data =>
          dsimp only [Except.map]
          rw [Table.set_putInode hne, Table.putInode_of_ne hne]

end Table

section Steady

variable {env : Env} {r : Region} {s s' : St} {mem mem' : Bytes} {dir : Slot}

theorem St.setText_setText : (s.setText r mem).setText r mem' = s.setText r mem' := by
  cases r with
  | name => rfl
  | fullname => rfl
  | blkbuf => rfl
  | inode i =>
    have hset : (s.table.putInode i mem).putInode i mem' = s.table.putInode i mem' := by
      unfold Table.putInode Table.set
      simp
    exact congrArg (fun t => { s with table := t }) hset

/-- A string that is not in slot `dir` is in the same place when that is given back. -/
theorem St.setText_leave (h : r.Apart s.table.Used dir) (b : Bufs) :
    ({ s.setText r mem with bufs := b, table := (s.setText r mem).table.leave dir } : St) =
      ({ s with bufs := b, table := s.table.leave dir } : St).setText r mem := by
  cases r with
  | name => rfl
  | fullname => rfl
  | blkbuf => exact h.elim
  | inode i =>
    exact congrArg (fun t => { s with bufs := b, table := t }) (Table.leave_putInode h.2)

theorem St.setText_bufs (h : r.Apart s.table.Used dir) : (s.setText r mem).bufs = s.bufs := by
  cases r with
  | blkbuf => exact h.elim
  | name => rfl
  | fullname => rfl
  | inode i => rfl

/-- `ext2_iget` does not look at the string. -/
theorem St.iget_setText (h : r.Held s.table) (ino : UInt32) :
    (s.setText r mem).iget env ino =
      (s.iget env ino).map fun x => (x.1, x.2.setText r mem) := by
  cases r with
  | blkbuf => exact h.elim
  | name =>
    unfold St.iget
    cases hget : ext2Iget env s.mount s.bufs s.table ino <;> simp [St.setText, hget, Except.map]
  | fullname =>
    unfold St.iget
    cases hget : ext2Iget env s.mount s.bufs s.table ino <;> simp [St.setText, hget, Except.map]
  | inode i =>
    unfold St.iget
    refine (congrArg (· >>= _) (ext2Iget_putInode h)).trans (map_bind fun a _ => ?_)
    rfl

/-- An inode is loaded, while the string stays where it is. -/
theorem Region.Held.iget {ino : UInt32} {i : Slot} (h : r.Held s.table)
    (hget : s.iget env ino = .ok (some i, s')) :
    s'.text r = s.text r ∧ s'.cap r = s.cap r ∧ r.Apart s'.table.Used i := by
  have hspec := St.iget_spec hget
  obtain ⟨j, ip, hj, hfree, -, ht⟩ := hspec.table.resolve_left fun h => nomatch h.1
  obtain rfl := Option.some_inj.mp hj
  cases r with
  | blkbuf => exact h.elim
  | name => exact ⟨hspec.name, hspec.nameCap, trivial⟩
  | fullname => exact ⟨hspec.fullname, rfl, trivial⟩
  | inode k =>
    have hki : k ≠ i := by
      rintro rfl
      exact hfree h
    refine ⟨?_, rfl, ?_, hki⟩
    · show (s'.table.inodeTable k).inode = (s.table.inodeTable k).inode
      rw [ht, Table.set_of_ne hki]
    · unfold Table.Used
      rw [ht, Table.set_of_ne hki]
      exact h

/-- So it does when a directory is given back. -/
theorem Region.Apart.leave (h : r.Apart s.table.Used dir) (b : Bufs) :
    ({ s with bufs := b, table := s.table.leave dir } : St).text r = s.text r ∧
      r.Held (s.table.leave dir) := by
  cases r with
  | blkbuf => exact h.elim
  | name => exact ⟨rfl, trivial⟩
  | fullname => exact ⟨rfl, trivial⟩
  | inode i =>
    unfold Table.leave
    split_ifs
    · exact ⟨rfl, h.1⟩
    · exact ⟨congrArg InodeEntry.inode (Table.iput_of_ne h.2), Table.used_iput.mpr h⟩

theorem Region.Apart.setText (h : r.Apart s.table.Used dir) :
    r.Apart (s.setText r mem).table.Used dir := by
  cases r with
  | blkbuf => exact h.elim
  | name => trivial
  | fullname => trivial
  | inode i => exact ⟨St.setText_used.mpr h.1, h.2⟩

end Steady

/-! ## The same tokens -/

/-- The token in hand and those behind it are `ts`. -/
inductive Toks (cap : Nat) : Bytes → Option Nat → Option Nat → List Name → Prop
  | done {b : Bytes} {last : Option Nat} : Toks cap b none last []
  | token {b mem : Bytes} {p : Nat} {last tok' last' : Option Nat} {c : Name} {cs : List Name}
      (hlen : strlen b cap p = .ok c.length) (htext : b.slice p c.length = c)
      (hnext : strtokSimple b cap none last 47 = .ok (tok', last', mem))
      (rest : Toks cap mem tok' last' cs) : Toks cap b (some p) last (c :: cs)

/-- The calls one after another. -/
theorem toks_of_strtokRun {cap n : Nat} {b : Bytes} {input last : Option Nat} {ts : List Name}
    (h : strtokRun cap n b input last = .ok ts) :
    ∃ tok last' mem, strtokSimple b cap input last 47 = .ok (tok, last', mem) ∧
      Toks cap mem tok last' ts := by
  induction n generalizing b input last ts with
  | zero => cases h
  | succ n ih =>
    unfold strtokRun at h
    obtain ⟨⟨tok, last', mem⟩, htok, h⟩ := bind_eq_ok.mp h
    refine ⟨tok, last', mem, htok, ?_⟩
    cases tok with
    | none =>
      obtain rfl := Except.ok.inj h
      exact .done
    | some t =>
      obtain ⟨len, hlen, h⟩ := bind_eq_ok.mp h
      obtain ⟨ts', hrun, h⟩ := bind_eq_ok.mp h
      obtain rfl := Except.ok.inj h
      obtain ⟨tok', last'', mem', hnext, hrest⟩ := ih hrun
      refine .token ?_ ?_ hnext hrest
      · rw [Bytes.slice_length]
        exact hlen
      · rw [Bytes.slice_length]

/-- A string of `len` bytes is in the array, with its NUL. -/
theorem strlen_inside {b : Bytes} {cap s len : Nat} (h : strlen b cap s = .ok len) :
    s + len < cap := by
  unfold strlen at h
  obtain ⟨e, hscan, h⟩ := bind_eq_ok.mp h
  obtain ⟨hse, hlt, -, -⟩ := scan_eq_ok_iff.mp hscan
  have hlen : e - s = len := Except.ok.inj h
  omega

section Search

variable {env : Env} {m : Mount} {ip : Inode} {b₁ b₂ : Bytes} {cap p₁ p₂ : Nat} {c : Name}

/-- The component in two places. -/
structure SameComponent (b₁ b₂ : Bytes) (cap p₁ p₂ : Nat) (c : Name) : Prop where
  inside : p₁ + c.length ≤ cap ∧ p₂ + c.length ≤ cap
  text : b₁.slice p₁ c.length = b₂.slice p₂ c.length

theorem strncmp_congr_left {s s' t : Nat → Except Fault UInt8} {i n : Nat}
    (h : ∀ j, i ≤ j → j < i + n → s j = s' j) : strncmp s t i n = strncmp s' t i n := by
  induction n generalizing i with
  | zero => rfl
  | succ n ih =>
    unfold strncmp
    rw [h i le_rfl (by omega), ih fun j hij hj => h j (by omega) (by omega)]

/-- The comparison sees the component only. -/
theorem SameComponent.nameMatches (h : SameComponent b₁ b₂ cap p₁ p₂ c) (blk : Bytes) (dp : Nat) :
    MbBootTv.nameMatches (fun _ => b₁) cap p₁ c.length blk dp =
      MbBootTv.nameMatches (fun _ => b₂) cap p₂ c.length blk dp := by
  have hbytes := Bytes.slice_eq_iff.mp h.text
  obtain ⟨hin₁, hin₂⟩ := h.inside
  unfold MbBootTv.nameMatches
  rw [strncmp_congr_left fun j _ hj => ?_]
  unfold loadByte
  rw [if_pos (by omega), if_pos (by omega)]
  exact congrArg Except.ok (hbytes j (by omega))

theorem SameComponent.nameiSearch (h : SameComponent b₁ b₂ cap p₁ p₂ c) (fuel : Nat)
    (rewind : Bool) (b : Bufs) :
    nameiSearch env m ip (fun _ => b₁) cap p₁ c.length fuel rewind b =
      MbBootTv.nameiSearch env m ip (fun _ => b₂) cap p₂ c.length fuel rewind b := by
  induction fuel generalizing rewind b with
  | zero => rfl
  | succ fuel ih =>
    unfold MbBootTv.nameiSearch
    simp only [h.nameMatches, ih]

end Search

/-- The same result, and states that differ in the string only. -/
def SameWalk (r : Region) (x y : Option Slot × St) : Prop :=
  y.1 = x.1 ∧ ∃ mem, y.2 = x.2.setText r mem

/-- **Two walks with the same tokens** go the same way. -/
theorem nameiLoop_sameTokens {env : Env} {fuel n : Nat} {r : Region} {dir : Slot}
    {tok last tok' last' : Option Nat} {s : St} {mem : Bytes} {ts : List Name}
    (h : Toks (s.cap r) (s.text r) tok last ts) (h' : Toks (s.cap r) mem tok' last' ts)
    (hr : r.Apart s.table.Used dir) :
    Paired (SameWalk r) (nameiLoop env fuel r n dir tok last s)
      (nameiLoop env fuel r n dir tok' last' (s.setText r mem)) := by
  induction n generalizing dir tok last tok' last' s mem ts with
  | zero =>
    cases h with
    | done =>
      cases h'
      exact ⟨rfl, mem, rfl⟩
    | token _ _ _ _ =>
      cases h'
      rfl
  | succ n ih =>
    cases h with
    | done =>
      cases h'
      exact ⟨rfl, mem, rfl⟩
    | @token _ mem₁ p _ tok₁ last₁ c cs hlen htext hnext hrest =>
      cases h' with
      | @token _ mem₂ p' _ tok₂ last₂ _ _ hlen' htext' hnext' hrest' =>
        have hsame : SameComponent (s.text r) mem (s.cap r) p p' c :=
          ⟨⟨(strlen_inside hlen).le, (strlen_inside hlen').le⟩, htext.trans htext'.symm⟩
        have hne : r ≠ .inode dir := by
          rintro rfl
          exact hr.2 rfl
        rw [nameiLoop_some, nameiLoop_some, St.text_setText, St.cap_setText, hlen, hlen', ok_bind,
          ok_bind, St.setText_entry hne, St.setText_bufs hr, hr.textOf, hr.textOf,
          St.text_setText, St.setText_mount, hsame.nameiSearch]
        refine Paired.bind (Paired.refl (R := Eq) fun _ _ => rfl) ?_
        rintro ⟨nextIno, b⟩ _ - rfl
        have hleave := @St.setText_leave r s mem dir hr b
        dsimp only at hleave ⊢
        rw [St.setText_mount] at hleave
        rw [hleave]
        by_cases hneg : sneg nextIno = true
        · rw [if_pos hneg, if_pos hneg]
          exact ⟨rfl, mem, rfl⟩
        obtain ⟨htext₀, hheld⟩ := hr.leave b
        rw [if_neg hneg, if_neg hneg, St.iget_setText hheld]
        -- The inode is the same, and the string is where it was.
        refine Paired.bind (Paired.of_map (R := fun x y => y = (x.1, x.2.setText r mem))
          fun _ _ => rfl) ?_
        rintro ⟨ip, s₁⟩ _ hget rfl
        cases ip with
        | none => exact ⟨rfl, mem, rfl⟩
        | some i =>
          obtain ⟨htext₁, hcap₁, hr₁⟩ := hheld.iget hget
          rw [htext₀] at htext₁
          have hcap₁ : s₁.cap r = s.cap r := hcap₁.trans (by cases r <;> rfl)
          dsimp only
          rw [St.text_setText, St.cap_setText, htext₁, hcap₁, hnext, hnext', ok_bind, ok_bind,
            St.setText_setText]
          have hback : s₁.setText r mem₂ = (s₁.setText r mem₁).setText r mem₂ :=
            St.setText_setText.symm
          dsimp only
          rw [hback]
          have htoks : Toks ((s₁.setText r mem₁).cap r) ((s₁.setText r mem₁).text r) tok₁ last₁
              cs := by
            rw [St.text_setText, St.cap_setText, hcap₁]
            exact hrest
          have htoks' : Toks ((s₁.setText r mem₁).cap r) mem₂ tok₂ last₂ cs := by
            rw [St.cap_setText, hcap₁]
            exact hrest'
          exact ih htoks htoks' hr₁.setText

/-- The root, loaded or not yet. -/
theorem loadRoot_sameText {env : Env} {r : Region} {s : St} (mem : Bytes)
    (hr : r.Steady s.table) :
    Paired (fun s₁ s₂ => s₂ = s₁.setText r mem ∧ ∀ root, s₁.table.rootInode = some root →
      s₁.text r = s.text r ∧ s₁.cap r = s.cap r ∧ r.Apart s₁.table.Used root)
      (loadRoot env s) (loadRoot env (s.setText r mem)) := by
  unfold loadRoot
  rw [St.setText_rootInode]
  cases hroot : s.table.rootInode with
  | some root =>
    refine ⟨rfl, fun i hi => ⟨rfl, rfl, ?_⟩⟩
    cases r with
    | blkbuf => exact hr.elim
    | name => trivial
    | fullname => trivial
    | inode k =>
      refine ⟨hr.1, ?_⟩
      rintro rfl
      exact hr.2 hi
  | none =>
    have hheld : r.Held s.table := by
      cases r with
      | blkbuf => exact hr.elim
      | name => trivial
      | fullname => trivial
      | inode k => exact hr.1
    dsimp only
    rw [St.iget_setText hheld]
    refine Paired.bind (Paired.of_map (R := fun x y => y = (x.1, x.2.setText r mem))
      fun _ _ => rfl) ?_
    rintro ⟨ip, s₁⟩ _ hget rfl
    refine ⟨by cases r <;> rfl, ?_⟩
    rintro root rfl
    obtain ⟨htext, hcap, happart⟩ := hheld.iget hget
    have hset : ∀ ip, ({ s₁ with table := { s₁.table with rootInode := ip } } : St).text r =
        s₁.text r ∧ ({ s₁ with table := { s₁.table with rootInode := ip } } : St).cap r =
        s₁.cap r := fun ip => by cases r <;> exact ⟨rfl, rfl⟩
    obtain ⟨htext', hcap'⟩ := hset (some root)
    exact ⟨htext'.trans htext, hcap'.trans hcap, happart⟩

/-- **Strings with the same tokens** are the same to `ext2_namei`. -/
theorem ext2Namei_sameTokens {env : Env} {fuel : Nat} {s : St} {r : Region} {p p' : Nat}
    {mem : Bytes} {l l' : List UInt8} (hr : r.Steady s.table)
    (hl : StringAt (s.text r) (s.cap r) p l) (hl' : StringAt mem (s.cap r) p' l')
    (htok : tokenPieces (l.splitOn 47) = tokenPieces (l'.splitOn 47)) :
    Paired (SameWalk r) (ext2Namei env fuel s r p)
      (ext2Namei env fuel (s.setText r mem) r p') := by
  unfold ext2Namei
  refine Paired.bind (loadRoot_sameText mem hr) ?_
  rintro s₁ _ - ⟨rfl, hroot⟩
  rw [St.setText_rootInode]
  cases hr₁ : s₁.table.rootInode with
  | none => exact ⟨rfl, mem, rfl⟩
  | some root =>
    obtain ⟨htext, hcap, happart⟩ := hroot root hr₁
    have hsome {q : Nat} : (some q <|> none) = some q := rfl
    have hrun := hl.strtokRun hsome le_rfl
    have hrun' := hl'.strtokRun hsome le_rfl
    rw [← htok] at hrun'
    obtain ⟨tok, last, mem₁, hnext, htoks⟩ := toks_of_strtokRun hrun
    obtain ⟨tok', last', mem₂, hnext', htoks'⟩ := toks_of_strtokRun hrun'
    dsimp only
    rw [St.text_setText, St.cap_setText, htext, hcap, hnext, hnext', ok_bind, ok_bind,
      St.setText_setText]
    have hback : s₁.setText r mem₂ = (s₁.setText r mem₁).setText r mem₂ :=
      St.setText_setText.symm
    dsimp only
    rw [hback]
    have hin : Toks ((s₁.setText r mem₁).cap r) ((s₁.setText r mem₁).text r) tok last
        (tokenPieces (l.splitOn 47)) := by
      rw [St.text_setText, St.cap_setText, hcap]
      exact htoks
    have hin' : Toks ((s₁.setText r mem₁).cap r) mem₂ tok' last' (tokenPieces (l.splitOn 47)) := by
      rw [St.cap_setText, hcap]
      exact htoks'
    exact nameiLoop_sameTokens hin hin' happart.setText

/-! ## The claim of the callers -/

/-- The calls of `strtok_simple` on the string `l` return its components. -/
def YieldsComponents (l : List UInt8) : Prop :=
  ∀ (b : Bytes) (cap p : Nat) (last : Option Nat) (n : Nat), StringAt b cap p l →
    l.length + 2 ≤ n → strtokRun cap n b (some p) last = .ok (components l)

/-- To `ext2_namei`, the string `l` is the string `l'`, in the same array. -/
def WalksAlike (l l' : List UInt8) : Prop :=
  ∀ (env : Env) (fuel : Nat) (s : St) (r : Region) (p p' : Nat) (mem : Bytes),
    r.Steady s.table → StringAt (s.text r) (s.cap r) p l → StringAt mem (s.cap r) p' l' →
      Paired (SameWalk r) (ext2Namei env fuel s r p) (ext2Namei env fuel (s.setText r mem) r p')

/-- The path with the components of `l`, and one slash between any two. -/
def normalised (l : List UInt8) : List UInt8 := [47].intercalate (components l)

/-- A piece between slashes has no slash. -/
theorem not_mem_splitOn {l : List UInt8} {c : Name} (hc : c ∈ l.splitOn 47) : 47 ∉ c := by
  induction hn : l.length using Nat.strong_induction_on generalizing l with
  | _ n ih =>
    by_cases h : 47 ∈ l
    · obtain ⟨w, rest, rfl, hw⟩ := List.eq_append_cons_of_mem h
      rw [List.splitOn_append_cons_self_of_not_mem hw rest] at hc
      rcases List.mem_cons.mp hc with rfl | hc
      · exact hw
      · refine ih rest.length ?_ hc rfl
        rw [← hn]
        simp only [List.length_append, List.length_cons]
        omega
    · rw [List.splitOn_eq_singleton h, List.mem_singleton] at hc
      rwa [hc]

/-- Every string has a token. -/
theorem tokenPieces_splitOn_ne_nil {l : List UInt8} : tokenPieces (l.splitOn 47) ≠ [] := by
  rcases word_cases l with hlast | ⟨w, rest, hl, hw, -⟩
  · rw [tokenPieces_last hlast]
    exact List.cons_ne_nil _ _
  · rw [tokenPieces_word hl hw]
    exact List.cons_ne_nil _ _

theorem tokenPieces_of_ne_nil {ps : List Name} (h : [] ∉ ps) : tokenPieces ps = ps := by
  induction ps using tokenPieces.induct with
  | case1 => rfl
  | case2 p => rfl
  | case3 p q ps hp ih =>
    obtain rfl := List.isEmpty_iff.mp hp
    exact absurd List.mem_cons_self h
  | case4 p q ps hp ih =>
    rw [tokenPieces, if_neg hp, ih fun hmem => h (List.mem_cons_of_mem p hmem)]

theorem components_spec {l : List UInt8} {c : Name} (hc : c ∈ components l) :
    c ≠ [] ∧ 47 ∉ c := by
  obtain ⟨hpiece, hne⟩ := List.mem_filter.mp hc
  refine ⟨?_, not_mem_splitOn hpiece⟩
  rintro rfl
  exact Bool.false_ne_true hne

/-- The tokens of the normalised path. -/
theorem tokenPieces_normalised {l : List UInt8} (h : components l ≠ []) :
    tokenPieces ((normalised l).splitOn 47) = components l := by
  unfold normalised
  rw [List.splitOn_intercalate 47 (fun c hc => (components_spec hc).2) h]
  exact tokenPieces_of_ne_nil fun hmem => (components_spec hmem).1 rfl

/-- **The tokens are the components** exactly of the strings that do not end in a slash and have no
three in a row, counting one more slash in front of them. To `ext2_namei` they are the normalised
path. -/
theorem walksComponents_iff (l : List UInt8) (h0 : 0 ∉ l) :
    (YieldsComponents l ∧ WalksAlike l (normalised l)) ↔ Tokenizable l := by
  rw [← tokenPieces_ne_nil_iff, ← tokenPieces_eq_iff]
  have hsome {q : Nat} {last : Option Nat} : (some q <|> last) = some q := rfl
  constructor
  · rintro ⟨hyields, -⟩
    have hcalls := hyields _ _ 0 none _ (stringAt_getD h0) le_rfl
    rw [(stringAt_getD h0).strtokRun hsome le_rfl] at hcalls
    exact Except.ok.inj hcalls
  · intro htok
    refine ⟨fun b cap p last n hl hn => ?_, fun env fuel s r p p' mem hr hl hl' => ?_⟩
    · rw [hl.strtokRun hsome hn, htok]
    · have hne : components l ≠ [] := by
        rw [← htok]
        exact tokenPieces_splitOn_ne_nil
      exact ext2Namei_sameTokens hr hl hl' (htok.trans (tokenPieces_normalised hne).symm)

/-- One slash in front and two between names are stepped over. -/
theorem walksComponents_iff_twoSlashes :
    YieldsComponents (ascii "/boot//linux") ∧
      WalksAlike (ascii "/boot//linux") (normalised (ascii "/boot//linux")) :=
  (walksComponents_iff (ascii "/boot//linux") (by decide)).mpr ⟨by decide, by decide⟩

/-- A slash at the end makes an empty token. -/
theorem not_walksComponents_endsInSlash :
    components (ascii "boot/") = [ascii "boot"] ∧
    strtokRun 6 7 (fun i => (ascii "boot/").getD i 0) (some 0) none =
      .ok [ascii "boot", []] ∧
    ¬ (YieldsComponents (ascii "boot/") ∧
      WalksAlike (ascii "boot/") (normalised (ascii "boot/"))) := by
  refine ⟨by decide, by decide, ?_⟩
  rintro ⟨hyields, -⟩
  have hcalls := hyields _ _ 0 none _ (stringAt_getD (by decide)) le_rfl
  exact absurd hcalls (by decide)

end MbBootTv
